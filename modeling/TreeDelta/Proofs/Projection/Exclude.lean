import TreeDelta.Proofs.Diff.Filter
import TreeDelta.Proofs.Projection.Retain
import TreeDelta.Proofs.Tree.Order

/-!
# Leaving data out of a diff

Data can be left out of a diff in two ways: by diffing projections that exclude it, and by an ignore
filter. A projection deletes places from a copy and may leave holes and shorter lists behind; the
filter stops the walk over the tree itself. Both find the same leaves in the same order
(`Diff.leaves_excludeAll`): a copy shows at the places that no pattern covers what the tree shows
there, holes are never leaves, and deletions keep the order of the places. So the changesets are the
same (`Diff.changeTable_excluding`).

## Main results

* `Projection.map_excludes`: a projection that only excludes.
* `Diff.leaves_excludeAll`: the leaves of such a projection.
* `Diff.changeTable_excluding`: excluding and ignoring agree.
-/

namespace TreeDelta

open Value (Part missing)

/-! ### Projections that only exclude -/

namespace Projection

/-- A projection without includes deletes what its patterns select, and keeps the holes unless some
pattern allows gaps. -/
theorem map_excludes {v : Value} (json : v.Json) {patterns : List Pattern}
    (gapless : ∀ m ∈ patterns, m.allowsGaps = false) :
    map ⟨[], patterns⟩ v = .ok (excludeAll patterns v) := by
  have source : kept ⟨[], patterns⟩ v = .ok v := by
    cases patterns with
    | nil => rfl
    | cons m ms =>
        rw [kept_eq rfl (Value.clone_of_json json)]
        rfl
  have holes : allowsGaps ⟨[], patterns⟩ = false := by
    rw [allowsGaps, List.any_eq_false]
    simpa using gapless
  rw [map, source]
  show Except.ok (if allowsGaps ⟨[], patterns⟩ then _ else _) = _
  rw [holes]
  rfl

/-- Excluding some patterns keeps the order of the places that are left, as deleting a node does. -/
theorem places_excludeAll_sublist (patterns : List Pattern) (t : Value) :
    (excludeAll patterns t).places.Sublist t.places := by
  have deleted : ∀ (ns : List Node) (u : Value),
      (ns.foldl (fun t n => n.path.erase t) u).places.Sublist u.places := by
    intro ns u
    induction ns generalizing u with
    | nil => exact .refl _
    | cons n ns ih => exact (ih (n.path.erase u)).trans (n.path.places_erase_sublist u)
  induction patterns generalizing t with
  | nil => exact .refl _
  | cons m ms ih => exact (ih (excludePattern t m)).trans (deleted (m.search t) t)

end Projection

namespace Diff

/-! ### What parts of a tree show -/

/-- What a path shows as a leaf of a tree is what the value there shows. The value is read with
`missing` as the default, so nothing is asked about whether the path resolves. -/
theorem leafAt_iff_get {b : Bool} {tree : Value} {p : Path} {x : Content} :
    LeafAt b tree p x ↔
      (p.get tree missing).isMissing = false ∧ shown? b (p.get tree missing) = some x := by
  rw [leafAt_iff]
  constructor
  · rintro ⟨v, hv, there, shows⟩
    rw [Path.get_of_find? hv]
    exact ⟨there, shows⟩
  · rintro ⟨there, shows⟩
    obtain ⟨v, hv, -⟩ := Path.isMissing_get_iff.mp there
    rw [Path.get_of_find? hv] at there shows
    exact ⟨v, hv, there, shows⟩

/-- Values with the same root show the same: a scalar shows itself, and a container its kind. -/
theorem shown?_of_sameRoot {v w : Value} (h : Value.SameRoot v w) (b : Bool) :
    shown? b w = shown? b v := by
  cases hk : v.kind? with
  | none => rw [h.scalar hk]
  | some k =>
      have container : ∀ u : Value, u.kind? = some k → u.isPrimitive = false := by
        intro u hu
        cases u <;> simp_all [Value.kind?, Value.isPrimitive]
      rw [shown?, shown?, container v hk, container w (h.kind.trans hk), h.kind]
      rfl

/-- **A part of a tree shows what the tree shows** at the kept places, and nothing elsewhere. -/
theorem leafAt_part {keep : Path → Prop} {v t : Value} (h : Part keep v t) {b : Bool} {p : Path}
    {x : Content} : LeafAt b t p x ↔ keep p ∧ LeafAt b v p x := by
  rw [leafAt_iff_get, leafAt_iff_get]
  by_cases hp : keep p
  · have same := h.kept p hp
    rw [same.isMissing, shown?_of_sameRoot same, and_iff_right hp]
  · rw [h.dropped p hp]
    simp [hp, Value.isMissing]

/-- A walk can go into every part of a JSON tree, holes included: they do not take part in a
comparison. -/
theorem every_isWalkable_of_part {keep : Path → Prop} {v t : Value} (h : Part keep v t)
    (hv : v = missing ∨ v.Json) : t.every isWalkable = true := by
  induction t using Value.stepInduction generalizing keep v with
  | step t ih =>
      by_cases hk : keep []
      · rcases hv with rfl | json
        · rw [(h.root hk).eq_missing]
          rfl
        · refine Value.every_iff.mpr ⟨?_, fun c w hs => ?_⟩
          · have root := h.root hk
            have node := (Value.every_iff.mp json).1
            cases t with
            | list items => rfl
            | dict entries =>
                refine List.all_eq_true.mpr fun e he => ?_
                obtain ⟨⟨k, hk⟩, -⟩ := h.neat.tidy.2 e he
                rw [hk]
                rfl
            | _ =>
                obtain rfl := root.scalar (root.kind.symm.trans rfl)
                first
                  | rfl
                  | exact absurd node (by simp [Value.isJsonNode])
          · have below := h.slot c
            rw [Value.slot_of_mem_steps h.neat.tidy.hasUniqueKeys hs] at below
            exact ih c w hs below (json.slot c)
      · rw [h.eq_missing hk]
        rfl

/-! ### Leaves in the order of a tree -/

/-- Leaves that stand in the order of some paths can be collected along these paths. A list of
leaves is thus given by its order and its members. -/
theorem filterMap_leafAt? {ps : List Path} {ls : List Leaf} (hps : ps.Nodup)
    (h : (ls.map Leaf.path).Sublist ps) : ps.filterMap (leafAt? · ls) = ls := by
  induction ps generalizing ls with
  | nil =>
      obtain rfl : ls = [] := List.map_eq_nil_iff.mp (List.sublist_nil.mp h)
      rfl
  | cons p ps ih =>
      obtain ⟨fresh, nodup⟩ := List.nodup_cons.mp hps
      rw [List.filterMap_cons]
      rcases List.sublist_cons_iff.mp h with later | ⟨qs, hqs, later⟩
      · have none_there : leafAt? p ls = none :=
          leafAt?_eq_none_iff.mpr fun hp => fresh (later.subset hp)
        rw [none_there]
        exact ih nodup later
      · obtain ⟨leaf, rest, rfl, rfl, rfl⟩ := List.map_eq_cons_iff.mp hqs
        have here : leafAt? leaf.path (leaf :: rest) = some leaf := by simp [leafAt?]
        have others : ∀ q ∈ ps, leafAt? q (leaf :: rest) = leafAt? q rest := by
          intro q hq
          have apart : (leaf.path == q) = false :=
            beq_eq_false_iff_ne.mpr fun he => fresh (he ▸ hq)
          rw [leafAt?, List.find?_cons, apart, leafAt?]
        rw [here, List.filterMap_congr others, ih nodup later]

/-- Leaves that stand in the order of the same paths are the same lists when they are the same
leaves. -/
theorem eq_of_path_sublist {ps : List Path} {as bs : List Leaf} (hps : ps.Nodup)
    (ha : (as.map Leaf.path).Sublist ps) (hb : (bs.map Leaf.path).Sublist ps)
    (h : ∀ leaf, leaf ∈ as ↔ leaf ∈ bs) : as = bs := by
  have same : ∀ p ∈ ps, leafAt? p as = leafAt? p bs := by
    intro p _
    refine Option.ext fun leaf => ?_
    rw [leafAt?_eq_some_iff (hps.sublist ha), leafAt?_eq_some_iff (hps.sublist hb), h]
  rw [← filterMap_leafAt? hps ha, List.filterMap_congr same, filterMap_leafAt? hps hb]

/-- **The leaves of a tree without what some patterns select** are the leaves under the ignore
filter of these patterns, in the same order. Both are the leaves at the places that no pattern
covers. -/
theorem leaves_excludeAll {v : Value} (json : v.Json) (b : Bool) (patterns : List Pattern) :
    ∃ ls, leaves { includeContainers := b } (Projection.excludeAll patterns v) = .ok ls ∧
      leaves (Config.ignoring { includeContainers := b } patterns) v = .ok ls := by
  have part := Projection.excludeAll_part (Part.refl json.neat) patterns
  have whole := every_isWalkable_of_part (Part.refl json.neat) (.inr json)
  obtain ⟨ls, hls⟩ := exists_leaves { includeContainers := b } whole
  obtain ⟨left, hleft⟩ :=
    exists_leaves { includeContainers := b } (every_isWalkable_of_part part (.inr json))
  refine ⟨left, hleft, (leaves_filter patterns hls).trans (congrArg _ ?_)⟩
  have order : (left.map Leaf.path).Sublist v.places :=
    (leaves_sublist hleft).trans (Projection.places_excludeAll_sublist patterns v)
  refine eq_of_path_sublist (Value.nodup_places json.neat.wellKeyed)
    ((List.filter_sublist.map Leaf.path).trans (leaves_sublist hls)) order ?_
  rintro ⟨q, x⟩
  rw [List.mem_filter, mem_leaves_iff hls json.neat.wellKeyed,
    mem_leaves_iff hleft part.neat.wellKeyed, leafAt_part part, and_comm]
  simp [isIgnored]

/-! ### Excluding and ignoring -/

/-- **Excluding and ignoring agree**: the projections of two JSON trees that leave out what some
patterns select, none of which allows gaps, have the changeset that the trees have under the ignore
filter of these patterns, entry by entry. -/
theorem changeTable_excluding {before after : Value} (hb : before.Json) (ha : after.Json)
    {patterns : List Pattern} (gapless : ∀ m ∈ patterns, m.allowsGaps = false) (b : Bool) :
    ∃ old new table, Projection.map ⟨[], patterns⟩ before = .ok old ∧
      Projection.map ⟨[], patterns⟩ after = .ok new ∧
      changeTable { includeContainers := b } old new = .ok table ∧
      changeTable (Config.ignoring { includeContainers := b } patterns) before after =
        .ok table := by
  obtain ⟨old, hold, hold'⟩ := leaves_excludeAll hb b patterns
  obtain ⟨new, hnew, hnew'⟩ := leaves_excludeAll ha b patterns
  refine ⟨_, _, tableOf { includeContainers := b } old new, Projection.map_excludes hb gapless,
    Projection.map_excludes ha gapless, ?_, ?_⟩
  · rw [changeTable, hold, hnew]
    rfl
  · rw [changeTable, hold', hnew']
    rfl

/-- Numerals as properties leave a hole and cut off the end of a list, and a null is left out as a
whole. -/
theorem changeTable_excluding_numeral :
    let patterns : List Pattern :=
      [[.property "a", .union (.property "0") (.property "2") []], [.property "b"]]
    let before : Value := .dict [(.str "a", .list [.int 1, .int 2, .int 3]), (.str "b", .null)]
    let after : Value := .dict [(.str "b", .dict [(.str "c", .int 4)]),
      (.str "a", .list [.str "x", .list [], .bool true])]
    before.Json ∧ after.Json ∧ (∀ m ∈ patterns, m.allowsGaps = false) ∧
      ∃ old new table, Projection.map ⟨[], patterns⟩ before = .ok old ∧
        Projection.map ⟨[], patterns⟩ after = .ok new ∧
        old = .dict [(.str "a", .list [.missing, .int 2])] ∧
        changeTable { includeContainers := true } old new = .ok table ∧
        table = [("$.a[1]", ⟨[.property "a", .index 1], some (.int 2), some (.list []), false⟩)] ∧
        changeTable (Config.ignoring { includeContainers := true } patterns) before after =
          .ok table := by
  intro patterns before after
  have hb : before.Json := by decide
  have ha : after.Json := by decide
  have gapless : ∀ m ∈ patterns, m.allowsGaps = false := by decide
  obtain ⟨old, new, table, hold, hnew, htable, ignored⟩ := changeTable_excluding hb ha gapless true
  obtain rfl : Value.dict [(.str "a", .list [.missing, .int 2])] = old := Except.ok.inj hold
  obtain rfl : Value.dict [(.str "a", .list [.missing, .list []])] = new := Except.ok.inj hnew
  have compared : changeTable { includeContainers := true }
      (.dict [(.str "a", .list [.missing, .int 2])])
      (.dict [(.str "a", .list [.missing, .list []])]) =
      .ok [("$.a[1]", ⟨[.property "a", .index 1], some (.int 2), some (.list []), false⟩)] := by
    cbv
  exact ⟨hb, ha, gapless, _, _, table, hold, hnew, rfl, htable,
    Except.ok.inj (htable.symm.trans compared), ignored⟩

end Diff

end TreeDelta
