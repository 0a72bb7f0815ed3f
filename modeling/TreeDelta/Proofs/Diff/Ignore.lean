import TreeDelta.Proofs.Diff.View

/-!
# Patches under an ignore filter

A diff that ignores some patterns sees neither tree in full. It sees what is left when hidden places
are replaced by missing values (`Value.prune`), and for what it sees it is a diff without a filter
(`Diff.changeset_ignoring`, `Diff.patch_ignoring`). Its patch, however, is applied to a tree that
still has the hidden content: the result is one that `Patch.Patched` describes. Hidden values of the
old tree stay in it, wherever the new tree has containers of the same kinds
(`Patch.Patched.get_of_hidden`), and pruned it looks like the new tree (`Patch.Patched.sameView`).

## Main definitions

* `Diff.isIgnored`: the places that a list of patterns hides.

## Main results

* `Diff.leavesFrom_ignoring`: what is not ignored are the leaves of a pruned tree.
* `Diff.patch_ignoring`: a patch under an ignore filter is one between pruned trees.
* `Patch.apply_ignoring`: patching under an ignore filter.
-/

namespace TreeDelta

/-! ### Diffs of pruned trees -/

namespace Diff

/-- Whether some pattern covers a place, so that it is ignored with all that is below it. -/
def isIgnored (patterns : List Pattern) (p : Path) : Bool := patterns.any fun m => m.covers p

section Ignoring

variable {patterns : List Pattern} {b : Bool}

/-- What can be walked can be walked after hidden places were replaced. -/
theorem every_isWalkable_prune {hide : Path → Bool} {v : Value} (h : v.every isWalkable = true) :
    (v.prune hide).every isWalkable = true := by
  refine Value.every_prune (fun hide w hw => ?_) h
  cases hr : hide [] with
  | true =>
      rw [Value.prune_of_hidden hr]
      rfl
  | false =>
      cases w with
      | dict entries =>
          simp only [Value.prune, hr, Bool.false_eq_true, if_false, isWalkable]
          rw [isWalkable] at hw
          induction entries with
          | nil => rfl
          | cons e es ih =>
              obtain ⟨key, v⟩ := e
              obtain ⟨string, rest⟩ := Bool.and_eq_true_iff.mp (List.all_cons.symm.trans hw)
              cases key with
              | str k => exact ih rest
              | _ => exact absurd string (by simp [Value.isString])
      | _ => simp_all [Value.prune, isWalkable]

/-- **The leaves that are not ignored** are the leaves of the pruned tree. A missing value does not
take part, so a pruned place is left out as an ignored one is. -/
theorem leavesFrom_ignoring (p : Path) (v : Value) :
    leavesFrom (Config.ignoring { includeContainers := b } patterns) p v =
      leavesFrom { includeContainers := b } p (v.prune fun q => isIgnored patterns (p ++ q)) := by
  induction v using Value.stepInduction generalizing p with
  | step v ih =>
      have accepts : Config.accepts (Config.ignoring { includeContainers := b } patterns) p v =
          (!isIgnored patterns p && acceptPresent p v) := rfl
      rw [leavesFrom_eq, leavesFrom_eq, accepts]
      cases hr : isIgnored patterns p with
      | true =>
          have hidden : isIgnored patterns (p ++ []) = true := by rwa [List.append_nil]
          rw [Value.prune_of_hidden hidden]
          rfl
      | false =>
          have seen : isIgnored patterns (p ++ []) = false := by rwa [List.append_nil]
          have present : Config.accepts { includeContainers := b } p
              (v.prune fun q => isIgnored patterns (p ++ q)) = acceptPresent p v :=
            congrArg not (Value.isMissing_prune seen v)
          have leaf : Config.isLeaf (Config.ignoring { includeContainers := b } patterns) p v =
              v.isPrimitive := Bool.or_false _
          have pruned_leaf : Config.isLeaf { includeContainers := b } p
              (v.prune fun q => isIgnored patterns (p ++ q)) = v.isPrimitive :=
            (Bool.or_false _).trans (Value.isPrimitive_prune seen v)
          have own : ownLeaf { includeContainers := b } p
              (v.prune fun q => isIgnored patterns (p ++ q)) =
                ownLeaf (Config.ignoring { includeContainers := b } patterns) p v := by
            rw [ownLeaf, ownLeaf, Value.kind?_prune seen]
            rfl
          have below : leavesBelow { includeContainers := b } p
              (v.prune fun q => isIgnored patterns (p ++ q)).steps =
                leavesBelow (Config.ignoring { includeContainers := b } patterns) p v.steps := by
            rw [leavesBelow, leavesBelow, Value.steps_prune seen, List.flatMap_map]
            refine List.flatMap_congr fun s hs => ?_
            rw [ih s.1 s.2 hs]
            simp
          rw [Bool.not_false, Bool.true_and, present, leaf, pruned_leaf, own, below]
          cases hp : v.isPrimitive with
          | true => rw [Value.prune_of_kind? seen (Value.kind?_of_isPrimitive hp)]
          | false => rfl

/-- The leaves that a walk finds under an ignore filter are the leaves of the pruned tree. -/
theorem leaves_ignoring {v : Value} (h : v.every isWalkable = true) :
    leaves (Config.ignoring { includeContainers := b } patterns) v =
      leaves { includeContainers := b } (v.prune (isIgnored patterns)) := by
  obtain ⟨ls, hls⟩ := exists_leaves (Config.ignoring { includeContainers := b } patterns) h
  obtain ⟨ls', hls'⟩ := exists_leaves { includeContainers := b }
    (@every_isWalkable_prune (isIgnored patterns) v h)
  rw [hls, hls', leaves_eq hls, leaves_eq hls', leavesFrom_ignoring]
  rfl

/-- **A changeset under an ignore filter** is one between pruned trees, so that what is known of
changesets without a filter applies. -/
theorem changeset_ignoring {before after : Value} (hb : before.every isWalkable = true)
    (ha : after.every isWalkable = true) :
    changeset (Config.ignoring { includeContainers := b } patterns) before after =
      changeset { includeContainers := b } (before.prune (isIgnored patterns))
        (after.prune (isIgnored patterns)) := by
  rw [changeset, changeset, changeTable, changeTable, leaves_ignoring hb, leaves_ignoring ha]
  rfl

/-- **A patch under an ignore filter** is one between pruned trees. -/
theorem patch_ignoring {before after : Value} (hb : before.every isWalkable = true)
    (ha : after.every isWalkable = true) :
    Diff.patch (Config.ignoring {} patterns) before after =
      Diff.patch {} (before.prune (isIgnored patterns)) (after.prune (isIgnored patterns)) := by
  rw [Diff.patch, Diff.patch]
  exact congrArg (Except.map _) (changeset_ignoring (b := true) hb ha)

end Ignoring

end Diff

/-! ### Patched trees -/

namespace Patch

open Diff
open Value (Alike missing)

section Patched

variable {hide : Path → Bool} {v w : Value}

/-- A hidden tree stays as it is. -/
theorem Patched.eq_of_hidden {r : Value} (h : Patched hide v w r) (hh : hide [] = true) :
    r = v := by
  cases h with
  | hidden => rfl
  | gone hs | scalar hs | container hs => exact absurd (hh.symm.trans hs) (by simp)

/-- **Hidden content stays** below containers of one kind: a place that is hidden, in a container
that both trees have and that can be seen, keeps what is there. In a container that gives way to
another one it would be lost. -/
theorem Patched.get_of_hidden {r : Value} (h : Patched hide v w r) {q : Path} {c : Component}
    {k : Kind} (hc : hide (q ++ [c]) = true) (seen : ∀ q', q' <+: q → hide q' = false)
    (hv : (q.get v missing).kind? = some k) (hw : (q.get w missing).kind? = some k) (p : Path) :
    Path.get (q ++ c :: p) r missing = Path.get (q ++ c :: p) v missing := by
  induction q generalizing hide v w r with
  | nil =>
      rw [Path.get_root] at hv hw
      cases h with
      | hidden hh => exact absurd (hh.symm.trans (seen [] List.prefix_rfl)) (by simp)
      | gone => exact absurd hw (by simp [Value.kind?])
      | scalar _ _ scalar => exact absurd (scalar.symm.trans hw) (by simp)
      | @container _ _ _ _ l _ hl hr _ slots =>
          obtain rfl : l = k := Option.some.inj (hl.symm.trans hw)
          rw [List.nil_append, Path.get_cons, Path.get_cons]
          by_cases fits : l = c.kind
          · rw [(slots c fits).eq_of_hidden hc]
          · have other : some l ≠ some c.kind := fun he => fits (Option.some.inj he)
            rw [Value.slot_of_kind?_ne (hr ▸ other), Value.slot_of_kind?_ne (hv ▸ other)]
  | cons d q ih =>
      rw [Path.get_cons] at hv hw
      have below : ∀ q', q' <+: q → hide (d :: q') = false := fun q' hq =>
        seen (d :: q') (List.cons_prefix_cons.mpr ⟨rfl, hq⟩)
      rw [List.cons_append, Path.get_cons, Path.get_cons]
      cases h with
      | hidden hh => exact absurd (hh.symm.trans (seen [] List.nil_prefix)) (by simp)
      | gone =>
          rw [Value.slot_of_kind?_ne (by simp [Value.kind?]), Path.get_missing] at hw
          exact absurd hw (by simp [Value.kind?])
      | scalar _ _ scalar =>
          rw [Value.slot_of_kind?_ne (by simp [scalar]), Path.get_missing] at hw
          exact absurd hw (by simp [Value.kind?])
      | @container _ _ _ _ l _ hl hr _ slots =>
          by_cases fits : l = d.kind
          · exact ih (slots d fits) hc below hv hw
          · have other : w.kind? ≠ some d.kind := fun he =>
              fits (Option.some.inj (hl.symm.trans he))
            rw [Value.slot_of_kind?_ne other, Path.get_missing] at hw
            exact absurd hw (by simp [Value.kind?])

/-- **A patched tree looks like the new tree**, as far as it can be seen. What is hidden may
differ. -/
theorem Patched.sameView {r : Value} (h : Patched hide v w r) (hw : w.MaybePlain) (p : Path) :
    sameView (p.get (r.prune hide) missing) (p.get (w.prune hide) missing) = true := by
  induction h generalizing p with
  | hidden hh =>
      rw [Value.prune_of_hidden hh, Value.prune_of_hidden hh, Path.get_missing]
      rfl
  | gone =>
      rw [Value.prune_missing, Path.get_missing]
      rfl
  | scalar hh plain hk alike plain' =>
      cases alike with
      | leaf hp _ same =>
          have hk' := Value.kind?_of_isPrimitive hp
          rw [Value.prune_of_kind? hh hk, Value.prune_of_kind? hh hk']
          exact sameView_of_alike plain' plain (.leaf hp (plain.isPrimitive hk) same) p
      | _ => exact absurd hk (by simp [Value.kind?])
  | @container hide v w r k hh hk hr tidy slots ih =>
      cases p with
      | nil =>
          rw [Path.get_root, Path.get_root]
          exact sameView_container ((Value.kind?_prune hh r).trans hr)
            ((Value.kind?_prune hh w).trans hk)
      | cons c p =>
          rw [Path.get_cons, Path.get_cons, Value.slot_prune hh tidy.hasUniqueKeys,
            Value.slot_prune hh hw.hasUniqueKeys]
          by_cases fits : k = c.kind
          · exact ih c fits (hw.slot c) p
          · have other : some k ≠ some c.kind := fun he => fits (Option.some.inj he)
            rw [Value.slot_of_kind?_ne (hr ▸ other), Value.slot_of_kind?_ne (hk ▸ other),
              Value.prune_missing, Path.get_missing]
            rfl

/-- A patched tree has different keys everywhere and can be walked. -/
theorem Patched.walkable {r : Value} (h : Patched hide v w r) (hv : v.MaybePlain) :
    r.WellKeyed ∧ r.every isWalkable = true := by
  induction h with
  | hidden =>
      rcases hv with rfl | hv
      · exact ⟨rfl, rfl⟩
      · exact ⟨hv.wellKeyed, every_isWalkable_of_plain hv⟩
  | gone => exact ⟨rfl, rfl⟩
  | scalar _ _ _ _ plain => exact ⟨plain.wellKeyed, every_isWalkable_of_plain plain⟩
  | @container hide v w r k hh hk hr tidy slots ih =>
      have root : isWalkable r = true := by
        cases r with
        | dict entries =>
            refine List.all_eq_true.mpr fun e he => ?_
            obtain ⟨⟨l, hl⟩, -⟩ := tidy.2 e he
            rw [hl]
            rfl
        | list items => rfl
        | _ => exact absurd hr (by simp [Value.kind?])
      have below : ∀ c x, (c, x) ∈ r.steps → x.WellKeyed ∧ x.every isWalkable = true := by
        intro c x hx
        have fits : k = c.kind := Option.some.inj (hr.symm.trans (Value.kind?_of_mem_steps hx))
        have slot := ih c fits (hv.slot c)
        rwa [Value.slot_of_mem_steps tidy.hasUniqueKeys hx] at slot
      exact ⟨Value.every_iff.mpr ⟨tidy.hasUniqueKeys, fun c x hx => (below c x hx).1⟩,
        Value.every_iff.mpr ⟨root, fun c x hx => (below c x hx).2⟩⟩

end Patched

/-! ### Patching under an ignore filter -/

/-- **Patching under an ignore filter**: between plain trees there is a patch, every write of it
goes well, and the result differs from the new tree in nothing that can be seen. What is ignored
stays as it was, in all containers that are of one kind in both trees. -/
theorem apply_ignoring (patterns : List Pattern) {before after : Value} (hb : before.Plain)
    (ha : after.Plain) :
    ∃ patch result, Diff.patch (Config.ignoring {} patterns) before after = .ok patch ∧
      apply before patch = .ok result ∧
      changeset (Config.ignoring {} patterns).withContainers result after = .ok [] ∧
      (∀ (q : Path) (c : Component) (rest : Path) (k : Kind) (u w x : Value),
        isIgnored patterns (q ++ [c]) = true → (∀ q', q' <+: q → isIgnored patterns q' = false) →
        q.find? before = some u → u.kind? = some k → q.find? after = some w → w.kind? = some k →
        Path.find? (q ++ c :: rest) before = some x →
        Path.find? (q ++ c :: rest) result = some x) ∧
      (isIgnored patterns [] = true → result = before) := by
  have walk_before := every_isWalkable_of_plain hb
  have walk_after := every_isWalkable_of_plain ha
  obtain ⟨t, ht⟩ := exists_thinned (isIgnored patterns) before after
  obtain ⟨result, hr, patched⟩ := exists_patched (.inr hb) (.inr ha) ht
  obtain ⟨keyed, walk_result⟩ := patched.walkable (.inr hb)
  obtain ⟨old, hold⟩ := exists_leaves { includeContainers := true }
    (@every_isWalkable_prune (isIgnored patterns) before walk_before)
  obtain ⟨new, hnew⟩ := exists_leaves { includeContainers := true }
    (@every_isWalkable_prune (isIgnored patterns) after walk_after)
  refine ⟨_, result, (patch_ignoring walk_before walk_after).trans
    (patch_eq hb.wellKeyed.prune ha.wellKeyed.prune hold hnew), ?_, ?_, ?_, ?_⟩
  · rw [apply_append_of_eq_ok ht, hr]
  · obtain ⟨changes, hchanges, paths⟩ := exists_changeset keyed.prune ha.wellKeyed.prune
      (every_isWalkable_prune walk_result) (every_isWalkable_prune walk_after)
    have empty : changes = [] := by
      refine List.eq_nil_iff_forall_not_mem.mpr fun c hc => ?_
      have differs := (paths c.path).mp (List.mem_map_of_mem hc)
      exact absurd (differs.symm.trans (patched.sameView (.inr ha) c.path)) (by simp)
    rw [← empty, ← hchanges]
    exact changeset_ignoring (b := true) walk_result walk_after
  · intro q c rest k u w x hc seen hu hku hw hkw hx
    have kept := patched.get_of_hidden hc seen (Path.get_of_find? hu ▸ hku)
      (Path.get_of_find? hw ▸ hkw) rest
    rw [Path.get_of_find? hx] at kept
    obtain ⟨y, hy, -⟩ := Path.isMissing_get_iff.mp (kept ▸ (hb.find? hx).present)
    rwa [hy, ← Path.get_of_find? hy, Option.some.injEq]
  · exact patched.eq_of_hidden

/-- An ignored item stays at its index while an item before it is deleted, which leaves a hole that
is not seen. -/
theorem apply_ignoring_item :
    let patterns : List Pattern := [[.property "a", .property "2"]]
    let before : Value := .dict [(.str "a", .list [.int 1, .int 2, .int 3])]
    let after : Value := .dict [(.str "a", .list [.int 4])]
    before.Plain ∧ after.Plain ∧
      ∃ patch result, Diff.patch (Config.ignoring {} patterns) before after = .ok patch ∧
        apply before patch = .ok result ∧
        changeset (Config.ignoring {} patterns).withContainers result after = .ok [] ∧
        Path.find? [.property "a", .index 2] result = some (.int 3) := by
  intro patterns before after
  have hb : before.Plain := by decide
  have ha : after.Plain := by decide
  obtain ⟨patch, result, hpatch, hresult, empty, hidden, -⟩ := apply_ignoring patterns hb ha
  have seen : ∀ q' : Path, q' <+: [.property "a"] → isIgnored patterns q' = false := by
    intro q' hq
    rcases List.prefix_cons_iff.mp hq with rfl | ⟨t, rfl, ht⟩
    · rfl
    · obtain rfl := List.prefix_nil.mp ht
      rfl
  have kept := hidden [.property "a"] (.index 2) [] .array _ _ (.int 3) (by decide) seen rfl rfl
    rfl rfl rfl
  exact ⟨hb, ha, patch, result, hpatch, hresult, empty, kept⟩

end Patch

end TreeDelta
