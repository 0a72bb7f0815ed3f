import TreeDelta.Proofs.Diff.Changeset
import TreeDelta.Proofs.Text.Numeral
import TreeDelta.Proofs.Tree.Edit

/-!
# Where leaves stand

Whatever the predicates of a diff are, a leaf stands at a place of its tree and shows the value
there or its kind (`Diff.exists_find?_of_mem_leavesFrom`). Leaves come in pre-order, so that nothing
above a leaf comes after it (`Diff.leavesFrom_ordered`). With containers reported, everything above
a leaf is a leaf, too (`Diff.mem_leavesFrom_above`), and else nothing above a leaf is one
(`Diff.eq_of_isPrefix_of_mem_leavesFrom`). Either way the changes of a changeset inherit the order:
once there was a change with an old value, no later one is at its place or above it
(`Diff.changesBy_ordered`). Places are compared by their texts, as edits compare them.

## Main definitions

* `Diff.Content.Shows`: what stands at a leaf is what a value shows.

## Main results

* `Path.isPrefix_of_texts`: in one tree, the texts tell which place is above which.
* `Diff.exists_find?_of_mem_leavesFrom`: the value at a leaf.
* `Diff.leavesFrom_ordered`, `Diff.changesBy_ordered`: the order of leaves and changes.
-/

namespace TreeDelta

/-! ### Texts of the places of a tree -/

/-- Components that step into containers of one kind are told apart by their texts. -/
theorem Component.eq_of_text {c d : Component} (hk : c.kind = d.kind) (h : c.text = d.text) :
    c = d := by
  cases c with
  | index i =>
      cases d with
      | index j => rw [index_text_inj.mp h]
      | property l => exact absurd hk (by simp [Component.kind])
  | property k =>
      cases d with
      | index j => exact absurd hk (by simp [Component.kind])
      | property l => exact congrArg _ h

/-- A step fits its container. -/
theorem Value.kind?_of_child? {v w : Value} {c : Component} (h : v.child? c = some w) :
    v.kind? = some c.kind := by
  cases v <;> cases c <;> first | rfl | exact absurd h (by simp [child?])

/-- **In one tree the texts tell** which place is above which. In different trees an index may have
the text of a key. -/
theorem Path.isPrefix_of_texts {p q : Path} {v x y : Value} (hp : p.find? v = some x)
    (hq : q.find? v = some y) (h : p.texts <+: q.texts) : p <+: q := by
  induction p generalizing q v with
  | nil => exact List.nil_prefix
  | cons c p ih =>
      cases q with
      | nil => exact absurd (List.prefix_nil.mp h) (by simp [texts])
      | cons d q =>
          rw [Value.find?_cons, Option.bind_eq_some_iff] at hp hq
          obtain ⟨w, hw, hp⟩ := hp
          obtain ⟨w', hw', hq⟩ := hq
          obtain ⟨ht, below⟩ := List.cons_prefix_cons.mp h
          have kinds := (Value.kind?_of_child? hw).symm.trans (Value.kind?_of_child? hw')
          obtain rfl : c = d := Component.eq_of_text (Option.some.inj kinds) ht
          obtain rfl : w = w' := Option.some.inj (hw.symm.trans hw')
          exact List.cons_prefix_cons.mpr ⟨rfl, ih hp hq below⟩

namespace Diff

variable {cfg : Config} {p q : Path} {v : Value} {leaf : Leaf}

/-! ### The value at a leaf -/

/-- What stands at a leaf is a value, or the kind of a container. What is in that container are
leaves of their own. -/
def Content.Shows : Content → Value → Prop
  | atomic v, w => v = w
  | container k, w => w.kind? = some k

/-- **A leaf shows the value at its place.** So a leaf can be looked up in its tree again. -/
theorem exists_find?_of_mem_leavesFrom (hk : v.WellKeyed) (h : leaf ∈ leavesFrom cfg p v) :
    ∃ q w, leaf.path = p ++ q ∧ q.find? v = some w ∧ leaf.content.Shows w := by
  induction v using Value.stepInduction generalizing p with
  | step v ih =>
      rw [leavesFrom_eq] at h
      split at h
      · split at h
        · obtain rfl := List.mem_singleton.mp h
          exact ⟨[], v, (List.append_nil p).symm, rfl, rfl⟩
        · rcases List.mem_append.mp h with own | below
          · rw [ownLeaf] at own
            split at own
            · obtain ⟨k, kind, rfl⟩ := Option.map_eq_some_iff.mp (Option.mem_toList.mp own)
              exact ⟨[], v, (List.append_nil p).symm, rfl, kind⟩
            · exact absurd own (by simp)
          · obtain ⟨⟨c, w⟩, hs, hl⟩ := List.mem_flatMap.mp below
            obtain ⟨q, x, hq, hx, shows⟩ := ih c w hs (hk.step hs) hl
            refine ⟨c :: q, x, by rw [hq, List.append_assoc]; rfl, ?_, shows⟩
            rw [Value.find?_cons, (Value.child?_eq_some_iff hk.hasUniqueKeys).mpr hs]
            exact hx
      · exact absurd h (by simp)

/-- The value at a leaf that a walk finds. The walk starts at the root, so the path of the leaf is
the whole way down. -/
theorem exists_find?_of_mem_leaves {ls : List Leaf} (hk : v.WellKeyed) (hls : leaves cfg v = .ok ls)
    (h : leaf ∈ ls) : ∃ w, leaf.path.find? v = some w ∧ leaf.content.Shows w := by
  rw [leaves_eq hls] at h
  obtain ⟨q, w, hq, hw, shows⟩ := exists_find?_of_mem_leavesFrom hk h
  refine ⟨w, ?_, shows⟩
  rw [hq]
  exact hw

/-- **Without custom leaves** a container among the leaves is one that is reported, and is shown
empty. -/
theorem exists_kind_of_isContainer (hn : cfg.isAtomic? = none) (h : leaf ∈ leavesFrom cfg p v)
    (container : leaf.content.value.isContainer = true) :
    cfg.includeContainers = true ∧ ∃ k, leaf.content = .container k := by
  induction v using Value.stepInduction generalizing p with
  | step v ih =>
      rw [leavesFrom_eq] at h
      split at h
      · split at h
        · next atomic =>
            obtain rfl := List.mem_singleton.mp h
            have scalar : v.isPrimitive = true := by
              simpa [Config.isLeaf, askAtomic, hn] using atomic
            have bare := Value.kind?_of_isPrimitive scalar
            exact absurd container (by simp [Content.value, Value.isContainer, bare])
        · rcases List.mem_append.mp h with own | below
          · rw [ownLeaf] at own
            split at own
            · next hc =>
                obtain ⟨k, -, rfl⟩ := Option.map_eq_some_iff.mp (Option.mem_toList.mp own)
                exact ⟨hc, k, rfl⟩
            · exact absurd own (by simp)
          · obtain ⟨⟨c, w⟩, hs, hl⟩ := List.mem_flatMap.mp below
            exact ih c w hs hl
      · exact absurd h (by simp)

/-! ### The order of leaves -/

/-- **Nothing at or above a leaf comes after it**, as leaves come in pre-order. Writing them in this
order never undoes a write. -/
theorem leavesFrom_ordered (cfg : Config) (p : Path) (hk : v.WellKeyed) :
    (leavesFrom cfg p v).Pairwise fun l m => ¬m.path.texts <+: l.path.texts := by
  induction v using Value.stepInduction generalizing p with
  | step v ih =>
      have below : (leavesBelow cfg p v.steps).Pairwise fun l m =>
          ¬m.path.texts <+: l.path.texts := by
        rw [leavesBelow, List.pairwise_flatMap]
        refine ⟨fun s hs => ih s.1 s.2 hs _ (hk.step hs), ?_⟩
        have apart := List.pairwise_map.mp (Value.nodup_steps hk.hasUniqueKeys)
        refine apart.imp_of_mem fun {s s'} hs hs' hne l hl m hm hml => hne ?_
        -- both leaves go on from the same texts, one step below `p`
        have above (r : Path) (c : Component) (hr : p ++ [c] <+: r) :
            p.texts ++ [c.text] <+: r.texts := by
          have mapped := hr.map Component.text
          rwa [List.map_append] at mapped
        have hl := above _ _ (isPrefix_of_mem_leavesFrom hl)
        have hm := (above _ _ (isPrefix_of_mem_leavesFrom hm)).trans hml
        have same := List.prefix_of_prefix_length_le hl hm (by simp)
        have texts : s.1.text = s'.1.text := by simpa using same
        have kinds := (Value.kind?_of_mem_steps hs).symm.trans (Value.kind?_of_mem_steps hs')
        exact Component.eq_of_text (Option.some.inj kinds) texts
      rw [leavesFrom_eq]
      split
      · split
        · exact List.pairwise_singleton _ _
        · refine List.pairwise_append.mpr ⟨?_, below, fun l hl m hm hml => ?_⟩
          · rw [ownLeaf]
            split
            · cases v.kind? <;> simp
            · exact .nil
          · rw [ownLeaf] at hl
            split at hl
            · obtain ⟨k, -, rfl⟩ := Option.map_eq_some_iff.mp (Option.mem_toList.mp hl)
              obtain ⟨⟨c, w⟩, hs, hm⟩ := List.mem_flatMap.mp hm
              have longer := (isPrefix_of_mem_leavesFrom hm).length_le
              have shorter := hml.length_le
              simp only [Path.texts, List.length_map, List.length_append] at longer shorter
              simp at longer
              omega
            · exact absurd hl (by simp)
      · exact .nil

/-- **Where containers are reported**, every place of a walk above a leaf has a leaf, too. By
induction on the tree: a walk goes through the places above a leaf, and reports each as it
passes. -/
theorem mem_leavesFrom_above (hc : cfg.includeContainers = true) (h : leaf ∈ leavesFrom cfg p v)
    (hp : p <+: q) (hq : q <+: leaf.path) (hne : q ≠ leaf.path) :
    q ∈ (leavesFrom cfg p v).map Leaf.path := by
  induction v using Value.stepInduction generalizing p with
  | step v ih =>
      have outside : leaf.path ≠ p := by
        rintro rfl
        exact hne (hq.eq_of_length_le hp.length_le)
      rw [leavesFrom_eq] at h ⊢
      split at h
      · next accepted =>
          rw [if_pos accepted]
          split at h
          · obtain rfl := List.mem_singleton.mp h
            exact absurd rfl outside
          · next walked =>
              rw [if_neg walked, List.map_append, List.mem_append]
              rcases List.mem_append.mp h with own | below
              · rw [ownLeaf, if_pos hc] at own
                obtain ⟨k, -, rfl⟩ := Option.map_eq_some_iff.mp (Option.mem_toList.mp own)
                exact absurd rfl outside
              · obtain ⟨⟨c, w⟩, hs, hl⟩ := List.mem_flatMap.mp below
                by_cases root : p = q
                · left
                  rw [ownLeaf, if_pos hc, Value.kind?_of_mem_steps hs, root]
                  simp
                · right
                  have longer : p.length < q.length := by
                    have shorter := hp.length_le
                    have unequal : p.length ≠ q.length := fun he => root (hp.eq_of_length he)
                    omega
                  have step : p ++ [c] <+: q :=
                    List.prefix_of_prefix_length_le (isPrefix_of_mem_leavesFrom hl) hq
                      (by rw [List.length_append]; exact longer)
                  obtain ⟨l, hmem, rfl⟩ := List.mem_map.mp (ih c w hs hl step)
                  exact List.mem_map_of_mem (List.mem_flatMap.mpr ⟨(c, w), hs, hmem⟩)
      · exact absurd h (by simp)

/-- **Where containers are not reported**, no leaf is below another one: a walk that goes on below a
value has no leaf for the value itself. -/
theorem eq_of_isPrefix_of_mem_leavesFrom (hc : cfg.includeContainers = false) (hk : v.WellKeyed)
    {m : Leaf} (hl : leaf ∈ leavesFrom cfg p v) (hm : m ∈ leavesFrom cfg p v)
    (h : leaf.path <+: m.path) : leaf.path = m.path := by
  induction v using Value.stepInduction generalizing p with
  | step v ih =>
      rw [leavesFrom_eq] at hl hm
      split at hl
      · next accepted =>
          rw [if_pos accepted] at hm
          split at hl
          · next atomic =>
              rw [if_pos atomic] at hm
              rw [List.mem_singleton.mp hl, List.mem_singleton.mp hm]
          · next walked =>
              have unreported : ownLeaf cfg p v = [] := by
                rw [ownLeaf, hc]
                rfl
              rw [unreported, List.nil_append] at hl
              rw [if_neg walked, unreported, List.nil_append] at hm
              obtain ⟨⟨c, w⟩, hs, hl⟩ := List.mem_flatMap.mp hl
              obtain ⟨⟨d, w'⟩, hs', hm⟩ := List.mem_flatMap.mp hm
              -- both leaves are below the same step
              obtain rfl : c = d := eq_of_isPrefix ((isPrefix_of_mem_leavesFrom hl).trans h)
                (isPrefix_of_mem_leavesFrom hm)
              have one := (Value.child?_eq_some_iff hk.hasUniqueKeys).mpr hs
              have other := (Value.child?_eq_some_iff hk.hasUniqueKeys).mpr hs'
              obtain rfl : w = w' := Option.some.inj (one.symm.trans other)
              exact ih c w hs (hk.step hs) hl hm
      · exact absurd hl (by simp)

/-! ### The order of changes -/

/-- A change with an old value is at a leaf of the old tree, and the old value is what a change
lists for that leaf. Additions are the changes without an old value. -/
theorem mem_of_old? {old new : List Leaf} {c : Change} (hold : (old.map Leaf.path).Nodup)
    (hnew : (new.map Leaf.path).Nodup) (hc : c ∈ changesBy cfg old new) {x : Value}
    (hx : c.old? = some x) : ∃ content, ⟨c.path, content⟩ ∈ old ∧ content.value = x := by
  obtain ⟨p, rfl, -⟩ := (mem_changesBy_iff hold hnew).mp hc
  obtain ⟨content, there, rfl⟩ := Option.map_eq_some_iff.mp hx
  exact ⟨content, (contentAt?_eq_some_iff hold).mp there, rfl⟩

/-- **Once there was a change with an old value**, no later change is at its place or above it.
Additions come in the order of the new tree and may well be below a replaced value; what is ruled
out is that a later change is overwritten by an earlier one. -/
theorem changesBy_ordered {before after : Value} {old new : List Leaf} (hb : before.WellKeyed)
    (ha : after.WellKeyed) (hold : leaves cfg before = .ok old)
    (hnew : leaves cfg after = .ok new) :
    (changesBy cfg old new).Pairwise fun c d =>
      c.old?.isSome = true → ¬d.path.texts <+: c.path.texts := by
  have old_nodup := nodup_leaves hold hb
  have new_nodup := nodup_leaves hnew ha
  have old_ordered := leavesFrom_ordered cfg Path.root hb
  have new_ordered := leavesFrom_ordered cfg Path.root ha
  rw [← leaves_eq hold] at old_ordered
  rw [← leaves_eq hnew] at new_ordered
  refine List.pairwise_append.mpr ⟨?_, ?_, fun c hcm d hdm hs => ?_⟩
  · refine List.pairwise_filterMap.mpr (new_ordered.imp fun {l m} hlm c hc d hd _ => ?_)
    rwa [path_of_changeOf? hc, path_of_changeOf? hd]
  · refine List.pairwise_filterMap.mpr (old_ordered.imp fun {l m} hlm c hc d hd _ => ?_)
    obtain ⟨-, rfl⟩ := removalOf?_eq_some_iff.mp hc
    obtain ⟨-, rfl⟩ := removalOf?_eq_some_iff.mp hd
    exact hlm
  · obtain ⟨leaf, hleaf, hchange⟩ := List.mem_filterMap.mp hcm
    obtain ⟨gone, hgone, removed⟩ := List.mem_filterMap.mp hdm
    obtain ⟨missing_there, rfl⟩ := removalOf?_eq_some_iff.mp removed
    intro above
    obtain ⟨x, hx⟩ := Option.isSome_iff_exists.mp hs
    obtain ⟨content, hcontent, -⟩ :=
      mem_of_old? old_nodup new_nodup (List.mem_append_left _ hcm) hx
    obtain ⟨w, hw, -⟩ := exists_find?_of_mem_leaves hb hold hcontent
    obtain ⟨w', hw', -⟩ := exists_find?_of_mem_leaves hb hold hgone
    have higher := Path.isPrefix_of_texts hw' hw above
    rw [path_of_changeOf? hchange] at higher hcontent
    have different : gone.path ≠ leaf.path := fun same =>
      missing_there (same ▸ List.mem_map_of_mem hleaf)
    cases hc : cfg.includeContainers with
    | true =>
        -- what is above a leaf of the new tree is in the new tree and not gone
        rw [leaves_eq hnew] at hleaf missing_there
        exact missing_there (mem_leavesFrom_above hc hleaf List.nil_prefix higher different)
    | false =>
        -- both are leaves of the old tree
        rw [leaves_eq hold] at hgone hcontent
        have same := eq_of_isPrefix_of_mem_leavesFrom hc hb hgone hcontent higher
        exact different same

end Diff

end TreeDelta
