import TreeDelta.Diff.Patch
import TreeDelta.Proofs.Diff.Changeset
import TreeDelta.Proofs.Tree.Plain
import TreeDelta.Proofs.Tree.Prune

/-!
# Patches bring one tree to the other

Writes below one component of a container happen in its slot, so a patch that goes through a tree
in pre-order is a run over the steps of the tree, with a patch for every slot (`Patch.apply_steps`).
Both halves of a patch have this form. The deletions thin the old tree out to what the new one has
(`Patch.Thinned`), slot by slot; where the kinds of two containers differ it does not matter what is
left, since the first write there puts an empty container in its place. The updates then turn what
is left into the new tree (`Patch.exists_patched`, by induction over the new tree).

A diff need not see everything. So the patch here is one between pruned trees, and it is applied to
the old tree itself, which keeps its hidden values. Where nothing is hidden, the result is like the
new tree.

## Main definitions

* `Patch.deletions`, `Patch.updates`: the two halves of a patch, node by node.
* `Patch.Thinned`: what the deletions leave.
* `Patch.Patched`: what the whole patch makes of the old tree.

## Main results

* `Patch.patch_eq`: a patch is its deletions and then its updates.
* `Patch.exists_patched`: the updates go well and patch the tree.
* `Patch.round_trip`: patching a plain tree gives a tree like the other one.
-/

namespace TreeDelta.Patch

open Diff
open Value (Swapped Alike missing)

/-! ### Runs of writes -/

/-- A run of writes starts with the first one. -/
theorem apply_cons (t : Value) (n : Node) (ns : Patch) :
    apply t (n :: ns) = n.path.set t n.value >>= fun t' => apply t' ns :=
  List.foldlM_cons

/-- Two runs of writes in a row. -/
theorem apply_append (t : Value) (ns ms : Patch) :
    apply t (ns ++ ms) = apply t ns >>= fun t' => apply t' ms :=
  List.foldlM_append

/-- Two runs of writes in a row that both go well. -/
theorem apply_append_of_eq_ok {t t' : Value} {ns : Patch} (h : apply t ns = .ok t') (ms : Patch) :
    apply t (ns ++ ms) = apply t' ms := by
  rw [apply_append, h]
  rfl

/-- **A run of writes below one component** happens in its slot, and what it gives there comes into
the slot. -/
theorem apply_under {c : Component} {t r : Value} {ns : Patch} (hf : t.kind? = some c.kind)
    (ht : t.Tidy) (h : apply (t.slot c) ns = .ok r) :
    ∃ t', apply t (ns.map (Node.under c)) = .ok t' ∧ Swapped c r t t' := by
  induction ns generalizing t with
  | nil =>
      obtain rfl := Except.ok.inj h
      exact ⟨t, rfl, .refl ht⟩
  | cons n ns ih =>
      rw [apply_cons] at h
      obtain ⟨r₁, hset, hrest⟩ := bind_eq_ok_iff.mp h
      obtain ⟨t₁, hset₁, swapped₁⟩ := Path.set_cons hf ht hset
      rw [← swapped₁.self] at hrest
      obtain ⟨t', happly, swapped⟩ := ih (swapped₁.kind.trans hf) swapped₁.tidy hrest
      refine ⟨t', ?_, swapped₁.trans swapped⟩
      rw [List.map_cons, apply_cons]
      exact bind_eq_ok_iff.mpr ⟨t₁, hset₁, happly⟩

/-- **A run of writes over the steps of a tree**: what the writes below each step give in its slot
is in this slot in the end, and the other slots are as they were. By induction on the steps, which
are all different. -/
theorem apply_steps {P : Component × Value → Value → Prop} {f : Component × Value → Patch}
    {ss : List (Component × Value)} {t : Value} (hss : (ss.map Prod.fst).Nodup)
    (hf : ∀ s ∈ ss, t.kind? = some s.1.kind) (ht : t.Tidy)
    (h : ∀ s ∈ ss, ∃ r, apply (t.slot s.1) (f s) = .ok r ∧ P s r) :
    ∃ t', apply t (ss.flatMap fun s => (f s).map (Node.under s.1)) = .ok t' ∧
      t'.kind? = t.kind? ∧ t'.Tidy ∧ (∀ s ∈ ss, P s (t'.slot s.1)) ∧
      ∀ d, d ∉ ss.map Prod.fst → t'.slot d = t.slot d := by
  induction ss generalizing t with
  | nil => exact ⟨t, rfl, rfl, ht, by simp, fun _ _ => rfl⟩
  | cons s ss ih =>
      rw [List.map_cons, List.nodup_cons] at hss
      obtain ⟨r, hr, hp⟩ := h s List.mem_cons_self
      obtain ⟨t₁, ht₁, swapped⟩ := apply_under (hf s List.mem_cons_self) ht hr
      -- the writes below the first step leave the slots of the other steps alone
      have other : ∀ s' ∈ ss, t₁.slot s'.1 = t.slot s'.1 := fun s' hs' =>
        swapped.others _ fun he => hss.1 (he ▸ List.mem_map_of_mem hs')
      obtain ⟨t', ht', kind, tidy, done, rest⟩ := ih hss.2
        (fun s' hs' => swapped.kind.trans (hf s' (List.mem_cons_of_mem s hs'))) swapped.tidy
        fun s' hs' => by rw [other s' hs']; exact h s' (List.mem_cons_of_mem s hs')
      refine ⟨t', ?_, kind.trans swapped.kind, tidy, ?_, ?_⟩
      · rw [List.flatMap_cons, apply_append_of_eq_ok ht₁, ht']
      · intro s' hs'
        rcases List.mem_cons.mp hs' with rfl | hs'
        · rw [rest _ hss.1, swapped.self]
          exact hp
        · exact done s' hs'
      · intro d hd
        rw [List.map_cons, List.mem_cons, not_or] at hd
        rw [rest d hd.2, swapped.others d hd.1]

/-! ### The writes of a patch, node by node -/

/-- The value at a path, or `missing` where there is none. Unlike `Path.get`, it has no default, so
it can be taken slot by slot. -/
def seek (p : Path) (v : Value) : Value := (p.find? v).getD .missing

/-- A path is sought in the slot of its first component. -/
theorem seek_cons (c : Component) (p : Path) (v : Value) : seek (c :: p) v = seek p (v.slot c) := by
  rw [seek, Value.find?_cons, Value.slot]
  cases v.child? c with
  | some w => rfl
  | none => cases p <;> rfl

/-- What a value shows as a leaf, where containers are reported; a missing one shows nothing.
Patches compare trees by this at every place. -/
def viewed? (v : Value) : Option Content := if v.isMissing then none else shown? true v

/-- A container shows its kind. -/
theorem viewed?_container {v : Value} {k : Kind} (hk : v.kind? = some k) :
    viewed? v = some (.container k) := by
  cases v <;> simp_all [Value.kind?, viewed?, shown?, Value.isMissing, Value.isPrimitive]

/-- A scalar of a plain tree shows itself. -/
theorem viewed?_scalar {v : Value} (hv : v.Plain) (hk : v.kind? = none) :
    viewed? v = some (.atomic v) := by
  rw [viewed?, hv.present, shown?, if_pos (hv.isPrimitive hk)]
  rfl

/-- A plain tree shows something. -/
theorem isSome_viewed? {v : Value} (h : v.Plain) : (viewed? v).isSome = true := by
  cases hk : v.kind? with
  | none => rw [viewed?_scalar h hk]; rfl
  | some k => rw [viewed?_container hk]; rfl

/-- What stands at a path among the leaves of a tree is what the value there shows. -/
theorem contentAt?_eq_viewed? {v : Value} {ls : List Leaf} (hk : v.WellKeyed)
    (h : leaves { includeContainers := true } v = .ok ls) (p : Path) :
    contentAt? p ls = viewed? (seek p v) := by
  refine Option.ext fun x => ?_
  rw [contentAt?_iff_leafAt hk h, leafAt_iff, seek, viewed?]
  cases p.find? v with
  | none => simp [Value.isMissing]
  | some w => cases hm : w.isMissing <;> simp [hm]

/-- The write that an old value makes when a new one stands in its place: it is deleted when nothing
is there any more. -/
def deletion? (old new : Value) : Option Value :=
  if (viewed? old).isSome && (viewed? new).isNone then some .missing else none

/-- The write that a new value makes in place of an old one, unless both show the same. -/
def update? (new old : Value) : Option Value :=
  (viewed? new).bind fun y =>
    if (viewed? old).any fun x => x.agrees y then none else some y.value

/-- The writes that the values of one tree make, each compared to what stands at its path in another
tree, in pre-order. Deletions and updates are two cases of it. -/
def writes (e : Value → Value → Option Value) (v w : Value) : Patch :=
  v.nodes.filterMap fun n => (e n.value (seek n.path w)).map (Node.mk n.path)

/-- The deletions between two trees: one for every value of the old tree where the new tree has
nothing. -/
def deletions (before after : Value) : Patch := writes deletion? before after

/-- The updates between two trees: one for every value of the new tree that the old tree does not
show. -/
def updates (before after : Value) : Patch := writes update? after before

/-- A missing tree makes no writes. -/
theorem writes_missing (e : Value → Value → Option Value) (w : Value) :
    writes e .missing w = [] := by
  rw [writes, Value.nodes_missing]
  rfl

/-- **The writes of a tree**: that of its root, and then those of the values one step down, each
against the slot of the other tree. This is how a patch is taken apart along the new tree. -/
theorem writes_eq (e : Value → Value → Option Value) {v : Value} (h : v.isMissing = false)
    (w : Value) :
    writes e v w = (e v w).toList.map (Node.mk []) ++
      v.steps.flatMap fun s => (writes e s.2 (w.slot s.1)).map (Node.under s.1) := by
  have below : (Value.nodesBelow v.steps).filterMap
      (fun n => (e n.value (seek n.path w)).map (Node.mk n.path)) =
      v.steps.flatMap fun s => (writes e s.2 (w.slot s.1)).map (Node.under s.1) := by
    rw [Value.nodesBelow, List.filterMap_flatMap]
    refine List.flatMap_congr fun s _ => ?_
    rw [writes, List.filterMap_map, List.map_filterMap]
    congr 1
    funext n
    simp [Node.under, seek_cons, Function.comp_def]
  have root : seek [] w = w := rfl
  rw [writes, Value.nodes_eq h, List.filterMap_cons, below, root]
  cases e v w <;> rfl

section Leaves

variable {before after : Value} {old new : List Leaf}

/-- The removals of a changeset are the deletions. -/
theorem removals_eq (ha : after.WellKeyed)
    (hold : leaves { includeContainers := true } before = .ok old)
    (hnew : leaves { includeContainers := true } after = .ok new) :
    (unmet old new).map (fun leaf => Node.mk leaf.path .missing) = deletions before after := by
  rw [leaves_eq hold, leavesFrom_default, unmet, List.filter_filterMap, List.map_filterMap,
    deletions, writes]
  refine List.filterMap_congr fun n hn => ?_
  have shown : viewed? n.value = shown? true n.value := by
    rw [viewed?, Value.present_of_mem_nodes hn]
    rfl
  have gone : decide (n.path ∉ new.map Leaf.path) = (viewed? (seek n.path after)).isNone := by
    rw [← contentAt?_eq_viewed? ha hnew, Bool.eq_iff_iff, decide_eq_true_iff,
      Option.isNone_iff_eq_none, contentAt?_eq_none_iff]
  rw [leafOf?, deletion?, shown]
  cases shown? true n.value with
  | none => rfl
  | some x =>
      simp only [Path.root, List.nil_append, Option.map_some, Option.filter_some, gone]
      cases (viewed? (seek n.path after)).isNone <;> rfl

/-- The other changes of a changeset are the updates. -/
theorem replacements_eq (hb : before.WellKeyed)
    (hold : leaves { includeContainers := true } before = .ok old)
    (hnew : leaves { includeContainers := true } after = .ok new) :
    (new.filterMap (changeOf? { includeContainers := true } old)).map
      (fun c => Node.mk c.path c.new) = updates before after := by
  rw [leaves_eq hnew, leavesFrom_default, List.filterMap_filterMap, List.map_filterMap,
    updates, writes]
  refine List.filterMap_congr fun n hn => ?_
  have shown : viewed? n.value = shown? true n.value := by
    rw [viewed?, Value.present_of_mem_nodes hn]
    rfl
  rw [leafOf?, update?, shown]
  cases shown? true n.value with
  | none => rfl
  | some y =>
      simp only [Path.root, List.nil_append, Option.map_some, Option.bind_some, changeOf?_eq,
        contentAt?_eq_viewed? hb hold]
      cases viewed? (seek n.path before) with
      | none => rfl
      | some x =>
          cases hx : x.agrees y <;> simp [differ, equal_default, changeAt, Change.new, hx]

/-- **A patch is its deletions and then its updates**, where the two trees can be walked. The
changeset that it comes from is not mentioned any more. -/
theorem patch_eq (hb : before.WellKeyed) (ha : after.WellKeyed)
    (hold : leaves { includeContainers := true } before = .ok old)
    (hnew : leaves { includeContainers := true } after = .ok new) :
    Diff.patch {} before after = .ok (deletions before after ++ updates before after) := by
  have changes : changeset (Config.withContainers {}) before after =
      .ok (changesBy { includeContainers := true } old new) := by
    rw [changeset, changeTable, Config.withContainers, hold, hnew]
    show Except.ok (changesOf _ old new) = _
    rw [changesOf_eq _ (nodup_leaves hold hb) (nodup_leaves hnew ha)]
  have updated : ∀ c ∈ new.filterMap (changeOf? { includeContainers := true } old),
      c.new?.isSome = true ∧ ¬c.new?.isNone = true := by
    intro c hc
    obtain ⟨leaf, -, hl⟩ := List.mem_filterMap.mp hc
    rw [new?_of_changeOf? hl]
    exact ⟨rfl, by simp⟩
  have removed : ∀ c ∈ (unmet old new).map removal,
      c.new?.isNone = true ∧ ¬c.new?.isSome = true := by
    intro c hc
    obtain ⟨leaf, -, rfl⟩ := List.mem_map.mp hc
    exact ⟨rfl, by simp [removal]⟩
  rw [Diff.patch, changes, changesBy, filterMap_removalOf?, ← removals_eq ha hold hnew,
    ← replacements_eq hb hold hnew, Except.map]
  simp only [List.filter_append]
  rw [List.filter_eq_nil_iff.mpr fun c hc => (updated c hc).2,
    List.filter_eq_self.mpr fun c hc => (removed c hc).1,
    List.filter_eq_self.mpr fun c hc => (updated c hc).1,
    List.filter_eq_nil_iff.mpr fun c hc => (removed c hc).2,
    List.nil_append, List.append_nil, List.map_append, List.map_map]
  rfl

end Leaves

/-! ### Deletions and updates -/

/-- A write of `missing` gives a tree. -/
theorem set_missing (p : Path) (t : Value) : p.set t .missing = .ok (p.erase t) := rfl

/-- Every deletion is a write of `missing`. -/
theorem value_of_mem_deletions {v w : Value} {n : Node} (h : n ∈ deletions v w) :
    n.value = .missing := by
  obtain ⟨m, -, hm⟩ := List.mem_filterMap.mp h
  obtain ⟨x, hx, rfl⟩ := Option.map_eq_some_iff.mp hm
  rw [deletion?] at hx
  split at hx
  · exact (Option.some.inj hx).symm
  · exact absurd hx (by simp)

/-- Deletions give a tree, whatever they find. -/
theorem exists_apply_of_missing {ns : Patch} (h : ∀ n ∈ ns, n.value = .missing) (t : Value) :
    ∃ t', apply t ns = .ok t' := by
  induction ns generalizing t with
  | nil => exact ⟨t, rfl⟩
  | cons n ns ih =>
      obtain ⟨t', ht'⟩ := ih (fun m hm => h m (List.mem_cons_of_mem n hm)) (n.path.erase t)
      refine ⟨t', ?_⟩
      rw [apply_cons, h n List.mem_cons_self, set_missing]
      exact ht'

/-- Deletions do nothing to a missing tree. -/
theorem apply_missing {ns : Patch} (h : ∀ n ∈ ns, n.value = .missing) :
    apply .missing ns = .ok .missing := by
  induction ns with
  | nil => rfl
  | cons n ns ih =>
      have nothing : n.path.erase .missing = .missing := by
        cases n.path with
        | nil => rfl
        | cons c p => exact Path.erase_of_kind?_eq_none rfl c p
      rw [apply_cons, h n List.mem_cons_self, set_missing, nothing]
      exact ih fun m hm => h m (List.mem_cons_of_mem n hm)

/-- Where the other tree is missing, everything is deleted: the first deletion is that of the
root. -/
theorem apply_deletions_missing (t : Value) {v : Value} (hv : (viewed? v).isSome = true) :
    apply t (deletions v .missing) = .ok .missing := by
  have present : v.isMissing = false := by
    by_contra hm
    rw [viewed?, if_pos (by simpa using hm)] at hv
    exact absurd hv (by simp)
  have root : deletion? v .missing = some .missing := by
    rw [deletion?, hv]
    rfl
  have erased : apply .missing (v.steps.flatMap fun s =>
      (deletions s.2 (Value.missing.slot s.1)).map (Node.under s.1)) = .ok .missing := by
    refine apply_missing fun n hn => ?_
    obtain ⟨s, -, hn⟩ := List.mem_flatMap.mp hn
    obtain ⟨m, hm, rfl⟩ := List.mem_map.mp hn
    have := value_of_mem_deletions hm
    exact this
  rw [deletions, writes_eq _ present, root]
  exact erased

/-- Nothing is deleted at the root where the other tree is there. -/
theorem deletion?_eq_none (v : Value) {w : Value} (hw : w.Plain) : deletion? v w = none := by
  obtain ⟨y, hy⟩ := Option.isSome_iff_exists.mp (isSome_viewed? hw)
  rw [deletion?, hy, Option.isNone_some, Bool.and_false]
  rfl

/-- A scalar is written, or there is one already that is strictly equal. In the second case the old
one stays, so that trees come out alike and not equal. -/
theorem update?_scalar {v w : Value} (hv : v.MaybePlain) (hw : w.Plain) (hk : w.kind? = none) :
    update? w v = some w ∨ update? w v = none ∧ v.kind? = none ∧ v.Plain ∧ Alike v w := by
  rw [update?, viewed?_scalar hw hk, Option.bind_some]
  rcases hv with rfl | hv
  · exact .inl rfl
  · cases hl : v.kind? with
    | some l => rw [viewed?_container hl]; exact .inl rfl
    | none =>
        rw [viewed?_scalar hv hl, Option.any_some, Content.agrees]
        cases hs : v.samePrimitive w with
        | false => exact .inl rfl
        | true =>
            have alike : Alike v w := .leaf (hv.isPrimitive hl) (hw.isPrimitive hk) hs
            exact .inr ⟨rfl, rfl, hv, alike⟩

/-- An empty container is written unless there is one of its kind already. -/
theorem update?_container {v w : Value} {k : Kind} (hv : v.MaybePlain) (hk : w.kind? = some k) :
    update? w v = if v.kind? = some k then none else some (Value.empty k) := by
  rw [update?, viewed?_container hk, Option.bind_some]
  rcases hv with rfl | hv
  · rfl
  · cases hl : v.kind? with
    | none => rw [viewed?_scalar hv hl]; rfl
    | some l =>
        rw [viewed?_container hl, Option.any_some, Content.agrees]
        by_cases he : l = k
        · rw [he, if_pos rfl, if_pos (beq_self_eq_true k)]
        · rw [if_neg fun h => he (Option.some.inj h), if_neg fun h => he (beq_iff_eq.mp h)]
          rfl

/-! ### Writes of pruned trees -/

section Pruned

variable {hide : Path → Bool} {t v w : Value}

/-- A value shows the same unless it is hidden. -/
theorem viewed?_prune (h : hide [] = false) (v : Value) : viewed? (v.prune hide) = viewed? v := by
  rw [viewed?, viewed?, Value.isMissing_prune h, shown?, shown?, Value.isPrimitive_prune h,
    Value.kind?_prune h]
  cases hp : v.isPrimitive with
  | true => rw [Value.prune_of_kind? h (Value.kind?_of_isPrimitive hp)]
  | false => rfl

/-- The write of a value is the same unless it is hidden. -/
theorem update?_prune (h : hide [] = false) (w v : Value) :
    update? (w.prune hide) (v.prune hide) = update? w v := by
  rw [update?, update?, viewed?_prune h, viewed?_prune h]

/-! ### What deletions leave -/

/-- What the deletions between pruned trees leave of the old tree itself. The pruned trees tell what
is deleted; hidden places are in neither. -/
def Thinned (hide : Path → Bool) (t v w : Value) : Prop :=
  apply v (deletions (v.prune hide) (w.prune hide)) = .ok t

/-- Deletions leave something of every tree. -/
theorem exists_thinned (hide : Path → Bool) (v w : Value) : ∃ t, Thinned hide t v w :=
  exists_apply_of_missing (fun _ hn => value_of_mem_deletions hn) v

/-- A hidden tree stays. -/
theorem Thinned.eq_of_hidden (hh : hide [] = true) (h : Thinned hide t v w) : t = v := by
  rw [Thinned, Value.prune_of_hidden hh v, deletions, writes_missing] at h
  exact (Except.ok.inj h).symm

/-- Nothing is left of a missing tree. -/
theorem thinned_missing_iff : Thinned hide t missing w ↔ t = missing := by
  rw [Thinned, Value.prune_missing, deletions, writes_missing]
  exact ⟨fun h => (Except.ok.inj h).symm, fun h => h ▸ rfl⟩

/-- Where the other tree is missing, nothing is left of what can be seen. -/
theorem Thinned.eq_missing (hh : hide [] = false) (h : Thinned hide t v missing)
    (hv : v.MaybePlain) : t = missing := by
  rcases hv with rfl | hv
  · exact thinned_missing_iff.mp h
  · have shown : (viewed? (v.prune hide)).isSome = true := by
      rw [viewed?_prune hh]
      exact isSome_viewed? hv
    rw [Thinned, Value.prune_missing] at h
    exact Except.ok.inj (h.symm.trans (apply_deletions_missing v shown))

/-- **Deletions thin a tree out slot by slot** where the other tree is there: its kind stays, it is
tidy, and every slot is thinned out in turn. -/
theorem Thinned.slots (hh : hide [] = false) (h : Thinned hide t v w) (hv : v.Plain)
    (hw : w.Plain) :
    t.kind? = v.kind? ∧ t.Tidy ∧
      ∀ c, Thinned (fun q => hide (c :: q)) (t.slot c) (v.slot c) (w.slot c) := by
  have keys := hv.wellKeyed.hasUniqueKeys
  have root : deletion? (v.prune hide) (w.prune hide) = none := by
    rw [deletion?, viewed?_prune hh, viewed?_prune hh]
    exact deletion?_eq_none v hw
  obtain ⟨t', ht', kind, tidy, done, rest⟩ := apply_steps
    (P := fun s r => Thinned (fun q => hide (s.1 :: q)) r s.2 (w.slot s.1)) (Value.nodup_steps keys)
    (fun s hs => Value.kind?_of_mem_steps hs) hv.tidy fun s hs => by
      rw [Value.slot_of_mem_steps keys hs]
      obtain ⟨r, hr⟩ := exists_thinned (fun q => hide (s.1 :: q)) s.2 (w.slot s.1)
      exact ⟨r, hr, hr⟩
  rw [Thinned, deletions, writes_eq _ ((Value.isMissing_prune hh v).trans hv.present), root,
    Value.steps_prune hh, List.flatMap_map] at h
  simp only [Value.slot_prune hh hw.wellKeyed.hasUniqueKeys] at h
  obtain rfl : t' = t := Except.ok.inj (ht'.symm.trans h)
  refine ⟨kind, tidy, fun c => ?_⟩
  by_cases hc : c ∈ v.steps.map Prod.fst
  · obtain ⟨s, hs, rfl⟩ := List.mem_map.mp hc
    rw [Value.slot_of_mem_steps keys hs]
    exact done s hs
  · rw [rest c hc, Value.slot_of_notMem_steps keys hc]
    exact thinned_missing_iff.mpr rfl

/-- A scalar is left as it is where the other tree is there. -/
theorem Thinned.eq_of_kind?_eq_none (hh : hide [] = false) (h : Thinned hide t v w)
    (hv : v.MaybePlain) (hk : v.kind? = none) (hw : w.Plain) : t = v := by
  rcases hv with rfl | hv
  · exact thinned_missing_iff.mp h
  · have root : deletion? v (w.prune hide) = none := by
      rw [deletion?, viewed?_prune hh]
      exact deletion?_eq_none v hw
    rw [Thinned, Value.prune_of_kind? hh hk, deletions, writes_eq _ hv.present, root,
      Value.steps_eq_nil hk] at h
    exact (Except.ok.inj h).symm

/-! ### What updates make of it -/

/-- What a patch between pruned trees makes of the old tree `v` itself, given the new tree `w`. -/
inductive Patched : (Path → Bool) → Value → Value → Value → Prop
  /-- A hidden value stays. -/
  | hidden {hide : Path → Bool} {v w : Value} : hide [] = true → Patched hide v w v
  /-- What the new tree does not have is gone. -/
  | gone {hide : Path → Bool} {v : Value} : hide [] = false → Patched hide v .missing .missing
  /-- A scalar of the new tree is there. -/
  | scalar {hide : Path → Bool} {v w r : Value} : hide [] = false → w.Plain → w.kind? = none →
      Alike r w → r.Plain → Patched hide v w r
  /-- A container of the new tree is there, patched slot by slot. -/
  | container {hide : Path → Bool} {v w r : Value} {k : Kind} : hide [] = false →
      w.kind? = some k → r.kind? = some k → r.Tidy →
      (∀ c, k = c.kind →
        Patched (fun q => hide (c :: q)) (v.slot c) (w.slot c) (r.slot c)) → Patched hide v w r

/-- **The first update of a container** makes sure that there is one of the right kind, in whose
slots is what the deletions left. If the old tree has a container of this kind, it is kept;
otherwise nothing was left in it that could be lost. -/
theorem exists_opened {k : Kind} (hh : hide [] = false) (hv : v.MaybePlain) (hw : w.Plain)
    (hk : w.kind? = some k) (h : Thinned hide t v w) :
    ∃ t', apply t ((update? w v).toList.map (Node.mk [])) = .ok t' ∧ t'.kind? = some k ∧
      t'.Tidy ∧ ∀ c, k = c.kind →
        Thinned (fun q => hide (c :: q)) (t'.slot c) (v.slot c) (w.slot c) := by
  rw [update?_container hv hk]
  by_cases hkv : v.kind? = some k
  · rcases hv with rfl | hv
    · exact absurd hkv (by simp [Value.kind?])
    · obtain ⟨kind, tidy, slots⟩ := h.slots hh hv hw
      rw [if_pos hkv]
      exact ⟨t, rfl, kind.trans hkv, tidy, fun c _ => slots c⟩
  · obtain ⟨kind, tidy⟩ := Value.kind?_empty k
    refine ⟨Value.empty k, ?_, kind, tidy, fun c hc => ?_⟩
    · rw [if_neg hkv]
      have there : (Value.empty k).isMissing = false := by cases k <;> rfl
      exact bind_eq_ok_iff.mpr ⟨_, Path.set_root t there, rfl⟩
    · rw [Value.slot_empty, Value.slot_of_kind?_ne (hc ▸ hkv)]
      exact thinned_missing_iff.mpr rfl

/-- **The updates below a container** patch every slot, if the updates in every slot do. This is the
induction step over the new tree. -/
theorem exists_patched_below {k : Kind} (hh : hide [] = false) (hv : v.MaybePlain) (hw : w.Plain)
    (hk : w.kind? = some k) (kind : t.kind? = some k) (tidy : t.Tidy)
    (slots : ∀ c, k = c.kind →
      Thinned (fun q => hide (c :: q)) (t.slot c) (v.slot c) (w.slot c))
    (ih : ∀ c x, (c, x) ∈ w.steps → ∀ s, Thinned (fun q => hide (c :: q)) s (v.slot c) x →
      ∃ r, apply s (updates ((v.slot c).prune fun q => hide (c :: q))
          (x.prune fun q => hide (c :: q))) = .ok r ∧
        Patched (fun q => hide (c :: q)) (v.slot c) x r) :
    ∃ r, apply t (w.steps.flatMap fun s =>
        (updates ((v.slot s.1).prune fun q => hide (s.1 :: q))
          (s.2.prune fun q => hide (s.1 :: q))).map (Node.under s.1)) = .ok r ∧
      Patched hide v w r := by
  have keys := hw.wellKeyed.hasUniqueKeys
  have fits : ∀ s ∈ w.steps, k = s.1.kind := fun s hs =>
    Option.some.inj (hk.symm.trans (Value.kind?_of_mem_steps hs))
  obtain ⟨r, hr, kind', tidy', done, rest⟩ := apply_steps
    (P := fun s r => Patched (fun q => hide (s.1 :: q)) (v.slot s.1) s.2 r)
    (f := fun s => updates ((v.slot s.1).prune fun q => hide (s.1 :: q))
      (s.2.prune fun q => hide (s.1 :: q)))
    (Value.nodup_steps keys) (fun s hs => kind.trans (congrArg some (fits s hs))) tidy
    fun s hs => by
      have thinned := slots s.1 (fits s hs)
      rw [Value.slot_of_mem_steps keys hs] at thinned
      exact ih s.1 s.2 hs _ thinned
  refine ⟨r, hr, .container hh hk (kind'.trans kind) tidy' fun c hc => ?_⟩
  by_cases hs : c ∈ w.steps.map Prod.fst
  · obtain ⟨s, mem, rfl⟩ := List.mem_map.mp hs
    rw [Value.slot_of_mem_steps keys mem]
    exact done s mem
  · -- the new tree has nothing there, so only what is hidden was left
    have thinned := slots c hc
    rw [rest c hs]
    rw [Value.slot_of_notMem_steps keys hs] at thinned ⊢
    cases hidden : hide [c] with
    | true =>
        rw [thinned.eq_of_hidden hidden]
        exact .hidden hidden
    | false =>
        rw [thinned.eq_missing hidden (hv.slot c)]
        exact .gone hidden

/-- The updates between pruned trees: that of the root, and then those between pruned slots. -/
theorem updates_prune (hh : hide [] = false) (hv : v.MaybePlain) (hw : w.Plain) :
    updates (v.prune hide) (w.prune hide) = (update? w v).toList.map (Node.mk []) ++
      w.steps.flatMap fun s => (updates ((v.slot s.1).prune fun q => hide (s.1 :: q))
        (s.2.prune fun q => hide (s.1 :: q))).map (Node.under s.1) := by
  rw [updates, writes_eq _ ((Value.isMissing_prune hh w).trans hw.present), update?_prune hh,
    Value.steps_prune hh, List.flatMap_map]
  simp only [Value.slot_prune hh hv.hasUniqueKeys, updates]

/-- **Updates patch what the deletions left.** By induction over the steps of the new tree; what is
hidden is never written. -/
theorem exists_patched (hv : v.MaybePlain) (hw : w.MaybePlain) (h : Thinned hide t v w) :
    ∃ r, apply t (updates (v.prune hide) (w.prune hide)) = .ok r ∧ Patched hide v w r := by
  induction w using Value.stepInduction generalizing t v hide with
  | step w ih =>
      cases hh : hide [] with
      | true =>
          rw [h.eq_of_hidden hh, Value.prune_of_hidden hh w, updates, writes_missing]
          exact ⟨v, rfl, .hidden hh⟩
      | false =>
          rcases hw with rfl | hw
          · rw [h.eq_missing hh hv, Value.prune_missing, updates, writes_missing]
            exact ⟨missing, rfl, .gone hh⟩
          · rw [updates_prune hh hv hw]
            cases hk : w.kind? with
            | none =>
                rw [Value.steps_eq_nil hk, List.flatMap_nil, List.append_nil]
                rcases update?_scalar hv hw hk with hu | ⟨hu, scalar, plain, alike⟩
                · refine ⟨w, ?_, .scalar hh hw hk hw.alike_self hw⟩
                  rw [hu]
                  exact bind_eq_ok_iff.mpr ⟨_, Path.set_root t hw.present, rfl⟩
                · rw [hu, h.eq_of_kind?_eq_none hh hv scalar hw]
                  exact ⟨v, rfl, .scalar hh hw hk alike plain⟩
            | some k =>
                obtain ⟨t₁, ht₁, kind, tidy, slots⟩ := exists_opened hh hv hw hk h
                rw [apply_append_of_eq_ok ht₁]
                exact exists_patched_below hh hv hw hk kind tidy slots
                  fun c x hx s hs => ih c x hx (hv.slot c) (.inr (hw.step hx)) hs

/-! ### Where nothing is hidden -/

/-- A new tree that has nothing there leaves nothing that can be seen. -/
theorem Patched.eq_missing {r : Value} (h : Patched hide v missing r) (hh : hide [] = false) :
    r = missing := by
  cases h with
  | hidden hs => exact absurd (hs.symm.trans hh) (by simp)
  | gone => rfl
  | scalar _ plain => exact absurd plain.present (by simp [Value.isMissing])
  | container _ hk => exact absurd hk (by simp [Value.kind?])

/-- **A patched tree is like the new tree** where nothing is hidden, and it is plain. -/
theorem Patched.alike {r : Value} (h : Patched hide v w r) (seen : ∀ q, hide q = false)
    (hw : w.Plain) : Alike r w ∧ r.Plain := by
  induction h with
  | hidden hs => exact absurd (hs.symm.trans (seen [])) (by simp)
  | gone => exact absurd hw.present (by simp [Value.isMissing])
  | scalar _ _ _ alike plain => exact ⟨alike, plain⟩
  | @container hide v w r k hh hk hr tidy slots ih =>
      have keys := hw.wellKeyed.hasUniqueKeys
      have container : w.isContainer = true := by rw [Value.isContainer, hk]; rfl
      refine Value.alike_of_slots hw (hr.trans hk.symm) container tidy (fun c x hx => ?_)
        fun c hc => ?_
      · have fits : k = c.kind := Option.some.inj (hk.symm.trans (Value.kind?_of_mem_steps hx))
        have patched := ih c fits (fun q => seen (c :: q))
        rw [Value.slot_of_mem_steps keys hx] at patched
        exact patched (hw.step hx)
      · by_cases fits : k = c.kind
        · have patched := slots c fits
          rw [Value.slot_of_notMem_steps keys hc] at patched
          exact patched.eq_missing (seen [c])
        · exact Value.slot_of_kind?_ne fun he => fits (Option.some.inj (hr.symm.trans he))

end Pruned

/-- What the deletions of everything that another tree does not have leave of a tree. -/
def Cleared (t v w : Value) : Prop := apply v (deletions v w) = .ok t

/-- Deletions leave something of every tree. -/
theorem exists_cleared (v w : Value) : ∃ t, Cleared t v w :=
  exists_apply_of_missing (fun _ hn => value_of_mem_deletions hn) v

/-- **Updates turn what the deletions left into the new tree.** -/
theorem exists_updated {t v w : Value} (hv : v.MaybePlain) (hw : w.Plain) (h : Cleared t v w) :
    ∃ r, apply t (updates v w) = .ok r ∧ Alike r w ∧ r.Plain := by
  have thinned : Thinned (fun _ => false) t v w := by
    rw [Thinned, Value.prune_nothing, Value.prune_nothing]
    exact h
  obtain ⟨r, hr, patched⟩ := exists_patched hv (.inr hw) thinned
  rw [Value.prune_nothing, Value.prune_nothing] at hr
  exact ⟨r, hr, patched.alike (fun _ => rfl) hw⟩

/-! ### Round trip -/

/-- Plain trees can be walked. -/
theorem every_isWalkable_of_plain {v : Value} (h : v.Plain) : v.every isWalkable = true := by
  refine Value.every_mono (fun w hw => ?_) h
  cases w with
  | dict entries => exact (Bool.and_eq_true_iff.mp hw).1
  | _ => simp_all [Value.isPlainNode, isWalkable, Value.isPrimitive]

/-- A walk over a plain tree ends. -/
theorem exists_leaves_of_plain {v : Value} (h : v.Plain) :
    ∃ ls, leaves { includeContainers := true } v = .ok ls :=
  exists_leaves _ (every_isWalkable_of_plain h)

/-- **Patches bring one tree to the other**: between plain trees there is a patch, every write of it
goes well, and the result is plain and like the new tree. -/
theorem round_trip {before after : Value} (hb : before.Plain) (ha : after.Plain) :
    ∃ patch result, Diff.patch {} before after = .ok patch ∧ apply before patch = .ok result ∧
      Alike result after ∧ result.Plain := by
  obtain ⟨old, hold⟩ := exists_leaves_of_plain hb
  obtain ⟨new, hnew⟩ := exists_leaves_of_plain ha
  obtain ⟨t, ht⟩ := exists_cleared before after
  obtain ⟨result, happly, alike, plain⟩ := exists_updated (.inr hb) ha ht
  refine ⟨_, result, patch_eq hb.wellKeyed ha.wellKeyed hold hnew, ?_, alike, plain⟩
  rw [apply_append_of_eq_ok ht, happly]

/-- A list gives way to a dictionary with its numerals, a scalar to a list of lists, and a list gets
shorter. Each of these needs the deletions to come first. -/
theorem round_trip_kinds :
    ∃ patch result, Diff.patch {}
        (.dict [(.str "a", .list [.int 1, .dict [(.str "x", .null)], .int 2]),
          (.str "b", .str "s"), (.str "c", .list [.bool true, .list [.null], .int 3])])
        (.dict [(.str "b", .list [.list [], .list [.int 0]]), (.str "c", .list [.list [.null]]),
          (.str "a", .dict [(.str "1", .int 1), (.str "0", .null)])]) = .ok patch ∧
      apply (.dict [(.str "a", .list [.int 1, .dict [(.str "x", .null)], .int 2]),
          (.str "b", .str "s"), (.str "c", .list [.bool true, .list [.null], .int 3])])
        patch = .ok result ∧
      Alike result (.dict [(.str "b", .list [.list [], .list [.int 0]]),
          (.str "c", .list [.list [.null]]),
          (.str "a", .dict [(.str "1", .int 1), (.str "0", .null)])]) ∧
      result.Plain :=
  round_trip (by decide) (by decide)

end TreeDelta.Patch
