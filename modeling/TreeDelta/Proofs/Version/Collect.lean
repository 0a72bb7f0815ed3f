import TreeDelta.Proofs.Forall2
import TreeDelta.Proofs.Tree.Fit
import TreeDelta.Proofs.Tree.Part
import TreeDelta.Proofs.Tree.Reach

/-!
# Collecting old values

Old values are written to a tree of their own, one after the other. A container among them is shared
with the change that it comes from: a later write below its place shows in the change, too, until
something at or above the place is written (`Version.Shared`). A collection starts with changes
between a previous tree and another one (`Version.Collectable`) and never fails, because the tree of
old values fits the previous tree all the time (`Version.exists_addAll`).

## Main definitions

* `Version.Collectable`: changes whose old values come from a tree.
* `Version.Apart`: no write below the place of a shared value changes it.
* `Version.Ordered`: no write is at or above a place that an old value was written to before.
* `Version.Collected`: what holds after the old values at some paths were written.

## Main results

* `Version.exists_add`, `Version.exists_addAll`: one write, and a whole collection.
* `Version.exists_addAll_of_step`: what every write keeps.
-/

namespace TreeDelta.Version

open Value (Fits SameRoot)

/-! ### Changes to collect -/

/-- The old values of some changes come from a tree, and none was collected yet. -/
structure Collectable (previous : Value) (ks : List KeptChange) : Prop where
  /-- No two changes are at one path. -/
  nodup : (ks.map KeptChange.path).Nodup
  /-- An old value fits the value at its place. -/
  fits : ∀ k ∈ ks, k.toChange.old.isMissing = true ∨
    ∃ w, k.path.find? previous = some w ∧ Fits w k.toChange.old
  /-- An old value that stands in a tree is a container. -/
  claimed : ∀ k ∈ ks, ∀ s, k.old? = some s → s.treePlace?.isSome = true → s.value.isContainer = true
  /-- No old value stands in a tree of old values. -/
  unplaced : ∀ k ∈ ks, ∀ s, k.old? = some s → s.oldPlace? = none

variable (ks : List KeptChange) (paths : List Path)

/-- Writing an old value below the place of another one, which is a container, leaves that container
as it is. -/
def Apart : Prop :=
  ∀ k ∈ ks, k.path ∈ paths → k.path ≠ [] → ∀ s, k.old? = some s → s.value.isContainer = true →
    ∀ k' ∈ ks, k'.path ∈ paths → ∀ r : Path, r ≠ [] → k'.path.texts = k.path.texts ++ r.texts →
      r.set s.value k'.toChange.old = .ok s.value

/-- No write is at or above a place that an old value was written to before. -/
def Ordered : Prop :=
  paths.Pairwise fun q p =>
    ∀ k ∈ ks, k.path = q → k.old?.isSome = true → ¬p.texts <+: q.texts

/-! ### Shared values -/

/-- What became of the old value `s₀` of the change `k₀` when the old values at the paths `done`
were written to the tree `values`. -/
structure Shared (values : Value) (done : List Path) (k₀ : KeptChange) (s₀ s : SharedValue) :
    Prop where
  /-- Its place in the previous tree is the same. -/
  tree : s.treePlace? = s₀.treePlace?
  /-- A container may have other contents, but nothing else changes. -/
  root : SameRoot s₀.value s.value
  /-- Where it stands in the tree of old values it is a container that was written there. -/
  placed : ∀ q, s.oldPlace? = some q → q = k₀.path ∧ q ∈ done ∧ q ≠ [] ∧
    s.value.isContainer = true ∧ q.reach? values = some s.value
  /-- It is as it was until it is written. -/
  waiting : k₀.path ∉ done → s.value = s₀.value ∧ s.oldPlace? = none
  /-- It stays as it was when the old values are apart. -/
  same : Apart ks paths → s.value = s₀.value
  /-- A container that was written is followed all the time when the old values are ordered. -/
  tracked : Ordered ks paths → k₀.path ∈ done → k₀.path ≠ [] → s.value.isContainer = true →
    s.oldPlace? = some k₀.path

/-- What became of a change when some old values were written. -/
structure Kept (values : Value) (done : List Path) (k₀ k : KeptChange) : Prop where
  /-- It is at the same path. -/
  path : k.path = k₀.path
  /-- It has the same new value. -/
  new : k.new? = k₀.new?
  /-- Without an old value it gets none. -/
  absent : k₀.old? = none → k.old? = none
  /-- Its old value is shared. -/
  shared : ∀ s₀, k₀.old? = some s₀ → ∃ s, k.old? = some s ∧ Shared ks paths values done k₀ s₀ s

/-- What holds after the old values at the paths `done` were written. -/
structure Collected (previous : Value) (done : List Path) (c : Collection) : Prop where
  /-- The tree of old values fits the previous tree. -/
  fits : Fits previous c.values
  /-- The changes are those that there were. -/
  kept : List.Forall₂ (Kept ks paths c.values done) ks c.changes
  /-- There is still a previous tree. -/
  previous : c.previous ≠ .null
  /-- What was written is there when the old values are ordered. -/
  present : Ordered ks paths → ∀ k ∈ ks, k.path ∈ done → k.path ≠ [] →
    k.toChange.old.isMissing = false → ∃ u, k.path.reach? c.values = some u ∧ u.isMissing = false

variable {ks paths} {previous values values' : Value} {done : List Path} {p : Path}
  {k₀ k₁ : KeptChange} {s₀ s : SharedValue}

/-- A value at or above whose place something is written is not followed any more. It keeps the
contents that it had, and the tree has another value there. -/
theorem followOld_above {q : Path} (hq : s.oldPlace? = some q) (above : p.texts <+: q.texts) :
    s.followOld p values = { s with oldPlace? := none } := by
  have gone : q.isAtOrBelow p = true := Path.isAtOrBelow_iff.mpr above
  simp only [SharedValue.followOld, hq, Path.follow, gone, if_true]

/-- Any other write leaves a value as it is, or happens in it. -/
theorem followOld_below {q : Path} {x : Value} (hq : s.oldPlace? = some q)
    (there : q.reach? values = some s.value) (container : s.value.isContainer = true)
    (hset : p.set values x = .ok values') (apart : ¬p.texts <+: q.texts) :
    ∃ u, s.followOld p values' = { s with value := u } ∧ q.reach? values' = some u ∧
      u.kind? = s.value.kind? ∧ (u = s.value ∨
        ∃ r : Path, r ≠ [] ∧ p.texts = q.texts ++ r.texts ∧ r.set s.value x = .ok u) := by
  obtain ⟨u, hu, edited⟩ :=
    Path.reach?_set there (Value.isMissing_of_isContainer container) hset apart
  have stays : q.isAtOrBelow p = false :=
    Bool.eq_false_iff.mpr fun h => apart (Path.isAtOrBelow_iff.mp h)
  refine ⟨u, ?_, hu, ?_, edited⟩
  · simp only [SharedValue.followOld, hq, Path.follow, stays, hu]
    rfl
  · rcases edited with rfl | ⟨r, hr, -, hset⟩
    · rfl
    · exact Path.kind?_set hr container hset

/-- **An old value follows a write** of another one. -/
theorem Shared.follow {rest : List Path} (h : Shared ks paths values done k₀ s₀ s) (h₀ : k₀ ∈ ks)
    (h₁ : k₁ ∈ ks) (hs : k₀.old? = some s₀) (order : paths = done ++ k₁.path :: rest)
    (hne : k₀.path ≠ k₁.path) (hset : k₁.path.set values k₁.toChange.old = .ok values') :
    Shared ks paths values' (done ++ [k₁.path]) k₀ s₀ (s.followOld k₁.path values') := by
  have earlier : k₀.path ∈ done ++ [k₁.path] ↔ k₀.path ∈ done := by simp [hne]
  cases hp : s.oldPlace? with
  | none =>
      have unplaced : s.followOld k₁.path values' = s := by rw [SharedValue.followOld, hp]
      rw [unplaced]
      exact {
        tree := h.tree
        root := h.root
        placed := fun q hq => absurd (hp.symm.trans hq) (by simp)
        waiting := fun hn => h.waiting fun hd => hn (earlier.mpr hd)
        same := h.same
        tracked := fun o hd => h.tracked o (earlier.mp hd) }
  | some q =>
      obtain ⟨rfl, before, below_root, container, there⟩ := h.placed q hp
      by_cases above : k₁.path.texts <+: k₀.path.texts
      · -- such a write does not occur when the old values are ordered
        rw [followOld_above hp above]
        refine {
          tree := h.tree
          root := h.root
          placed := fun q hq => absurd hq (by simp)
          waiting := fun hn => absurd (earlier.mpr before) hn
          same := h.same
          tracked := fun o _ _ _ => ?_ }
        have o' : Ordered ks (done ++ k₁.path :: rest) := order ▸ o
        have apart := (List.pairwise_append.mp o').2.2 _ before _ List.mem_cons_self k₀ h₀ rfl
        exact absurd above (apart (by rw [hs]; rfl))
      · obtain ⟨u, followed, hu, kind, edited⟩ := followOld_below hp there container hset above
        have still : u.isContainer = true := by rw [Value.isContainer, kind]; exact container
        rw [followed]
        refine {
          tree := h.tree
          root := ⟨kind.trans h.root.kind, fun bare => ?_⟩
          placed := fun q hq => ?_
          waiting := fun hn => absurd (earlier.mpr before) hn
          same := fun a => ?_
          tracked := fun _ _ _ _ => hp }
        · rw [Value.isContainer, h.root.kind, bare] at container
          exact absurd container (by simp)
        · obtain rfl : k₀.path = q := Option.some.inj (hp.symm.trans hq)
          exact ⟨rfl, List.mem_append_left _ before, below_root, still, hu⟩
        · have same := h.same a
          rcases edited with rfl | ⟨r, hr, texts, hset⟩
          · exact same
          · have mem : ∀ q, q ∈ done ++ [k₁.path] → q ∈ paths := by
              intro q hq
              rw [order, List.append_cons]
              exact List.mem_append_left _ hq
            have kept := a k₀ h₀ (mem _ (earlier.mpr before)) below_root s₀ hs (same ▸ container)
              k₁ h₁ (mem _ (by simp)) r hr texts
            rw [same] at hset
            exact Except.ok.inj (hset.symm.trans kept)

/-- **An old value is shared** from the time when it is written, if it is a container. -/
theorem Shared.place (h : Shared ks paths values done k₀ s₀ s) (hn : k₀.path ∉ done)
    (hne : k₀.path ≠ []) (hset : k₀.path.set values s₀.value = .ok values') :
    Shared ks paths values' (done ++ [k₀.path]) k₀ s₀
      (if s.value.isContainer then { s with oldPlace? := some k₀.path } else s) := by
  obtain ⟨same, unplaced⟩ := h.waiting hn
  have now : k₀.path ∈ done ++ [k₀.path] := by simp
  split
  · next container =>
      refine {
        tree := h.tree
        root := h.root
        placed := fun q hq => ?_
        waiting := fun hn => absurd now hn
        same := h.same
        tracked := fun _ _ _ _ => rfl }
      obtain rfl : k₀.path = q := Option.some.inj hq
      rw [← same] at hset
      exact ⟨rfl, now, hne, container,
        Path.reach?_set_self (Value.isMissing_of_isContainer container) hset⟩
  · next bare =>
      exact {
        tree := h.tree
        root := h.root
        placed := fun q hq => absurd (unplaced.symm.trans hq) (by simp)
        waiting := fun hn => absurd now hn
        same := h.same
        tracked := fun _ _ _ container => absurd container bare }

/-! ### Changes under a write -/

/-- There is one change at a path, so a path tells which old value is written. -/
theorem Collectable.eq_of_path (collectable : Collectable previous ks) (h₀ : k₀ ∈ ks) (h₁ : k₁ ∈ ks)
    (h : k₀.path = k₁.path) : k₀ = k₁ :=
  List.inj_on_of_nodup_map collectable.nodup h₀ h₁ h

/-- What is written for a change is its old value as it was. -/
theorem written_eq (collectable : Collectable previous ks) {changes : List KeptChange}
    (h : List.Forall₂ (Kept ks paths values done) ks changes) (h₁ : k₁ ∈ ks)
    (hn : k₁.path ∉ done) :
    (((changes.find? fun k => k.path == k₁.path).bind KeptChange.old?).map
      SharedValue.value).getD .missing = k₁.toChange.old := by
  obtain ⟨k, hk, kept⟩ := exists_of_mem_left h h₁
  have found : (changes.find? fun k => k.path == k₁.path).isSome = true :=
    List.find?_isSome.mpr ⟨k, hk, beq_iff_eq.mpr kept.path⟩
  obtain ⟨l, hl⟩ := Option.isSome_iff_exists.mp found
  obtain ⟨k₀, h₀, kept₀⟩ := exists_of_mem_right h (List.mem_of_find?_eq_some hl)
  have at_path := List.find?_some hl
  obtain rfl := collectable.eq_of_path h₀ h₁ (kept₀.path.symm.trans (beq_iff_eq.mp at_path))
  rw [hl, Option.bind_some]
  show _ = (k₀.old?.map SharedValue.value).getD .missing
  cases ho : k₀.old? with
  | none => rw [kept₀.absent ho]
  | some s₀ =>
      obtain ⟨s, hs, shared⟩ := kept₀.shared s₀ ho
      rw [hs]
      exact (shared.waiting hn).1

/-- **A change after a write**: the one whose old value is written is shared from now on, and the
old values of the others follow the write. -/
theorem Kept.write {rest : List Path} {k : KeptChange} (collectable : Collectable previous ks)
    (h : Kept ks paths values done k₀ k) (h₀ : k₀ ∈ ks) (h₁ : k₁ ∈ ks)
    (order : paths = done ++ k₁.path :: rest) (hn : k₁.path ∉ done) (hne : k₁.path ≠ [])
    (hset : k₁.path.set values k₁.toChange.old = .ok values') :
    Kept ks paths values' (done ++ [k₁.path]) k₀
      (if k.path == k₁.path then k.place
        else { k with old? := k.old?.map fun s => s.followOld k₁.path values' }) := by
  by_cases he : k₀.path = k₁.path
  · obtain rfl := collectable.eq_of_path h₀ h₁ he
    have at_path : (k.path == k₀.path) = true := beq_iff_eq.mpr h.path
    rw [if_pos at_path]
    refine ⟨h.path, h.new, fun hnone => ?_, fun s₀ hs₀ => ?_⟩
    · rw [KeptChange.place, h.absent hnone]
      rfl
    · obtain ⟨s, hs, shared⟩ := h.shared s₀ hs₀
      have value : k₀.toChange.old = s₀.value := by
        show (k₀.old?.map SharedValue.value).getD .missing = s₀.value
        rw [hs₀]
        rfl
      rw [value] at hset
      refine ⟨_, ?_, shared.place hn hne hset⟩
      rw [KeptChange.place, hs, h.path]
      rfl
  · have elsewhere : ¬(k.path == k₁.path) = true := fun hp => he (h.path ▸ beq_iff_eq.mp hp)
    rw [if_neg elsewhere]
    refine ⟨h.path, h.new, fun hnone => ?_, fun s₀ hs₀ => ?_⟩
    · simp only [h.absent hnone, Option.map_none]
    · obtain ⟨s, hs, shared⟩ := h.shared s₀ hs₀
      exact ⟨_, by simp only [hs, Option.map_some], shared.follow h₀ h₁ hs₀ order he hset⟩

/-- Changes stay as they are when the change at the root is passed over: a write at the root
replaces no value inside the tree. -/
theorem Kept.skip {k : KeptChange} (h : Kept ks paths values done k₀ k) :
    Kept ks paths values (done ++ [[]]) k₀ k := by
  refine ⟨h.path, h.new, h.absent, fun s₀ hs₀ => ?_⟩
  obtain ⟨s, hs, shared⟩ := h.shared s₀ hs₀
  refine ⟨s, hs, {
    tree := shared.tree
    root := shared.root
    placed := fun q hq => ?_
    waiting := fun hn => shared.waiting fun hd => hn (List.mem_append_left _ hd)
    same := shared.same
    tracked := fun o hd hne => shared.tracked o ?_ hne }⟩
  · obtain ⟨rfl, before, rest⟩ := shared.placed q hq
    exact ⟨rfl, List.mem_append_left _ before, rest⟩
  · exact (List.mem_append.mp hd).resolve_right fun hl => hne (List.mem_singleton.mp hl)

/-! ### The previous tree -/

/-- What was written is no null, unless null was written at the root. -/
theorem assign_ne_null {tree x r : Value} (hx : x ≠ .null) (h : p.assign tree x = .ok r) :
    r ≠ .null := by
  rw [Path.assign] at h
  cases p with
  | nil => rwa [← Except.ok.inj h]
  | cons c p =>
      rw [Path.assignFrom] at h
      obtain ⟨container, hopen, h⟩ := bind_eq_ok_iff.mp h
      obtain ⟨child, -, h⟩ := bind_eq_ok_iff.mp h
      obtain rfl := Except.ok.inj h
      have admitted := (Value.openFor_eq_ok_iff.mp hopen).2
      cases container <;> cases c <;> simp_all [Value.admits, Value.putChild]

/-- Old values that are shared with the previous tree leave a previous tree. Only a null would make
the version forget that there is one. -/
theorem foldl_restore_ne_null {changes : List KeptChange} {tree : Value} (ht : tree ≠ .null)
    (h : ∀ k ∈ changes, ∀ s, k.old? = some s → s.treePlace?.isSome = true →
      s.value.isContainer = true) : changes.foldl KeptChange.restore tree ≠ .null := by
  induction changes generalizing tree with
  | nil => exact ht
  | cons k ks ih =>
      refine ih ?_ fun l hl => h l (List.mem_cons_of_mem k hl)
      rw [KeptChange.restore]
      split
      · next value place q hk =>
          have container := h k List.mem_cons_self _ hk rfl
          have no_null : value ≠ .null := by
            rintro rfl
            exact absurd container (by simp [Value.isContainer, Value.kind?])
          cases hr : place.assign tree value with
          | ok r => exact assign_ne_null no_null hr
          | error fault => exact ht
      · exact ht

/-! ### Collecting -/

/-- An old value that is there is one that the change has. The default for a change without one is
missing. -/
theorem exists_old? {c : Change} (there : c.old.isMissing = false) : ∃ x, c.old? = some x := by
  cases hx : c.old? with
  | some x => exact ⟨x, rfl⟩
  | none =>
      rw [Change.old, hx] at there
      exact absurd there (by simp [Value.isMissing])

/-- A value that was written before is still there after a write, when the old values are
ordered. -/
theorem present_of_set {rest : List Path} {k : KeptChange} {u x : Value} (order : Ordered ks paths)
    (hpaths : paths = done ++ p :: rest) (hk : k ∈ ks) (hd : k.path ∈ done)
    (there : k.toChange.old.isMissing = false) (hu : k.path.reach? values = some u)
    (present : u.isMissing = false) (hset : p.set values x = .ok values') :
    ∃ u', k.path.reach? values' = some u' ∧ u'.isMissing = false := by
  have some_old : k.old?.isSome = true := by
    obtain ⟨x, hx⟩ := exists_old? there
    obtain ⟨s, hs, -⟩ := Option.map_eq_some_iff.mp hx
    exact Option.isSome_iff_exists.mpr ⟨s, hs⟩
  rw [hpaths] at order
  have apart := (List.pairwise_append.mp order).2.2 _ hd _ List.mem_cons_self k hk rfl some_old
  obtain ⟨u', hu', edited⟩ := Path.reach?_set hu present hset apart
  refine ⟨u', hu', ?_⟩
  rcases edited with rfl | ⟨r, hr, -, hr'⟩
  · exact present
  · exact Path.isMissing_set hr present hr'

/-- Old values that were collected leave a previous tree where they are shared with it. -/
theorem restored_ne_null {changes : List KeptChange} {tree : Value}
    (collectable : Collectable previous ks) (ht : tree ≠ .null)
    (h : List.Forall₂ (Kept ks paths values done) ks changes) :
    changes.foldl KeptChange.restore tree ≠ .null := by
  refine foldl_restore_ne_null ht fun k hk s hs claimed => ?_
  obtain ⟨k₀, h₀, hk₀⟩ := exists_of_mem_right h hk
  cases ho : k₀.old? with
  | none => exact absurd ((hk₀.absent ho).symm.trans hs) (by simp)
  | some s₀ =>
      obtain ⟨s', hs', shared⟩ := hk₀.shared s₀ ho
      obtain rfl : s' = s := Option.some.inj (hs'.symm.trans hs)
      rw [shared.tree] at claimed
      rw [Value.isContainer, shared.root.kind]
      exact collectable.claimed k₀ h₀ s₀ ho claimed

/-- An old value can be written to a tree that fits the previous tree, and the tree still fits. So a
collection can always go on. -/
theorem exists_set_of_fits (collectable : Collectable previous ks) (h₁ : k₁ ∈ ks)
    (fits : Fits previous values) :
    ∃ values', k₁.path.set values k₁.toChange.old = .ok values' ∧ Fits previous values' := by
  rw [Path.set]
  cases hx : k₁.toChange.old.isMissing with
  | true => exact ⟨_, rfl, fits.erase k₁.path⟩
  | false =>
      obtain gone | ⟨w, hw, there⟩ := collectable.fits k₁ h₁
      · exact absurd (hx.symm.trans gone) (by simp)
      · obtain ⟨values', hvalues, kept⟩ := fits.exists_assign hw
        exact ⟨values', hvalues, kept there⟩

/-- **An old value can be written**, and what holds of a collection still does. -/
theorem exists_add {rest : List Path} {c : Collection} (collectable : Collectable previous ks)
    (h : Collected ks paths previous done c) (h₁ : k₁ ∈ ks)
    (order : paths = done ++ k₁.path :: rest) (hn : k₁.path ∉ done) :
    ∃ c', c.add k₁.path = .ok c' ∧ Collected ks paths previous (done ++ [k₁.path]) c' := by
  have earlier : ∀ k : KeptChange, k.path ∈ done ++ [k₁.path] → k.path ≠ k₁.path →
      k.path ∈ done := fun k hd he =>
    (List.mem_append.mp hd).resolve_right fun hl => he (List.mem_singleton.mp hl)
  by_cases root : k₁.path = []
  · refine ⟨c, ?_, h.fits, ?_, h.previous, fun o k hk hd hne => ?_⟩
    · rw [Collection.add, root]
      rfl
    · rw [root]
      exact h.kept.imp fun _ _ => Kept.skip
    · exact h.present o k hk (earlier k hd fun he => hne (he.trans root)) hne
  · obtain ⟨values, hset, fits⟩ := exists_set_of_fits collectable h₁ h.fits
    let write (k : KeptChange) : KeptChange :=
      if k.path == k₁.path then k.place
      else { k with old? := k.old?.map fun s => s.followOld k₁.path values }
    have kept : List.Forall₂ (Kept ks paths values (done ++ [k₁.path])) ks
        (c.changes.map write) := by
      refine List.forall₂_map_right_iff.mpr ?_
      refine ((List.forall₂_and_left ks c.changes).mpr ⟨fun _ hk => hk, h.kept⟩).imp ?_
      exact fun k₀ k ⟨h₀, hk⟩ => hk.write collectable h₀ h₁ order hn root hset
    refine ⟨⟨values, c.changes.map write,
      (c.changes.map write).foldl KeptChange.restore c.previous⟩,
      ?_, fits, kept, restored_ne_null collectable h.previous kept, fun o k hk hd hne there => ?_⟩
    · have below : ¬k₁.path.isEmpty = true := fun he => root (List.isEmpty_iff.mp he)
      rw [Collection.add, if_neg below]
      simp only [written_eq collectable h.kept h₁ hn, hset]
      rfl
    · by_cases he : k.path = k₁.path
      · obtain rfl := collectable.eq_of_path hk h₁ he
        exact ⟨_, Path.reach?_set_self there hset, there⟩
      · obtain ⟨u, hu, present⟩ := h.present o k hk (earlier k hd he) hne there
        exact present_of_set o order hk (earlier k hd he) there hu present hset

/-- What every write keeps holds after a whole collection, and the collection never fails. This is
the induction over the paths, for any property that a step lemma was shown of. -/
theorem exists_addAll_of_step {holds : List Path → Collection → Prop} {rest : List Path}
    {c : Collection} (nodup : paths.Nodup)
    (step : ∀ {done rest : List Path} {p : Path} {c : Collection}, paths = done ++ p :: rest →
      p ∉ done → holds done c → ∃ c', c.add p = .ok c' ∧ holds (done ++ [p]) c')
    (h : holds done c) (order : paths = done ++ rest) :
    ∃ c', c.addAll rest = (c', none) ∧ holds paths c' := by
  induction rest generalizing done c with
  | nil =>
      rw [List.append_nil] at order
      subst order
      exact ⟨c, rfl, h⟩
  | cons p rest ih =>
      have hn : p ∉ done := by
        rw [order] at nodup
        exact fun hd => (List.nodup_append.mp nodup).2.2 _ hd _ List.mem_cons_self rfl
      obtain ⟨c₁, added, h₁⟩ := step order hn h
      obtain ⟨c', all, whole⟩ := ih h₁ (by rw [order, List.append_cons])
      refine ⟨c', ?_, whole⟩
      rw [Collection.addAll, added]
      exact all

/-- **A collection never fails**: the old values at all paths can be written one after the other. -/
theorem exists_addAll {rest : List Path} {c : Collection} (collectable : Collectable previous ks)
    (nodup : paths.Nodup) (from_changes : ∀ q ∈ paths, ∃ k ∈ ks, k.path = q)
    (h : Collected ks paths previous done c) (order : paths = done ++ rest) :
    ∃ c', c.addAll rest = (c', none) ∧ Collected ks paths previous paths c' := by
  refine exists_addAll_of_step nodup (fun {done rest p c} order hn collected => ?_) h order
  obtain ⟨k₁, h₁, rfl⟩ := from_changes p (by rw [order]; simp)
  exact exists_add collectable collected h₁ order hn

end TreeDelta.Version
