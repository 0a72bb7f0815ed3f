import Mathlib
import TreeDelta.Proofs.Diff.Standing
import TreeDelta.Proofs.Version.Collect
import TreeDelta.Proofs.Version.Read

/-!
# Undisturbed questions

Questions to a version come in any order and any number of times. All answers but the one about the
changes are always what they are at first, and even the changes keep their paths, their new values
and their old values up to what is in old containers. An old container is shared with the tree of
old values, so a later write below its place shows in the change. Questions are undisturbed when no
such write has an effect, and without custom leaves only then (`Version.reads_undisturbed`).

## Main definitions

* `Change.Resembles`, `Answer.Resembles`: what agrees but for what is in old containers.
* `Version.Undisturbed`: every question has its first answer, whatever was asked before.
* `Version.OldValuesApart`: no old value is written below another one with an effect.

## Main results

* `Version.collectable_of_changeset`: the old values of a changeset can be collected.
* `Version.exists_outcome`: what the first questions to a version lead to.
* `Version.undisturbed_of_leaves`: with default leaves, questions are undisturbed.
* `Version.reads_undisturbed`: what questions keep, and when they are undisturbed.
-/

namespace TreeDelta

open Value (Fits SameRoot)

/-! ### Answers that agree up to old containers -/

/-- Changes that agree but for what is in their old containers. This is how far an answer can be
disturbed by a collection. -/
structure Change.Resembles (c d : Change) : Prop where
  /-- They are at one path. -/
  path : d.path = c.path
  /-- They have the same new value. -/
  new : d.new? = c.new?
  /-- Their old values are containers of one kind, or the same. -/
  old : Option.Rel SameRoot c.old? d.old?

/-- Answers that agree but for what is in the old containers of changes. No other part of an answer
may be different. -/
inductive Answer.Resembles : Answer → Answer → Prop
  /-- Answers that are the same. -/
  | refl (a : Answer) : Resembles a a
  /-- Lists of changes that agree one by one. -/
  | changes {cs ds : List Change} (h : List.Forall₂ Change.Resembles cs ds) :
      Resembles (.changes (some cs)) (.changes (some ds))

namespace Version

/-- Every question has the answer that it would have had at first, whatever was asked before. -/
def Undisturbed (v : Version) : Prop := ∀ rs r, ((v.after rs).answer r).1 = (v.answer r).1

/-- The changes whose old values are collected. -/
def collectedOf (v : Version) (changes : List Change) : List Change :=
  changes.filter fun c => !c.path.isEmpty && v.oldPatterns.any fun m => m.accepts c.path

/-- Writing a collected old value below the place of another one, which is a container, would leave
that container as it is. -/
def OldValuesApart (v : Version) : Prop :=
  v.hasPrevious = true → ∀ changes, Diff.changeset v.config v.previous v.current = .ok changes →
    ∀ c ∈ v.collectedOf changes, ∀ x, c.old? = some x → x.isContainer = true →
      ∀ d ∈ v.collectedOf changes, ∀ r : Path, r ≠ [] → d.path.texts = c.path.texts ++ r.texts →
        r.set x d.old = .ok x

/-! ### Collecting from a changeset -/

/-- What stands at a leaf fits the value there, so the old value of a change can be written in its
place. -/
theorem fits_of_shows {x : Diff.Content} {w : Value} (hw : w.WellKeyed) (h : x.Shows w) :
    Fits w x.value := by
  cases x with
  | atomic u =>
      obtain rfl : u = w := h
      exact .refl hw
  | container k => exact .empty h

/-- What stands at a leaf where a container is is a container, though it may be shown empty. -/
theorem isContainer_of_shows {x : Diff.Content} {w : Value} (hw : w.isContainer = true)
    (h : x.Shows w) : x.value.isContainer = true := by
  cases x with
  | atomic u =>
      obtain rfl : u = w := h
      exact hw
  | container k => cases k <;> rfl

section Changeset

variable {cfg : Diff.Config} {before after : Value} {changes : List Change} {c : Change} {x : Value}

/-- The old value of a change is what stands at a leaf of the old tree, together with the value that
the leaf shows. -/
theorem exists_leaf_of_old? (hb : before.WellKeyed) (ha : after.WellKeyed)
    (h : Diff.changeset cfg before after = .ok changes) (hc : c ∈ changes)
    (hx : c.old? = some x) :
    ∃ content w, content.value = x ∧ ⟨c.path, content⟩ ∈ Diff.leavesFrom cfg Path.root before ∧
      c.path.find? before = some w ∧ content.Shows w := by
  obtain ⟨old, new, hold, hnew, rfl⟩ := Diff.exists_leaves_of_changeset hb ha h
  obtain ⟨content, hmem, value⟩ :=
    Diff.mem_of_old? (Diff.nodup_leaves hold hb) (Diff.nodup_leaves hnew ha) hc hx
  obtain ⟨w, hw, shows⟩ := Diff.exists_find?_of_mem_leaves hb hold hmem
  rw [Diff.leaves_eq hold] at hmem
  exact ⟨content, w, value, hmem, hw, shows⟩

/-- **The old values of a changeset can be collected.** -/
theorem collectable_of_changeset (hb : before.WellKeyed) (ha : after.WellKeyed)
    (h : Diff.changeset cfg before after = .ok changes) :
    Collectable before (changes.map (KeptChange.ofChange cfg before after)) where
  nodup := by
    obtain ⟨old, new, hold, hnew, rfl⟩ := Diff.exists_leaves_of_changeset hb ha h
    rw [List.map_map]
    exact Diff.nodup_changesBy cfg (Diff.nodup_leaves hold hb) (Diff.nodup_leaves hnew ha)
  fits k hk := by
    obtain ⟨c, hc, rfl⟩ := List.mem_map.mp hk
    cases ho : c.old? with
    | none =>
        left
        show ((c.old?.map _).map _).getD Value.missing |>.isMissing
        rw [ho]
        rfl
    | some x =>
        right
        obtain ⟨content, w, rfl, -, hw, shows⟩ := exists_leaf_of_old? hb ha h hc ho
        refine ⟨w, hw, ?_⟩
        show Fits w (((c.old?.map _).map _).getD Value.missing)
        rw [ho]
        exact fits_of_shows (Value.every_of_find? hb hb hw) shows
  claimed k hk s hs there := by
    obtain ⟨c, hc, rfl⟩ := List.mem_map.mp hk
    obtain ⟨x, hx, rfl⟩ := Option.map_eq_some_iff.mp hs
    obtain ⟨content, w, rfl, -, hw, shows⟩ := exists_leaf_of_old? hb ha h hc hx
    refine isContainer_of_shows ?_ shows
    rw [SharedValue.ofLeaf, hw] at there
    cases ha : cfg.isAtomic? with
    | none => rw [ha] at there; exact absurd there (by simp)
    | some atomic =>
        rw [ha] at there
        cases hw : w.isContainer with
        | true => rfl
        | false => simp [hw] at there
  unplaced k hk s hs := by
    obtain ⟨c, hc, rfl⟩ := List.mem_map.mp hk
    obtain ⟨x, hx, rfl⟩ := Option.map_eq_some_iff.mp hs
    rfl

end Changeset

section Collected

variable {v : Version} {changes : List Change} {ks : List KeptChange} {paths : List Path}

/-- A version has a previous tree when that is no null, which stands for there being none. -/
theorem hasPrevious_iff : v.hasPrevious = true ↔ v.previous ≠ .null := by
  rw [hasPrevious]
  cases v.previous <;> simp

/-- Before any old value is written, the tree of old values is empty, and what holds of a collection
holds of this one. -/
theorem collected_start (collectable : Collectable v.previous ks) (hp : v.hasPrevious = true) :
    Collected ks paths v.previous [] ⟨v.emptyOldValues, ks, v.previous⟩ where
  fits := by
    rw [emptyOldValues]
    cases hv : v.previous with
    | list items => exact Fits.empty (k := .array) rfl
    | dict entries => exact Fits.empty (k := .object) rfl
    | _ => exact .free rfl
  kept := by
    refine List.forall₂_same.mpr fun k hk => ⟨rfl, rfl, id, fun s hs => ⟨s, hs, {
      tree := rfl
      root := .refl _
      placed := fun q hq => absurd ((collectable.unplaced k hk s hs).symm.trans hq) (by simp)
      waiting := fun _ => ⟨rfl, collectable.unplaced k hk s hs⟩
      same := fun _ => rfl
      tracked := fun _ hd => absurd hd (by simp) }⟩⟩
  previous := hasPrevious_iff.mp hp
  present _ _ _ hd := absurd hd (by simp)

/-- Every path to collect is the path of a change, as these paths are picked from the changes. -/
theorem exists_of_mem_oldPaths {q : Path} (hq : q ∈ v.oldPaths ks) : ∃ k ∈ ks, k.path = q :=
  List.mem_map.mp (List.mem_of_mem_filter hq)

/-- **What the first questions lead to**: the old values of a version that was not asked before can
be collected, and there is a tree of them when a path is to be collected. -/
theorem exists_outcome (hb : v.previous.WellKeyed) (ha : v.current.WellKeyed)
    (hp : v.hasPrevious = true)
    (h : Diff.changeset v.config v.previous v.current = .ok changes)
    (hks : changes.map (KeptChange.ofChange v.config v.previous v.current) = ks) :
    ∃ c, Collection.addAll ⟨v.emptyOldValues, ks, v.previous⟩ (v.oldPaths ks) = (c, none) ∧
      Collected ks (v.oldPaths ks) v.previous (v.oldPaths ks) c ∧
      Outcome v ks c.changes (if v.oldPaths ks = [] then none else some c.values) := by
  have collectable : Collectable v.previous ks := hks ▸ collectable_of_changeset hb ha h
  have compared : v.compare = .ok ks := by
    rw [compare, h, ← hks]
    rfl
  have start := @collected_start v ks (v.oldPaths ks) collectable hp
  have nodup : (v.oldPaths ks).Nodup := collectable.nodup.sublist List.filter_sublist
  obtain ⟨c, all, collected⟩ : ∃ c, Collection.addAll ⟨v.emptyOldValues, ks, v.previous⟩
      (v.oldPaths ks) = (c, none) ∧ Collected ks (v.oldPaths ks) v.previous (v.oldPaths ks) c :=
    exists_addAll collectable nodup (fun _ => exists_of_mem_oldPaths) start rfl
  have same_paths : c.changes.map KeptChange.path = ks.map KeptChange.path :=
    map_eq_of_forall₂ collected.kept fun _ _ kept => kept.path
  refine ⟨c, all, collected, ?_⟩
  by_cases none_match : v.oldPaths ks = []
  · -- nothing is collected, and the changes stay as they are
    rw [none_match] at all
    obtain rfl : ⟨v.emptyOldValues, ks, v.previous⟩ = c := (Prod.mk.inj all).1
    rw [if_pos none_match]
    refine ⟨compared, rfl, fun w reached waiting => ?_⟩
    have read := reached.readChanges_of_waiting waiting compared
    cases empty : v.oldPatterns.isEmpty with
    | true =>
        refine ⟨w, ?_, reached, _, read⟩
        rw [readOldValues, reached.hasPrevious, reached.patterns, empty]
        rfl
    | false =>
        refine ⟨{ w with changes? := some ks, oldValues? := some none }, ?_,
          ⟨reached.current, reached.config, reached.patterns, reached.hasPrevious, reached.paths,
            .inr ⟨rfl, rfl, empty⟩⟩, _, rfl⟩
        exact reached.readOldValues_of_unmatched waiting compared empty none_match
  · have nonempty : v.oldPatterns.isEmpty = false := by
      cases empty : v.oldPatterns with
      | nil => exact absurd (by simp [oldPaths, empty]) none_match
      | cons m ms => rfl
    rw [if_neg none_match]
    refine ⟨compared, same_paths, fun w reached waiting => ?_⟩
    refine ⟨{ w with
        previous := c.previous, changes? := some c.changes, oldValues? := some (some c.values) },
      ?_, ⟨reached.current, reached.config, reached.patterns,
        hasPrevious_iff.mpr collected.previous, reached.paths, .inr ⟨rfl, rfl, nonempty⟩⟩, _, rfl⟩
    exact reached.readOldValues_of_addAll waiting compared nonempty none_match all

end Collected

/-! ### Which reads are disturbed -/

section Disturbance

variable {v : Version} {changes : List Change} {ks : List KeptChange} {paths done : List Path}
  {values : Value}

/-- The old value of a change stays up to what is in it, however many old values are written. -/
theorem Kept.resembles {k₀ k : KeptChange} (h : Kept ks paths values done k₀ k) :
    Change.Resembles k₀.toChange k.toChange where
  path := h.path
  new := congrArg (Option.map SharedValue.value) h.new
  old := by
    show Option.Rel SameRoot (k₀.old?.map _) (k.old?.map _)
    cases ho : k₀.old? with
    | none => rw [h.absent ho]; exact .none
    | some s₀ =>
        obtain ⟨s, hs, shared⟩ := h.shared s₀ ho
        rw [hs]
        exact .some shared.root

/-- When the old values are apart, a change stays as it is: nothing that is written in its old
container has an effect. -/
theorem Kept.toChange_eq {k₀ k : KeptChange} (h : Kept ks paths values done k₀ k)
    (apart : Apart ks paths) : k.toChange = k₀.toChange := by
  rw [KeptChange.toChange, KeptChange.toChange, h.path, h.new]
  cases ho : k₀.old? with
  | none => rw [h.absent ho]
  | some s₀ =>
      obtain ⟨s, hs, shared⟩ := h.shared s₀ ho
      rw [hs, Option.map_some, Option.map_some, shared.same apart]

/-- The old value of a kept change is that of the change, along with what it is shared with. -/
theorem exists_of_old? {c : Change} {s : SharedValue}
    (h : (KeptChange.ofChange v.config v.previous v.current c).old? = some s) :
    c.old? = some s.value := by
  obtain ⟨x, hx, rfl⟩ := Option.map_eq_some_iff.mp h
  exact hx

/-- A kept change shows the old value of the change, whether or not it is shared. -/
theorem old?_toChange (c : Change) :
    (KeptChange.ofChange v.config v.previous v.current c).toChange.old? = c.old? := by
  show (c.old?.map _).map SharedValue.value = c.old?
  cases c.old? <;> rfl

/-- A kept change has the old value of the change, or is without one as the change is. -/
theorem old_toChange (c : Change) :
    (KeptChange.ofChange v.config v.previous v.current c).toChange.old = c.old := by
  rw [Change.old, Change.old, old?_toChange]

/-- The path of a change is one to collect when a pattern matches it. -/
theorem mem_oldPaths_iff {c : Change} (hc : c ∈ changes) :
    c.path ∈ v.oldPaths (changes.map (KeptChange.ofChange v.config v.previous v.current)) ↔
      (v.oldPatterns.any fun m => m.accepts c.path) = true := by
  have listed : c.path ∈ (changes.map (KeptChange.ofChange v.config v.previous v.current)).map
      KeptChange.path := by
    rw [List.map_map]
    exact List.mem_map_of_mem hc
  rw [oldPaths, List.mem_filter, and_iff_right listed]

/-- A change is collected when it is not at the root and its path is. The old value at the
root is written into no tree. -/
theorem mem_collectedOf_iff {c : Change} (hc : c ∈ changes) :
    c ∈ v.collectedOf changes ↔ c.path ≠ [] ∧
      c.path ∈ v.oldPaths (changes.map (KeptChange.ofChange v.config v.previous v.current)) := by
  rw [collectedOf, List.mem_filter, and_iff_right hc, mem_oldPaths_iff hc, Bool.and_eq_true,
    Bool.not_eq_true', List.isEmpty_eq_false_iff]

/-- Old values that are apart in the changeset are apart in the collection, where they are shared
but not yet written to. -/
theorem apart_of_oldValuesApart (hp : v.hasPrevious = true)
    (h : Diff.changeset v.config v.previous v.current = .ok changes)
    (hks : changes.map (KeptChange.ofChange v.config v.previous v.current) = ks)
    (apart : v.OldValuesApart) : Apart ks (v.oldPaths ks) := by
  subst hks
  intro k hk hp' below s hs container k' hk' hq' r hr texts
  obtain ⟨c, hc, rfl⟩ := List.mem_map.mp hk
  obtain ⟨d, hd, rfl⟩ := List.mem_map.mp hk'
  have further : d.path ≠ [] := by
    rintro root
    have texts : d.path.texts = c.path.texts ++ r.texts := texts
    rw [root] at texts
    exact hr (List.map_eq_nil_iff.mp (List.append_eq_nil_iff.mp texts.symm).2)
  have written := apart hp changes h c ((mem_collectedOf_iff hc).mpr ⟨below, hp'⟩) s.value
    (exists_of_old? hs) container d ((mem_collectedOf_iff hd).mpr ⟨further, hq'⟩) r hr texts
  rwa [old_toChange]

/-- **The old values of a changeset are ordered.** -/
theorem ordered_oldPaths (hb : v.previous.WellKeyed) (ha : v.current.WellKeyed)
    (h : Diff.changeset v.config v.previous v.current = .ok changes)
    (hks : changes.map (KeptChange.ofChange v.config v.previous v.current) = ks) :
    Ordered ks (v.oldPaths ks) := by
  have collectable : Collectable v.previous ks := hks ▸ collectable_of_changeset hb ha h
  obtain ⟨old, new, hold, hnew, rfl⟩ := Diff.exists_leaves_of_changeset hb ha h
  have ordered := Diff.changesBy_ordered hb ha hold hnew
  refine List.Pairwise.sublist List.filter_sublist (List.pairwise_map.mpr ?_)
  subst hks
  refine List.pairwise_map.mpr (ordered.imp_of_mem fun {c d} hcm hdm later k hk hpath hs => ?_)
  obtain rfl := collectable.eq_of_path hk (List.mem_map_of_mem hcm) hpath
  refine later ?_
  obtain ⟨s, hs⟩ := Option.isSome_iff_exists.mp hs
  rw [exists_of_old? hs]
  rfl

/-! ### Undisturbed reads -/

/-- Where nothing is compared, questions are undisturbed: either there is no previous tree, or the
comparison fails each time. -/
theorem compared_or_undisturbed (fresh : v.IsFresh) :
    (v.hasPrevious = true ∧
      ∃ changes, Diff.changeset v.config v.previous v.current = .ok changes) ∨
      v.Undisturbed := by
  cases hp : v.hasPrevious with
  | false =>
      right
      have start : Alone v v :=
        ⟨rfl, rfl, hp, fun _ hps => absurd (fresh.paths.symm.trans hps) (by simp)⟩
      intro rs r
      have reached : Alone v (v.after rs) :=
        after_invariant start (fun _ r alone => (alone.answer r).2) rs
      exact (reached.answer r).1.trans (start.answer r).1.symm
  | true =>
      cases hd : Diff.changeset v.config v.previous v.current with
      | ok changes => exact .inl ⟨rfl, changes, rfl⟩
      | error fault =>
          right
          intro rs r
          have same : v.after rs = v := by
            refine @after_invariant (· = v) v rfl (fun w r hw => ?_) rs
            rw [hw]
            exact answer_of_unsupported fresh hp hd r
          rw [same]

/-- Without custom leaves a container among the old values is empty and is reported as such. -/
theorem exists_kind_of_old? {cfg : Diff.Config} {before after x : Value} {c : Change}
    (hb : before.WellKeyed) (ha : after.WellKeyed) (hn : cfg.isAtomic? = none)
    (h : Diff.changeset cfg before after = .ok changes) (hc : c ∈ changes) (hx : c.old? = some x)
    (container : x.isContainer = true) :
    cfg.includeContainers = true ∧ ∃ k, x = Value.empty k := by
  obtain ⟨content, w, rfl, hmem, -⟩ := exists_leaf_of_old? hb ha h hc hx
  obtain ⟨reported, k, rfl⟩ := Diff.exists_kind_of_isContainer hn hmem container
  exact ⟨reported, k, rfl⟩

/-- One place of the old values below another one in texts is below it. -/
theorem exists_below_of_texts {cfg : Diff.Config} {before after x y : Value} {c d : Change}
    {r : Path} (hb : before.WellKeyed) (ha : after.WellKeyed)
    (h : Diff.changeset cfg before after = .ok changes) (hc : c ∈ changes) (hx : c.old? = some x)
    (hd : d ∈ changes) (hy : d.old? = some y) (hr : r ≠ [])
    (texts : d.path.texts = c.path.texts ++ r.texts) :
    ∃ q : Path, q ≠ [] ∧ d.path = c.path ++ q := by
  obtain ⟨-, w, -, -, hw, -⟩ := exists_leaf_of_old? hb ha h hc hx
  obtain ⟨-, w', -, -, hw', -⟩ := exists_leaf_of_old? hb ha h hd hy
  obtain ⟨q, hq⟩ := Path.isPrefix_of_texts hw hw' (texts ▸ List.prefix_append _ _)
  refine ⟨q, ?_, hq.symm⟩
  rintro rfl
  rw [List.append_nil] at hq
  rw [← hq] at texts
  exact hr (List.map_eq_nil_iff.mp (List.self_eq_append_right.mp texts))

/-- **A disturbed change**: an old value that was written below another one, which is a container,
is found in that container afterwards. -/
theorem disturbed_of_below {values' : Value} {c : Collection} {k k' : KeptChange} {s : SharedValue}
    {r : Path} (collected : Collected ks paths values' paths c) (ordered : Ordered ks paths)
    (hk : k ∈ ks) (hp : k.path ∈ paths) (below : k.path ≠ []) (hs : k.old? = some s)
    (container : s.value.isContainer = true) (hk' : k' ∈ ks) (hp' : k'.path ∈ paths)
    (there : k'.toChange.old.isMissing = false) (hpath : k'.path = k.path ++ r) :
    ∃ l ∈ c.changes, l.path = k.path ∧ ∃ x, l.toChange.old? = some x ∧
      (r.reach? x).isSome = true := by
  obtain ⟨l, hl, kept⟩ := exists_of_mem_left collected.kept hk
  obtain ⟨s', hs', shared⟩ := kept.shared s hs
  have still : s'.value.isContainer = true := by
    rw [Value.isContainer, shared.root.kind]
    exact container
  obtain ⟨-, -, -, -, reached⟩ := shared.placed _ (shared.tracked ordered hp below still)
  have further : k'.path ≠ [] := by
    rw [hpath]
    exact fun h => below (List.append_eq_nil_iff.mp h).1
  obtain ⟨u, hu, -⟩ := collected.present ordered k' hk' hp' further there
  rw [hpath, Path.reach?_append, reached, Option.bind_some] at hu
  exact ⟨l, hl, kept.path, s'.value, congrArg (Option.map SharedValue.value) hs', by rw [hu]; rfl⟩

/-- **Without custom leaves**, undisturbed reads need old values that are apart. -/
theorem oldValuesApart_of_undisturbed (fresh : v.IsFresh) (hb : v.previous.WellKeyed)
    (ha : v.current.WellKeyed) (hn : v.config.isAtomic? = none) (same : v.Undisturbed) :
    v.OldValuesApart := by
  intro hp changes h c hc x hx container d hd r hr texts
  have hcm := List.mem_of_mem_filter hc
  have hdm := List.mem_of_mem_filter hd
  obtain ⟨-, kind, rfl⟩ := exists_kind_of_old? hb ha hn h hcm hx container
  cases there : d.old.isMissing with
  | true => rw [Path.set, there, if_pos rfl, Path.erase_empty kind hr]
  | false =>
      exfalso
      obtain ⟨y, hy⟩ := exists_old? there
      obtain ⟨q, hq, hpath⟩ := exists_below_of_texts hb ha h hcm hx hdm hy hr texts
      obtain ⟨c', -, collected, o⟩ := exists_outcome hb ha hp h rfl
      obtain ⟨below, accepted⟩ := (mem_collectedOf_iff hcm).mp hc
      obtain ⟨-, accepted'⟩ := (mem_collectedOf_iff hdm).mp hd
      obtain ⟨l, hl, hlp, x, hlx, inside⟩ := disturbed_of_below collected
        (ordered_oldPaths hb ha h rfl) (List.mem_map_of_mem hcm) accepted below
        (by show c.old?.map _ = _; rw [hx]; rfl) container (List.mem_map_of_mem hdm) accepted'
        (by rw [old_toChange]; exact there) hpath
      -- the changes after the old values were collected are those before
      have answers := (answer_after_oldValues fresh hp o).symm.trans
        ((same [.oldValues] .changes).trans (fresh.answer hp o .changes))
      have listed : l.toChange ∈ c'.changes.map KeptChange.toChange := List.mem_map_of_mem hl
      rw [Option.some.inj (Answer.changes.inj answers)] at listed
      obtain ⟨k, hk, hkl⟩ := List.mem_map.mp listed
      have paths_eq : k.path = l.path := congrArg Change.path hkl
      obtain rfl := (collectable_of_changeset hb ha h).eq_of_path hk (List.mem_map_of_mem hcm)
        (paths_eq.trans hlp)
      rw [← hkl, old?_toChange, hx] at hlx
      rw [← Option.some.inj hlx, Path.reach?_empty kind hq] at inside
      exact absurd inside (by simp)

/-- All answers but the one about the changes are what they are at first, since they look at paths
and at the tree of old values only. -/
theorem answer_of_ne_changes (fresh : v.IsFresh) (hb : v.previous.WellKeyed)
    (ha : v.current.WellKeyed) (rs : List Read) {r : Read} (hr : r ≠ .changes) :
    ((v.after rs).answer r).1 = (v.answer r).1 := by
  rcases compared_or_undisturbed fresh with ⟨hp, changes, h⟩ | same
  · obtain ⟨c, -, -, o⟩ := exists_outcome hb ha hp h rfl
    rcases ((fresh.after hp o rs).answer o r).1 with now | ⟨rfl, -⟩
    · exact now.trans (fresh.answer hp o r).symm
    · exact absurd rfl hr
  · exact same rs r

/-- The answer about the changes is what it is at first, up to what is in old containers, or fails
as it did. -/
theorem resembles_changes (fresh : v.IsFresh) (hb : v.previous.WellKeyed)
    (ha : v.current.WellKeyed) (rs : List Read) :
    Answer.Resembles (v.answer .changes).1 ((v.after rs).answer .changes).1 := by
  rcases compared_or_undisturbed fresh with ⟨hp, changes, h⟩ | same
  · obtain ⟨c, -, collected, o⟩ := exists_outcome hb ha hp h rfl
    rw [fresh.answer hp o .changes]
    rcases ((fresh.after hp o rs).answer o .changes).1 with now | ⟨-, now⟩
    · rw [now]
      exact .refl _
    · rw [now]
      refine .changes ?_
      rw [List.forall₂_map_left_iff, List.forall₂_map_right_iff]
      exact collected.kept.imp fun _ _ => Kept.resembles
  · rw [same rs .changes]
    exact .refl _

/-- **Questions are undisturbed** when the old values are apart. -/
theorem undisturbed_of_oldValuesApart (fresh : v.IsFresh) (hb : v.previous.WellKeyed)
    (ha : v.current.WellKeyed) (apart : v.OldValuesApart) : v.Undisturbed := by
  rcases compared_or_undisturbed fresh with ⟨hp, changes, h⟩ | same
  · obtain ⟨c, -, collected, o⟩ := exists_outcome hb ha hp h rfl
    have unchanged := map_eq_of_forall₂ collected.kept fun _ _ kept =>
      kept.toChange_eq (apart_of_oldValuesApart hp h rfl apart)
    intro rs r
    rw [fresh.answer hp o r]
    rcases ((fresh.after hp o rs).answer o r).1 with now | ⟨rfl, now⟩
    · exact now
    · rw [now, unchanged]
      rfl
  · exact same

/-- **With default leaves** questions are undisturbed: no old value is a container. -/
theorem undisturbed_of_leaves (fresh : v.IsFresh) (hb : v.previous.WellKeyed)
    (ha : v.current.WellKeyed) (hn : v.config.isAtomic? = none)
    (hc : v.config.includeContainers = false) : v.Undisturbed := by
  refine undisturbed_of_oldValuesApart fresh hb ha fun hp changes h c hm x hx container => ?_
  have reported := (exists_kind_of_old? hb ha hn h (List.mem_of_mem_filter hm) hx container).1
  exact absurd (hc.symm.trans reported) (by simp)

/-- **What questions keep**, whatever was asked before: all answers but the one about the changes,
and the changes up to what is in old containers. Every answer stays the same when no old value is
written below another one with an effect, and, without custom leaves, only then. -/
theorem reads_undisturbed (fresh : v.IsFresh) (hb : v.previous.WellKeyed)
    (ha : v.current.WellKeyed) :
    (∀ rs r, r ≠ .changes → ((v.after rs).answer r).1 = (v.answer r).1) ∧
      (∀ rs, Answer.Resembles (v.answer .changes).1 ((v.after rs).answer .changes).1) ∧
      (v.OldValuesApart → v.Undisturbed) ∧
      (v.config.isAtomic? = none → v.Undisturbed → v.OldValuesApart) :=
  ⟨fun rs _ hr => answer_of_ne_changes fresh hb ha rs hr, resembles_changes fresh hb ha,
    undisturbed_of_oldValuesApart fresh hb ha, oldValuesApart_of_undisturbed fresh hb ha⟩

end Disturbance

/-- An old dictionary, and an item of an old list: neither is written below the other. -/
theorem reads_undisturbed_siblings :
    let v : Version := {
      current := .dict []
      previous := .dict [(.str "a", .dict [(.str "b", .int 1)]), (.str "c", .list [.int 2])]
      config := { includeContainers := true }
      oldPatterns := [[.property "a"], [.property "c", .index 0]] }
    v.IsFresh ∧ v.previous.WellKeyed ∧ v.current.WellKeyed ∧ v.config.isAtomic? = none ∧
      v.OldValuesApart ∧ v.Undisturbed := by
  intro v
  have fresh : v.IsFresh := ⟨rfl, rfl, rfl⟩
  have hb : v.previous.WellKeyed := by decide
  have ha : v.current.WellKeyed := by decide
  let a : Change := ⟨[.property "a"], some (.dict []), none, false⟩
  let b : Change := ⟨[.property "a", .property "b"], some (.int 1), none, false⟩
  let c : Change := ⟨[.property "c"], some (.list []), none, false⟩
  let item : Change := ⟨[.property "c", .index 0], some (.int 2), none, false⟩
  have compared : Diff.changeset v.config v.previous v.current = .ok [a, b, c, item] := by cbv
  have collected : v.collectedOf [a, b, c, item] = [a, item] := by cbv
  have apart : v.OldValuesApart := by
    intro _ changes h e he x hx container d hd r hr texts
    obtain rfl := Except.ok.inj (compared.symm.trans h)
    rw [collected, List.mem_pair] at he hd
    rcases he with rfl | rfl
    · rcases hd with rfl | rfl
      · exact absurd (List.map_eq_nil_iff.mp (List.self_eq_append_right.mp texts)) hr
      · exact absurd texts (by simp [a, item, Path.texts, Component.text])
    · obtain rfl : Value.int 2 = x := Option.some.inj hx
      exact absurd container (by decide)
  exact ⟨fresh, hb, ha, rfl, apart, (reads_undisturbed fresh hb ha).2.2.1 apart⟩

/-- Not all questions are undisturbed: an old value in an old dictionary, both collected, shows in
the dictionary that the changes have. -/
theorem not_undisturbed_nested :
    let v : Version := {
      current := .dict []
      previous := .dict [(.str "a", .dict [(.str "b", .int 1)])]
      config := { includeContainers := true }
      oldPatterns := [[.property "a"], [.property "a", .property "b"]] }
    v.IsFresh ∧ v.previous.WellKeyed ∧ v.current.WellKeyed ∧ ¬v.Undisturbed := by
  intro v
  refine ⟨⟨rfl, rfl, rfl⟩, by decide, by decide, fun same => ?_⟩
  have first : (v.answer .changes).1 = .changes (some [
      ⟨[.property "a"], some (.dict []), none, false⟩,
      ⟨[.property "a", .property "b"], some (.int 1), none, false⟩]) := by
    cbv
  have later : ((v.after [.oldValues]).answer .changes).1 = .changes (some [
      ⟨[.property "a"], some (.dict [(.str "b", .int 1)]), none, false⟩,
      ⟨[.property "a", .property "b"], some (.int 1), none, false⟩]) := by
    cbv
  have equal := (same [.oldValues] .changes).symm
  rw [first, later] at equal
  simp at equal

end Version

end TreeDelta
