import Mathlib
import TreeDelta.Proofs.Diff.Patch
import TreeDelta.Proofs.Tree.NoEffect
import TreeDelta.Proofs.Version.Undisturbed

/-!
# Recovering old values

While old values are collected, their tree is a part of the previous tree all the time: the places
that it keeps are those at or above which an old value was written (`Version.Held`). Since the old
values are ordered, no write comes to a place at or above a written one again, so that nothing that
was written is put aside, and the deletion of a value that is new comes to no kept place.

So the old values of the changes that were matched can be read off the tree, and no other scalar is
in it (`Version.Recovered`), with one exception. A write at the root does not go into the tree that
it is given, and the tree that it gives instead is not kept. A container at the root is there
anyway, but the old value of a change from a scalar is lost (`Version.oldValues_recovered`).

## Main definitions

* `Version.Held`: the places that the tree of old values keeps.
* `Version.Recovered`: a tree holds the old values of the matched changes.

## Main results

* `Version.exists_addAll_part`: a whole collection is a part of the previous tree.
* `Version.oldValues_recovered`: which old values are recovered, and when all are.
-/

namespace TreeDelta

open Value (Part SameRoot)

namespace Value

/-- What is no container has no kind, and so nothing one step down. -/
theorem kind?_of_isContainer_eq_false {v : Value} (h : v.isContainer = false) : v.kind? = none := by
  simpa [isContainer] using h

/-- A tidy container with nothing in it is empty. An untidy one could hold missing values only. -/
theorem Tidy.eq_empty {v : Value} {k : Kind} (ht : v.Tidy) (hk : v.kind? = some k)
    (h : ∀ c, v.slot c = missing) : v = empty k := by
  cases v with
  | list items =>
      obtain rfl : Kind.array = k := Option.some.inj hk
      cases hl : items.getLast? with
      | none => rw [List.getLast?_eq_none_iff.mp hl]; rfl
      | some w =>
          obtain ⟨i, hi⟩ := List.mem_iff_getElem?.mp (List.mem_of_getLast? hl)
          have hole := h (.index i)
          rw [slot_list, hi] at hole
          exact absurd (ht w hl) (by simp [show w = missing from hole, isMissing])
  | dict entries =>
      obtain rfl : Kind.object = k := Option.some.inj hk
      cases entries with
      | nil => rfl
      | cons e es =>
          obtain ⟨⟨name, key⟩, there⟩ := ht.2 e List.mem_cons_self
          obtain ⟨l, w⟩ := e
          obtain rfl : l = str name := key
          have hole := h (.property name)
          rw [slot_dict, lookup, if_pos rfl] at hole
          exact absurd there (by simp [show w = missing from hole, isMissing])
  | _ => exact absurd hk (by simp [kind?])

end Value

namespace Version

/-! ### Places that are kept -/

section Collection

variable {ks : List KeptChange} {paths done : List Path} {previous base : Value}
  {k₁ : KeptChange}

/-- The root, and the places at or above which an old value was written. -/
def Held (ks : List KeptChange) (done : List Path) (q : Path) : Prop :=
  q = [] ∨ ∃ k ∈ ks, k.path ∈ done ∧ k.path ≠ [] ∧ k.toChange.old.isMissing = false ∧ q <+: k.path

/-- Below the root, the old values show what is at their places in a tree. -/
def Sourced (base : Value) (ks : List KeptChange) : Prop :=
  ∀ k ∈ ks, k.path ≠ [] → k.toChange.old.isMissing = false →
    ∃ w, k.path.find? base = some w ∧ Part (fun q => q = []) w k.toChange.old

/-- What is written when the old value of a change is collected is that value as the diff has it,
whatever was written before. -/
theorem values_of_add {c c' : Collection} (collectable : Collectable previous ks)
    (h : Collected ks paths previous done c) (h₁ : k₁ ∈ ks) (hn : k₁.path ∉ done)
    (below : k₁.path ≠ []) (added : c.add k₁.path = .ok c') :
    k₁.path.set c.values k₁.toChange.old = .ok c'.values := by
  have inside : ¬k₁.path.isEmpty = true := fun he => below (List.isEmpty_iff.mp he)
  rw [Collection.add, if_neg inside] at added
  obtain ⟨values, written, rest⟩ := bind_eq_ok_iff.mp added
  rw [written_eq collectable h.kept h₁ hn] at written
  rw [← Except.ok.inj rest]
  exact written

/-- No place that is kept is at or below the place of a write to come. -/
theorem not_texts_of_held {rest : List Path} (ordered : Ordered ks paths)
    (order : paths = done ++ k₁.path :: rest) (below : k₁.path ≠ []) {q : Path}
    (held : Held ks done q) : ¬k₁.path.texts <+: q.texts := by
  intro above
  rcases held with rfl | ⟨k, hk, hd, -, there, hq⟩
  · exact below (List.map_eq_nil_iff.mp (List.prefix_nil.mp above))
  · rw [order] at ordered
    have later := (List.pairwise_append.mp ordered).2.2 _ hd _ List.mem_cons_self k hk rfl
    have some_old : k.old?.isSome = true := by
      obtain ⟨x, hx⟩ := exists_old? there
      obtain ⟨s, hs, -⟩ := Option.map_eq_some_iff.mp hx
      exact Option.isSome_iff_exists.mpr ⟨s, hs⟩
    exact later some_old (above.trans (hq.map Component.text))

/-- One more write adds the places at or above it, if it is one of an old value. -/
theorem held_append_iff {p q : Path} :
    Held ks (done ++ [p]) q ↔
      Held ks done q ∨
        ∃ k ∈ ks, k.path = p ∧ p ≠ [] ∧ k.toChange.old.isMissing = false ∧ q <+: p := by
  constructor
  · rintro (rfl | ⟨k, hk, hd, below, there, hq⟩)
    · exact .inl (.inl rfl)
    · rcases List.mem_append.mp hd with earlier | now
      · exact .inl (.inr ⟨k, hk, earlier, below, there, hq⟩)
      · obtain rfl := List.mem_singleton.mp now
        exact .inr ⟨k, hk, rfl, below, there, hq⟩
  · rintro ((rfl | ⟨k, hk, hd, rest⟩) | ⟨k, hk, rfl, rest⟩)
    · exact .inl rfl
    · exact .inr ⟨k, hk, List.mem_append_left _ hd, rest⟩
    · exact .inr ⟨k, hk, by simp, rest⟩

/-- **One more old value**: the tree keeps the places at or above it, too. -/
theorem part_of_add {c c' : Collection} {rest : List Path} (collectable : Collectable previous ks)
    (ordered : Ordered ks paths) (sourced : Sourced base ks)
    (h : Collected ks paths previous done c) (h₁ : k₁ ∈ ks)
    (order : paths = done ++ k₁.path :: rest) (hn : k₁.path ∉ done)
    (added : c.add k₁.path = .ok c') (part : Part (Held ks done) base c.values) :
    Part (Held ks (done ++ [k₁.path])) base c'.values := by
  by_cases root : k₁.path = []
  · rw [root] at added ⊢
    obtain rfl : c = c' := Except.ok.inj added
    refine part.congr fun q _ => ?_
    rw [held_append_iff]
    simp
  · have written := values_of_add collectable h h₁ hn root added
    have apart := fun q => not_texts_of_held (q := q) ordered order root
    cases there : k₁.toChange.old.isMissing with
    | true =>
        -- nothing is deleted, and no place is added
        rw [Path.set, there, if_pos rfl] at written
        have nothing : k₁.path.erase c.values = c.values :=
          part.erase_self root fun q held texts => apart q held (texts ▸ List.prefix_rfl)
        rw [← Except.ok.inj written, nothing]
        refine part.congr fun q _ => ?_
        rw [held_append_iff]
        refine (or_iff_left ?_).symm
        rintro ⟨k, hk, at_path, -, present, -⟩
        obtain rfl := collectable.eq_of_path hk h₁ at_path
        exact absurd (there.symm.trans present) (by simp)
    | false =>
        -- what the write puts aside is at no kept place
        obtain ⟨w, hw, shown⟩ := sourced k₁ h₁ root there
        obtain ⟨t, ht, put⟩ := part.put hw there shown
        obtain rfl : t = c'.values := Except.ok.inj (ht.symm.trans written)
        refine put.congr fun q _ => ?_
        rw [held_append_iff]
        constructor
        · rintro (⟨held, -⟩ | above | ⟨r, rfl, rfl⟩)
          · exact .inl held
          · exact .inr ⟨k₁, h₁, rfl, root, there, above⟩
          · exact .inr ⟨k₁, h₁, rfl, root, there, by rw [List.append_nil]⟩
        · rintro (held | ⟨-, -, -, -, -, above⟩)
          · exact .inl ⟨held, fun above => apart q held (above.map Component.text)⟩
          · exact .inr (.inl above)

/-- **A whole collection is a part of the tree** that the old values come from. -/
theorem exists_addAll_part {rest : List Path} {c : Collection}
    (collectable : Collectable previous ks) (ordered : Ordered ks paths)
    (sourced : Sourced base ks) (nodup : paths.Nodup)
    (from_changes : ∀ q ∈ paths, ∃ k ∈ ks, k.path = q)
    (h : Collected ks paths previous done c) (order : paths = done ++ rest)
    (part : Part (Held ks done) base c.values) :
    ∃ c', c.addAll rest = (c', none) ∧ Part (Held ks paths) base c'.values := by
  have step : ∀ {done rest : List Path} {p : Path} {c : Collection}, paths = done ++ p :: rest →
      p ∉ done → Collected ks paths previous done c ∧ Part (Held ks done) base c.values →
      ∃ c', c.add p = .ok c' ∧ Collected ks paths previous (done ++ [p]) c' ∧
        Part (Held ks (done ++ [p])) base c'.values := by
    rintro done rest p c order hn ⟨collected, part⟩
    obtain ⟨k₁, h₁, rfl⟩ := from_changes p (by rw [order]; simp)
    obtain ⟨c', added, collected'⟩ := exists_add collectable collected h₁ order hn
    exact ⟨c', added, collected',
      part_of_add collectable ordered sourced collected h₁ order hn added part⟩
  obtain ⟨c', all, -, whole⟩ := exists_addAll_of_step nodup step ⟨h, part⟩ order
  exact ⟨c', all, whole⟩

end Collection

/-! ### Reading old values -/

section Reading

variable {v : Version} {b : Bool} {changes : List Change} {ks : List KeptChange} {t : Value}

/-- The changes that some pattern for old values matches, the one at the root among them. They are
the ones whose old values are asked for. -/
def matchedOf (v : Version) (changes : List Change) : List Change :=
  changes.filter fun c => v.oldPatterns.any fun m => m.accepts c.path

/-- A tree holds the old values of the changes that were matched, and no other scalars. -/
structure Recovered (v : Version) (changes : List Change) (values : Value) : Prop where
  /-- At the path of a matched change with an old value is this value, or a container of the same
  kind in place of a container. -/
  old : ∀ c ∈ v.matchedOf changes, ∀ x, c.old? = some x → SameRoot x (c.path.get values .missing)
  /-- A scalar is the old value of a matched change at its path. -/
  leaf : ∀ q x, q.find? values = some x → x.isPrimitive = true → x.isMissing = false →
    ∃ c ∈ v.matchedOf changes, c.path = q ∧ c.old? = some x

/-- A change is matched when its path is one to collect. -/
theorem mem_matchedOf_iff {c : Change} (hc : c ∈ changes) :
    c ∈ v.matchedOf changes ↔
      c.path ∈ v.oldPaths (changes.map (KeptChange.ofChange v.config v.previous v.current)) := by
  rw [matchedOf, List.mem_filter, and_iff_right hc, mem_oldPaths_iff hc]

/-- No change is matched when no path is, so both say when there is no tree of old values. -/
theorem matchedOf_eq_nil_iff :
    v.matchedOf changes = [] ↔
      v.oldPaths (changes.map (KeptChange.ofChange v.config v.previous v.current)) = [] := by
  rw [matchedOf, oldPaths, List.filter_eq_nil_iff, List.filter_eq_nil_iff, List.map_map,
    List.forall_mem_map]
  rfl

/-- With default predicates, an old value shows what is at its place in the previous tree. -/
theorem exists_shown_of_old? (default : v.config = { includeContainers := b })
    (hb : v.previous.WellKeyed) (ha : v.current.WellKeyed)
    (h : Diff.changeset v.config v.previous v.current = .ok changes) {c : Change}
    (hc : c ∈ changes) {x : Value} (hx : c.old? = some x) :
    ∃ w, c.path.find? v.previous = some w ∧ Part (fun q => q = []) w x ∧ x.isMissing = false := by
  rw [default] at h
  obtain ⟨old, new, hold, hnew, rfl⟩ := Diff.exists_leaves_of_changeset hb ha h
  obtain ⟨p, rfl, -⟩ := (Diff.mem_changesBy_iff_differsAt hb ha hold hnew).mp hc
  obtain ⟨content, leaf, rfl⟩ := ((Diff.tells_changeAt hb ha hold hnew p).old x).mp hx
  cases leaf with
  | atomic found scalar present =>
      exact ⟨_, found, .scalar (Value.kind?_of_isPrimitive scalar), present⟩
  | container reported found kind =>
      refine ⟨_, found, .empty kind, Value.isMissing_of_isContainer ?_⟩
      rw [Diff.Content.value, Value.isContainer, (Value.kind?_empty _).1]
      rfl

/-- Nothing is found below a scalar, so a place with an old value is not below one. The old values
that show at two places of one tree never run into each other. -/
theorem eq_nil_of_shown {q r : Path} {w x z : Value} (hq : q.find? v.previous = some x)
    (bare : x.kind? = none) (hw : (q ++ r).find? v.previous = some w)
    (shown : Part (fun q => q = []) w z) (there : z.isMissing = false) : r = [] := by
  by_contra below
  have nothing := (Part.scalar bare).dropped r below
  rw [← Path.get_of_find? hq, ← Path.get_append, Path.get_of_find? hw] at nothing
  subst nothing
  rw [(shown.root rfl).eq_missing] at there
  exact absurd there (by simp [Value.isMissing])

/-- **A part of the previous tree holds the old values**, when the previous tree is a container. -/
theorem Recovered.of_part (default : v.config = { includeContainers := b })
    (hb : v.previous.WellKeyed) (ha : v.current.WellKeyed)
    (h : Diff.changeset v.config v.previous v.current = .ok changes)
    (hks : changes.map (KeptChange.ofChange v.config v.previous v.current) = ks)
    (container : v.previous.isContainer = true)
    (part : Part (Held ks (v.oldPaths ks)) v.previous t) : v.Recovered changes t where
  old c hc x hx := by
    subst hks
    have hcm := List.mem_of_mem_filter hc
    obtain ⟨w, hw, shown, present⟩ := exists_shown_of_old? default hb ha h hcm hx
    refine (shown.root rfl).of_left ?_
    rw [← Path.get_of_find? hw]
    refine part.kept c.path ?_
    by_cases root : c.path = []
    · exact .inl root
    · have there : c.old.isMissing = false := by rwa [Change.old, hx]
      rw [← old_toChange (v := v)] at there
      exact .inr ⟨_, List.mem_map_of_mem hcm, (mem_matchedOf_iff hcm).mp hc, root, there,
        List.prefix_rfl⟩
  leaf q x hx scalar present := by
    subst hks
    have bare := Value.kind?_of_isPrimitive scalar
    obtain ⟨held, y, hy, -⟩ := part.exists_find? hx present
    have same := part.kept q held
    rw [Path.get_of_find? hx, Path.get_of_find? hy] at same
    obtain rfl : x = y := same.scalar (same.kind.symm.trans bare)
    rcases held with rfl | ⟨k, hk, hp, -, there, r, hr⟩
    · obtain rfl := Option.some.inj hy
      exact absurd container (by simp [Value.isContainer, bare])
    · -- an old value at or below the scalar is the scalar
      obtain ⟨c, hc, rfl⟩ := List.mem_map.mp hk
      rw [old_toChange] at there
      obtain ⟨z, hz⟩ := exists_old? there
      obtain ⟨w, hw, shown, z_there⟩ := exists_shown_of_old? default hb ha h hc hz
      have at_path : c.path = q ++ r := hr.symm
      rw [at_path] at hw
      obtain rfl := eq_nil_of_shown hy bare hw shown z_there
      rw [List.append_nil] at hw at_path
      obtain rfl : x = w := Option.some.inj (hy.symm.trans hw)
      obtain rfl : z = x := (shown.root rfl).scalar bare
      exact ⟨c, (mem_matchedOf_iff hc).mpr hp, at_path, hz⟩

/-! ### Collecting from a changeset -/

/-- The tree that old values below the root come from. A scalar has nothing below its root. -/
def oldSource (v : Version) : Value := if v.previous.isContainer then v.previous else .dict []

/-- Where old values below the root come from: each shows the root of what is at its place in the
previous tree. -/
theorem sourced_of_changeset (default : v.config = { includeContainers := b })
    (hb : v.previous.WellKeyed) (ha : v.current.WellKeyed)
    (h : Diff.changeset v.config v.previous v.current = .ok changes)
    (hks : changes.map (KeptChange.ofChange v.config v.previous v.current) = ks) :
    Sourced v.oldSource ks := by
  subst hks
  intro k hk below there
  obtain ⟨c, hc, rfl⟩ := List.mem_map.mp hk
  rw [old_toChange] at there ⊢
  obtain ⟨x, hx⟩ := exists_old? there
  obtain ⟨w, hw, shown, present⟩ := exists_shown_of_old? default hb ha h hc hx
  rw [Change.old, hx, Option.getD_some]
  refine ⟨w, ?_, shown⟩
  rw [oldSource]
  split
  · exact hw
  · next scalar =>
      have bare := Value.kind?_of_isContainer_eq_false (Bool.eq_false_iff.mpr scalar)
      exact absurd (eq_nil_of_shown (q := []) rfl bare hw shown present) below

/-- A collection starts with the root of the tree that the old values come from, which is the part
of that tree with nothing written yet. -/
theorem part_start (v : Version) (ks : List KeptChange) :
    Part (Held ks []) v.oldSource v.emptyOldValues := by
  have root : ∀ q, q = [] ↔ Held ks [] q := by simp [Held]
  have start : Part (fun q => q = []) v.oldSource v.emptyOldValues := by
    rw [oldSource, emptyOldValues]
    cases v.previous with
    | list items => exact .empty (k := .array) rfl
    | dict entries => exact .empty (k := .object) rfl
    | _ => exact .empty (k := .object) rfl
  exact start.congr fun q _ => root q

/-- The old values that are collected from a changeset are a part of the tree that they come from.
What was proved of collections applies, because a changeset has its old values in order. -/
theorem part_of_changeset (default : v.config = { includeContainers := b })
    (hb : v.previous.WellKeyed) (ha : v.current.WellKeyed) (hp : v.hasPrevious = true)
    (h : Diff.changeset v.config v.previous v.current = .ok changes)
    (hks : changes.map (KeptChange.ofChange v.config v.previous v.current) = ks)
    {c : Collection}
    (all : Collection.addAll ⟨v.emptyOldValues, ks, v.previous⟩ (v.oldPaths ks) = (c, none)) :
    Part (Held ks (v.oldPaths ks)) v.oldSource c.values := by
  have collectable : Collectable v.previous ks := hks ▸ collectable_of_changeset hb ha h
  obtain ⟨c', all', part⟩ := exists_addAll_part collectable (ordered_oldPaths hb ha h hks)
    (sourced_of_changeset default hb ha h hks) (collectable.nodup.sublist List.filter_sublist)
    (fun _ => exists_of_mem_oldPaths) (collected_start collectable hp) rfl (part_start v ks)
  obtain rfl : c' = c := (Prod.mk.inj (all'.symm.trans all)).1
  exact part

/-- From a scalar nothing is collected: a part of an empty dictionary is empty. -/
theorem eq_empty_of_part {paths : List Path} (part : Part (Held ks paths) (.dict []) t) :
    t = .dict [] := by
  have same := part.root (.inl rfl)
  refine Value.Tidy.eq_empty (k := .object) part.neat.tidy (same.kind.trans rfl) fun c => ?_
  have slot : Path.get [c] t .missing = t.slot c := by rw [Path.get_cons, Path.get_root]
  by_cases held : Held ks paths [c]
  · have kept := part.kept [c] held
    have nothing : (Value.dict []).slot c = .missing := Value.slot_empty .object c
    rw [slot, Path.get_cons, Path.get_root, nothing] at kept
    exact kept.eq_missing
  · rw [← slot]
    exact part.dropped [c] held

/-- A changed scalar at the root has an old value, so a tree that is empty does not hold it. -/
theorem not_recovered_of_scalar (default : v.config = { includeContainers := b })
    (hb : v.previous.Plain) (ha : v.current.WellKeyed)
    (h : Diff.changeset v.config v.previous v.current = .ok changes)
    (scalar : v.previous.isContainer = false) {c : Change} (hc : c ∈ v.matchedOf changes)
    (root : c.path = []) : ¬v.Recovered changes (.dict []) := by
  intro recovered
  have bare := Value.kind?_of_isContainer_eq_false scalar
  rw [default] at h
  obtain ⟨old, new, hold, hnew, rfl⟩ := Diff.exists_leaves_of_changeset hb.wellKeyed ha h
  obtain ⟨p, rfl, -⟩ := (Diff.mem_changesBy_iff_differsAt hb.wellKeyed ha hold hnew).mp
    (List.mem_of_mem_filter hc)
  obtain rfl : p = [] := root
  have leaf : Diff.LeafAt b v.previous [] (.atomic v.previous) :=
    .atomic rfl (hb.isPrimitive bare) hb.present
  have old_value := ((Diff.tells_changeAt hb.wellKeyed ha hold hnew []).old v.previous).mpr
    ⟨_, leaf, rfl⟩
  have same := recovered.old _ hc v.previous old_value
  exact absurd (same.kind.trans bare) (by simp [Diff.changeAt, Path.get_root, Value.kind?])

/-- Where no change at the root is matched, there are no old values to collect from a scalar, as
nothing else in it can have changed. -/
theorem Recovered.of_scalar (default : v.config = { includeContainers := b })
    (hb : v.previous.WellKeyed) (ha : v.current.WellKeyed)
    (h : Diff.changeset v.config v.previous v.current = .ok changes)
    (scalar : v.previous.isContainer = false)
    (below : ∀ c ∈ v.matchedOf changes, c.path ≠ []) : v.Recovered changes (.dict []) where
  old c hc x hx := by
    have bare := Value.kind?_of_isContainer_eq_false scalar
    obtain ⟨w, hw, shown, there⟩ :=
      exists_shown_of_old? default hb ha h (List.mem_of_mem_filter hc) hx
    exact absurd (eq_nil_of_shown (q := []) rfl bare hw shown there) (below c hc)
  leaf q x hx primitive _ := by
    cases q with
    | nil =>
        obtain rfl := Option.some.inj hx
        exact absurd primitive (by simp [Value.isPrimitive])
    | cons c q => cases c <;> exact absurd hx (by simp [Path.find?, Value.child?, Value.lookup])

/-- **Old values are recovered** from the changes between plain trees, with default predicates.
Reading them never fails, whatever was asked before, and gives a tree just when a change is matched.
The tree holds the old values of the matched changes and no other scalars, unless a scalar at the
root was matched, which is not written anywhere; from a scalar the tree is always empty. -/
theorem oldValues_recovered (fresh : v.IsFresh) (default : v.config = { includeContainers := b })
    (hb : v.previous.Plain) (ha : v.current.Plain) (hp : v.previous ≠ .null) :
    ∃ changes values?, Diff.changeset v.config v.previous v.current = .ok changes ∧
      (∀ rs, ∃ w, (v.after rs).readOldValues = (.ok values?, w)) ∧
      (values? = none ↔ v.matchedOf changes = []) ∧
      ∀ t, values? = some t →
        (v.Recovered changes t ↔
          v.previous.isContainer = true ∨ ∀ c ∈ v.matchedOf changes, c.path ≠ []) ∧
        (v.previous.isContainer = false → t = .dict []) := by
  have previous := hasPrevious_iff.mpr hp
  obtain ⟨old, hold⟩ := Diff.exists_leaves v.config (Patch.every_isWalkable_of_plain hb)
  obtain ⟨new, hnew⟩ := Diff.exists_leaves v.config (Patch.every_isWalkable_of_plain ha)
  obtain ⟨changes, h⟩ : ∃ changes, Diff.changeset v.config v.previous v.current = .ok changes := by
    rw [Diff.changeset, Diff.changeTable, hold, hnew]
    exact ⟨_, rfl⟩
  obtain ⟨ks, hks⟩ : ∃ ks, changes.map (KeptChange.ofChange v.config v.previous v.current) = ks :=
    ⟨_, rfl⟩
  obtain ⟨c, all, -, o⟩ := exists_outcome hb.wellKeyed ha.wellKeyed previous h hks
  have part := part_of_changeset default hb.wellKeyed ha.wellKeyed previous h hks all
  refine ⟨changes, if v.oldPaths ks = [] then none else some c.values, h, fun rs => ?_, ?_,
    fun t ht => ?_⟩
  · obtain ⟨w, read, -⟩ := (fresh.after previous o rs).readOldValues o
    exact ⟨w, read⟩
  · rw [matchedOf_eq_nil_iff, hks, ite_eq_left_iff]
    simp
  · obtain rfl : c.values = t := by
      split at ht
      · exact absurd ht (by simp)
      · exact Option.some.inj ht
    cases container : v.previous.isContainer with
    | true =>
        rw [oldSource, if_pos container] at part
        have recovered := Recovered.of_part default hb.wellKeyed ha.wellKeyed h hks container part
        exact ⟨iff_of_true recovered (.inl rfl), by simp⟩
    | false =>
        rw [oldSource, container, if_neg (by simp)] at part
        rw [eq_empty_of_part part]
        refine ⟨⟨fun recovered => .inr fun c hc root => ?_, ?_⟩, fun _ => rfl⟩
        · exact not_recovered_of_scalar default hb ha.wellKeyed h container hc root recovered
        · rintro (impossible | below)
          · exact absurd impossible (by simp)
          · exact .of_scalar default hb.wellKeyed ha.wellKeyed h container below

end Reading

/-- A list gives way to a dictionary with one of its numerals, an entry is gone and another one is
new: the list is recovered with the item that was matched, and a hole before it. -/
theorem oldValues_recovered_kinds :
    let v : Version := {
      current := .dict [(.str "a", .dict [(.str "0", .int 1)]), (.str "c", .int 3)]
      previous := .dict [(.str "a", .list [.int 1, .null]), (.str "b", .str "x")]
      config := { includeContainers := true }
      oldPatterns := [[.anyProperty], [.anyProperty, .index 1]] }
    let values : Value := .dict [(.str "a", .list [.missing, .null]), (.str "b", .str "x")]
    v.IsFresh ∧ v.config = { includeContainers := true } ∧ v.previous.Plain ∧ v.current.Plain ∧
      v.previous ≠ .null ∧ (v.answer .oldValues).1 = .oldValues (some values) ∧
      ∃ changes, Diff.changeset v.config v.previous v.current = .ok changes ∧
        v.Recovered changes values := by
  intro v values
  have fresh : v.IsFresh := ⟨rfl, rfl, rfl⟩
  have hb : v.previous.Plain := by decide
  have ha : v.current.Plain := by decide
  have hp : v.previous ≠ .null := by simp [v]
  have told : (v.answer .oldValues).1 = .oldValues (some values) := by cbv
  obtain ⟨changes, values?, compared, read, -, recovered⟩ :=
    oldValues_recovered fresh rfl hb ha hp
  obtain ⟨w, first⟩ : ∃ w, v.readOldValues = (.ok values?, w) := read []
  have same : Answer.oldValues values? = .oldValues (some values) := by
    rw [← told, answer, first]
    rfl
  exact ⟨fresh, rfl, hb, ha, hp, told, changes, compared,
    (recovered values (Answer.oldValues.inj same)).1.mpr (.inl rfl)⟩

/-- Not every old value is recovered: a scalar that was the whole tree is matched, and lost. -/
theorem not_recovered_root :
    let v : Version := {
      current := .int 2
      previous := .int 1
      config := {}
      oldPatterns := [[]] }
    let change : Change := ⟨[], some (.int 1), some (.int 2), false⟩
    v.IsFresh ∧ v.previous.Plain ∧ v.current.Plain ∧ v.previous ≠ .null ∧
      Diff.changeset v.config v.previous v.current = .ok [change] ∧
      v.matchedOf [change] = [change] ∧
      (v.answer .oldValues).1 = .oldValues (some (.dict [])) ∧
      ¬v.Recovered [change] (.dict []) := by
  intro v change
  have matched : v.matchedOf [change] = [change] := by cbv
  refine ⟨⟨rfl, rfl, rfl⟩, by decide, by decide, by simp [v], by cbv, matched, by cbv, ?_⟩
  intro recovered
  have same := recovered.old change (by rw [matched]; exact List.mem_singleton_self change) _ rfl
  exact absurd same.kind (by decide)

end Version

end TreeDelta
