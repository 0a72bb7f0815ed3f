import TreeDelta.Proofs.Tree.Edit

/-!
# Trees that fit

A tree of collected values has the containers of the tree that the values come from, as far as it
has been filled: where that tree has a list it has a list, nothing or a null, and the same for a
dictionary (`Value.Fits`). Then a value can be written at every path of that tree, and what is
written may be anything that fits there (`Value.Fits.exists_assign`). A deletion at any place leaves
a tree that fits (`Value.Fits.erase`), because it adds nothing but holes.

## Main definitions

* `Value.editStep`: the step that an edit takes for a component.
* `Value.Fits`: a tree has its containers where another one has the same.

## Main results

* `Value.Fits.refl`, `Value.Fits.empty`: values that fit.
* `Value.Fits.exists_assign`, `Value.Fits.erase`: edits of a tree that fits.
-/

namespace TreeDelta.Value

/-! ### Steps of an edit -/

/-- The step that an edit takes for a component: in a dictionary an index stands for its numeral.
Reading takes this step strictly. -/
def editStep : Value → Component → Component
  | dict _, c => .property c.text
  | _, c => c

/-- An edit takes a component that fits as it is. -/
theorem editStep_of_kind? {t : Value} {c : Component} (h : t.kind? = some c.kind) :
    t.editStep c = c := by
  cases t <;> cases c <;> first | rfl | exact absurd h (by simp [kind?, Component.kind])

/-- A value under a key is the value of an entry. -/
theorem mem_of_lookup {k : String} {v : Value} {entries : List (Value × Value)}
    (h : lookup k entries = some v) : (str k, v) ∈ entries := by
  induction entries with
  | nil => exact absurd h (by simp [lookup])
  | cons e es ih =>
      obtain ⟨l, w⟩ := e
      cases l with
      | str l =>
          rw [lookup] at h
          split at h
          · next hl =>
              obtain rfl := Option.some.inj h
              rw [hl]
              exact List.mem_cons_self
          · exact List.mem_cons_of_mem _ (ih h)
      | _ => exact List.mem_cons_of_mem _ (ih h)

/-- An edit goes down a step. -/
theorem mem_steps_of_editChild? {t w : Value} {c : Component} (h : t.editChild? c = some w) :
    (t.editStep c, w) ∈ t.steps := by
  cases t with
  | list items =>
      cases c with
      | index i => exact mem_itemSteps_iff.mpr ⟨i, by rw [Nat.zero_add]; rfl, h⟩
      | property k => exact absurd h (by simp [editChild?])
  | dict entries => exact mem_entrySteps_iff.mpr ⟨c.text, rfl, mem_of_lookup h⟩
  | _ => exact absurd h (by simp [editChild?])

/-- An item after a value was put is this value, was there, or fills the list up. -/
theorem eq_of_getElem?_putItem {i j : Nat} {v w : Value} {items : List Value}
    (h : (putItem i v items)[j]? = some w) :
    items[j]? = some w ∨ w = missing ∨ j = i ∧ w = v := by
  by_cases hj : j = i
  · subst hj
    rw [getElem?_putItem] at h
    exact .inr (.inr ⟨rfl, (Option.some.inj h).symm⟩)
  · have same := getD_putItem hj v items
    rw [h] at same
    cases there : items[j]? with
    | some u => rw [there] at same; exact .inl (congrArg some same.symm)
    | none => rw [there] at same; exact .inr (.inl same)

/-- What is left of a list without the holes at its end was there. -/
theorem getElem?_of_trimHoles {i : Nat} {w : Value} {items : List Value}
    (h : (trimHoles items)[i]? = some w) : items[i]? = some w := by
  induction items generalizing i with
  | nil => exact absurd h (by simp [trimHoles])
  | cons v vs ih =>
      rw [trimHoles] at h
      cases ht : trimHoles vs with
      | nil =>
          rw [ht] at h
          dsimp only at h
          split at h
          · exact absurd h (by simp)
          · cases i with
            | zero => exact h
            | succ i => exact absurd h (by simp)
      | cons u us =>
          rw [ht] at h ih
          cases i with
          | zero => exact h
          | succ i => exact ih h

/-- A step after a value was put leads to this value, was there, or leads to a hole that a list was
filled up with. -/
theorem mem_steps_putChild {t r w : Value} {c d : Component} (h : (d, w) ∈ (t.putChild c r).steps) :
    (d, w) ∈ t.steps ∨ w = missing ∨ d = t.editStep c ∧ w = r := by
  cases t with
  | list items =>
      cases c with
      | property k => exact .inl h
      | index i =>
          obtain ⟨j, rfl, hj⟩ := mem_itemSteps_iff.mp h
          rcases eq_of_getElem?_putItem hj with there | hole | ⟨rfl, rfl⟩
          · exact .inl (mem_itemSteps_iff.mpr ⟨j, rfl, there⟩)
          · exact .inr (.inl hole)
          · exact .inr (.inr ⟨by rw [Nat.zero_add]; rfl, rfl⟩)
  | dict entries =>
      obtain ⟨k, rfl, hk⟩ := mem_entrySteps_iff.mp h
      rcases mem_insert hk with put | there
      · obtain ⟨hkey, rfl⟩ := Prod.mk.inj put
        exact .inr (.inr ⟨by rw [str.inj hkey]; rfl, rfl⟩)
      · exact .inl (mem_entrySteps_iff.mpr ⟨k, rfl, there⟩)
  | _ => exact .inl h

/-- A step after a deletion was there or leads to a hole; holes that are cut off are steps no
more. -/
theorem mem_steps_eraseChild {t w : Value} {c d : Component} (h : (d, w) ∈ (t.eraseChild c).steps) :
    (d, w) ∈ t.steps ∨ w = missing := by
  cases t with
  | list items =>
      cases c with
      | property k => exact .inl h
      | index i =>
          rw [eraseChild] at h
          split at h
          · next hi =>
              obtain ⟨j, rfl, hj⟩ := mem_itemSteps_iff.mp h
              have item := getElem?_of_trimHoles hj
              by_cases he : i = j
              · rw [← he, List.getElem?_set_self hi] at item
                exact .inr (Option.some.inj item).symm
              · rw [List.getElem?_set_ne he] at item
                exact .inl (mem_itemSteps_iff.mpr ⟨j, rfl, item⟩)
          · exact .inl h
  | dict entries =>
      obtain ⟨k, rfl, hk⟩ := mem_entrySteps_iff.mp h
      exact .inl (mem_entrySteps_iff.mpr ⟨k, rfl, (erase_sublist _ entries).subset hk⟩)
  | _ => exact .inl h

/-! ### Trees that fit -/

/-- A tree `t` fits a tree `v` when everything in it that stands at a container of `v` is nothing, a
null, or a container of the same kind. So nothing in it is in the way of what is copied from `v`. -/
inductive Fits : Value → Value → Prop
  /-- Nothing and a null fit everywhere. -/
  | vacant {v t : Value} (vacant : t.isVacant = true) : Fits v t
  /-- Everything fits where there is no container. -/
  | free {v t : Value} (bare : v.kind? = none) : Fits v t
  /-- A container fits when everything in it does. -/
  | container {v t : Value} (kind : t.kind? = v.kind?)
      (below : ∀ c w, (c, w) ∈ t.steps → Fits (v.slot c) w) : Fits v t

/-- A tree fits itself. -/
theorem Fits.refl {v : Value} (h : v.WellKeyed) : Fits v v := by
  induction v using stepInduction with
  | step v ih =>
      refine .container rfl fun c w hs => ?_
      rw [slot_of_mem_steps h.hasUniqueKeys hs]
      exact ih c w hs (h.step hs)

/-- The empty container of the same kind fits. -/
theorem Fits.empty {v : Value} {k : Kind} (h : v.kind? = some k) : Fits v (Value.empty k) := by
  refine .container ((kind?_empty k).1.trans h.symm) fun c w hs => ?_
  cases k <;> exact absurd hs (by simp [Value.empty, steps, itemSteps, entrySteps])

/-- **A deletion** leaves a tree that fits: it makes holes, and nothing else. -/
theorem Fits.erase {v t : Value} (h : Fits v t) (p : Path) : Fits v (p.erase t) := by
  induction p generalizing v t with
  | nil => exact .vacant rfl
  | cons c p ih =>
      cases h with
      | vacant vacant =>
          have bare : t.kind? = none := by
            cases t <;> first | rfl | exact absurd vacant (by simp [isVacant])
          rw [Path.erase_of_kind?_eq_none bare]
          exact .vacant vacant
      | free bare => exact .free bare
      | container kind below =>
          refine .container ((Path.kind?_erase c p t).trans kind) fun d w hs => ?_
          cases p with
          | nil =>
              rcases mem_steps_eraseChild hs with there | rfl
              · exact below d w there
              · exact .vacant rfl
          | cons e p =>
              rw [Path.erase_cons_cons] at hs
              cases hc : t.editChild? c with
              | none =>
                  rw [hc] at hs
                  exact below d w hs
              | some child =>
                  rw [hc] at hs
                  dsimp only at hs
                  split at hs
                  · rcases mem_steps_putChild hs with there | rfl | ⟨rfl, rfl⟩
                    · exact below d w there
                    · exact .vacant rfl
                    · exact ih (below _ child (mem_steps_of_editChild? hc))
                  · exact below d w hs

/-- A write steps from a tree that fits into a container of the right kind, whether that is there or
new, and what is in it fits. -/
theorem Fits.exists_opened {v t v' : Value} {c : Component} (h : Fits v t)
    (hc : v.child? c = some v') (path place : Path) :
    ∃ u, t.openFor path place c = .ok u ∧ u.kind? = v.kind? ∧ v.kind? = some c.kind ∧
      ∀ d w, (d, w) ∈ u.steps → Fits (v.slot d) w := by
  have kind : v.kind? = some c.kind := by
    cases v <;> cases c <;> first | rfl | exact absurd hc (by simp [child?])
  cases h with
  | vacant vacant =>
      refine ⟨emptyFor c, openFor_eq_ok_iff.mpr ⟨by rw [vacant]; rfl, ?_⟩, ?_, kind, ?_⟩
      · cases c <;> rfl
      · rw [kind]
        cases c <;> rfl
      · intro d w hs
        cases c <;> exact absurd hs (by simp [emptyFor, steps, itemSteps, entrySteps])
  | free bare => exact absurd (bare.symm.trans kind) (by simp)
  | container same below => exact ⟨t, openFor_eq (same.trans kind) path place, same, kind, below⟩

/-- **A value can be written** at every path of a tree into a tree that fits it. If the value fits
what is at the path, so does the tree that comes out. -/
theorem Fits.exists_assign {v t w x : Value} {p : Path} (h : Fits v t) (hw : p.find? v = some w) :
    ∃ t', p.assign t x = .ok t' ∧ (Fits w x → Fits v t') := by
  -- faults name the whole path and the place reached, which do not matter here
  suffices written : ∀ (q path place : Path) (v t : Value), Fits v t → q.find? v = some w →
      ∃ t', Path.assignFrom path place q t x = .ok t' ∧ (Fits w x → Fits v t') from
    written p p Path.root v t h hw
  intro q path
  induction q with
  | nil =>
      intro place v t _ hv
      obtain rfl := Option.some.inj hv
      exact ⟨x, rfl, id⟩
  | cons c q ih =>
      intro place v t ht hv
      rw [find?_cons, Option.bind_eq_some_iff] at hv
      obtain ⟨v', hc, hv'⟩ := hv
      obtain ⟨u, opened, kind, fits, below⟩ := ht.exists_opened hc path place
      have slot : v.slot c = v' := by rw [Value.slot, hc]; rfl
      have step := editStep_of_kind? (kind.trans fits)
      have child : Fits v' ((u.editChild? c).getD missing) := by
        cases hu : u.editChild? c with
        | none => exact .vacant rfl
        | some child =>
            have stepped := below _ child (mem_steps_of_editChild? hu)
            rwa [step, slot] at stepped
      obtain ⟨r, hr, rest⟩ := ih (place ++ [c]) v' _ child hv'
      refine ⟨u.putChild c r, ?_, fun hx => ?_⟩
      · rw [Path.assignFrom, opened]
        exact bind_eq_ok_iff.mpr ⟨u, rfl, bind_eq_ok_iff.mpr ⟨r, hr, rfl⟩⟩
      · refine .container ((kind?_putChild u c r).trans kind) fun d y hs => ?_
        rcases mem_steps_putChild hs with there | rfl | ⟨rfl, rfl⟩
        · exact below d y there
        · exact .vacant rfl
        · rw [step, slot]
          exact rest hx

end TreeDelta.Value
