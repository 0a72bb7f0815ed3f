import TreeDelta.Proofs.Tree.Part
import TreeDelta.Proofs.Tree.Reach

/-!
# Edits are framed

Two paths part when they name different places at some position (`Path.Parts`). What is read at a
path that parts from the path of an edit is the same before and after the edit. The edit may fill a
list up with holes, cut holes off, or put a container in place of a null: nothing of this is seen
through a slot, where a hole and a place that is not there look alike. On the common way the two
paths may name one place by an index and by its numeral. Then the slot that is read holds what is
edited, or the component does not fit and the slot is missing before and after
(`Value.slot_putChild`).

## Main definitions

* `Path.Parts`: two paths name different places at some position.
* `Value.editSlot`: what an edit finds one step down.

## Main results

* `Path.get_assignFrom`, `Path.get_erase`: reading at a path that parts from the one that is edited.
* `Path.edit_framed`: edits do not show where paths part.
-/

namespace TreeDelta

/-- Two paths part when they have components that name different places at some position that both
have. A path does not part from those above and below it. -/
def Path.Parts (p q : Path) : Prop :=
  ∃ (i : Nat) (c d : Component), p[i]? = some c ∧ q[i]? = some d ∧ c.same d = false

/-- Paths part at their first components or after them. -/
theorem Path.parts_cons_iff {c d : Component} {p q : Path} :
    Parts (c :: p) (d :: q) ↔ c.text ≠ d.text ∨ p.Parts q := by
  constructor
  · rintro ⟨i, e, f, he, hf, different⟩
    cases i with
    | zero =>
        obtain rfl : c = e := Option.some.inj he
        obtain rfl : d = f := Option.some.inj hf
        exact .inl (beq_eq_false_iff_ne.mp different)
    | succ i => exact .inr ⟨i, e, f, he, hf, different⟩
  · rintro (different | ⟨i, e, f, he, hf, different⟩)
    · exact ⟨0, c, d, rfl, rfl, beq_eq_false_iff_ne.mpr different⟩
    · exact ⟨i + 1, e, f, he, hf, different⟩

/-- The root parts from no path. -/
theorem Path.not_parts_root_left (q : Path) : ¬Parts [] q := by
  rintro ⟨i, c, d, hc, -⟩
  exact absurd hc (by simp)

/-- No path parts from the root. -/
theorem Path.not_parts_root_right (p : Path) : ¬Parts p [] := by
  rintro ⟨i, c, d, -, hd, -⟩
  exact absurd hd (by simp)

namespace Value

/-- What an edit finds one step down, or `missing` where there is nothing. In a dictionary this is
more than what is in the slot of an index. -/
def editSlot (v : Value) (c : Component) : Value := (v.editChild? c).getD missing

variable {t r : Value} {c d : Component}

/-! ### Slots after one step -/

/-- A slot holds what an edit finds, where its component fits. Elsewhere it is missing, whatever an
edit would find. -/
theorem slot_eq_editSlot (t : Value) (c : Component) :
    t.slot c = if t.kind? = some c.kind then t.editSlot c else missing := by
  split
  · next fits => rw [slot, editSlot, editChild?_eq fits]
  · next fits => exact slot_of_kind?_ne fits

/-- An edit can step from containers of one kind alike, as it does not look at what is in them. -/
theorem admits_of_kind?_eq (h : t.kind? = r.kind?) : t.admits c = r.admits c := by
  cases t <;> cases r <;> cases c <;> first | rfl | exact absurd h (by simp [kind?])

/-- An edit can step from a container that the component fits. -/
theorem admits_of_kind? (fits : t.kind? = some c.kind) : t.admits c = true := by
  cases t <;> cases c <;> first | rfl | exact absurd fits (by simp [kind?, Component.kind])

/-- What is put one step down is found under every component with the same text. -/
theorem editSlot_putChild (h : c.text = d.text) (hc : t.admits c = true) (hd : t.admits d = true)
    (r : Value) : (t.putChild c r).editSlot d = r := by
  rw [editSlot, editChild?_putChild h hc hd]
  rfl

/-- Putting a value one step down changes nothing under components with another text. Holes that a
list is filled up with are nothing, too. -/
theorem editSlot_putChild_of_ne (h : c.text ≠ d.text) (t r : Value) :
    (t.putChild c r).editSlot d = t.editSlot d := by
  cases t with
  | list items =>
      cases c with
      | property k => rfl
      | index i =>
          cases d with
          | property k => rfl
          | index j => exact getD_putItem (fun he => h (by rw [he])) r items
  | dict entries => exact congrArg (·.getD missing) (lookup_insert_of_ne h.symm r entries)
  | _ => rfl

/-- A deletion one step down changes nothing under components with another text. -/
theorem editSlot_eraseChild_of_ne (h : c.text ≠ d.text) (t : Value) :
    (t.eraseChild c).editSlot d = t.editSlot d := by
  cases t with
  | list items =>
      cases c with
      | property k => rfl
      | index i =>
          rw [eraseChild]
          split
          · cases d with
            | property k => rfl
            | index j =>
                have hj : i ≠ j := fun he => h (by rw [he])
                show (trimHoles (items.set i missing))[j]?.getD missing = items[j]?.getD missing
                rw [getD_trimHoles, List.getElem?_set_ne hj]
          · rfl
  | dict entries => exact congrArg (·.getD missing) (lookup_erase_of_ne h.symm entries)
  | _ => rfl

/-- Putting a value one step down changes no slot with another text. -/
theorem slot_putChild_of_ne (h : c.text ≠ d.text) (t r : Value) :
    (t.putChild c r).slot d = t.slot d := by
  rw [slot_eq_editSlot, slot_eq_editSlot, kind?_putChild, editSlot_putChild_of_ne h]

/-- A deletion one step down changes no slot with another text. -/
theorem slot_eraseChild_of_ne (h : c.text ≠ d.text) (t : Value) :
    (t.eraseChild c).slot d = t.slot d := by
  rw [slot_eq_editSlot, slot_eq_editSlot, kind?_eraseChild, editSlot_eraseChild_of_ne h]

/-- **A slot with the text of the component that is put** holds what is put and held what an edit
finds there, or its component does not fit and the slot is missing before and after. -/
theorem slot_putChild (h : c.text = d.text) (hc : t.admits c = true) (r : Value) :
    (t.putChild c r).slot d = r ∧ t.slot d = t.editSlot c ∨
      (t.putChild c r).slot d = missing ∧ t.slot d = missing := by
  rw [slot_eq_editSlot, slot_eq_editSlot, kind?_putChild]
  split
  · next fits =>
      have hd := admits_of_kind? fits
      refine .inl ⟨editSlot_putChild h hc hd r, ?_⟩
      rw [editSlot, editSlot, editChild?_of_text_eq h hc hd]
  · exact .inr ⟨rfl, rfl⟩

/-- The container that a write steps into has the slots of the value that was there: a new container
has as little in it as the vacant value. -/
theorem slot_of_openFor {path place : Path} (h : t.openFor path place c = .ok r) (d : Component) :
    r.slot d = t.slot d := by
  obtain ⟨rfl, -⟩ := openFor_eq_ok_iff.mp h
  cases t <;> first | rfl | (cases c <;> cases d <;> rfl)

end Value

namespace Path

variable {p q : Path} {t r x d : Value}

/-! ### Whole edits -/

/-- A deletion further down happens in what an edit finds one step down, if that is a container. In
terms of slots there is one case less. -/
theorem erase_below (c e : Component) (p : Path) (t : Value) :
    erase (c :: e :: p) t =
      if (t.editSlot c).isContainer then t.putChild c (erase (e :: p) (t.editSlot c)) else t := by
  rw [erase_cons_cons, Value.editSlot]
  cases t.editChild? c <;> rfl

/-- An edit finds a container one step down only where one is. -/
theorem editChild?_of_editSlot {c : Component} (h : (t.editSlot c).isContainer = true) :
    t.editChild? c = some (t.editSlot c) := by
  cases hc : t.editChild? c with
  | some u => rw [Value.editSlot, hc]; rfl
  | none =>
      rw [Value.editSlot, hc] at h
      exact absurd h (by simp [Value.isContainer, Value.kind?])

/-- An edit can step to where it finds a container. -/
theorem admits_of_editSlot {c : Component} (h : (t.editSlot c).isContainer = true) :
    t.admits c = true :=
  Value.admits_of_editChild? (editChild?_of_editSlot h)

/-- **A deletion** does not show at a path that parts from its own. By induction on both paths, up
to where they part. -/
theorem get_erase (h : p.Parts q) : q.get (p.erase t) d = q.get t d := by
  induction p generalizing q t with
  | nil => exact absurd h (not_parts_root_left q)
  | cons c p ih =>
      cases q with
      | nil => exact absurd h (not_parts_root_right (c :: p))
      | cons e q =>
          rw [get_cons, get_cons]
          cases p with
          | nil =>
              rcases parts_cons_iff.mp h with different | parted
              · rw [erase, Value.slot_eraseChild_of_ne different]
              · exact absurd parted (not_parts_root_left q)
          | cons f p =>
              rw [erase_below]
              split
              · next container =>
                  by_cases same : c.text = e.text
                  · have parted : Parts (f :: p) q :=
                      (parts_cons_iff.mp h).resolve_left fun different => different same
                    rcases Value.slot_putChild same (admits_of_editSlot container)
                      (erase (f :: p) (t.editSlot c)) with ⟨now, before⟩ | ⟨now, before⟩
                    · rw [now, before]
                      exact ih parted
                    · rw [now, before]
                  · rw [Value.slot_putChild_of_ne same]
              · rfl

/-- **A write** does not show at a path that parts from its own, even where it puts new containers
in the place of what was vacant. -/
theorem get_assignFrom {path place : Path} (h : p.Parts q)
    (hr : assignFrom path place p t x = .ok r) : q.get r d = q.get t d := by
  induction p generalizing place q t r with
  | nil => exact absurd h (not_parts_root_left q)
  | cons c p ih =>
      cases q with
      | nil => exact absurd h (not_parts_root_right (c :: p))
      | cons e q =>
          rw [assignFrom] at hr
          obtain ⟨container, opened, hr⟩ := bind_eq_ok_iff.mp hr
          obtain ⟨child, written, hr⟩ := bind_eq_ok_iff.mp hr
          obtain rfl : container.putChild c child = r := Except.ok.inj hr
          have admitted := (Value.openFor_eq_ok_iff.mp opened).2
          rw [get_cons, get_cons, ← Value.slot_of_openFor opened]
          by_cases same : c.text = e.text
          · have parted : Parts p q :=
              (parts_cons_iff.mp h).resolve_left fun different => different same
            rcases Value.slot_putChild same admitted child with
              ⟨now, before⟩ | ⟨now, before⟩
            · rw [now, before]
              exact ih parted written
            · rw [now, before]
          · rw [Value.slot_putChild_of_ne same]

/-- **Edits are framed**: whatever is written at a path, or deleted there, what is read at a path
that parts from it stays the same. -/
theorem edit_framed (parted : p.Parts q) (tree default : Value) :
    (∀ x t, p.set tree x = .ok t → q.get t default = q.get tree default) ∧
      q.get (p.erase tree) default = q.get tree default := by
  refine ⟨fun x t written => ?_, get_erase parted⟩
  rw [set] at written
  split at written
  · obtain rfl := Except.ok.inj written
    exact get_erase parted
  · exact get_assignFrom parted written

/-- A write replaces a null by a list and fills it up, and a deletion cuts off a hole; on the way to
both an index stands for a key, which is read by the index and by the key. -/
theorem edit_framed_numeral :
    let tree : Value := .dict [(.str "0", .list [.int 1, .missing, .null, .int 2])]
    let grown : Value := .dict [(.str "0", .list [.int 1, .missing, .list [.missing, .int 3],
      .int 2])]
    let cut : Value := .dict [(.str "0", .list [.int 1, .missing, .null])]
    let p : Path := [.index 0, .index 2, .index 1]
    let q : Path := [.property "0", .index 2, .index 0]
    let last : Path := [.index 0, .index 3]
    p.Parts q ∧ p.set tree (.int 3) = .ok grown ∧ q.get grown .null = q.get tree .null ∧
      last.Parts q ∧ last.erase tree = cut ∧ q.get cut .null = q.get tree .null := by
  intro tree grown cut p q last
  have parted : p.Parts q := ⟨2, .index 1, .index 0, rfl, rfl, by decide⟩
  have parted' : last.Parts q := ⟨1, .index 3, .index 2, rfl, rfl, by decide⟩
  have written : p.set tree (.int 3) = .ok grown := by cbv
  exact ⟨parted, written, (edit_framed parted tree .null).1 _ _ written, parted', by cbv,
    (edit_framed parted' tree .null).2⟩

end Path

end TreeDelta
