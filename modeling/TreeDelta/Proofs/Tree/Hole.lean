import TreeDelta.Proofs.Tree.Fit

/-!
# Holes stay inside lists

A hole marks an item that is not there between items that are. So no list ends in a hole, and no
dictionary has a missing value, at any depth of a tree (`Value.Trimmed`). A write fills the gap it
leaves with holes and puts an item behind them, and a deletion cuts off the holes that come to the
end of the list it is in. All other lists keep their last item: every edit goes on in a value that
is there, and leaves one there. So trimmed trees stay trimmed, one edit after the other
(`Edit.trimmed_reached`).

## Main definitions

* `Value.Trimmed`: no list inside a value ends in a hole, and no dictionary has a missing value.
* `Edit`, `Edit.reached`: an edit, and the trees that a run of edits reaches.

## Main results

* `Value.Trimmed.set`: an edit of a trimmed tree.
* `Edit.trimmed_reached`: a run of edits.
-/

namespace TreeDelta

namespace Value

/-! ### Trimmed values -/

mutual

/-- Whether no list in a value, at any depth, ends in a hole, and no dictionary in it has a missing
value. Tuples and sets are looked into, as lists may stand in them. -/
def isTrimmed : Value → Bool
  | list items => items.getLast?.all (fun v => !v.isMissing) && areTrimmed items
  | dict entries => haveTrimmed entries
  | tuple items => areTrimmed items
  | set items => areTrimmed items
  | _ => true

/-- Whether all items are trimmed. -/
def areTrimmed : List Value → Bool
  | [] => true
  | v :: vs => isTrimmed v && areTrimmed vs

/-- Whether all entries have values that are there and trimmed. -/
def haveTrimmed : List (Value × Value) → Bool
  | [] => true
  | (_, v) :: es => !v.isMissing && isTrimmed v && haveTrimmed es

end

/-- Holes stand inside lists only: no list in a value, at any depth, ends in a hole, and no
dictionary in it has a missing value. A missing value itself is trimmed. -/
def Trimmed (v : Value) : Prop := v.isTrimmed = true

instance (v : Value) : Decidable v.Trimmed := inferInstanceAs (Decidable (_ = true))

/-- All items are trimmed when every one is. -/
theorem areTrimmed_iff {items : List Value} :
    areTrimmed items = true ↔ ∀ v ∈ items, v.Trimmed := by
  induction items with
  | nil => simp [areTrimmed]
  | cons v vs ih => rw [areTrimmed, Bool.and_eq_true, ih, List.forall_mem_cons]; rfl

/-- A list is trimmed when its last item is there and all its items are trimmed. -/
theorem trimmed_list_iff {items : List Value} :
    (list items).Trimmed ↔
      (∀ v, items.getLast? = some v → v.isMissing = false) ∧ ∀ v ∈ items, v.Trimmed := by
  rw [Trimmed, isTrimmed, Bool.and_eq_true, areTrimmed_iff]
  cases items.getLast? <;> simp

/-- A dictionary is trimmed when all its values are there and trimmed. -/
theorem trimmed_dict_iff {entries : List (Value × Value)} :
    (dict entries).Trimmed ↔ ∀ e ∈ entries, e.2.isMissing = false ∧ e.2.Trimmed := by
  rw [Trimmed, isTrimmed]
  induction entries with
  | nil => simp [haveTrimmed]
  | cons e es ih =>
      rw [haveTrimmed, Bool.and_eq_true, Bool.and_eq_true, Bool.not_eq_true', ih,
        List.forall_mem_cons]
      rfl

/-- The container that a component steps into is trimmed when it is new. -/
theorem trimmed_emptyFor (c : Component) : (emptyFor c).Trimmed := by
  cases c <;> rfl

/-! ### One step of an edit -/

variable {t r : Value}

/-- An edit goes down into trimmed values, so the induction over its path can go on there. -/
theorem Trimmed.editChild? (ht : t.Trimmed) {c : Component} (h : t.editChild? c = some r) :
    r.Trimmed := by
  cases t with
  | list items =>
      cases c with
      | index i => exact (trimmed_list_iff.mp ht).2 r (List.mem_of_getElem? h)
      | property k => exact absurd h (by simp [Value.editChild?])
  | dict entries => exact (trimmed_dict_iff.mp ht _ (mem_of_lookup h)).2
  | _ => exact absurd h (by simp [Value.editChild?])

/-- **Putting a value that is there** keeps a container trimmed: whatever a list is filled up with
comes before the value. -/
theorem Trimmed.putChild (ht : t.Trimmed) (hr : r.Trimmed) (there : r.isMissing = false)
    (c : Component) : (t.putChild c r).Trimmed := by
  cases t with
  | list items =>
      cases c with
      | property k => exact ht
      | index i =>
          obtain ⟨last, all⟩ := trimmed_list_iff.mp ht
          refine trimmed_list_iff.mpr ⟨fun w hw => getLast?_putItem there last hw, fun w hw => ?_⟩
          obtain ⟨j, hj⟩ := List.mem_iff_getElem?.mp hw
          rcases eq_of_getElem?_putItem hj with kept | rfl | ⟨-, rfl⟩
          · exact all w (List.mem_of_getElem? kept)
          · rfl
          · exact hr
  | dict entries =>
      refine trimmed_dict_iff.mpr fun e he => ?_
      rcases mem_insert he with rfl | kept
      · exact ⟨there, hr⟩
      · exact trimmed_dict_iff.mp ht e kept
  | _ => exact ht

/-- **Deleting one step down** keeps a container trimmed: holes at the end of a list are cut off. -/
theorem Trimmed.eraseChild (ht : t.Trimmed) (c : Component) : (t.eraseChild c).Trimmed := by
  cases t with
  | list items =>
      cases c with
      | property k => exact ht
      | index i =>
          rw [Value.eraseChild]
          split
          · refine trimmed_list_iff.mpr ⟨fun w hw => getLast?_trimHoles hw, fun w hw => ?_⟩
            obtain ⟨j, hj⟩ := List.mem_iff_getElem?.mp hw
            have kept := List.mem_of_getElem? (getElem?_of_trimHoles hj)
            rcases List.mem_or_eq_of_mem_set kept with kept | rfl
            · exact (trimmed_list_iff.mp ht).2 w kept
            · rfl
          · exact ht
  | dict entries =>
      exact trimmed_dict_iff.mpr fun e he =>
        trimmed_dict_iff.mp ht e ((erase_sublist _ entries).subset he)
  | _ => exact ht

/-! ### Whole edits -/

/-- **A write** of a trimmed value that is there leaves a trimmed tree. -/
theorem Trimmed.assignFrom {path place q : Path} {x : Value} (ht : t.Trimmed) (hx : x.Trimmed)
    (there : x.isMissing = false) (h : Path.assignFrom path place q t x = .ok r) : r.Trimmed := by
  induction q generalizing place t r with
  | nil =>
      obtain rfl := Except.ok.inj h
      exact hx
  | cons c q ih =>
      rw [Path.assignFrom] at h
      obtain ⟨container, opened, h⟩ := bind_eq_ok_iff.mp h
      obtain ⟨child, written, h⟩ := bind_eq_ok_iff.mp h
      obtain rfl : container.putChild c child = r := Except.ok.inj h
      -- a vacant value gives way to an empty container, which has no holes
      have container_trimmed : container.Trimmed := by
        rw [(openFor_eq_ok_iff.mp opened).1]
        split
        · exact trimmed_emptyFor c
        · exact ht
      have start : ((container.editChild? c).getD missing).Trimmed := by
        cases hc : container.editChild? c with
        | none => rfl
        | some w => exact container_trimmed.editChild? hc
      have child_there : child.isMissing = false := Path.isMissing_assign there
        (Path.assignFrom_ok written)
      exact container_trimmed.putChild (ih start written) child_there c

/-- **A deletion** leaves a trimmed tree. On the way back up, the container that was changed is put
where it was, and is still there. -/
theorem Trimmed.erase (ht : t.Trimmed) (p : Path) : (p.erase t).Trimmed := by
  induction p generalizing t with
  | nil => rfl
  | cons c q ih =>
      cases q with
      | nil => exact ht.eraseChild c
      | cons d q =>
          rw [Path.erase_cons_cons]
          cases hc : t.editChild? c with
          | none => exact ht
          | some child =>
              dsimp only
              split
              · next hk =>
                  have there := isMissing_of_isContainer hk
                  exact ht.putChild (ih (ht.editChild? hc)) (Path.isMissing_erase there d q) c
              · exact ht

/-- **An edit of a trimmed tree**: what is written is trimmed, or missing, which is a deletion. -/
theorem Trimmed.set {p : Path} {x : Value} (ht : t.Trimmed) (hx : x.Trimmed)
    (h : p.set t x = .ok r) : r.Trimmed := by
  rw [Path.set] at h
  split at h
  · obtain rfl := Except.ok.inj h
    exact ht.erase p
  · next there => exact ht.assignFrom hx (Bool.eq_false_iff.mpr there) h

end Value

/-! ### Runs of edits -/

/-- An edit of a tree. -/
inductive Edit where
  /-- A value is written at a path; a missing one is deleted. -/
  | write (p : Path) (v : Value)
  /-- The value at a path is deleted. -/
  | delete (p : Path)

namespace Edit

/-- The value that an edit writes. A deletion writes the missing value. -/
def value : Edit → Value
  | write _ v => v
  | delete _ => .missing

/-- The tree after an edit, or why the edit fails. -/
def apply (tree : Value) : Edit → Except EditFault Value
  | write p v => p.set tree v
  | delete p => .ok (p.erase tree)

/-- The tree that goes into the next edit; an edit that fails is skipped. That it leaves the tree as
it is is proved elsewhere (`Path.failed_set_changes_nothing`). -/
def next (tree : Value) (e : Edit) : Value :=
  match e.apply tree with
  | .ok t => t
  | .error _ => tree

/-- The trees that a run of edits reaches, from the one it starts with on. There is one more of them
than there are edits. -/
def reached (tree : Value) : List Edit → List Value
  | [] => [tree]
  | e :: es => tree :: reached (e.next tree) es

/-- **One edit**, done or skipped, keeps a tree trimmed. This is the step of the induction over a
run. -/
theorem trimmed_next {tree : Value} {e : Edit} (ht : tree.Trimmed) (he : e.value.Trimmed) :
    (e.next tree).Trimmed := by
  rw [next]
  split
  · next t h =>
      cases e with
      | write p v => exact ht.set he h
      | delete p =>
          obtain rfl := Except.ok.inj h
          exact ht.erase p
  · exact ht

/-- **Holes stay inside lists**: where a trimmed tree is edited and all values that are written are
trimmed, every tree that is reached is trimmed, whether or not some of the edits fail. -/
theorem trimmed_reached {tree : Value} {edits : List Edit} (ht : tree.Trimmed)
    (he : ∀ e ∈ edits, e.value.Trimmed) : ∀ t ∈ reached tree edits, t.Trimmed := by
  induction edits generalizing tree with
  | nil =>
      intro t hmem
      obtain rfl := List.mem_singleton.mp hmem
      exact ht
  | cons e es ih =>
      intro t hmem
      rcases List.mem_cons.mp hmem with rfl | hmem
      · exact ht
      · have rest : ∀ e' ∈ es, e'.value.Trimmed := fun e' h => he e' (List.mem_cons_of_mem e h)
        exact ih (trimmed_next ht (he e List.mem_cons_self)) rest t hmem

/-- A deletion in the middle of a list, one that reaches the holes before it, a write beyond the
end, one that fails at the property of a list, and one into a dictionary by an index. -/
theorem trimmed_reached_gap :
    let tree : Value := .dict [(.str "a", .list [.int 1, .int 2, .int 3]), (.str "b", .null)]
    let place (i : Nat) : Path := [.property "a", .index i]
    let edits : List Edit := [.delete (place 1), .delete (place 2),
      .write (place 3) (.list [.missing, .int 4]), .write [.property "a", .property "x"] .null,
      .write [.property "b", .index 1] (.str "c"), .write [.index 7] .missing]
    tree.Trimmed ∧ (∀ e ∈ edits, e.value.Trimmed) ∧
      (reached tree edits).getLast? = some (.dict [
        (.str "a", .list [.int 1, .missing, .missing, .list [.missing, .int 4]]),
        (.str "b", .list [.missing, .str "c"])]) ∧
      ∀ t ∈ reached tree edits, t.Trimmed := by
  intro tree place edits
  have ht : tree.Trimmed := by decide
  have he : ∀ e ∈ edits, e.value.Trimmed := by decide
  exact ⟨ht, he, rfl, trimmed_reached ht he⟩

end Edit

end TreeDelta
