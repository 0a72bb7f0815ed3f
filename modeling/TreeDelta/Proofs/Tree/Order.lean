import TreeDelta.Proofs.Tree.Edit

/-!
# Deletions keep the order of a tree

A deletion leaves a hole in a list, which has no nodes, and takes an entry out of a dictionary. On
the way down it puts containers back in the places they were taken from. So the places that are left
come in the order they had before (`Path.places_erase_sublist`).

## Main definitions

* `Value.places`: the paths of the nodes of a tree, in pre-order.

## Main results

* `Value.places_putChild_sublist`, `Value.places_eraseChild_sublist`: one step down.
* `Path.places_erase_sublist`: a deletion at any path.
-/

namespace TreeDelta

namespace Value

/-! ### Places -/

/-- The paths of the nodes of a tree, in pre-order. Edits are compared by these where the order of
what they leave matters. -/
def places (v : Value) : List Path := v.nodes.map Node.path

/-- The places below some steps, in order: for each step those of the value that it leads to. -/
def placesBelow (ss : List (Component × Value)) : List Path :=
  ss.flatMap fun s => s.2.places.map (List.cons s.1)

/-- A missing value has no places. -/
@[simp] theorem places_missing : missing.places = [] := by rw [places, nodes_missing, List.map_nil]

/-- The places of a tree: its root, and then the places below its steps, in their order. -/
theorem places_eq {v : Value} (h : v.isMissing = false) :
    v.places = [] :: placesBelow v.steps := by
  rw [places, nodes_eq h, List.map_cons, nodesBelow, placesBelow, List.map_flatMap]
  refine congrArg _ (List.flatMap_congr fun s _ => ?_)
  rw [List.map_map, places, List.map_map]
  rfl

/-- No place comes twice. So a list of places can be given by its members and its order. -/
theorem nodup_places {v : Value} (h : v.WellKeyed) : v.places.Nodup := nodup_nodes h

/-- The places below a step come first, and then those below the other steps. -/
theorem placesBelow_cons (c : Component) (v : Value) (ss : List (Component × Value)) :
    placesBelow ((c, v) :: ss) = v.places.map (List.cons c) ++ placesBelow ss :=
  List.flatMap_cons

/-! ### Items -/

/-- An item that gives way to one with fewer places leaves fewer places. The items around it keep
theirs. -/
theorem placesBelow_set_sublist {items : List Value} {i j : Nat} {w : Value}
    (h : ∀ u, items[j]? = some u → w.places.Sublist u.places) :
    (placesBelow (itemSteps i (items.set j w))).Sublist (placesBelow (itemSteps i items)) := by
  induction items generalizing i j with
  | nil => exact .refl _
  | cons v vs ih =>
      cases j with
      | zero =>
          rw [List.set_cons_zero, itemSteps, itemSteps, placesBelow_cons, placesBelow_cons]
          exact ((h v rfl).map _).append_right _
      | succ j =>
          rw [List.set_cons_succ, itemSteps, itemSteps, placesBelow_cons, placesBelow_cons]
          exact (ih h).append_left _

/-- Cutting off holes takes no places away, as holes have none. -/
theorem placesBelow_trimHoles (i : Nat) (items : List Value) :
    placesBelow (itemSteps i (trimHoles items)) = placesBelow (itemSteps i items) := by
  induction items generalizing i with
  | nil => rfl
  | cons v vs ih =>
      have rest := ih (i + 1)
      rw [trimHoles, itemSteps, placesBelow_cons]
      cases ht : trimHoles vs with
      | nil =>
          rw [ht] at rest
          rw [← rest]
          cases hv : v.isMissing with
          | true => simp [isMissing_iff.mp hv, itemSteps, placesBelow]
          | false => simp [itemSteps, placesBelow]
      | cons w ws =>
          rw [ht] at rest
          rw [← rest, ← placesBelow_cons]
          rfl

/-- Putting a value in the place of an item sets the item, and no holes are needed. -/
theorem putItem_eq_set {items : List Value} {i : Nat} {u : Value} (h : items[i]? = some u)
    (w : Value) : putItem i w items = items.set i w := by
  induction items generalizing i with
  | nil => exact absurd h (by simp)
  | cons v vs ih =>
      cases i with
      | zero => rfl
      | succ i => exact congrArg (List.cons v) (ih h)

/-! ### Entries -/

/-- An entry that is taken away takes its places along, and those of the others stay in order. -/
theorem placesBelow_erase_sublist (k : String) (entries : List (Value × Value)) :
    (placesBelow (entrySteps (erase k entries))).Sublist (placesBelow (entrySteps entries)) := by
  induction entries with
  | nil => exact .refl _
  | cons e es ih =>
      obtain ⟨l, v⟩ := e
      cases l with
      | str l =>
          rw [erase]
          split
          · rw [entrySteps, placesBelow_cons]
            exact List.sublist_append_right _ _
          · rw [entrySteps, entrySteps, placesBelow_cons, placesBelow_cons]
            exact ih.append_left _
      | _ => exact ih

/-- An entry that gives way to one with fewer places leaves fewer places, as its key stays where it
is. -/
theorem placesBelow_insert_sublist {k : String} {entries : List (Value × Value)} {u w : Value}
    (hu : lookup k entries = some u) (h : w.places.Sublist u.places) :
    (placesBelow (entrySteps (insert k w entries))).Sublist (placesBelow (entrySteps entries)) := by
  induction entries with
  | nil => exact absurd hu (by simp [lookup])
  | cons e es ih =>
      obtain ⟨l, v⟩ := e
      cases l with
      | str l =>
          rw [lookup] at hu
          rw [insert]
          split
          · next hl =>
              rw [if_pos hl] at hu
              obtain rfl := Option.some.inj hu
              rw [entrySteps, entrySteps, placesBelow_cons, placesBelow_cons, hl]
              exact (h.map _).append_right _
          · next hl =>
              rw [if_neg hl] at hu
              rw [entrySteps, entrySteps, placesBelow_cons, placesBelow_cons]
              exact (ih hu).append_left _
      | _ => exact ih hu

/-! ### One step down -/

/-- Containers whose steps keep the order of their places keep it themselves, as the root comes
first in both. -/
theorem places_sublist_of_steps {v w : Value} (hv : v.isMissing = false) (hw : w.isMissing = false)
    (h : (placesBelow w.steps).Sublist (placesBelow v.steps)) : w.places.Sublist v.places := by
  rw [places_eq hv, places_eq hw]
  exact h.cons_cons []

/-- **A value one step down that gives way** to one with fewer places leaves fewer places. -/
theorem places_putChild_sublist {c : Component} {t u w : Value} (hu : t.editChild? c = some u)
    (h : w.places.Sublist u.places) : (t.putChild c w).places.Sublist t.places := by
  cases t with
  | list items =>
      cases c with
      | index i =>
          have item : items[i]? = some u := hu
          rw [putChild, putItem_eq_set item]
          refine places_sublist_of_steps rfl rfl (placesBelow_set_sublist fun x hx => ?_)
          rwa [← Option.some.inj (item.symm.trans hx)]
      | property k => exact .refl _
  | dict entries => exact places_sublist_of_steps rfl rfl (placesBelow_insert_sublist hu h)
  | _ => exact .refl _

/-- **A deletion one step down** leaves fewer places, in the order in which they were. -/
theorem places_eraseChild_sublist (t : Value) (c : Component) :
    (t.eraseChild c).places.Sublist t.places := by
  cases t with
  | list items =>
      cases c with
      | index i =>
          rw [eraseChild]
          split
          · refine places_sublist_of_steps rfl rfl ?_
            rw [steps, placesBelow_trimHoles]
            exact placesBelow_set_sublist fun u _ => by simp
          · exact .refl _
      | property k => exact .refl _
  | dict entries => exact places_sublist_of_steps rfl rfl (placesBelow_erase_sublist _ entries)
  | _ => exact .refl _

end Value

/-! ### Whole deletions -/

/-- **A deletion keeps the order** of the places that it leaves, at any depth: only places are taken
away, and none is added or moved. -/
theorem Path.places_erase_sublist (p : Path) (t : Value) : (p.erase t).places.Sublist t.places := by
  induction p generalizing t with
  | nil => simp [erase]
  | cons c p ih =>
      cases p with
      | nil => exact Value.places_eraseChild_sublist t c
      | cons d p =>
          rw [erase_cons_cons]
          cases hu : t.editChild? c with
          | none => exact .refl _
          | some u =>
              show (if u.isContainer then t.putChild c (erase (d :: p) u) else t).places.Sublist _
              split
              · exact Value.places_putChild_sublist hu (ih u)
              · exact .refl _

end TreeDelta
