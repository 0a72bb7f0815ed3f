import Mathlib.Data.List.Basic
import TreeDelta.Proofs.Tree.Fit
import TreeDelta.Proofs.Tree.Part
import TreeDelta.Proofs.Tree.Reach

/-!
# Edits without effect

Putting a value where it stands already changes nothing (`Value.putChild_self`), and neither does
deleting what is not there, as long as no list ends in a hole (`Path.erase_self`). In a part of a
tree nothing is at a place that is not kept, so a deletion that comes to no kept place leaves the
part as it is (`Value.Part.erase_self`).

## Main results

* `Value.putChild_self`: putting back what is there.
* `Path.exists_find?_of_reach?`: the place that an edit reaches.
* `Path.erase_self`, `Value.Part.erase_self`: deleting what is not there.
-/

namespace TreeDelta

namespace Value

variable {t u v : Value} {c : Component}

/-! ### Putting back what is there -/

/-- Putting the item that is there changes nothing. No hole is added, because the index is within
the list. -/
theorem putItem_self {i : Nat} {items : List Value} (h : items[i]? = some v) :
    putItem i v items = items := by
  induction items generalizing i with
  | nil => exact absurd h (by simp)
  | cons w ws ih =>
      cases i with
      | zero => exact congrArg (· :: ws) (Option.some.inj h).symm
      | succ i => exact congrArg (w :: ·) (ih h)

/-- Putting the value that is there under a key changes nothing, not even the order of the
entries. -/
theorem insert_self {k : String} {entries : List (Value × Value)}
    (h : lookup k entries = some v) : insert k v entries = entries := by
  induction entries with
  | nil => exact absurd h (by simp [lookup])
  | cons e es ih =>
      obtain ⟨l, w⟩ := e
      cases l with
      | str l =>
          by_cases hl : l = k
          · rw [lookup, if_pos hl] at h
            rw [insert, if_pos hl, hl, Option.some.inj h]
          · rw [lookup, if_neg hl] at h
            rw [insert, if_neg hl, ih h]
      | _ => exact congrArg (_ :: ·) (ih h)

/-- Putting the value that is there one step down changes nothing. -/
theorem putChild_self (h : t.editChild? c = some v) : t.putChild c v = t := by
  cases t with
  | list items =>
      cases c with
      | index i => exact congrArg list (putItem_self h)
      | property name => rfl
  | dict entries => exact congrArg dict (insert_self h)
  | _ => cases c <;> rfl

/-! ### Deleting what is not there -/

/-- A list that does not end in a hole has none to cut off, even if there are holes in it. -/
theorem trimHoles_of_getLast? {items : List Value}
    (h : ∀ v, items.getLast? = some v → v.isMissing = false) : trimHoles items = items := by
  induction items with
  | nil => rfl
  | cons v vs ih =>
      cases vs with
      | nil =>
          rw [trimHoles, trimHoles]
          exact if_neg (by simp [h v rfl])
      | cons w ws =>
          rw [trimHoles, ih fun u hu => h u (by rwa [List.getLast?_cons_cons])]

/-- Taking a key away that is not there changes nothing. -/
theorem erase_of_lookup {k : String} {entries : List (Value × Value)}
    (h : lookup k entries = none) :
    erase k entries = entries := by
  induction entries with
  | nil => rfl
  | cons e es ih =>
      obtain ⟨l, w⟩ := e
      cases l with
      | str l =>
          by_cases hl : l = k
          · rw [lookup, if_pos hl] at h; exact absurd h (by simp)
          · rw [lookup, if_neg hl] at h
            rw [erase, if_neg hl, ih h]
      | _ => exact congrArg (_ :: ·) (ih h)

/-- Deleting a hole of a tidy container, or what is not there, changes nothing. A container that is
not tidy might lose holes at its end. -/
theorem eraseChild_self (ht : t.Tidy) (h : ∀ w, t.editChild? c = some w → w.isMissing = true) :
    t.eraseChild c = t := by
  cases t with
  | list items =>
      cases c with
      | property k => rfl
      | index i =>
          rw [eraseChild]
          split
          · next hi =>
              have hole : items[i] = missing :=
                isMissing_iff.mp (h items[i] (List.getElem?_eq_getElem hi))
              have same : items.set i missing = items := by
                rw [← hole, List.set_getElem_self]
              rw [same, trimHoles_of_getLast? ht]
          · rfl
  | dict entries =>
      have absent : lookup c.text entries = none := by
        cases hw : lookup c.text entries with
        | none => rfl
        | some w =>
            have there := (ht.2 _ (mem_of_lookup hw)).2
            exact absurd ((h w hw).symm.trans there) (by simp)
      exact congrArg dict (erase_of_lookup absent)
  | _ => cases c <;> rfl

/-- What an edit steps to in a neat tree is neat, so the argument can go on there. -/
theorem Neat.editChild? (ht : t.Neat) (h : t.editChild? c = some u) : u.Neat := by
  have slot := slot_of_mem_steps ht.tidy.hasUniqueKeys (mem_steps_of_editChild? h)
  exact slot ▸ ht.slot _

/-! ### The place that an edit reaches -/

/-- An edit steps to what is at its step. So what edits do can be said in terms of paths that
resolve. -/
theorem child?_editStep (h : t.editChild? c = some u) : t.child? (t.editStep c) = some u := by
  cases t <;> cases c <;> exact h

/-- The step of an edit has the text of the component: only its kind may be different. -/
theorem text_editStep (t : Value) (c : Component) : (t.editStep c).text = c.text := by
  cases t <;> rfl

end Value

namespace Path

/-- **What an edit reaches** stands at a place with the same texts. There an index of a dictionary
is replaced by its numeral. -/
theorem exists_find?_of_reach? {p : Path} {t u : Value} (h : p.reach? t = some u) :
    ∃ q : Path, q.find? t = some u ∧ q.texts = p.texts := by
  induction p generalizing t with
  | nil => exact ⟨[], h, rfl⟩
  | cons c p ih =>
      rw [reach?] at h
      cases hw : t.editChild? c with
      | none => rw [hw] at h; exact absurd h (by simp)
      | some w =>
          rw [hw] at h
          obtain ⟨q, hq, same⟩ := ih h
          refine ⟨t.editStep c :: q, ?_, ?_⟩
          · rw [Value.find?_cons, Value.child?_editStep hw]
            exact hq
          · rw [texts, texts, List.map_cons, List.map_cons, Value.text_editStep]
            exact congrArg _ same

/-- **Deleting a hole of a neat tree**, or what is not there, changes nothing. The root is left out,
since there is always something to delete. -/
theorem erase_self {p : Path} {t : Value} (ht : t.Neat) (hp : p ≠ [])
    (h : ∀ u, p.reach? t = some u → u.isMissing = true) : p.erase t = t := by
  induction p generalizing t with
  | nil => exact absurd rfl hp
  | cons c p ih =>
      cases p with
      | nil =>
          refine Value.eraseChild_self ht.tidy fun w hw => h w ?_
          rw [reach?, hw]
          rfl
      | cons d p =>
          rw [erase_cons_cons]
          cases hc : t.editChild? c with
          | none => rfl
          | some child =>
              have inner : erase (d :: p) child = child := by
                refine ih (ht.editChild? hc) (List.cons_ne_nil d p) fun u hu => h u ?_
                rw [reach?, hc]
                exact hu
              dsimp only
              rw [inner, Value.putChild_self hc, ite_self]

end Path

/-- **A deletion at no kept place** leaves a part as it is, because nothing is there in the part. -/
theorem Value.Part.erase_self {keep : Path → Prop} {v t : Value} (h : Part keep v t) {p : Path}
    (hp : p ≠ []) (apart : ∀ q, keep q → q.texts ≠ p.texts) : p.erase t = t := by
  refine Path.erase_self h.neat hp fun u hu => ?_
  obtain ⟨q, hq, texts⟩ := Path.exists_find?_of_reach? hu
  by_contra present
  exact apart q (h.exists_find? hq (Bool.eq_false_iff.mpr present)).1 texts

end TreeDelta
