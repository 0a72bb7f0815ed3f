import Mathlib.Data.List.Perm.Basic
import TreeDelta.Projection.Basic
import TreeDelta.Proofs.Tree.Frame
import TreeDelta.Proofs.Tree.Order
import TreeDelta.Proofs.Tree.Write

/-!
# Deletions commute

How much of a list a deletion cuts off depends on the holes that earlier deletions left. The order
of two deletions does not matter all the same. A list that does not end in a hole is told by its
slots (`Value.trimHoles_congr`), and a deletion within a list leaves such a list, with one slot
emptied; a deletion beyond its end does nothing, and it does so, too, when the list has become
shorter, because then the slot is missing already. A deletion further down goes on in what it finds
one step down, and puts it back where it was.

A deletion at a place empties it, so a second one does nothing, and what lies below it is gone with
it, whichever of the two was deleted first. So some paths can be deleted in any order
(`Path.deletions_commute`).

## Main definitions

* `Path.deleteAll`: the tree after the deletions at some paths, one after the other.
* `Projection.excludedPaths`: the paths that the excluded patterns of a projection delete.

## Main results

* `Value.eraseChild_comm`, `Value.eraseChild_putChild_comm`, `Value.putChild_comm`: one step down.
* `Path.erase_comm`, `Path.erase_erase`, `Path.get_erase_self`: one path, and two paths.
* `Path.deletions_commute`: any number of paths.
-/

namespace TreeDelta

namespace Value

variable {t u v w x y : Value} {c d : Component}

/-! ### Lists without the holes at their end -/

/-- Nothing is left of a list of holes. -/
theorem trimHoles_eq_nil {items : List Value}
    (h : ∀ i : Nat, items[i]?.getD missing = missing) : trimHoles items = [] := by
  induction items with
  | nil => rfl
  | cons v vs ih =>
      obtain rfl : v = missing := h 0
      rw [trimHoles, ih fun i => h (i + 1)]
      rfl

/-- **What is left without the holes at the end of a list** is told by the slots of the list. So two
lists can be compared index by index, whatever their lengths. -/
theorem trimHoles_congr {as bs : List Value}
    (h : ∀ i : Nat, as[i]?.getD missing = bs[i]?.getD missing) : trimHoles as = trimHoles bs := by
  induction as generalizing bs with
  | nil => exact (trimHoles_eq_nil fun i => (h i).symm).symm
  | cons a as ih =>
      cases bs with
      | nil => exact trimHoles_eq_nil h
      | cons b bs =>
          obtain rfl : a = b := h 0
          rw [trimHoles, trimHoles, ih fun i => h (i + 1)]

/-- The slots of a list after an item gave way to a hole. -/
theorem getD_set_missing (items : List Value) (i j : Nat) :
    (items.set i missing)[j]?.getD missing =
      if i = j then missing else items[j]?.getD missing := by
  rw [List.getElem?_set]
  split
  · split <;> rfl
  · rfl

/-- A deletion within a list. -/
theorem eraseChild_of_lt {items : List Value} {i : Nat} (h : i < items.length) :
    (list items).eraseChild (.index i) = list (trimHoles (items.set i missing)) :=
  if_pos h

/-- A deletion beyond the end of a list does nothing: no holes are made for it. -/
theorem eraseChild_of_le {items : List Value} {i : Nat} (h : items.length ≤ i) :
    (list items).eraseChild (.index i) = list items :=
  if_neg (Nat.not_lt.mpr h)

/-- A deletion after holes were cut off leaves what it would leave before. So it does not matter
when they are cut off. -/
theorem eraseChild_trimHoles (items : List Value) (i : Nat) :
    (list (trimHoles items)).eraseChild (.index i) =
      list (trimHoles (items.set i missing)) := by
  rcases Nat.lt_or_ge i (trimHoles items).length with inside | beyond
  · rw [eraseChild_of_lt inside]
    refine congrArg list (trimHoles_congr fun j => ?_)
    rw [getD_set_missing, getD_set_missing, getD_trimHoles]
  · rw [eraseChild_of_le beyond]
    refine congrArg list (trimHoles_congr fun j => ?_)
    rw [getD_set_missing]
    split
    · next same =>
        rw [← same, ← getD_trimHoles, List.getElem?_eq_none beyond]
        rfl
    · rfl

/-! ### Two edits one step down -/

/-- A deletion that cannot step from a value does nothing. -/
theorem eraseChild_of_not_admits (h : t.admits c = false) : t.eraseChild c = t := by
  cases t with
  | list items =>
      cases c with
      | index i => exact absurd h (by simp [admits])
      | property k => rfl
  | dict entries => cases c <;> exact absurd h (by simp [admits])
  | _ => cases c <;> rfl

/-- Two deletions in a list leave the same list in either order, although each of them may cut off
holes that the other one has made. -/
theorem eraseChild_index_comm (items : List Value) (i j : Nat) :
    ((list items).eraseChild (.index i)).eraseChild (.index j) =
      ((list items).eraseChild (.index j)).eraseChild (.index i) := by
  -- a deletion beyond the end leaves the list to the other one, which makes it no longer
  have beyond : ∀ i j, items.length ≤ j →
      ((list items).eraseChild (.index i)).eraseChild (.index j) =
        ((list items).eraseChild (.index j)).eraseChild (.index i) := by
    intro i j hj
    rw [eraseChild_of_le hj]
    rcases Nat.lt_or_ge i items.length with hi | hi
    · rw [eraseChild_of_lt hi, eraseChild_trimHoles,
        List.set_eq_of_length_le (by rwa [List.length_set])]
    · rw [eraseChild_of_le hi, eraseChild_of_le hj]
  rcases Nat.lt_or_ge i items.length with hi | hi
  · rcases Nat.lt_or_ge j items.length with hj | hj
    · rw [eraseChild_of_lt hi, eraseChild_of_lt hj, eraseChild_trimHoles, eraseChild_trimHoles]
      refine congrArg list (trimHoles_congr fun k => ?_)
      simp only [getD_set_missing]
      split <;> split <;> rfl
    · exact beyond i j hj
  · exact (beyond j i hi).symm

/-- Two keys are taken away in either order. -/
theorem erase_erase_comm (k l : String) (entries : List (Value × Value)) :
    erase k (erase l entries) = erase l (erase k entries) := by
  by_cases hkl : k = l
  · rw [hkl]
  · induction entries with
    | nil => rfl
    | cons e es ih =>
        obtain ⟨m, v⟩ := e
        cases m with
        | str m =>
            by_cases hk : m = k
            · subst hk
              rw [erase, if_neg hkl, erase, if_pos rfl, erase, if_pos rfl]
            · by_cases hl : m = l
              · subst hl
                rw [erase, if_pos rfl, erase, if_neg hk, erase, if_pos rfl]
              · rw [erase, if_neg hl, erase, if_neg hk, erase, if_neg hk, erase, if_neg hl, ih]
        | _ => exact congrArg (_ :: ·) ih

/-- **Two deletions one step down** leave the same container in either order. This is where lists
and dictionaries are looked at; further up, deletions go through `putChild`. -/
theorem eraseChild_comm (t : Value) (c d : Component) :
    (t.eraseChild c).eraseChild d = (t.eraseChild d).eraseChild c := by
  have idle : ∀ c d, t.admits c = false →
      (t.eraseChild c).eraseChild d = (t.eraseChild d).eraseChild c := by
    intro c d h
    have h' : (t.eraseChild d).admits c = false := by
      rwa [admits_of_kind?_eq (kind?_eraseChild t d)]
    rw [eraseChild_of_not_admits h, eraseChild_of_not_admits h']
  cases t with
  | list items =>
      cases c with
      | property k => exact idle _ _ rfl
      | index i =>
          cases d with
          | property k => exact (idle _ _ rfl).symm
          | index j => exact eraseChild_index_comm items i j
  | dict entries => exact congrArg dict (erase_erase_comm d.text c.text entries)
  | _ => exact idle _ _ rfl

/-- Taking a key away and putting a value under another key, in either order. -/
theorem erase_insert_comm {k l : String} (h : k ≠ l) (v : Value) (entries : List (Value × Value)) :
    erase l (insert k v entries) = insert k v (erase l entries) := by
  induction entries with
  | nil => exact if_neg h
  | cons e es ih =>
      obtain ⟨m, w⟩ := e
      cases m with
      | str m =>
          by_cases hk : m = k
          · subst hk
            rw [insert, if_pos rfl, erase, if_neg h, erase, if_neg h, insert, if_pos rfl]
          · by_cases hl : m = l
            · subst hl
              rw [insert, if_neg hk, erase, if_pos rfl, erase, if_pos rfl]
            · rw [insert, if_neg hk, erase, if_neg hl, erase, if_neg hl, insert, if_neg hk, ih]
      | _ => exact congrArg (_ :: ·) ih

/-- A deletion and putting a value in the place of one that is there, next to it. The value is no
hole, so that nothing more is cut off. -/
theorem eraseChild_putChild_comm (h : c.text ≠ d.text) (hu : t.editChild? c = some u)
    (present : x.isMissing = false) :
    (t.putChild c x).eraseChild d = (t.eraseChild d).putChild c x := by
  cases t with
  | list items =>
      cases c with
      | property k => exact absurd hu (by simp [editChild?])
      | index i =>
          cases d with
          | property k => rfl
          | index j =>
              have item : items[i]? = some u := hu
              have hij : i ≠ j := fun he => h (by rw [he])
              have length : (putItem i x items).length = items.length := by
                rw [putItem_eq_set item, List.length_set]
              rcases Nat.lt_or_ge j items.length with inside | beyond
              · rw [putChild, eraseChild_of_lt (by rwa [length]), eraseChild_of_lt inside, putChild]
                have last : ∀ w, (putItem i x (trimHoles (items.set j missing))).getLast? = some w →
                    w.isMissing = false :=
                  fun w hw => getLast?_putItem present (fun _ hl => getLast?_trimHoles hl) hw
                rw [← trimHoles_of_getLast? last]
                refine congrArg list (trimHoles_congr fun k => ?_)
                rw [getD_set_missing]
                by_cases hk : k = i
                · rw [hk, getElem?_putItem, getElem?_putItem, if_neg (Ne.symm hij)]
                · rw [getD_putItem hk, getD_putItem hk, getD_trimHoles, getD_set_missing]
              · rw [putChild, eraseChild_of_le (by rwa [length]), eraseChild_of_le beyond, putChild]
  | dict entries => exact congrArg dict (erase_insert_comm h x entries)
  | _ => rfl

/-- Values are put under two keys that are there, in either order. A new key would come last, so its
order would show. -/
theorem insert_insert_comm {k l : String} (h : k ≠ l) {entries : List (Value × Value)}
    (hk : lookup k entries = some u) (v w : Value) :
    insert k v (insert l w entries) = insert l w (insert k v entries) := by
  induction entries with
  | nil => exact absurd hk (by simp [lookup])
  | cons e es ih =>
      obtain ⟨m, z⟩ := e
      cases m with
      | str m =>
          by_cases hm : m = k
          · subst hm
            rw [insert, if_neg h, insert, if_pos rfl, insert, if_pos rfl, insert, if_neg h]
          · rw [lookup, if_neg hm] at hk
            by_cases hl : m = l
            · subst hl
              rw [insert, if_pos rfl, insert, if_neg hm, insert, if_neg hm, insert, if_pos rfl]
            · rw [insert, if_neg hl, insert, if_neg hm, insert, if_neg hm, insert, if_neg hl, ih hk]
      | _ => exact congrArg (_ :: ·) (ih hk)

/-- Values are put in the places of two that are there, in either order. -/
theorem putChild_comm (h : c.text ≠ d.text) (hu : t.editChild? c = some u)
    (hw : t.editChild? d = some w) (x y : Value) :
    (t.putChild c x).putChild d y = (t.putChild d y).putChild c x := by
  cases t with
  | list items =>
      cases c with
      | property k => exact absurd hu (by simp [editChild?])
      | index i =>
          cases d with
          | property k => exact absurd hw (by simp [editChild?])
          | index j =>
              have hij : i ≠ j := fun he => h (by rw [he])
              have first : items[i]? = some u := hu
              have second : items[j]? = some w := hw
              have first' : (items.set j y)[i]? = some u := by rwa [List.getElem?_set_ne hij.symm]
              have second' : (items.set i x)[j]? = some w := by rwa [List.getElem?_set_ne hij]
              rw [putChild, putChild, putChild, putChild, putItem_eq_set first,
                putItem_eq_set second, putItem_eq_set first', putItem_eq_set second',
                List.set_comm x y hij]
  | dict entries => exact congrArg dict (insert_insert_comm h.symm hw y x)
  | _ => rfl

/-- A key that is taken away keeps nothing of a value that was put there. -/
theorem erase_insert (k : String) (v : Value) (entries : List (Value × Value)) :
    erase k (insert k v entries) = erase k entries := by
  induction entries with
  | nil => exact if_pos rfl
  | cons e es ih =>
      obtain ⟨m, w⟩ := e
      cases m with
      | str m =>
          by_cases hm : m = k
          · rw [insert, if_pos hm, erase, if_pos hm, erase, if_pos hm]
          · rw [insert, if_neg hm, erase, if_neg hm, erase, if_neg hm, ih]
      | _ => exact congrArg (_ :: ·) ih

/-- A deletion keeps nothing of a value that was put in the place of one that is there, not even the
length of a list. -/
theorem eraseChild_putChild (hu : t.editChild? c = some u) (x : Value) :
    (t.putChild c x).eraseChild c = t.eraseChild c := by
  cases t with
  | list items =>
      cases c with
      | property k => exact absurd hu (by simp [editChild?])
      | index i =>
          have item : items[i]? = some u := hu
          have inside : i < items.length := (List.getElem?_eq_some_iff.mp item).1
          rw [putChild, putItem_eq_set item, eraseChild_of_lt inside,
            eraseChild_of_lt (by rwa [List.length_set]), List.set_set]
  | dict entries => exact congrArg dict (erase_insert c.text x entries)
  | _ => rfl

/-- Nothing is left where a deletion was. Keys have to be unique, as only the first entry is taken
away. -/
theorem editSlot_eraseChild (keyed : t.hasUniqueKeys = true) (c : Component) :
    (t.eraseChild c).editSlot c = missing := by
  cases t with
  | list items =>
      cases c with
      | property k => rfl
      | index i =>
          rcases Nat.lt_or_ge i items.length with inside | beyond
          · rw [eraseChild_of_lt inside]
            exact (getD_trimHoles i _).trans ((getD_set_missing items i i).trans (if_pos rfl))
          · rw [eraseChild_of_le beyond]
            exact congrArg (·.getD missing) (List.getElem?_eq_none beyond)
  | dict entries => exact congrArg (·.getD missing) (lookup_erase (of_decide_eq_true keyed))
  | _ => rfl

/-- A second deletion at a place does nothing. -/
theorem eraseChild_eraseChild (keyed : t.hasUniqueKeys = true) (c : Component) :
    (t.eraseChild c).eraseChild c = t.eraseChild c := by
  cases t with
  | list items =>
      cases c with
      | property k => rfl
      | index i =>
          rcases Nat.lt_or_ge i items.length with inside | beyond
          · rw [eraseChild_of_lt inside, eraseChild_trimHoles, List.set_set]
          · rw [eraseChild_of_le beyond, eraseChild_of_le beyond]
  | dict entries =>
      exact congrArg dict (erase_of_lookup (lookup_erase (of_decide_eq_true keyed)))
  | _ => rfl

/-! ### Keys stay unique -/

/-- Putting a value adds no second entry under a key. -/
theorem hasUniqueKeys_putChild (keyed : t.hasUniqueKeys = true) (c : Component) (x : Value) :
    (t.putChild c x).hasUniqueKeys = true := by
  cases t with
  | list items => cases c <;> rfl
  | dict entries => exact decide_eq_true (nodup_keys_insert (of_decide_eq_true keyed))
  | _ => exact keyed

/-- A deletion leaves the keys unique. -/
theorem hasUniqueKeys_eraseChild (keyed : t.hasUniqueKeys = true) (c : Component) :
    (t.eraseChild c).hasUniqueKeys = true := by
  cases t with
  | list items =>
      cases c with
      | property k => rfl
      | index i => rw [eraseChild]; split <;> rfl
  | dict entries =>
      have sub : (keys (erase c.text entries)).Sublist (keys entries) :=
        (erase_sublist c.text entries).filterMap _
      exact decide_eq_true (sub.nodup (of_decide_eq_true keyed))
  | _ => exact keyed

/-- The missing value has no keys. -/
theorem wellKeyed_missing : missing.WellKeyed := rfl

/-- What an edit finds one step down has unique keys. -/
theorem WellKeyed.editSlot (keyed : t.WellKeyed) (c : Component) : (t.editSlot c).WellKeyed := by
  rw [Value.editSlot]
  cases hc : t.editChild? c with
  | none => exact wellKeyed_missing
  | some u => exact keyed.step (mem_steps_of_editChild? hc)

/-- Keys stay unique when a value with unique keys is put. -/
theorem WellKeyed.putChild (keyed : t.WellKeyed) (hx : x.WellKeyed) (c : Component) :
    (t.putChild c x).WellKeyed := by
  refine every_iff.mpr ⟨hasUniqueKeys_putChild keyed.hasUniqueKeys c x, fun d w hw => ?_⟩
  rcases mem_steps_putChild hw with hw | rfl | ⟨-, rfl⟩
  · exact keyed.step hw
  · exact wellKeyed_missing
  · exact hx

/-- Keys stay unique after a deletion one step down. -/
theorem WellKeyed.eraseChild (keyed : t.WellKeyed) (c : Component) :
    (t.eraseChild c).WellKeyed := by
  refine every_iff.mpr ⟨hasUniqueKeys_eraseChild keyed.hasUniqueKeys c, fun d w hw => ?_⟩
  rcases mem_steps_eraseChild hw with hw | rfl
  · exact keyed.step hw
  · exact wellKeyed_missing

end Value

namespace Path

variable {t u d : Value} {c e : Component}

/-! ### Two deletions -/

/-- Keys stay unique after a deletion, so deletions may follow one another. -/
theorem wellKeyed_erase (keyed : t.WellKeyed) (p : Path) : (p.erase t).WellKeyed := by
  induction p generalizing t with
  | nil => exact Value.wellKeyed_missing
  | cons c p ih =>
      cases p with
      | nil => exact keyed.eraseChild c
      | cons e p =>
          rw [erase_below]
          split
          · exact keyed.putChild (ih (keyed.editSlot c)) c
          · exact keyed

/-- A deletion whose first step does not lead anywhere does nothing. -/
theorem erase_of_not_admits (h : t.admits c = false) (p : Path) : erase (c :: p) t = t := by
  cases p with
  | nil => exact Value.eraseChild_of_not_admits h
  | cons e p =>
      rw [erase_below]
      refine if_neg fun container => ?_
      exact absurd (admits_of_editSlot container) (by rw [h]; decide)

/-- A deletion leaves the steps that lead somewhere. -/
theorem admits_erase (c e : Component) (p : Path) (t : Value) :
    (erase (e :: p) t).admits c = t.admits c :=
  Value.admits_of_kind?_eq (kind?_erase e p t)

/-- A deletion does not tell two first steps apart that lead to one place: what counts is the text
of a step. -/
theorem erase_of_text_eq (same : c.text = e.text) (hc : t.admits c = true)
    (he : t.admits e = true) (p : Path) : erase (c :: p) t = erase (e :: p) t := by
  cases t with
  | list items =>
      cases c with
      | property k => exact absurd hc (by simp [Value.admits])
      | index i =>
          cases e with
          | property k => exact absurd he (by simp [Value.admits])
          | index j => rw [Component.index_text_inj.mp same]
  | dict entries =>
      cases p with
      | nil => exact congrArg (fun k => Value.dict (Value.erase k entries)) same
      | cons f p =>
          have slot : (Value.dict entries).editSlot c = (Value.dict entries).editSlot e :=
            congrArg (fun k => (Value.lookup k entries).getD .missing) same
          have put : ∀ x, (Value.dict entries).putChild c x = (Value.dict entries).putChild e x :=
            fun x => congrArg (fun k => Value.dict (Value.insert k x entries)) same
          rw [erase_below, erase_below, slot, put]
  | _ => exact absurd hc (by simp [Value.admits])

/-- **A second deletion** at a path does nothing. The way down is the same, or has ended earlier,
where the first one has cut off holes. -/
theorem erase_erase (keyed : t.WellKeyed) (p : Path) : p.erase (p.erase t) = p.erase t := by
  induction p generalizing t with
  | nil => rfl
  | cons c p ih =>
      cases p with
      | nil => exact Value.eraseChild_eraseChild keyed.hasUniqueKeys c
      | cons e p =>
          by_cases container : (t.editSlot c).isContainer
          · have admitted := admits_of_editSlot container
            have again : ((erase (e :: p) (t.editSlot c))).isContainer = true := by
              rwa [Value.isContainer, kind?_erase]
            rw [erase_below c e p t, if_pos container, erase_below,
              Value.editSlot_putChild rfl admitted admitted, if_pos again,
              Value.putChild_putChild, ih (keyed.editSlot c)]
          · rw [erase_below c e p t, if_neg container, erase_below, if_neg container]

/-- **Nothing is read** where a deletion was, whatever the default is. -/
theorem get_erase_self (keyed : t.WellKeyed) (p : Path) : p.get (p.erase t) d = d := by
  induction p generalizing t with
  | nil => rfl
  | cons c p ih =>
      rw [get_cons]
      cases p with
      | nil =>
          rw [erase, Value.slot_eq_editSlot, Value.editSlot_eraseChild keyed.hasUniqueKeys,
            ite_self]
          rfl
      | cons e p =>
          rw [erase_below]
          split
          · next container =>
              rcases Value.slot_putChild rfl (admits_of_editSlot container)
                (erase (e :: p) (t.editSlot c)) with ⟨now, -⟩ | ⟨now, -⟩
              · rw [now]
                exact ih (keyed.editSlot c)
              · rw [now, get_missing]
          · next scalar =>
              rw [get_cons, Value.slot_of_kind?_ne, get_missing]
              intro kind
              refine scalar ?_
              rw [Value.slot_eq_editSlot] at kind
              split at kind
              · rw [Value.isContainer, kind]; rfl
              · exact absurd kind (by simp [Value.kind?])

/-- A deletion one step down and a deletion further down at another step. The second one changes a
container that stays. -/
theorem erase_eraseChild_comm (different : c.text ≠ e.text) (g : Component) (q : Path)
    (t : Value) : erase (e :: g :: q) (t.eraseChild c) = (erase (e :: g :: q) t).eraseChild c := by
  rw [erase_below, erase_below, Value.editSlot_eraseChild_of_ne different]
  split
  · next container =>
      have present := Value.isMissing_of_isContainer container
      exact (Value.eraseChild_putChild_comm different.symm (editChild?_of_editSlot container)
        (isMissing_erase present g q)).symm
  · rfl

/-- Two deletions at different first steps. -/
theorem erase_comm_of_ne (different : c.text ≠ e.text) (p q : Path) (t : Value) :
    erase (e :: q) (erase (c :: p) t) = erase (c :: p) (erase (e :: q) t) := by
  cases p with
  | nil =>
      cases q with
      | nil => exact Value.eraseChild_comm t c e
      | cons g q => exact erase_eraseChild_comm different g q t
  | cons f p =>
      cases q with
      | nil => exact (erase_eraseChild_comm different.symm f p t).symm
      | cons g q =>
          by_cases hc : (t.editSlot c).isContainer
          · by_cases he : (t.editSlot e).isContainer
            · rw [erase_below c f p t, if_pos hc, erase_below e g q t, if_pos he, erase_below,
                Value.editSlot_putChild_of_ne different, if_pos he, erase_below,
                Value.editSlot_putChild_of_ne different.symm, if_pos hc]
              exact Value.putChild_comm different (editChild?_of_editSlot hc)
                (editChild?_of_editSlot he) _ _
            · rw [erase_below e g q t, if_neg he, erase_below c f p t, if_pos hc, erase_below,
                Value.editSlot_putChild_of_ne different, if_neg he]
          · rw [erase_below c f p t, if_neg hc]
            by_cases he : (t.editSlot e).isContainer
            · rw [erase_below e g q t, if_pos he, erase_below,
                Value.editSlot_putChild_of_ne different.symm, if_neg hc]
            · rw [erase_below e g q t, if_neg he, erase_below, if_neg hc]

/-- A deletion one step down takes what lies further down with it, whether that is deleted before or
after. -/
theorem eraseChild_erase (keyed : t.WellKeyed) (c : Component) (p : Path) :
    (erase (c :: p) t).eraseChild c = t.eraseChild c ∧
      erase (c :: p) (t.eraseChild c) = t.eraseChild c := by
  cases p with
  | nil =>
      have again := Value.eraseChild_eraseChild keyed.hasUniqueKeys c
      exact ⟨again, again⟩
  | cons e p =>
      constructor
      · rw [erase_below]
        split
        · next container => exact Value.eraseChild_putChild (editChild?_of_editSlot container) _
        · rfl
      · rw [erase_below, Value.editSlot_eraseChild keyed.hasUniqueKeys]
        exact if_neg (by decide)

/-- A deletion further down leaves what it finds one step down with its own deletion, and leaves it
a container. -/
theorem editSlot_erase (container : (t.editSlot c).isContainer = true) (f : Component) (p : Path) :
    (erase (c :: f :: p) t).editSlot c = erase (f :: p) (t.editSlot c) ∧
      ((erase (c :: f :: p) t).editSlot c).isContainer = true := by
  have admitted := admits_of_editSlot container
  have found : (erase (c :: f :: p) t).editSlot c = erase (f :: p) (t.editSlot c) := by
    rw [erase_below, if_pos container, Value.editSlot_putChild rfl admitted admitted]
  refine ⟨found, ?_⟩
  rw [found, Value.isContainer, kind?_erase]
  exact container

/-- Two deletions with one first step, when deletions further down can change places. One of them
may end at that step, and then it takes the other one with it. -/
theorem erase_comm_of_first (keyed : t.WellKeyed) (c : Component) (p q : Path)
    (ih : ∀ {t : Value}, t.WellKeyed → ∀ q : Path, q.erase (p.erase t) = p.erase (q.erase t)) :
    erase (c :: q) (erase (c :: p) t) = erase (c :: p) (erase (c :: q) t) := by
  cases p with
  | nil => exact (eraseChild_erase keyed c q).2.trans (eraseChild_erase keyed c q).1.symm
  | cons f p =>
      cases q with
      | nil =>
          obtain ⟨above, below⟩ := eraseChild_erase keyed c (f :: p)
          exact above.trans below.symm
      | cons g q =>
          by_cases container : (t.editSlot c).isContainer
          · obtain ⟨first, first'⟩ := editSlot_erase container f p
            obtain ⟨second, second'⟩ := editSlot_erase container g q
            rw [erase_below c g q (erase _ t), if_pos first', first, erase_below c f p t,
              if_pos container, Value.putChild_putChild, ih (keyed.editSlot c), ← second,
              erase_below c f p (erase _ t), if_pos second', erase_below c g q t,
              if_pos container, Value.putChild_putChild]
          · rw [erase_below c f p t, if_neg container, erase_below c g q t, if_neg container,
              erase_below, if_neg container]

/-- **Two deletions** leave the same tree in either order. By induction on the first path: first
steps with different texts do not meet, and those with one text lead on together. -/
theorem erase_comm (keyed : t.WellKeyed) (p q : Path) :
    q.erase (p.erase t) = p.erase (q.erase t) := by
  induction p generalizing q t with
  | nil =>
      cases q with
      | nil => rfl
      | cons e q => exact erase_of_kind?_eq_none rfl e q
  | cons c p ih =>
      cases q with
      | nil => exact (erase_of_kind?_eq_none rfl c p).symm
      | cons e q =>
          by_cases same : c.text = e.text
          · -- a step that leads nowhere leaves the tree to the other deletion
            by_cases hc : t.admits c = true
            · by_cases he : t.admits e = true
              · have hc' := (admits_erase c c p t).trans hc
                have he' := (admits_erase e c p t).trans he
                rw [← erase_of_text_eq same hc he, ← erase_of_text_eq same hc' he']
                exact erase_comm_of_first keyed c p q ih
              · have he := Bool.not_eq_true _ ▸ he
                rw [erase_of_not_admits he, erase_of_not_admits ((admits_erase e c p t).trans he)]
            · have hc := Bool.not_eq_true _ ▸ hc
              rw [erase_of_not_admits hc, erase_of_not_admits ((admits_erase c e q t).trans hc)]
          · exact erase_comm_of_ne same p q t

/-! ### Any number of deletions -/

/-- The tree after deletions at some paths, one after the other. -/
def deleteAll (ps : List Path) (tree : Value) : Except EditFault Value :=
  ps.foldlM (fun t p => p.set t .missing) tree

/-- Deletions never fail, so a row of them is a plain fold. -/
theorem deleteAll_eq (ps : List Path) (tree : Value) :
    deleteAll ps tree = .ok (ps.foldl (fun t p => p.erase t) tree) := by
  induction ps generalizing tree with
  | nil => rfl
  | cons p ps ih => exact ih (p.erase tree)

/-- The order of deletions does not matter, as any two that are next to each other can change
places. -/
theorem foldl_erase_perm (keyed : t.WellKeyed) {ps qs : List Path} (h : ps.Perm qs) :
    ps.foldl (fun t p => p.erase t) t = qs.foldl (fun t p => p.erase t) t := by
  induction h generalizing t with
  | nil => rfl
  | cons p _ ih => exact ih (wellKeyed_erase keyed p)
  | swap p q ps =>
      rw [List.foldl_cons, List.foldl_cons, List.foldl_cons, List.foldl_cons, erase_comm keyed]
  | trans _ _ first second => exact (first keyed).trans (second keyed)

end Path

namespace Projection

/-- The paths that excluded patterns delete, where each pattern selects from what the ones before
it left. -/
def excludedPaths : List Pattern → Value → List Path
  | [], _ => []
  | m :: ms, tree => (m.search tree).map Node.path ++ excludedPaths ms (excludePattern tree m)

/-- Excluding patterns is deleting the paths that they select. What a pattern selects depends on the
tree, but its deletions do not. -/
theorem excludeAll_eq_foldl (excludes : List Pattern) (tree : Value) :
    excludeAll excludes tree =
      (excludedPaths excludes tree).foldl (fun t p => p.erase t) tree := by
  induction excludes generalizing tree with
  | nil => rfl
  | cons m ms ih =>
      rw [excludedPaths, List.foldl_append, List.foldl_map]
      exact ih (excludePattern tree m)

end Projection

namespace Path

/-- **Deletions commute**: they never fail, two of them leave the same tree in either order, a
second one at a path does nothing, and nothing is read where one was. So the order of any number of
deletions does not matter, and a projection may delete what it excludes in any order. -/
theorem deletions_commute {tree : Value} (keyed : tree.WellKeyed) :
    (∀ p q : Path, ∃ t u v, p.set tree .missing = .ok t ∧ q.set tree .missing = .ok u ∧
      q.set t .missing = .ok v ∧ p.set u .missing = .ok v) ∧
    (∀ p : Path, ∃ t, p.set tree .missing = .ok t ∧ p.set t .missing = .ok t ∧
      ∀ default, p.get t default = default) ∧
    (∀ ps qs : List Path, ps.Perm qs →
      ∃ t, deleteAll ps tree = .ok t ∧ deleteAll qs tree = .ok t) ∧
    ∀ (excludes : List Pattern) (ps : List Path),
      ps.Perm (Projection.excludedPaths excludes tree) →
        deleteAll ps tree = .ok (Projection.excludeAll excludes tree) := by
  refine ⟨fun p q => ⟨p.erase tree, q.erase tree, q.erase (p.erase tree), rfl, rfl, rfl, ?_⟩,
    fun p => ⟨p.erase tree, rfl, ?_, fun default => get_erase_self keyed p⟩,
    fun ps qs h => ⟨_, deleteAll_eq ps tree, ?_⟩, fun excludes ps h => ?_⟩
  · exact congrArg Except.ok (erase_comm keyed q p)
  · exact congrArg Except.ok (erase_erase keyed p)
  · rw [deleteAll_eq, foldl_erase_perm keyed h]
  · rw [deleteAll_eq, foldl_erase_perm keyed h, Projection.excludeAll_eq_foldl]

/-- Deletions through an index and its numeral, at the end of a list with holes and above another
one. -/
theorem deletions_commute_holes :
    let tree : Value := .dict [(.str "0", .list [.int 1, .list [.int 2, .missing], .missing, .int 3,
      .missing]), (.str "a", .null)]
    let last : Path := [.index 0, .index 3]
    let inner : Path := [.property "0", .index 1, .index 0]
    let outer : Path := [.index 0, .index 1]
    let idle : Path := [.property "a", .property "b"]
    let left : Value := .dict [(.str "0", .list [.int 1]), (.str "a", .null)]
    tree.WellKeyed ∧ deleteAll [last, inner, idle, outer, last] tree = .ok left ∧
      deleteAll [outer, last, last, idle, inner] tree = .ok left := by
  intro tree last inner outer idle left
  have keyed : tree.WellKeyed := by decide
  have now : deleteAll [last, inner, idle, outer, last] tree = .ok left := by cbv
  obtain ⟨t, first, second⟩ := (deletions_commute keyed).2.2.1
    [last, inner, idle, outer, last] [outer, last, last, idle, inner] (by decide)
  obtain rfl : left = t := Except.ok.inj (now.symm.trans first)
  exact ⟨keyed, now, second⟩

end Path

end TreeDelta
