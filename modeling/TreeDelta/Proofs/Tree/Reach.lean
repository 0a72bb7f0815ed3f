import TreeDelta.Proofs.Text.Numeral
import TreeDelta.Proofs.Tree.Edit
import TreeDelta.Version

/-!
# Places that edits reach

An edit goes down a tree by texts, because an index of a dictionary stands for its numeral
(`Path.reach?`). A value that is not at or below the place of an edit stays in the tree. It stays as
it is, too, unless the edit is below it: then the same edit, from there on, happens in it
(`Path.reach?_set`). In this way a value that is shared with a tree can be followed through edits of
the tree without regard to what else is in it.

## Main results

* `Value.editChild?_set`: an edit, seen one step down.
* `Path.reach?_set`: an edit, seen at another place.
* `Path.reach?_set_self`: a value that was written is at its place.
-/

namespace TreeDelta

namespace Value

/-! ### Slots of one step -/

/-- An item keeps its place when a value is put at another index. If that is past the end, the list
grows by holes behind the item. -/
theorem getElem?_putItem_of_ne {i j : Nat} (h : j ≠ i) (v : Value) {w : Value} {items : List Value}
    (hw : items[j]? = some w) : (putItem i v items)[j]? = some w := by
  induction i generalizing items j with
  | zero =>
      obtain ⟨j, rfl⟩ := Nat.exists_eq_succ_of_ne_zero h
      cases items with
      | nil => exact absurd hw (by simp)
      | cons u us => exact hw
  | succ i ih =>
      cases items with
      | nil => exact absurd hw (by simp)
      | cons u us =>
          cases j with
          | zero => exact hw
          | succ j => exact ih (fun he => h (congrArg Nat.succ he)) hw

/-- An item that is there keeps its place when holes are cut off, as only holes behind it are. -/
theorem getElem?_trimHoles {i : Nat} {w : Value} {items : List Value} (hw : items[i]? = some w)
    (there : w.isMissing = false) : (trimHoles items)[i]? = some w := by
  have same := getD_trimHoles i items
  rw [hw] at same
  cases hi : (trimHoles items)[i]? with
  | some u => rw [hi] at same; exact congrArg some same
  | none =>
      rw [hi] at same
      rw [← show missing = w from same] at there
      exact absurd there (by simp [isMissing])

/-- An edit can step from a value to where something is. In a dictionary any component will do, by
its text; in a list only an index will. -/
theorem admits_of_editChild? {t w : Value} {c : Component} (h : t.editChild? c = some w) :
    t.admits c = true := by
  cases t <;> cases c <;> first | rfl | exact absurd h (by simp [editChild?])

/-- Steps of an edit with one text lead to one place, whether they are an index or a property with
its numeral. -/
theorem editChild?_of_text_eq {t : Value} {c d : Component} (h : c.text = d.text)
    (hc : t.admits c = true) (hd : t.admits d = true) : t.editChild? c = t.editChild? d := by
  cases t with
  | list items =>
      cases c with
      | property k => exact absurd hc (by simp [admits])
      | index i =>
          cases d with
          | property k => exact absurd hd (by simp [admits])
          | index j => rw [Component.index_text_inj.mp h]
  | dict entries => exact congrArg (lookup · entries) h
  | _ => exact absurd hc (by simp [admits])

/-- Putting a value keeps the steps that an edit can take, since it keeps the kind of the
container. -/
theorem admits_putChild (t r : Value) (c d : Component) :
    (t.putChild c r).admits d = t.admits d := by
  cases t <;> cases c <;> cases d <;> rfl

/-- What was put one step down is there, under every step with the same text. -/
theorem editChild?_putChild {t : Value} {c d : Component} (h : c.text = d.text)
    (hc : t.admits c = true) (hd : t.admits d = true) (w : Value) :
    (t.putChild c w).editChild? d = some w := by
  rw [← editChild?_of_text_eq h (by rwa [admits_putChild]) (by rwa [admits_putChild])]
  cases t with
  | list items =>
      cases c with
      | index i => exact getElem?_putItem i w items
      | property k => exact absurd hc (by simp [admits])
  | dict entries => exact lookup_insert c.text w entries
  | _ => exact absurd hc (by simp [admits])

/-- Putting a value one step down leaves what is at other steps, holes and all. -/
theorem editChild?_putChild_of_ne {t w : Value} {c d : Component} (h : c.text ≠ d.text)
    (hw : t.editChild? d = some w) (r : Value) : (t.putChild c r).editChild? d = some w := by
  cases t with
  | list items =>
      cases c with
      | property k => exact hw
      | index i =>
          cases d with
          | property k => exact absurd hw (by simp [editChild?])
          | index j => exact getElem?_putItem_of_ne (fun he => h (by rw [he])) r hw
  | dict entries => exact (lookup_insert_of_ne h.symm r entries).trans hw
  | _ => exact absurd hw (by simp [editChild?])

/-- A deletion one step down leaves what is at other steps. Only holes at the end of a list may go
along with what is deleted. -/
theorem editChild?_eraseChild_of_ne {t w : Value} {c d : Component} (h : c.text ≠ d.text)
    (hw : t.editChild? d = some w) (there : w.isMissing = false) :
    (t.eraseChild c).editChild? d = some w := by
  cases t with
  | list items =>
      cases c with
      | property k => exact hw
      | index i =>
          cases d with
          | property k => exact absurd hw (by simp [editChild?])
          | index j =>
              rw [eraseChild]
              split
              · refine getElem?_trimHoles ?_ there
                rw [List.getElem?_set_ne fun he => h (by rw [he])]
                exact hw
              · exact hw
  | dict entries => exact (lookup_erase_of_ne h.symm entries).trans hw
  | _ => exact absurd hw (by simp [editChild?])

/-! ### One step of an edit -/

variable {t t' w x : Value} {c d : Component} {p : Path}

/-- A deletion, seen one step down: what is there stays, or the deletion goes on in it. The step
itself is not deleted. -/
theorem editChild?_erase (hw : t.editChild? d = some w) (there : w.isMissing = false)
    (apart : c.text = d.text → p ≠ []) :
    (Path.erase (c :: p) t).editChild? d = some w ∨
      c.text = d.text ∧ (Path.erase (c :: p) t).editChild? d = some (p.erase w) := by
  cases p with
  | nil => exact .inl (editChild?_eraseChild_of_ne (fun h => apart h rfl) hw there)
  | cons e p =>
      rw [Path.erase_cons_cons]
      cases hc : t.editChild? c with
      | none => exact .inl hw
      | some child =>
          by_cases h : c.text = d.text
          · have admitted := admits_of_editChild? hc
            have same := editChild?_of_text_eq h admitted (admits_of_editChild? hw)
            obtain rfl : child = w := Option.some.inj (hc.symm.trans (same.trans hw))
            dsimp only
            split
            · exact .inr ⟨h, editChild?_putChild h admitted (admits_of_editChild? hw) _⟩
            · exact .inl hw
          · dsimp only
            split
            · exact .inl (editChild?_putChild_of_ne h hw _)
            · exact .inl hw

/-- A write, seen one step down: what is there stays, or the write goes on in it. The two are told
apart by the text of the step. -/
theorem editChild?_assign (h : Path.assign (c :: p) t x = .ok t') (hw : t.editChild? d = some w) :
    t'.editChild? d = some w ∨
      c.text = d.text ∧ ∃ w', p.assign w x = .ok w' ∧ t'.editChild? d = some w' := by
  rw [Path.assign, Path.assignFrom] at h
  obtain ⟨container, hopen, h⟩ := bind_eq_ok_iff.mp h
  obtain ⟨child, hchild, h⟩ := bind_eq_ok_iff.mp h
  obtain rfl : container.putChild c child = t' := Except.ok.inj h
  obtain ⟨rfl, admitted⟩ := openFor_eq_ok_iff.mp hopen
  have kept : (if t.isVacant then emptyFor c else t) = t := by
    cases t <;> first | rfl | exact absurd hw (by simp [editChild?])
  rw [kept] at admitted hchild ⊢
  by_cases ht : c.text = d.text
  · have stepped := admits_of_editChild? hw
    rw [editChild?_of_text_eq ht admitted stepped, hw] at hchild
    exact .inr ⟨ht, child, Path.assignFrom_ok hchild, editChild?_putChild ht admitted stepped _⟩
  · exact .inl (editChild?_putChild_of_ne ht hw _)

/-- **An edit, seen one step down**: what is there stays, or the edit goes on in it. Both kinds of
edits are alike from here on. -/
theorem editChild?_set (h : Path.set (c :: p) t x = .ok t') (hw : t.editChild? d = some w)
    (there : w.isMissing = false) (apart : c.text = d.text → p ≠ []) :
    t'.editChild? d = some w ∨
      c.text = d.text ∧ ∃ w', p.set w x = .ok w' ∧ t'.editChild? d = some w' := by
  simp only [Path.set] at h ⊢
  cases hx : x.isMissing with
  | true =>
      rw [hx, if_pos rfl] at h
      obtain rfl := Except.ok.inj h
      exact (editChild?_erase hw there apart).imp_right fun h => ⟨h.1, _, rfl, h.2⟩
  | false =>
      rw [hx, if_neg (by simp)] at h
      exact editChild?_assign h hw

end Value

namespace Path

variable {p place r : Path} {t t' u x : Value}

/-! ### Places -/

/-- A place is resolved one part after the other, the second part in what the first one leads to. -/
theorem reach?_append (p q : Path) (t : Value) :
    reach? (p ++ q) t = (reach? p t).bind (reach? q) := by
  induction p generalizing t with
  | nil => rfl
  | cons c p ih =>
      rw [List.cons_append, reach?, reach?]
      cases t.editChild? c with
      | none => rfl
      | some w => exact ih w

/-- What is above a value that is there is there, as no step leads on from a missing value. -/
theorem isMissing_of_reach? (hu : place.reach? t = some u) (there : u.isMissing = false) :
    t.isMissing = false := by
  cases place with
  | nil =>
      obtain rfl := Option.some.inj hu
      exact there
  | cons c place =>
      cases t with
      | missing => exact absurd hu (by simp [reach?, Value.editChild?])
      | _ => rfl

/-- A place is at or below another one when the texts of its components go on from there. Components
themselves may be different in kind. -/
theorem isAtOrBelow_iff : p.isAtOrBelow place = true ↔ place.texts <+: p.texts := by
  rw [isAtOrBelow, List.isPrefixOf_iff_prefix]

/-- **An edit, seen at another place** that is not at or below the place of the edit: what is there
stays, or the edit goes on in it, by what is left of its path. -/
theorem reach?_set (hu : place.reach? t = some u) (there : u.isMissing = false)
    (h : p.set t x = .ok t') (apart : ¬p.texts <+: place.texts) :
    ∃ u', place.reach? t' = some u' ∧
      (u' = u ∨ ∃ r : Path, r ≠ [] ∧ p.texts = place.texts ++ r.texts ∧ r.set u x = .ok u') := by
  induction place generalizing p t t' with
  | nil =>
      obtain rfl := Option.some.inj hu
      refine ⟨t', rfl, .inr ⟨p, ?_, rfl, h⟩⟩
      rintro rfl
      exact apart List.prefix_rfl
  | cons d place ih =>
      cases p with
      | nil => exact absurd List.nil_prefix apart
      | cons c p =>
          rw [reach?] at hu
          cases hw : t.editChild? d with
          | none => rw [hw] at hu; exact absurd hu (by simp)
          | some w =>
              rw [hw] at hu
              have below : c.text = d.text → ¬texts p <+: texts place := by
                intro ht hp
                refine apart ?_
                rw [texts, texts, List.map_cons, List.map_cons, ht]
                exact List.cons_prefix_cons.mpr ⟨rfl, hp⟩
              have inside : c.text = d.text → p ≠ [] := by
                rintro ht rfl
                exact below ht List.nil_prefix
              rcases Value.editChild?_set h hw (isMissing_of_reach? hu there) inside with
                same | ⟨ht, w', hw', stepped⟩
              · exact ⟨u, by rw [reach?, same]; exact hu, .inl rfl⟩
              · obtain ⟨u', hu', edited⟩ := ih hu hw' (below ht)
                refine ⟨u', by rw [reach?, stepped]; exact hu', edited.imp_right ?_⟩
                rintro ⟨r, hr, rest, hset⟩
                refine ⟨r, hr, ?_, hset⟩
                rw [texts, texts, List.map_cons, List.map_cons, List.cons_append, ht]
                exact congrArg _ rest

/-- **A value that was written is at its place**, whatever was there before. -/
theorem reach?_set_self (hx : x.isMissing = false) (h : p.set t x = .ok t') :
    p.reach? t' = some x := by
  rw [set, hx, if_neg (by simp), assign] at h
  -- the faults of a write name the whole path, which stays the same on the way down
  suffices written : ∀ (q place : Path) (t t' : Value), assignFrom p place q t x = .ok t' →
      q.reach? t' = some x from written p root t t' h
  intro q
  induction q with
  | nil =>
      intro place t t' h
      rw [assignFrom] at h
      rw [Except.ok.inj h]
      rfl
  | cons c q ih =>
      intro place t t' h
      rw [assignFrom] at h
      obtain ⟨container, hopen, h⟩ := bind_eq_ok_iff.mp h
      obtain ⟨child, hchild, h⟩ := bind_eq_ok_iff.mp h
      obtain rfl : container.putChild c child = t' := Except.ok.inj h
      have admitted := (Value.openFor_eq_ok_iff.mp hopen).2
      rw [reach?, Value.editChild?_putChild rfl admitted admitted]
      exact ih _ _ _ hchild

/-! ### Empty containers -/

/-- Nothing is reached in an empty container, except for itself by the empty path. -/
theorem reach?_empty (k : Kind) (hr : r ≠ []) : r.reach? (Value.empty k) = none := by
  cases r with
  | nil => exact absurd rfl hr
  | cons c r => cases k <;> cases c <;> rfl

/-- A deletion in an empty container leaves it empty, as there is nothing to take away. -/
theorem erase_empty (k : Kind) (hr : r ≠ []) : r.erase (Value.empty k) = Value.empty k := by
  cases r with
  | nil => exact absurd rfl hr
  | cons c r =>
      cases r with
      | nil => cases k <;> cases c <;> rfl
      | cons d r => cases k <;> cases c <;> rfl

/-! ### Edits inside a value -/

/-- An edit below the root of a container keeps its kind, even when what is written is missing and
so is deleted. -/
theorem kind?_set (hr : r ≠ []) (hu : u.isContainer = true) (h : r.set u x = .ok t') :
    t'.kind? = u.kind? := by
  cases r with
  | nil => exact absurd rfl hr
  | cons c r =>
      rw [set] at h
      split at h
      · obtain rfl := Except.ok.inj h
        exact kind?_erase c r u
      · rw [assign, assignFrom] at h
        obtain ⟨container, hopen, h⟩ := bind_eq_ok_iff.mp h
        obtain ⟨child, -, h⟩ := bind_eq_ok_iff.mp h
        obtain rfl : container.putChild c child = t' := Except.ok.inj h
        obtain ⟨rfl, -⟩ := Value.openFor_eq_ok_iff.mp hopen
        rw [Value.kind?_putChild]
        cases u <;> first | rfl | exact absurd hu (by simp [Value.isContainer, Value.kind?])

/-- An edit below the root of a value that is there leaves something there. Only an edit at the root
can take all away. -/
theorem isMissing_set (hr : r ≠ []) (hu : u.isMissing = false) (h : r.set u x = .ok t') :
    t'.isMissing = false := by
  cases hx : x.isMissing with
  | false =>
      rw [set, hx, if_neg (by simp)] at h
      exact isMissing_assign hx h
  | true =>
      rw [set, hx, if_pos rfl] at h
      obtain rfl := Except.ok.inj h
      cases r with
      | nil => exact absurd rfl hr
      | cons c r => exact isMissing_erase hu c r

end Path

end TreeDelta
