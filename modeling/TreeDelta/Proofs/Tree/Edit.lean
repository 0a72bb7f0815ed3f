import TreeDelta.Proofs.Outcome
import TreeDelta.Proofs.Tree.Node
import TreeDelta.Tree.Access

/-!
# Edits are local

For an edit a container is a table of slots, one for every component: a place that is not there and
a hole both have a missing value in their slot. A write or a deletion below one component changes
the slot of this component alone, to what the same edit makes of the value in it (`Path.set_cons`).
It also keeps the container tidy: no list ends in a hole, and no dictionary has a missing value or
two entries under one key.

## Main definitions

* `Value.slot`: the value one step down, or `missing`.
* `Value.Tidy`: a container without holes that an edit would have left out.
* `Value.Swapped`: a container that differs from another one in a single slot.

## Main results

* `Value.swapped_putChild`, `Value.swapped_eraseChild`: writing and deleting one step down.
* `Path.set_cons`: an edit below one component.
-/

namespace TreeDelta

/-- The kind of the containers that a component steps into: lists for an index, dictionaries for a
property. -/
def Component.kind : Component → Kind
  | index _ => .array
  | property _ => .object

namespace Value

/-! ### Slots -/

/-- The value one step down, or `missing` where there is none. Every component has a slot in every
value, so that edits can be described without asking what is there. -/
def slot (v : Value) (c : Component) : Value := (v.child? c).getD missing

/-- A slot that does not fit is missing: an index has one in lists only, and a property in
dictionaries only. -/
theorem slot_of_kind?_ne {v : Value} {c : Component} (h : v.kind? ≠ some c.kind) :
    v.slot c = missing := by
  cases v <;> cases c <;> simp_all [kind?, Component.kind, slot, child?]

/-- A step fits: its component steps into containers of the kind of the value. -/
theorem kind?_of_mem_steps {v w : Value} {c : Component} (h : (c, w) ∈ v.steps) :
    v.kind? = some c.kind := by
  cases v with
  | list items =>
      obtain ⟨j, rfl, -⟩ := mem_itemSteps_iff.mp h
      rfl
  | dict entries =>
      obtain ⟨k, rfl, -⟩ := mem_entrySteps_iff.mp h
      rfl
  | _ => simp [steps] at h

/-- The slot of a step holds the value that the step leads to. With keys that are different there is
only one. -/
theorem slot_of_mem_steps {v w : Value} {c : Component} (hk : v.hasUniqueKeys = true)
    (h : (c, w) ∈ v.steps) : v.slot c = w := by
  rw [slot, (child?_eq_some_iff hk).mpr h]
  rfl

/-- A slot without a step is missing, also where the component does not fit the value at all. -/
theorem slot_of_notMem_steps {v : Value} {c : Component} (hk : v.hasUniqueKeys = true)
    (h : c ∉ v.steps.map Prod.fst) : v.slot c = missing := by
  rw [slot]
  cases hc : v.child? c with
  | none => rfl
  | some w => exact absurd (List.mem_map_of_mem ((child?_eq_some_iff hk).mp hc)) h

/-- A slot is missing, or there is a step to it. -/
theorem slot_eq_missing_or_mem_steps {v : Value} (hk : v.hasUniqueKeys = true) (c : Component) :
    v.slot c = missing ∨ (c, v.slot c) ∈ v.steps := by
  by_cases hc : c ∈ v.steps.map Prod.fst
  · obtain ⟨⟨c, w⟩, hs, rfl⟩ := List.mem_map.mp hc
    rw [slot_of_mem_steps hk hs]
    exact .inr hs
  · exact .inl (slot_of_notMem_steps hk hc)

/-- A slot of a list holds the item with its index, or nothing past the end. -/
theorem slot_list (items : List Value) (i : Nat) :
    (list items).slot (.index i) = items[i]?.getD missing :=
  rfl

/-- A slot of a dictionary holds what is looked up under its key. -/
theorem slot_dict (entries : List (Value × Value)) (k : String) :
    (dict entries).slot (.property k) = (lookup k entries).getD missing :=
  rfl

/-! ### Items -/

/-- The item that was put is at its index, wherever the list has ended before. -/
theorem getElem?_putItem (i : Nat) (v : Value) (items : List Value) :
    (putItem i v items)[i]? = some v := by
  induction i generalizing items with
  | zero => cases items <;> rfl
  | succ i ih =>
      cases items with
      | nil => rw [putItem, List.getElem?_cons_succ, ih]
      | cons w ws => rw [putItem, List.getElem?_cons_succ, ih]

/-- Putting an item changes nothing at other indices; what is filled up is missing, as it was
before. -/
theorem getD_putItem {i j : Nat} (h : j ≠ i) (v : Value) (items : List Value) :
    (putItem i v items)[j]?.getD missing = items[j]?.getD missing := by
  induction i generalizing items j with
  | zero =>
      obtain ⟨j, rfl⟩ := Nat.exists_eq_succ_of_ne_zero h
      cases items <;> rfl
  | succ i ih =>
      cases j with
      | zero => cases items <;> rfl
      | succ j =>
          have hj : j ≠ i := fun he => h (congrArg Nat.succ he)
          cases items with
          | nil => rw [putItem, List.getElem?_cons_succ, ih hj]; rfl
          | cons w ws => rw [putItem, List.getElem?_cons_succ, ih hj]; rfl

/-- Some item has been put. -/
theorem putItem_ne_nil (i : Nat) (v : Value) (items : List Value) : putItem i v items ≠ [] := by
  cases i <;> cases items <;> simp [putItem]

/-- A list that does not end in a hole does not do so after a value was put: the last item is the
value, or the one that was the last before. -/
theorem getLast?_putItem {i : Nat} {v w : Value} {items : List Value} (hv : v.isMissing = false)
    (hl : ∀ u, items.getLast? = some u → u.isMissing = false)
    (h : (putItem i v items).getLast? = some w) : w.isMissing = false := by
  induction i generalizing items with
  | zero =>
      cases items with
      | nil => obtain rfl := Option.some.inj h; exact hv
      | cons u us =>
          cases us with
          | nil => obtain rfl := Option.some.inj h; exact hv
          | cons x xs => exact hl w h
  | succ i ih =>
      cases items with
      | nil =>
          rw [putItem, List.getLast?_cons_of_ne_nil (putItem_ne_nil i v [])] at h
          exact ih (by simp) h
      | cons u us =>
          rw [putItem, List.getLast?_cons_of_ne_nil (putItem_ne_nil i v us)] at h
          refine ih (fun x hx => hl x ?_) h
          cases us with
          | nil => exact absurd hx (by simp)
          | cons y ys => rw [List.getLast?_cons_cons]; exact hx

/-- Cutting off holes changes no slot: past the end of a list a slot is missing as well. -/
theorem getD_trimHoles (i : Nat) (items : List Value) :
    (trimHoles items)[i]?.getD missing = items[i]?.getD missing := by
  induction items generalizing i with
  | nil => rfl
  | cons v vs ih =>
      rw [trimHoles]
      cases ht : trimHoles vs with
      | nil =>
          rw [ht] at ih
          cases hv : v.isMissing with
          | true =>
              rw [isMissing_iff.mp hv, if_pos rfl]
              cases i with
              | zero => rfl
              | succ i => exact ih i
          | false =>
              rw [if_neg (by simp)]
              cases i with
              | zero => rfl
              | succ i => exact ih i
      | cons w ws =>
          rw [ht] at ih
          cases i with
          | zero => rfl
          | succ i => exact ih i

/-- Once holes are cut off, a list does not end in one. -/
theorem getLast?_trimHoles {items : List Value} {v : Value}
    (h : (trimHoles items).getLast? = some v) : v.isMissing = false := by
  induction items with
  | nil => exact absurd h (by simp [trimHoles])
  | cons w ws ih =>
      rw [trimHoles] at h
      cases ht : trimHoles ws with
      | nil =>
          rw [ht] at h
          cases hw : w.isMissing with
          | true => simp [hw] at h
          | false =>
              simp only [hw, Bool.false_eq_true, if_false, List.getLast?_singleton] at h
              rw [← Option.some.inj h]
              exact hw
      | cons x xs =>
          rw [ht] at h ih
          exact ih (by rwa [List.getLast?_cons_cons] at h)

/-! ### Entries -/

/-- A key has no value when it is none of the keys. -/
theorem lookup_eq_none_iff {k : String} {entries : List (Value × Value)} :
    lookup k entries = none ↔ k ∉ keys entries := by
  induction entries with
  | nil => simp [lookup, keys]
  | cons e es ih =>
      obtain ⟨l, w⟩ := e
      cases l with
      | str l =>
          rw [lookup, keys_cons, List.mem_cons, not_or, ← ih]
          by_cases hl : l = k
          · simp [hl]
          · simp [hl, Ne.symm hl]
      | _ => exact ih

/-- The keys after a value was put under a key: the same ones, or the new one behind them. -/
theorem keys_insert (k : String) (v : Value) (entries : List (Value × Value)) :
    keys (insert k v entries) =
      if k ∈ keys entries then keys entries else keys entries ++ [k] := by
  induction entries with
  | nil => rfl
  | cons e es ih =>
      obtain ⟨l, w⟩ := e
      cases l with
      | str l =>
          by_cases hl : l = k
          · simp [insert, hl]
          · rw [insert, if_neg hl, keys_cons, ih]
            simp only [keys_cons, List.mem_cons, Ne.symm hl, false_or]
            split <;> rfl
      | _ => exact ih

/-- Putting a value under a key adds no second entry, so different keys stay different. -/
theorem nodup_keys_insert {k : String} {v : Value} {entries : List (Value × Value)}
    (h : (keys entries).Nodup) : (keys (insert k v entries)).Nodup := by
  rw [keys_insert]
  split
  · exact h
  · next hk =>
      exact h.append (List.nodup_singleton k) (List.disjoint_singleton.mpr hk)

/-- Every entry after a value was put under a key is the new one or was there. -/
theorem mem_insert {k : String} {v : Value} {entries : List (Value × Value)} {e : Value × Value}
    (h : e ∈ insert k v entries) : e = (str k, v) ∨ e ∈ entries := by
  induction entries with
  | nil => exact .inl (List.mem_singleton.mp h)
  | cons e' es ih =>
      obtain ⟨l, w⟩ := e'
      cases l with
      | str l =>
          by_cases hl : l = k
          · rw [insert, if_pos hl, hl] at h
            exact (List.mem_cons.mp h).imp id (List.mem_cons_of_mem _)
          · rw [insert, if_neg hl] at h
            rcases List.mem_cons.mp h with rfl | h
            · exact .inr List.mem_cons_self
            · exact (ih h).imp id (List.mem_cons_of_mem _)
      | _ =>
          rcases List.mem_cons.mp h with rfl | h
          · exact .inr List.mem_cons_self
          · exact (ih h).imp id (List.mem_cons_of_mem _)

/-- The value that was put is found under its key. -/
theorem lookup_insert (k : String) (v : Value) (entries : List (Value × Value)) :
    lookup k (insert k v entries) = some v := by
  induction entries with
  | nil => rw [insert, lookup, if_pos rfl]
  | cons e es ih =>
      obtain ⟨l, w⟩ := e
      cases l with
      | str l =>
          by_cases hl : l = k
          · rw [insert, if_pos hl, lookup, if_pos hl]
          · rw [insert, if_neg hl, lookup, if_neg hl, ih]
      | _ => exact ih

/-- Putting a value changes nothing under other keys. -/
theorem lookup_insert_of_ne {j k : String} (h : j ≠ k) (v : Value)
    (entries : List (Value × Value)) : lookup j (insert k v entries) = lookup j entries := by
  induction entries with
  | nil => exact if_neg h.symm
  | cons e es ih =>
      obtain ⟨l, w⟩ := e
      cases l with
      | str l =>
          by_cases hl : l = k
          · subst hl
            rw [insert, if_pos rfl, lookup, lookup, if_neg h.symm, if_neg h.symm]
          · rw [insert, if_neg hl, lookup, lookup, ih]
      | _ => exact ih

/-- Taking an entry away leaves some of the entries, in their order. -/
theorem erase_sublist (k : String) (entries : List (Value × Value)) :
    (erase k entries).Sublist entries := by
  induction entries with
  | nil => exact List.Sublist.slnil
  | cons e es ih =>
      obtain ⟨l, w⟩ := e
      cases l with
      | str l =>
          rw [erase]
          split
          · exact List.sublist_cons_self _ _
          · exact ih.cons_cons _
      | _ => exact ih.cons_cons _

/-- Where keys are different, an entry that was taken away is not found. Another one with its key
would come to light. -/
theorem lookup_erase {k : String} {entries : List (Value × Value)} (h : (keys entries).Nodup) :
    lookup k (erase k entries) = none := by
  induction entries with
  | nil => rfl
  | cons e es ih =>
      obtain ⟨l, w⟩ := e
      cases l with
      | str l =>
          rw [keys_cons, List.nodup_cons] at h
          by_cases hl : l = k
          · subst hl
            rw [erase, if_pos rfl, lookup_eq_none_iff]
            exact h.1
          · rw [erase, if_neg hl, lookup, if_neg hl, ih h.2]
      | _ => exact ih h

/-- Taking an entry away changes nothing under other keys. -/
theorem lookup_erase_of_ne {j k : String} (h : j ≠ k) (entries : List (Value × Value)) :
    lookup j (erase k entries) = lookup j entries := by
  induction entries with
  | nil => rfl
  | cons e es ih =>
      obtain ⟨l, w⟩ := e
      cases l with
      | str l =>
          by_cases hl : l = k
          · subst hl
            rw [erase, if_pos rfl, lookup, if_neg h.symm]
          · rw [erase, if_neg hl, lookup, lookup, ih]
      | _ => exact ih

/-! ### Tidy containers -/

/-- A list that does not end in a hole, or a dictionary with string keys that are different and with
values that are there; anything else is tidy. What is deeper in the value is not looked at. -/
def Tidy : Value → Prop
  | list items => ∀ v, items.getLast? = some v → v.isMissing = false
  | dict entries => (keys entries).Nodup ∧ ∀ e ∈ entries, (∃ k, e.1 = str k) ∧ e.2.isMissing = false
  | _ => True

/-- A value is tidy when whatever is one step down is there, and its keys are different strings. -/
theorem tidy_of_steps {v : Value} (below : ∀ c w, (c, w) ∈ v.steps → w.isMissing = false)
    (keyed : ∀ entries, v = dict entries →
      (entries.all (fun e => e.1.isString) && decide (keys entries).Nodup) = true) : v.Tidy := by
  cases v with
  | list items =>
      intro w hw
      obtain ⟨i, hi⟩ := List.mem_iff_getElem?.mp (List.mem_of_getLast? hw)
      exact below _ w (mem_itemSteps_iff.mpr ⟨i, rfl, hi⟩)
  | dict entries =>
      obtain ⟨strings, nodup⟩ := Bool.and_eq_true_iff.mp (keyed entries rfl)
      refine ⟨of_decide_eq_true nodup, fun ⟨key, w⟩ he => ?_⟩
      have string := List.all_eq_true.mp strings _ he
      cases key with
      | str k => exact ⟨⟨k, rfl⟩, below _ w (mem_entrySteps_iff.mpr ⟨k, rfl, he⟩)⟩
      | _ => exact absurd string (by simp [isString])
  | _ => trivial

/-- The empty container of a kind has this kind, and is tidy. -/
theorem kind?_empty (k : Kind) : (empty k).kind? = some k ∧ (empty k).Tidy := by
  cases k with
  | array => exact ⟨rfl, by simp [empty, Tidy]⟩
  | object => exact ⟨rfl, by simp [empty, Tidy, keys]⟩

/-- The slots of an empty container are missing, whatever the component. -/
theorem slot_empty (k : Kind) (c : Component) : (empty k).slot c = missing := by
  cases k <;> cases c <;> rfl

/-- A container is another one with the value in a single slot exchanged. An edit one step down is
described by this, without any difference between lists and dictionaries. -/
structure Swapped (c : Component) (r t t' : Value) : Prop where
  /-- The two are containers of one kind. -/
  kind : t'.kind? = t.kind?
  /-- The new one is tidy. -/
  tidy : t'.Tidy
  /-- The value that is in the slot now. -/
  self : t'.slot c = r
  /-- The other slots are as they were. -/
  others : ∀ d, d ≠ c → t'.slot d = t.slot d

/-- Nothing is exchanged: a tidy container with its own value in the slot. -/
theorem Swapped.refl {c : Component} {t : Value} (ht : t.Tidy) : Swapped c (t.slot c) t t :=
  ⟨rfl, ht, rfl, fun _ _ => rfl⟩

/-- The value in a slot is exchanged twice, which is exchanging it once for the second value. -/
theorem Swapped.trans {c : Component} {r r' t t' t'' : Value} (h : Swapped c r t t')
    (h' : Swapped c r' t' t'') : Swapped c r' t t'' where
  kind := h'.kind.trans h.kind
  tidy := h'.tidy
  self := h'.self
  others d hd := (h'.others d hd).trans (h.others d hd)

/-- **Writing one step down** exchanges one value, if the container fits the component. What a list
is filled up with is missing before and after. -/
theorem swapped_putChild {c : Component} {r t : Value} (hf : t.kind? = some c.kind) (ht : t.Tidy)
    (hr : r.isMissing = false) : Swapped c r t (t.putChild c r) := by
  cases t with
  | list items =>
      cases c with
      | property k => exact absurd hf (by simp [kind?, Component.kind])
      | index i =>
          refine ⟨rfl, fun w hw => getLast?_putItem hr ht hw, ?_, fun d hd => ?_⟩
          · rw [putChild, slot_list, getElem?_putItem]
            rfl
          · cases d with
            | property k => rfl
            | index j =>
                rw [putChild, slot_list, slot_list]
                exact getD_putItem (fun he => hd (congrArg _ he)) r items
  | dict entries =>
      cases c with
      | index i => exact absurd hf (by simp [kind?, Component.kind])
      | property k =>
          refine ⟨rfl, ⟨nodup_keys_insert ht.1, fun e he => ?_⟩, ?_, fun d hd => ?_⟩
          · rcases mem_insert he with rfl | he
            · exact ⟨⟨k, rfl⟩, hr⟩
            · exact ht.2 e he
          · rw [putChild, Component.text, slot_dict, lookup_insert]
            rfl
          · cases d with
            | index j => rfl
            | property j =>
                rw [putChild, Component.text, slot_dict, slot_dict,
                  lookup_insert_of_ne fun he => hd (congrArg _ he)]
  | _ => exact absurd hf (by simp [kind?, Component.kind])

/-- **Deleting one step down** leaves one slot missing, and all others as they were. -/
theorem swapped_eraseChild {c : Component} {t : Value} (hf : t.kind? = some c.kind) (ht : t.Tidy) :
    Swapped c missing t (t.eraseChild c) := by
  cases t with
  | list items =>
      cases c with
      | property k => exact absurd hf (by simp [kind?, Component.kind])
      | index i =>
          rw [eraseChild]
          split
          · next hi =>
              refine ⟨rfl, fun w hw => getLast?_trimHoles hw, ?_, fun d hd => ?_⟩
              · rw [slot_list, getD_trimHoles, List.getElem?_set_self hi]
                rfl
              · cases d with
                | property k => rfl
                | index j =>
                    have hj : i ≠ j := fun he => hd (congrArg _ he.symm)
                    rw [slot_list, getD_trimHoles, List.getElem?_set_ne hj, slot_list]
          · next hi =>
              refine ⟨rfl, ht, ?_, fun _ _ => rfl⟩
              rw [slot_list, List.getElem?_eq_none (Nat.le_of_not_lt hi)]
              rfl
  | dict entries =>
      cases c with
      | index i => exact absurd hf (by simp [kind?, Component.kind])
      | property k =>
          have sub := erase_sublist k entries
          refine ⟨rfl, ⟨ht.1.sublist (sub.filterMap _), fun e he => ht.2 e (sub.subset he)⟩, ?_,
            fun d hd => ?_⟩
          · rw [eraseChild, Component.text, slot_dict, lookup_erase ht.1]
            rfl
          · cases d with
            | index j => rfl
            | property j =>
                rw [eraseChild, Component.text, slot_dict, slot_dict,
                  lookup_erase_of_ne fun he => hd (congrArg _ he)]
  | _ => exact absurd hf (by simp [kind?, Component.kind])

/-! ### One step of an edit -/

/-- An edit steps to what a path resolves to, where the component fits. -/
theorem editChild?_eq {v : Value} {c : Component} (h : v.kind? = some c.kind) :
    v.editChild? c = v.child? c := by
  cases v <;> cases c <;> simp_all [kind?, Component.kind, editChild?, child?, Component.text]

/-- **What a write steps into** is the value at hand, or a new container in place of a vacant one,
when the component can step from it. The places that faults name do not matter. -/
theorem openFor_eq_ok_iff {path place : Path} {c : Component} {v w : Value} :
    v.openFor path place c = .ok w ↔
      w = (if v.isVacant then emptyFor c else v) ∧ w.admits c = true := by
  unfold openFor
  generalize (if v.isVacant then emptyFor c else v) = u
  have same : w = u ∧ w.admits c = true ↔ u = w ∧ u.admits c = true :=
    ⟨fun ⟨he, ha⟩ => ⟨he.symm, he ▸ ha⟩, fun ⟨he, ha⟩ => ⟨he.symm, he ▸ ha⟩⟩
  rw [same]
  cases place.isEmpty <;> cases u <;> cases c <;> simp [admits]

/-- A write steps into a container that the component fits, and leaves it as it is. -/
theorem openFor_eq {v : Value} {c : Component} (h : v.kind? = some c.kind) (path place : Path) :
    v.openFor path place c = .ok v := by
  rw [openFor_eq_ok_iff]
  cases v <;> cases c <;> simp_all [kind?, Component.kind, admits, isVacant]

/-- Putting a value keeps the kind of a container, and a value that is none stays as it is. -/
theorem kind?_putChild (t : Value) (c : Component) (r : Value) :
    (t.putChild c r).kind? = t.kind? := by
  cases t <;> cases c <;> rfl

/-- Deleting one step down keeps the kind of a container. -/
theorem kind?_eraseChild (t : Value) (c : Component) : (t.eraseChild c).kind? = t.kind? := by
  cases t with
  | list items =>
      cases c with
      | index i => rw [eraseChild]; split <;> rfl
      | property k => rfl
  | dict entries => cases c <;> rfl
  | _ => rfl

end Value

/-! ### Whole edits -/

namespace Path

/-- What a write gives does not depend on the places that faults name. So a write below a step is a
write from the root of what is there. -/
theorem assignFrom_ok {path place path' place' q : Path} {t x r : Value}
    (h : assignFrom path place q t x = .ok r) : assignFrom path' place' q t x = .ok r := by
  induction q generalizing place place' t r with
  | nil => exact h
  | cons c q ih =>
      rw [assignFrom] at h ⊢
      obtain ⟨container, hopen, h⟩ := bind_eq_ok_iff.mp h
      obtain ⟨child, hchild, h⟩ := bind_eq_ok_iff.mp h
      refine bind_eq_ok_iff.mpr ⟨container, ?_, bind_eq_ok_iff.mpr ⟨child, ih hchild, h⟩⟩
      exact Value.openFor_eq_ok_iff.mpr (Value.openFor_eq_ok_iff.mp hopen)

/-- A write of a value that is there leaves a tree that is there. What is missing on the way is
made. -/
theorem isMissing_assign {q : Path} {t x r : Value} (hx : x.isMissing = false)
    (h : q.assign t x = .ok r) : r.isMissing = false := by
  rw [assign] at h
  cases q with
  | nil => obtain rfl := Except.ok.inj h; exact hx
  | cons c q =>
      rw [assignFrom] at h
      obtain ⟨container, hopen, h⟩ := bind_eq_ok_iff.mp h
      obtain ⟨child, -, h⟩ := bind_eq_ok_iff.mp h
      obtain rfl := Except.ok.inj h
      have admitted := (Value.openFor_eq_ok_iff.mp hopen).2
      cases container <;> cases c <;> simp_all [Value.admits, Value.putChild, Value.isMissing]

/-- Writing a tree that is there at the root leaves that tree. -/
theorem set_root {x : Value} (t : Value) (hx : x.isMissing = false) : set [] t x = .ok x := by
  rw [set, if_neg (by simp [hx])]
  rfl

/-- A deletion further down happens in the container one step down, if there is one. Otherwise
nothing is there to delete. -/
theorem erase_cons_cons (c d : Component) (q : Path) (t : Value) :
    erase (c :: d :: q) t = match t.editChild? c with
      | some child => if child.isContainer then t.putChild c (erase (d :: q) child) else t
      | none => t := by
  cases h : t.editChild? c <;> simp [erase, h]

/-- A deletion below the root keeps the kind of a tree, however much goes away below. -/
theorem kind?_erase (c : Component) (q : Path) (t : Value) :
    (erase (c :: q) t).kind? = t.kind? := by
  cases q with
  | nil => exact Value.kind?_eraseChild t c
  | cons d q =>
      rw [erase_cons_cons]
      split
      · split
        · exact Value.kind?_putChild t c _
        · rfl
      · rfl

/-- A deletion below a value that is no container does nothing. It is not refused either. -/
theorem erase_of_kind?_eq_none {t : Value} (h : t.kind? = none) (c : Component) (q : Path) :
    erase (c :: q) t = t := by
  cases q with
  | nil => cases t <;> simp_all [erase, Value.eraseChild, Value.kind?]
  | cons d q =>
      rw [erase_cons_cons]
      cases t <;> simp_all [Value.editChild?, Value.kind?]

/-- A deletion below the root of a tree that is there leaves one there. -/
theorem isMissing_erase {t : Value} (ht : t.isMissing = false) (c : Component) (q : Path) :
    (erase (c :: q) t).isMissing = false := by
  cases hk : t.kind? with
  | none =>
      rw [erase_of_kind?_eq_none hk]
      exact ht
  | some k =>
      refine Value.isMissing_of_isContainer ?_
      rw [Value.isContainer, kind?_erase, hk]
      rfl

/-- Deleting below one component deletes in its slot. Where nothing is, nothing changes, and that is
an exchange, too. -/
theorem erase_cons {c : Component} {q : Path} {t : Value} (hf : t.kind? = some c.kind)
    (ht : t.Tidy) : Value.Swapped c (erase q (t.slot c)) t (erase (c :: q) t) := by
  cases q with
  | nil => exact Value.swapped_eraseChild hf ht
  | cons d q =>
      have nothing : (t.slot c).kind? = none →
          Value.Swapped c (erase (d :: q) (t.slot c)) t t := fun hk => by
        rw [erase_of_kind?_eq_none hk]
        exact .refl ht
      rw [erase_cons_cons, Value.editChild?_eq hf]
      cases hc : t.child? c with
      | none =>
          refine nothing ?_
          rw [Value.slot, hc]
          rfl
      | some child =>
          have hs : t.slot c = child := by rw [Value.slot, hc]; rfl
          rw [hs] at nothing ⊢
          by_cases hk : child.isContainer = true
          · simp only [if_pos hk]
            exact Value.swapped_putChild hf ht
              (isMissing_erase (Value.isMissing_of_isContainer hk) d q)
          · simp only [if_neg hk]
            refine nothing ?_
            simpa [Value.isContainer] using hk

/-- Writing below one component writes in its slot. A missing slot gets a new container on the
way. -/
theorem assign_cons {c : Component} {q : Path} {t x r : Value} (hf : t.kind? = some c.kind)
    (ht : t.Tidy) (hx : x.isMissing = false) (h : q.assign (t.slot c) x = .ok r) :
    ∃ t', assign (c :: q) t x = .ok t' ∧ Value.Swapped c r t t' := by
  refine ⟨t.putChild c r, ?_, Value.swapped_putChild hf ht (isMissing_assign hx h)⟩
  rw [assign, assignFrom, Value.openFor_eq hf]
  refine bind_eq_ok_iff.mpr ⟨t, rfl, ?_⟩
  rw [Value.editChild?_eq hf]
  exact bind_eq_ok_iff.mpr ⟨r, assignFrom_ok h, rfl⟩

/-- **An edit below one component is an edit in its slot.** This is the step of every induction over
the path of an edit. -/
theorem set_cons {c : Component} {q : Path} {t x r : Value} (hf : t.kind? = some c.kind)
    (ht : t.Tidy) (h : q.set (t.slot c) x = .ok r) :
    ∃ t', set (c :: q) t x = .ok t' ∧ Value.Swapped c r t t' := by
  rw [set] at h ⊢
  cases hx : x.isMissing with
  | true =>
      rw [hx, if_pos rfl] at h
      obtain rfl := Except.ok.inj h
      exact ⟨_, if_pos rfl, erase_cons hf ht⟩
  | false =>
      rw [hx, if_neg (by simp)] at h
      rw [if_neg (by simp)]
      exact assign_cons hf ht hx h

end Path

end TreeDelta
