import TreeDelta.Proofs.Tree.Edit
import TreeDelta.Proofs.Value.Equality

/-!
# Plain trees

A plain tree has no holes: it is built from scalars that are there and equal to themselves, from
lists, and from dictionaries with different string keys. Two plain trees are alike when they have
the same shape, up to the order of keys, over leaves that are strictly equal. For containers this
is a matter of the slots (`Value.alike_of_slots`): a tidy container with the right values in its
slots has the right length, or the right keys.

## Main definitions

* `Value.Plain`, `Value.MaybePlain`: trees without holes, which may be missing altogether.
* `Value.Alike`: trees of one shape over strictly equal leaves.

## Main results

* `Value.Plain.alike_self`: a plain tree is like itself.
* `Value.alike_of_slots`: a container is like another one when its slots are.
-/

namespace TreeDelta

/-- Whether a double is not a number. -/
def Binary64.isNan : Binary64 → Bool
  | .nan _ => true
  | _ => false

namespace Value

/-! ### Plain trees -/

/-- Whether a value can stand at a node of a plain tree: a scalar that is there and is no
not-a-number value, a list, or a dictionary with different string keys. -/
def isPlainNode : Value → Bool
  | null | bool _ | int _ | str _ | bytes _ | list _ => true
  | float x => !x.isNan
  | complex re im => !re.isNan && !im.isNan
  | dict entries => entries.all (fun e => e.1.isString) && decide (keys entries).Nodup
  | _ => false

/-- A tree without holes, of scalars, lists and dictionaries with different string keys. Documents
are read as such trees, unless they hold what is not a number. -/
def Plain (v : Value) : Prop := v.every isPlainNode = true

instance (v : Value) : Decidable v.Plain := inferInstanceAs (Decidable (_ = true))

/-- The root of a plain tree is a plain node. -/
theorem Plain.isPlainNode {v : Value} (h : v.Plain) : v.isPlainNode = true := (every_iff.mp h).1

/-- The keys in a plain tree are different, in every dictionary that paths reach. -/
theorem Plain.wellKeyed {v : Value} (h : v.Plain) : v.WellKeyed := by
  refine every_mono (fun w hw => ?_) h
  cases w with
  | dict entries => exact (Bool.and_eq_true_iff.mp hw).2
  | _ => rfl

/-- The values one step below a plain tree are plain. This is what an induction over a tree passes
on. -/
theorem Plain.step {v w : Value} {c : Component} (h : v.Plain) (hs : (c, w) ∈ v.steps) : w.Plain :=
  (every_iff.mp h).2 c w hs

/-- What a path resolves to in a plain tree is plain. By induction on the path. -/
theorem Plain.find? {v x : Value} {q : Path} (h : v.Plain) (hx : q.find? v = some x) : x.Plain :=
  every_of_find? h.wellKeyed h hx

/-- A plain tree is there, since a missing value is no plain node. -/
theorem Plain.present {v : Value} (h : v.Plain) : v.isMissing = false := by
  have node := h.isPlainNode
  cases v <;> simp_all [Value.isPlainNode, isMissing]

/-- A plain tree that is no container is a scalar. Nothing else is left: there are no tuples or
objects in it. -/
theorem Plain.isPrimitive {v : Value} (h : v.Plain) (hk : v.kind? = none) :
    v.isPrimitive = true := by
  have node := h.isPlainNode
  cases v <;> simp_all [Value.isPlainNode, Value.isPrimitive, kind?]

/-- A tree that is plain, or missing altogether. Slots of plain trees are such trees. -/
def MaybePlain (v : Value) : Prop := v = missing ∨ v.Plain

/-- A slot of a plain tree is missing or plain. -/
theorem Plain.slot {v : Value} (h : v.Plain) (c : Component) : (v.slot c).MaybePlain :=
  (slot_eq_missing_or_mem_steps h.wellKeyed.hasUniqueKeys c).imp_right h.step

/-- A slot of a tree that is missing or plain is so, too. Nothing is in a slot of what is
missing. -/
theorem MaybePlain.slot {v : Value} (h : v.MaybePlain) (c : Component) :
    (v.slot c).MaybePlain := by
  rcases h with rfl | h
  · exact .inl rfl
  · exact h.slot c

/-- The keys of a tree that is missing or plain are different. -/
theorem MaybePlain.hasUniqueKeys {v : Value} (h : v.MaybePlain) : v.hasUniqueKeys = true := by
  rcases h with rfl | h
  · rfl
  · exact h.wellKeyed.hasUniqueKeys

/-- A plain tree is tidy: there are no holes in its lists, and its keys are different strings. -/
theorem Plain.tidy {v : Value} (h : v.Plain) : v.Tidy :=
  tidy_of_steps (fun _ _ hs => (h.step hs).present) fun _ he => (he ▸ h).isPlainNode

/-! ### Trees that are alike -/

/-- Two trees are alike when they have lists of the same lengths and dictionaries with the same keys
at the same places, and strictly equal scalars as their leaves. -/
inductive Alike : Value → Value → Prop
  /-- Scalars that are strictly equal. -/
  | leaf {v w : Value} : v.isPrimitive = true → w.isPrimitive = true →
      v.samePrimitive w = true → Alike v w
  /-- Lists of one length with items that are alike. -/
  | list {vs ws : List Value} : vs.length = ws.length →
      (∀ (i : Nat) v w, vs[i]? = some v → ws[i]? = some w → Alike v w) → Alike (list vs) (list ws)
  /-- Dictionaries with the same keys, in any order, and values that are alike. -/
  | dict {es fs : List (Value × Value)} :
      (∀ k, (lookup k es).isSome = (lookup k fs).isSome) →
      (∀ k v w, lookup k es = some v → lookup k fs = some w → Alike v w) → Alike (dict es) (dict fs)

/-- A plain tree is like itself. -/
theorem Plain.alike_self {v : Value} (h : v.Plain) : Alike v v := by
  induction v using stepInduction with
  | step v ih =>
      cases v with
      | list items =>
          refine .list rfl fun i v w hv hw => ?_
          obtain rfl := Option.some.inj (hv.symm.trans hw)
          have hs : (.index (0 + i), v) ∈ (Value.list items).steps :=
            mem_itemSteps_iff.mpr ⟨i, rfl, hv⟩
          exact ih _ v hs (h.step hs)
      | dict entries =>
          refine .dict (fun _ => rfl) fun k v w hv hw => ?_
          obtain rfl := Option.some.inj (hv.symm.trans hw)
          have hs : (.property k, v) ∈ (Value.dict entries).steps :=
            (child?_eq_some_iff h.wellKeyed.hasUniqueKeys).mp hv
          exact ih _ v hs (h.step hs)
      | _ =>
          have hp := h.isPrimitive rfl
          exact .leaf hp hp (samePrimitive_self hp)

/-! ### Containers slot by slot -/

/-- A tidy list whose slots are there for the items of another one, and for no others, has the
length of that one. Tidiness excludes holes behind these slots. -/
theorem length_eq_of_slots {rs ws : List Value} (ht : (list rs).Tidy)
    (there : ∀ i, i < ws.length → ((list rs).slot (.index i)).isMissing = false)
    (gone : ∀ i, ws.length ≤ i → (list rs).slot (.index i) = missing) :
    rs.length = ws.length := by
  have out_of_range : ∀ i, rs.length ≤ i → (list rs).slot (.index i) = missing := by
    intro i hi
    rw [slot_list, List.getElem?_eq_none hi]
    rfl
  rcases Nat.lt_trichotomy rs.length ws.length with hlt | heq | hgt
  · have h := there rs.length hlt
    rw [out_of_range _ (Nat.le_refl _)] at h
    exact absurd h (by simp [isMissing])
  · exact heq
  · -- the last item of a tidy list is there
    have h := gone (rs.length - 1) (by omega)
    rw [slot_list] at h
    cases hl : rs[rs.length - 1]? with
    | none =>
        have := List.getElem?_eq_none_iff.mp hl
        omega
    | some v =>
        rw [hl] at h
        obtain rfl : v = missing := h
        have last := ht _ (by rw [List.getLast?_eq_getElem?, hl])
        exact absurd last (by simp [isMissing])

/-- A list of plain trees is plain. No hole is among them, as a hole is not plain. -/
theorem plain_list {items : List Value} (h : ∀ (i : Nat) v, items[i]? = some v → v.Plain) :
    (list items).Plain := by
  refine every_iff.mpr ⟨rfl, fun c v hv => ?_⟩
  obtain ⟨j, rfl, hj⟩ := mem_itemSteps_iff.mp hv
  exact h j v hj

/-- A tidy dictionary of plain trees is plain. -/
theorem plain_dict {entries : List (Value × Value)} (ht : (dict entries).Tidy)
    (h : ∀ k v, lookup k entries = some v → v.Plain) : (dict entries).Plain := by
  refine every_iff.mpr ⟨?_, fun c v hv => ?_⟩
  · refine Bool.and_eq_true_iff.mpr ⟨List.all_eq_true.mpr fun e he => ?_, decide_eq_true ht.1⟩
    obtain ⟨⟨k, hk⟩, -⟩ := ht.2 e he
    rw [hk]
    rfl
  · obtain ⟨k, rfl, hmem⟩ := mem_entrySteps_iff.mp hv
    exact h k v ((lookup_eq_some_iff ht.1).mpr hmem)

/-- A tidy list is like another one when its slots are like the items of that one. -/
theorem alike_list_of_slots {rs ws : List Value} (ht : (list rs).Tidy)
    (there : ∀ (i : Nat) w, ws[i]? = some w →
      Alike ((list rs).slot (.index i)) w ∧ ((list rs).slot (.index i)).Plain)
    (gone : ∀ i, ws.length ≤ i → (list rs).slot (.index i) = missing) :
    Alike (list rs) (list ws) ∧ (list rs).Plain := by
  have length : rs.length = ws.length :=
    length_eq_of_slots ht (fun i hi => (there i _ (List.getElem?_eq_getElem hi)).2.present) gone
  have slot : ∀ (i : Nat) v, rs[i]? = some v → (list rs).slot (.index i) = v := by
    intro i v hv
    rw [slot_list, hv]
    rfl
  constructor
  · refine .list length fun i v w hv hw => ?_
    rw [← slot i v hv]
    exact (there i w hw).1
  · refine plain_list fun i v hv => ?_
    obtain ⟨hi, -⟩ := List.getElem?_eq_some_iff.mp hv
    rw [← slot i v hv]
    exact (there i _ (List.getElem?_eq_getElem (length ▸ hi))).2

/-- A tidy dictionary is like another one when its slots are like the values of that one. -/
theorem alike_dict_of_slots {es fs : List (Value × Value)} (ht : (dict es).Tidy)
    (there : ∀ k w, lookup k fs = some w →
      Alike ((dict es).slot (.property k)) w ∧ ((dict es).slot (.property k)).Plain)
    (gone : ∀ k, lookup k fs = none → (dict es).slot (.property k) = missing) :
    Alike (dict es) (dict fs) ∧ (dict es).Plain := by
  have slot : ∀ k v, lookup k es = some v →
      (dict es).slot (.property k) = v ∧ v.isMissing = false := by
    intro k v hv
    refine ⟨by rw [slot_dict, hv]; rfl, ?_⟩
    exact (ht.2 _ ((lookup_eq_some_iff ht.1).mp hv)).2
  have keys : ∀ k, (lookup k es).isSome = (lookup k fs).isSome := by
    intro k
    cases hf : lookup k fs with
    | some w =>
        have present := (there k w hf).2.present
        rw [slot_dict] at present
        cases he : lookup k es with
        | some v => rfl
        | none => rw [he] at present; exact absurd present (by simp [isMissing])
    | none =>
        cases he : lookup k es with
        | none => rfl
        | some v =>
            obtain ⟨hs, hm⟩ := slot k v he
            rw [← hs, gone k hf] at hm
            exact absurd hm (by simp [isMissing])
  constructor
  · refine .dict keys fun k v w hv hw => ?_
    rw [← (slot k v hv).1]
    exact (there k w hw).1
  · refine plain_dict ht fun k v hv => ?_
    have hk := keys k
    rw [hv, Option.isSome_some, eq_comm, Option.isSome_iff_exists] at hk
    obtain ⟨w, hw⟩ := hk
    rw [← (slot k v hv).1]
    exact (there k w hw).2

/-- **A tidy container with the right slots is right**: it is plain, and like a plain container of
its kind, when its slots are for all steps of that one, and when its other slots are missing. Trees
that a patch gives are shown to be right with this, slot by slot. -/
theorem alike_of_slots {r w : Value} (hw : w.Plain) (hk : r.kind? = w.kind?)
    (hc : w.isContainer = true) (ht : r.Tidy)
    (there : ∀ c x, (c, x) ∈ w.steps → Alike (r.slot c) x ∧ (r.slot c).Plain)
    (gone : ∀ c, c ∉ w.steps.map Prod.fst → r.slot c = missing) : Alike r w ∧ r.Plain := by
  have step : ∀ c x, w.child? c = some x ↔ (c, x) ∈ w.steps := fun c x =>
    child?_eq_some_iff hw.wellKeyed.hasUniqueKeys
  have no_step : ∀ c, w.child? c = none → c ∉ w.steps.map Prod.fst := by
    intro c hn hmem
    obtain ⟨⟨c, x⟩, hx, rfl⟩ := List.mem_map.mp hmem
    exact absurd (hn.symm.trans ((step c x).mpr hx)) (by simp)
  cases w with
  | list ws =>
      cases r with
      | list rs =>
          refine alike_list_of_slots ht (fun i x hx => there _ x ((step _ x).mp hx)) fun i hi => ?_
          exact gone _ (no_step (.index i) (List.getElem?_eq_none hi))
      | _ => exact absurd hk (by simp [kind?])
  | dict fs =>
      cases r with
      | dict es =>
          refine alike_dict_of_slots ht (fun k x hx => there _ x ((step _ x).mp hx)) fun k hn => ?_
          exact gone _ (no_step (.property k) hn)
      | _ => exact absurd hk (by simp [kind?])
  | _ => exact absurd hc (by simp [isContainer, kind?])

end Value

end TreeDelta
