import TreeDelta.Proofs.Forall2
import TreeDelta.Proofs.Projection.Clone

/-!
# What a pure copy shows

A copy comes to a value, converts it if it converts itself, and goes on with its parts: the items of
a list or a tuple, and the values of a dictionary. It fails exactly when a value that it comes to
has no JSON form, or is a dictionary with a key that has none (`Value.clone_exact`). Otherwise the
copy shows at every path what the value has there (`Value.shape_copyBy`): scalars are unchanged,
lists and tuples keep their lengths, and what is left out is null in a list and away in a
dictionary. Under the text of a key stands the last value that is not left out, since several keys
may have one text.

## Main definitions

* `Value.Reaches`, `Value.Refuses`: the values that a copy comes to, and those that it stops at.
* `Value.Role`: the ways a value takes part in a copy.
* `Value.origin?`: what a path of a copy stands for.
* `Value.shape`: what a copy shows of a value without its parts.

## Main results

* `Value.exists_copyBy`, `Value.exists_refuses_of_copyBy`: when a copy is made, and why it is not.
* `Value.shape_copyBy`: what a copy shows at every path.
* `Value.cloneWith_keep`: a replacement that replaces nothing.
* `Value.clone_exact`: failing, purity, lengths and repetition in one statement.
-/

namespace TreeDelta.Value

/-! ### What a copy comes to -/

/-- The values right below a value: the items of a list or a tuple, or the values of a dictionary
under keys of any type. -/
def parts : Value → List Value
  | list items | tuple items => items
  | dict entries => entries.map Prod.snd
  | _ => []

/-- The items of a list or a tuple, which a copy treats alike: both are lists in JSON. -/
def sequence? : Value → Option (List Value)
  | list items | tuple items => some items
  | _ => none

/-- Whether a copy leaves a value out: it is missing or a function, maybe after its conversion. -/
def isLeftOut (v : Value) : Bool := v.unhook.isMissing || v.unhook.isCallable

/-- Whether a value is a scalar of JSON. A copy keeps these values as they are. -/
def isJsonScalar : Value → Bool
  | null | bool _ | int _ | float _ | str _ => true
  | _ => false

/-- Whether a copy goes on at values of this kind: containers, scalars of JSON, and what is left
out. -/
def isCopied : Value → Bool
  | missing | function _ | list _ | tuple _ | dict _ => true
  | v => v.isJsonScalar

/-- The values that a copy comes to, converted if they convert themselves. -/
inductive Reaches : Value → Value → Prop
  /-- The value itself. -/
  | here (v : Value) : Reaches v v.unhook
  /-- What a part of it reaches. -/
  | part {v w x : Value} : w ∈ v.unhook.parts → Reaches w x → Reaches v x

/-- A value that a copy stops at, and the fault: it has no JSON form, or is a dictionary with a key
that is neither a string nor a number. -/
inductive Refuses : Value → CloneFault → Prop
  /-- There are no values of this kind in JSON. -/
  | value {v : Value} : v.isCopied = false → Refuses v (.value v.typeName)
  /-- A key has no JSON form. -/
  | key {entries : List (Value × Value)} {k v : Value} :
    (k, v) ∈ entries → k.jsonKey? = none → Refuses (dict entries) (.key k.typeName)

/-- The ways a value takes part in a copy. Each is decided by the value after its conversion, and
each has its own equation for the copy. -/
inductive Role (v : Value) : Prop
  /-- As a list. -/
  | items (ws : List Value) (h : v.unhook.sequence? = some ws)
  /-- As a dictionary. -/
  | entries (es : List (Value × Value)) (h : v.unhook = dict es)
  /-- Not at all. -/
  | leftOut (h : v.isLeftOut = true)
  /-- As it is. -/
  | scalar (h : v.unhook.isJsonScalar = true)
  /-- It has no JSON form. -/
  | refused (h : v.unhook.isCopied = false)

/-- Every value has a role. The cases of a proof about copies are split along it. -/
theorem role (v : Value) : v.Role := by
  cases hu : v.unhook with
  | list ws => exact .items ws (by rw [hu]; rfl)
  | tuple ws => exact .items ws (by rw [hu]; rfl)
  | dict es => exact .entries es hu
  | missing | function _ => exact .leftOut (by rw [isLeftOut, hu]; rfl)
  | null | bool _ | int _ | float _ | str _ => exact .scalar (by rw [hu]; rfl)
  | _ => exact .refused (by rw [hu]; rfl)

/-- Lists and tuples have items, and nothing else has. -/
theorem sequence?_eq_some_iff {v : Value} {ws : List Value} :
    v.sequence? = some ws ↔ v = list ws ∨ v = tuple ws := by
  cases v <;> simp [sequence?]

/-- The parts of a list or a tuple are its items, in their order and with the missing ones. -/
theorem parts_of_sequence? {v : Value} {ws : List Value} (h : v.sequence? = some ws) :
    v.parts = ws := by
  rcases sequence?_eq_some_iff.mp h with rfl | rfl <;> rfl

/-- The parts of a value are smaller. A recursion through the parts therefore ends. -/
theorem sizeOf_lt_of_mem_parts {v w : Value} (h : w ∈ v.parts) : sizeOf w < sizeOf v := by
  cases v with
  | list items | tuple items =>
      have := List.sizeOf_lt_of_mem (show w ∈ items from h)
      simp only [list.sizeOf_spec, tuple.sizeOf_spec]
      omega
  | dict entries =>
      obtain ⟨⟨k, x⟩, he, rfl⟩ := List.mem_map.mp h
      have := List.sizeOf_lt_of_mem he
      simp only [Prod.mk.sizeOf_spec, dict.sizeOf_spec] at this ⊢
      omega
  | _ => exact absurd h (by simp [parts])

/-- The parts of a converted value are smaller than the value, whose size counts what it converts
itself to. -/
theorem sizeOf_lt_of_mem_parts_unhook {v w : Value} (h : w ∈ v.unhook.parts) :
    sizeOf w < sizeOf v := by
  cases v with
  | hooked label result =>
      have : sizeOf w < sizeOf result := sizeOf_lt_of_mem_parts h
      simp only [hooked.sizeOf_spec]
      omega
  | path p => exact absurd h (by simp [unhook, parts])
  | pattern m => exact absurd h (by simp [unhook, parts])
  | _ => exact sizeOf_lt_of_mem_parts h

/-- **Induction over a copy**: what holds of a value whenever it holds of all values that the copy
goes on to holds of every value. -/
@[elab_as_elim]
theorem partInduction {motive : Value → Prop}
    (step : ∀ v, (∀ w ∈ v.unhook.parts, motive w) → motive v) (v : Value) : motive v :=
  step v fun w h =>
    have := sizeOf_lt_of_mem_parts_unhook h
    partInduction step w
termination_by sizeOf v

/-! ### One step of a copy -/

/-- The pure copy of a value, with only the listed keys if there is a list. -/
def copyBy (keys? : Option (List String)) (v : Value) : Except CloneFault Value :=
  purify keys? v.resolve

variable {keys? : Option (List String)}

/-- Resolving converts a value first, and then resolves what is below the result. -/
theorem resolve_eq (v : Value) : v.resolve = resolveBelow v.unhook := by
  cases v <;> rfl

/-- The copies of items are made one by one, and null stands for what is left out. All of them have
to be made. -/
theorem purifyItems_eq_ok_iff {vs ss : List Value} :
    purifyItems keys? vs = .ok ss ↔
      List.Forall₂ (fun v s => ∃ c, purify keys? v = .ok c ∧ c.orNull = s) vs ss := by
  induction vs generalizing ss with
  | nil =>
      rw [purifyItems, List.forall₂_nil_left_iff, Except.ok.injEq, eq_comm]
  | cons v vs ih =>
      rw [purifyItems, bind_eq_ok_iff, List.forall₂_cons_left_iff]
      constructor
      · rintro ⟨c, hc, h⟩
        obtain ⟨cs, hcs, h⟩ := bind_eq_ok_iff.mp h
        exact ⟨c.orNull, cs, ⟨c, hc, rfl⟩, ih.mp hcs, (Except.ok.inj h).symm⟩
      · rintro ⟨_, cs, ⟨c, hc, rfl⟩, hcs, rfl⟩
        exact ⟨c, hc, bind_eq_ok_iff.mpr ⟨cs, ih.mpr hcs, rfl⟩⟩

/-- A list or a tuple is copied to a list. The key list has no say in which items are copied. -/
theorem copyBy_items {v : Value} {ws : List Value} (h : v.unhook.sequence? = some ws) :
    copyBy keys? v = (purifyItems keys? (ws.map resolve)).map list := by
  rw [copyBy, resolve_eq]
  rcases sequence?_eq_some_iff.mp h with hu | hu <;>
    rw [hu, resolveBelow, resolveItems_eq, purify]

/-- The copy of a list or a tuple is the list of the copies of its items. -/
theorem copyBy_items_eq_ok_iff {v s : Value} {ws : List Value}
    (h : v.unhook.sequence? = some ws) :
    copyBy keys? v = .ok s ↔
      ∃ ss, List.Forall₂ (fun w x => ∃ c, copyBy keys? w = .ok c ∧ c.orNull = x) ws ss ∧
        list ss = s := by
  rw [copyBy_items h, map_eq_ok_iff]
  refine exists_congr fun ss => and_congr_left' ?_
  rw [purifyItems_eq_ok_iff, List.forall₂_map_left_iff]
  rfl

/-- The copies of entries are made for each entry. The fault of one is kept in its place, since an
entry that is not gathered must not raise it. -/
theorem purifyEntries_eq (entries : List (Value × Value)) :
    purifyEntries keys? entries = entries.map fun e => (e.1, purify keys? e.2) := by
  induction entries with
  | nil => rw [purifyEntries]; rfl
  | cons e es ih => rw [purifyEntries, ih]; rfl

/-- Entries are selected by their keys, so selecting and changing the values can be exchanged. -/
theorem selected_map {α β : Type} (f : α → β) (es : List (Value × α)) :
    selected keys? (es.map fun e => (e.1, f e.2)) =
      (selected keys? es).map fun e => (e.1, f e.2) := by
  cases keys? with
  | none => rfl
  | some ks =>
      rw [selected, selected, List.map_filterMap]
      refine List.filterMap_congr fun k _ => ?_
      rw [List.find?_map]
      rfl

/-- A dictionary is copied entry by entry, after the entries were selected that the key list
names. -/
theorem copyBy_entries {v : Value} {es : List (Value × Value)} (h : v.unhook = dict es) :
    copyBy keys? v =
      (gather [] ((selected keys? es).map fun e => (e.1, copyBy keys? e.2))).map dict := by
  rw [copyBy, resolve_eq, h, resolveBelow, resolveEntries_eq, purify, purifyEntries_eq,
    List.map_map]
  exact congrArg (fun rest => (gather [] rest).map dict)
    (selected_map (fun w => copyBy keys? w) es)

/-- The copy of what is left out is missing; its container decides what that means there. -/
theorem copyBy_leftOut {v : Value} (h : v.isLeftOut = true) : copyBy keys? v = .ok missing := by
  rw [copyBy, resolve_eq]
  cases hu : v.unhook with
  | missing | function _ => simp [resolveBelow, purify]
  | _ => exact absurd h (by simp [isLeftOut, hu, isMissing, isCallable])

/-- A scalar is its own copy, after its conversion. A float that is no number is kept, too. -/
theorem copyBy_scalar {v : Value} (h : v.unhook.isJsonScalar = true) :
    copyBy keys? v = .ok v.unhook := by
  rw [copyBy, resolve_eq]
  cases hu : v.unhook with
  | null | bool _ | int _ | float _ | str _ => simp [resolveBelow, purify]
  | _ => exact absurd h (by simp [hu, isJsonScalar])

/-- What has no JSON form has no copy. The fault names the type of the value after its
conversion. -/
theorem copyBy_refused {v : Value} (h : v.unhook.isCopied = false) :
    copyBy keys? v = .error (.value v.unhook.typeName) := by
  rw [copyBy, resolve_eq]
  cases hu : v.unhook with
  | complex _ _ | bytes _ | set _ | object _ _ _ | hooked _ _ | path _ | pattern _ =>
      simp [resolveBelow, purify]
  | _ => exact absurd h (by simp [hu, isCopied, isJsonScalar])

/-! ### When a copy is made -/

/-- Entries are gathered when every key has a JSON form and every value a copy, whatever was
gathered before. -/
theorem exists_gather_iff {rest : List (Value × Except CloneFault Value)}
    {done : List (Value × Value)} :
    (∃ es, gather done rest = .ok es) ↔
      ∀ e ∈ rest, (∃ key, e.1.jsonKey? = some key) ∧ ∃ c, e.2 = .ok c := by
  induction rest generalizing done with
  | nil => simp [gather]
  | cons e rest ih =>
      obtain ⟨k, copy⟩ := e
      rw [List.forall_mem_cons, gather]
      cases hk : k.jsonKey? with
      | none => simp
      | some key =>
          cases copy with
          | error fault => simp [bind, Except.bind]
          | ok c =>
              rw [← @ih (if c.isMissing then done else insert key c done)]
              exact ⟨fun h => ⟨⟨⟨key, rfl⟩, c, rfl⟩, h⟩, fun h => h.2⟩

/-- The fault of gathering is that of a key or of the copy of a value, at one of the entries. Which
of them it is, if several are refused, is left open. -/
theorem of_gather_eq_error {rest : List (Value × Except CloneFault Value)}
    {done : List (Value × Value)} {fault : CloneFault} (h : gather done rest = .error fault) :
    ∃ e ∈ rest, (e.1.jsonKey? = none ∧ CloneFault.key e.1.typeName = fault) ∨
      e.2 = .error fault := by
  induction rest generalizing done with
  | nil => exact absurd h (by simp [gather])
  | cons e rest ih =>
      obtain ⟨k, copy⟩ := e
      rw [gather] at h
      cases hk : k.jsonKey? with
      | none =>
          rw [hk] at h
          exact ⟨_, List.mem_cons_self, .inl ⟨hk, Except.error.inj h⟩⟩
      | some key =>
          rw [hk] at h
          rcases bind_eq_error_iff.mp h with failed | ⟨c, -, later⟩
          · exact ⟨_, List.mem_cons_self, .inr failed⟩
          · obtain ⟨e, he, cause⟩ := ih later
            exact ⟨e, List.mem_cons_of_mem _ he, cause⟩

/-- The fault of copying items is that of one of them, the first that is refused. -/
theorem of_purifyItems_eq_error {vs : List Value} {fault : CloneFault}
    (h : purifyItems keys? vs = .error fault) : ∃ v ∈ vs, purify keys? v = .error fault := by
  induction vs with
  | nil => exact absurd h (by simp [purifyItems])
  | cons v vs ih =>
      rw [purifyItems] at h
      rcases bind_eq_error_iff.mp h with failed | ⟨c, -, later⟩
      · exact ⟨v, List.mem_cons_self, failed⟩
      · rcases bind_eq_error_iff.mp later with failed | ⟨cs, -, absurd_ok⟩
        · obtain ⟨w, hw, failed⟩ := ih failed
          exact ⟨w, List.mem_cons_of_mem v hw, failed⟩
        · exact absurd absurd_ok (by simp [pure, Except.pure])

/-- A value is copied when it is not refused itself and its parts are copied. This is the step of an
induction over what a copy reaches. -/
theorem exists_copyBy_step {v : Value} (own : ∀ fault, ¬v.unhook.Refuses fault)
    (below : ∀ w ∈ v.unhook.parts, ∃ c, copyBy keys? w = .ok c) :
    ∃ s, copyBy keys? v = .ok s := by
  cases v.role with
  | items ws h =>
      rw [parts_of_sequence? h] at below
      choose! copy hcopy using below
      refine ⟨list (ws.map fun w => (copy w).orNull), (copyBy_items_eq_ok_iff h).mpr ⟨_, ?_, rfl⟩⟩
      rw [List.forall₂_map_right_iff, List.forall₂_same]
      exact fun w hw => ⟨copy w, hcopy w hw, rfl⟩
  | entries es h =>
      rw [copyBy_entries h]
      rw [h] at own below
      have gathered : ∃ xs, gather [] ((selected keys? es).map
          fun e => (e.1, copyBy keys? e.2)) = .ok xs := by
        refine exists_gather_iff.mpr fun e he => ?_
        obtain ⟨⟨k, w⟩, hw, rfl⟩ := List.mem_map.mp he
        have there := mem_of_mem_selected hw
        refine ⟨Option.ne_none_iff_exists'.mp fun hk => own _ (.key there hk), ?_⟩
        exact below w (List.mem_map.mpr ⟨_, there, rfl⟩)
      obtain ⟨xs, hxs⟩ := gathered
      exact ⟨dict xs, by rw [hxs]; rfl⟩
  | leftOut h => exact ⟨missing, copyBy_leftOut h⟩
  | scalar h => exact ⟨v.unhook, copyBy_scalar h⟩
  | refused h => exact absurd (.value h) (own _)

/-- **A copy is made** when nothing that it comes to is refused. A key list can only make the copy
come to less. -/
theorem exists_copyBy {v : Value} (h : ∀ w fault, v.Reaches w → ¬w.Refuses fault) :
    ∃ s, copyBy keys? v = .ok s := by
  induction v using partInduction with
  | step v ih =>
      exact exists_copyBy_step (fun fault => h _ fault (.here v)) fun w hw =>
        ih w hw fun x fault hx => h x fault (.part hw hx)

/-- What is copied is not refused: neither the value nor one of its keys. -/
theorem not_refuses_of_copyBy {v s : Value} {fault : CloneFault} (h : copyBy none v = .ok s) :
    ¬v.unhook.Refuses fault := by
  intro refused
  generalize hu : v.unhook = u at refused
  cases refused with
  | value kind =>
      rw [← hu] at kind
      exact absurd (h.symm.trans (copyBy_refused kind)) (by simp)
  | key hmem hk =>
      rw [copyBy_entries hu] at h
      obtain ⟨xs, gathered, -⟩ := map_eq_ok_iff.mp h
      have json := exists_gather_iff.mp ⟨xs, gathered⟩ _ (List.mem_map.mpr ⟨_, hmem, rfl⟩)
      obtain ⟨key, hkey⟩ := json.1
      exact absurd (hk.symm.trans hkey) (by simp)

/-- The parts of what is copied are copied, as every entry is gathered where there is no key
list. -/
theorem exists_copyBy_of_mem_parts {v w s : Value} (h : copyBy none v = .ok s)
    (hw : w ∈ v.unhook.parts) : ∃ c, copyBy none w = .ok c := by
  have items : ∀ ws, v.unhook.sequence? = some ws → ∃ c, copyBy none w = .ok c := by
    intro ws hs
    obtain ⟨ss, copies, -⟩ := (copyBy_items_eq_ok_iff hs).mp h
    rw [parts_of_sequence? hs] at hw
    obtain ⟨i, hi⟩ := List.mem_iff_getElem?.mp hw
    have copied := rel_getElem?_of_forall₂ copies i
    rw [hi] at copied
    generalize ss[i]? = x? at copied
    cases copied with
    | some hc => exact hc.imp fun c hc => hc.1
  cases hu : v.unhook with
  | list ws => exact items ws (by rw [hu]; rfl)
  | tuple ws => exact items ws (by rw [hu]; rfl)
  | dict es =>
      rw [copyBy_entries hu] at h
      obtain ⟨xs, gathered, -⟩ := map_eq_ok_iff.mp h
      rw [hu] at hw
      obtain ⟨e, he, rfl⟩ := List.mem_map.mp hw
      exact (exists_gather_iff.mp ⟨xs, gathered⟩ _ (List.mem_map.mpr ⟨e, he, rfl⟩)).2
  | _ => exact absurd hw (by simp [hu, parts])

/-- Nothing that a copy has come to is refused. By induction on how the copy got there. -/
theorem not_refuses_of_reaches {v w s : Value} {fault : CloneFault} (h : copyBy none v = .ok s)
    (hw : v.Reaches w) : ¬w.Refuses fault := by
  induction hw generalizing s with
  | here v => exact not_refuses_of_copyBy h
  | part hp _ ih =>
      obtain ⟨c, hc⟩ := exists_copyBy_of_mem_parts h hp
      exact ih hc

/-- **The fault of a copy** is that of a value that it comes to. By induction over the copy, as a
value either is refused or passes on the fault of a part. -/
theorem exists_refuses_of_copyBy {v : Value} {fault : CloneFault}
    (h : copyBy keys? v = .error fault) : ∃ w, v.Reaches w ∧ w.Refuses fault := by
  induction v using partInduction with
  | step v ih =>
      have below : ∀ w ∈ v.unhook.parts, copyBy keys? w = .error fault →
          ∃ x, v.Reaches x ∧ x.Refuses fault := by
        intro w hw failed
        obtain ⟨x, hx, refused⟩ := ih w hw failed
        exact ⟨x, .part hw hx, refused⟩
      cases v.role with
      | items ws hs =>
          rw [copyBy_items hs, map_eq_error_iff] at h
          obtain ⟨_, hmem, failed⟩ := of_purifyItems_eq_error h
          obtain ⟨w, hw, rfl⟩ := List.mem_map.mp hmem
          exact below w (by rwa [parts_of_sequence? hs]) failed
      | entries es he =>
          rw [copyBy_entries he, map_eq_error_iff] at h
          obtain ⟨_, hmem, cause⟩ := of_gather_eq_error h
          obtain ⟨⟨k, w⟩, hsel, rfl⟩ := List.mem_map.mp hmem
          have there := mem_of_mem_selected hsel
          rcases cause with ⟨hk, rfl⟩ | failed
          · exact ⟨dict es, he ▸ .here v, .key there hk⟩
          · exact below w (by rw [he]; exact List.mem_map.mpr ⟨_, there, rfl⟩) failed
      | leftOut hl => exact absurd (h.symm.trans (copyBy_leftOut hl)) (by simp)
      | scalar hs => exact absurd (h.symm.trans (copyBy_scalar hs)) (by simp)
      | refused hr =>
          obtain rfl := Except.error.inj (h.symm.trans (copyBy_refused hr))
          exact ⟨_, .here v, .value hr⟩

/-! ### What a copy shows -/

/-- What a copy shows of a value without its parts: the length of a list or a tuple, that a value is
a dictionary, null for what is left out, and scalars as they are. -/
def shape : Value → Value
  | list items | tuple items => list (List.replicate items.length null)
  | dict _ => dict []
  | missing | function _ => null
  | v => v

/-- The value that stands under a text in the copy of a dictionary: that of the last entry whose key
has this text and whose value is not left out. -/
def byText : List (Value × Value) → String → Option Value
  | [], _ => none
  | (k, v) :: es, key =>
    (byText es key).or (if k.jsonKey? = some key ∧ v.isLeftOut = false then some v else none)

/-- What one component of a path of a copy stands for, where `pick` reads dictionaries. -/
def part? (pick : List (Value × Value) → String → Option Value) : Value → Component → Option Value
  | list items, .index i | tuple items, .index i => items[i]?
  | dict entries, .property key => pick entries key
  | _, _ => none

/-- What a path of a copy stands for, converted if it converts itself, where `pick` reads
dictionaries. -/
def origin? (pick : List (Value × Value) → String → Option Value) : Value → Path → Option Value
  | v, [] => some v.unhook
  | v, c :: q => (v.unhook.part? pick c).bind fun w => origin? pick w q

/-- The items of a tuple are reached like those of a list, by their indices. -/
theorem part?_of_sequence? {pick : List (Value × Value) → String → Option Value} {v : Value}
    {ws : List Value} (h : v.sequence? = some ws) (c : Component) :
    v.part? pick c = (list ws).part? pick c := by
  rcases sequence?_eq_some_iff.mp h with rfl | rfl <;> cases c <;> rfl

/-- What stands under a text is a part of the dictionary, under some key with this text. -/
theorem mem_of_byText {es : List (Value × Value)} {key : String} {w : Value}
    (h : byText es key = some w) : ∃ k, (k, w) ∈ es := by
  induction es with
  | nil => exact absurd h (by simp [byText])
  | cons e es ih =>
      obtain ⟨k, v⟩ := e
      rw [byText, Option.or_eq_some_iff] at h
      rcases h with later | ⟨-, own⟩
      · exact (ih later).imp fun l hl => List.mem_cons_of_mem _ hl
      · obtain ⟨-, hv⟩ := Option.ite_none_right_eq_some.mp own
        exact ⟨k, Option.some.inj hv ▸ List.mem_cons_self⟩

/-- The root of a copy shows what the value shows, and is missing when the value is left out. One
case for each role. -/
theorem root_of_copyBy {v s : Value} (h : copyBy keys? v = .ok s) :
    s.orNull.shape = v.unhook.shape ∧ s.isMissing = v.isLeftOut := by
  cases v.role with
  | items ws hs =>
      obtain ⟨ss, copies, rfl⟩ := (copyBy_items_eq_ok_iff hs).mp h
      have same := copies.length_eq
      rcases sequence?_eq_some_iff.mp hs with hu | hu <;>
        simp [orNull, isMissing, isLeftOut, isCallable, shape, hu, same]
  | entries es he =>
      rw [copyBy_entries he] at h
      obtain ⟨xs, -, rfl⟩ := map_eq_ok_iff.mp h
      simp [orNull, isMissing, isLeftOut, isCallable, shape, he]
  | leftOut hl =>
      obtain rfl := Except.ok.inj (h.symm.trans (copyBy_leftOut hl))
      refine ⟨?_, hl.symm⟩
      cases hu : v.unhook with
      | missing | function _ => rfl
      | _ => exact absurd hl (by simp [isLeftOut, hu, isMissing, isCallable])
  | scalar hs =>
      obtain rfl := Except.ok.inj (h.symm.trans (copyBy_scalar hs))
      cases hu : v.unhook with
      | null | bool _ | int _ | float _ | str _ =>
          simp [orNull, isMissing, isLeftOut, isCallable, hu]
      | _ => exact absurd hs (by simp [hu, isJsonScalar])
  | refused hr => exact absurd (h.symm.trans (copyBy_refused hr)) (by simp)

/-- **What stands under a text** of the gathered entries: the copy of the value that stands there,
or what has been there before if none does. -/
theorem lookup_of_gather {es done xs : List (Value × Value)}
    (h : gather done (es.map fun e => (e.1, copyBy keys? e.2)) = .ok xs) (key : String) :
    (byText es key = none ∧ lookup key xs = lookup key done) ∨
      ∃ w x, byText es key = some w ∧ lookup key xs = some x ∧ copyBy keys? w = .ok x ∧
        x.isMissing = false := by
  induction es generalizing done with
  | nil =>
      obtain rfl : done = xs := by simpa [gather] using h
      exact .inl ⟨rfl, rfl⟩
  | cons e es ih =>
      obtain ⟨k, v⟩ := e
      rw [List.map_cons, gather] at h
      cases hk : k.jsonKey? with
      | none => exact absurd h (by simp [hk])
      | some text =>
          rw [hk] at h
          obtain ⟨x, hx, h⟩ := bind_eq_ok_iff.mp h
          have out := (root_of_copyBy hx).2
          rcases ih h with ⟨none_later, before⟩ | ⟨w, y, later, found⟩
          · rw [byText, none_later, Option.none_or, hk, before]
            cases hm : x.isMissing with
            | true => simp [hm, ← out]
            | false =>
                simp only [Option.some.injEq, ← out, hm, and_true, Bool.false_eq_true, if_false]
                by_cases same : text = key
                · subst same
                  exact .inr ⟨v, x, if_pos rfl, lookup_insert text x done, hx, hm⟩
                · exact .inl ⟨if_neg same, lookup_insert_of_ne (Ne.symm same) x done⟩
          · exact .inr ⟨w, y, by rw [byText, later, Option.some_or], found⟩

/-- **A copy shows at every path what the value has there.** By induction over the copy: the root is
settled by `root_of_copyBy`, and a component leads to the copy of a part. -/
theorem shape_copyBy {v s : Value} (h : copyBy keys? v = .ok s) (q : Path) :
    (q.find? s.orNull).map shape =
      (v.origin? (fun es key => byText (selected keys? es) key) q).map shape := by
  induction q generalizing v s with
  | nil => exact congrArg some (root_of_copyBy h).1
  | cons c q ih =>
      rw [find?_cons, origin?]
      cases v.role with
      | items ws hs =>
          obtain ⟨ss, copies, rfl⟩ := (copyBy_items_eq_ok_iff hs).mp h
          rw [part?_of_sequence? hs]
          cases c with
          | property key => rfl
          | index i =>
              have copied := rel_getElem?_of_forall₂ copies i
              show ((ss[i]?).bind (Path.find? q)).map shape = ((ws[i]?).bind _).map shape
              generalize ws[i]? = w? at copied
              generalize ss[i]? = x? at copied
              cases copied with
              | none => rfl
              | some hc =>
                  obtain ⟨x, hx, rfl⟩ := hc
                  exact ih hx
      | entries es he =>
          rw [copyBy_entries he] at h
          obtain ⟨xs, gathered, rfl⟩ := map_eq_ok_iff.mp h
          rw [he]
          cases c with
          | index i => rfl
          | property key =>
              show ((lookup key xs).bind (Path.find? q)).map shape =
                ((byText (selected keys? es) key).bind _).map shape
              rcases lookup_of_gather gathered key with ⟨out, away⟩ | ⟨w, x, hw, hx, copied, there⟩
              · rw [out, away]
                rfl
              · have same := ih copied
                rw [orNull, there] at same
                rw [hw, hx]
                exact same
      | leftOut hl =>
          obtain rfl := Except.ok.inj (h.symm.trans (copyBy_leftOut hl))
          cases hu : v.unhook with
          | missing | function _ => cases c <;> rfl
          | _ => exact absurd hl (by simp [isLeftOut, hu, isMissing, isCallable])
      | scalar hs =>
          obtain rfl := Except.ok.inj (h.symm.trans (copyBy_scalar hs))
          cases hu : v.unhook with
          | null | bool _ | int _ | float _ | str _ => cases c <;> rfl
          | _ => exact absurd hs (by simp [hu, isJsonScalar])
      | refused hr => exact absurd (h.symm.trans (copyBy_refused hr)) (by simp)

/-! ### Replacing nothing -/

/-- Every value has a level, itself. -/
theorem one_le_depth (v : Value) : 1 ≤ v.depth := by
  cases v <;> simp [depth]

/-- A value has no more levels after its conversion, as its depth counts those of the result. -/
theorem depth_unhook_le (v : Value) : v.unhook.depth ≤ v.depth := by
  cases v <;> simp [unhook, depth]

/-- A list is as deep as its deepest item. So a depth that suffices for the list suffices for all
items. -/
theorem depth_le_of_mem {vs : List Value} {v : Value} (h : v ∈ vs) : v.depth ≤ depthItems vs := by
  induction vs with
  | nil => exact absurd h (by simp)
  | cons w ws ih =>
      rw [depthItems]
      rcases List.mem_cons.mp h with rfl | h
      · exact Nat.le_max_left _ _
      · exact (ih h).trans (Nat.le_max_right _ _)

/-- A dictionary is as deep as its deepest value. Keys have no depth. -/
theorem depth_le_of_mem_entries {es : List (Value × Value)} {e : Value × Value} (h : e ∈ es) :
    e.2.depth ≤ depthEntries es := by
  induction es with
  | nil => exact absurd h (by simp)
  | cons d ds ih =>
      obtain ⟨k, v⟩ := d
      rw [depthEntries]
      rcases List.mem_cons.mp h with rfl | h
      · exact Nat.le_max_left _ _
      · exact (ih h).trans (Nat.le_max_right _ _)

/-- The replacement that replaces nothing: it gives back each value that it is asked about. -/
def keep : Replacement := fun _ v => v

/-- Replacing nothing in a value makes a value with the same copy, under whatever key, when
replacements are followed `n` levels deep. -/
def KeepsCopy (n : Nat) (v : Value) : Prop :=
  ∀ key, ∃ visits w, substitute keep n key v = .ok (visits, w) ∧ purify none w = copyBy none v

/-- Replacing nothing in the items of a list gives items with the same copies. The index is only
told to the replacement. -/
theorem exists_substituteItems {n : Nat} {vs : List Value} (h : ∀ v ∈ vs, KeepsCopy n v) (i : Nat) :
    ∃ visits ws, substituteItems keep n i vs = .ok (visits, ws) ∧
      purifyItems none ws = purifyItems none (vs.map resolve) := by
  induction vs generalizing i with
  | nil => exact ⟨[], [], by rw [substituteItems], rfl⟩
  | cons v vs ih =>
      obtain ⟨head, hv⟩ := List.forall_mem_cons.mp h
      obtain ⟨first, w, hw, copy⟩ := head (toString i)
      obtain ⟨rest, ws, hws, copies⟩ := ih hv (i + 1)
      refine ⟨first ++ rest, w :: ws, by rw [substituteItems, hw, hws]; rfl, ?_⟩
      rw [List.map_cons, purifyItems, purifyItems, copy, copies]
      rfl

/-- Replacing nothing in the entries of a dictionary. The values under a key that has no JSON form
are not asked about, and not copied either. -/
theorem exists_substituteEntries {n : Nat} {es : List (Value × Value)}
    (h : ∀ e ∈ es, KeepsCopy n e.2) :
    ∃ visits ds, substituteEntries keep n es = .ok (visits, ds) ∧
      ∀ done, gather done (purifyEntries none ds) =
        gather done (es.map fun e => (e.1, copyBy none e.2)) := by
  induction es with
  | nil => exact ⟨[], [], by rw [substituteEntries], fun done => by rw [purifyEntries]; rfl⟩
  | cons e es ih =>
      obtain ⟨k, v⟩ := e
      obtain ⟨head, tail⟩ := List.forall_mem_cons.mp h
      obtain ⟨rest, ds, hds, copies⟩ := ih tail
      cases hk : k.jsonKey? with
      | none =>
          refine ⟨[] ++ rest, (k, v) :: ds, by rw [substituteEntries, hk, hds]; rfl, fun done => ?_⟩
          rw [purifyEntries, List.map_cons, gather, gather, hk]
      | some key =>
          obtain ⟨first, w, hw, copy⟩ := head key
          refine ⟨first ++ rest, (k, w) :: ds, ?_, fun done => ?_⟩
          · rw [substituteEntries, hk]
            show (substitute keep n key v >>= _) = _
            rw [hw, hds]
            rfl
          · rw [purifyEntries, List.map_cons, gather, gather, hk]
            simp only [copy, copies]

/-- Replacing nothing in a value, as deep as it is, never meets the bound. The conversion that comes
with it is the one that resolving does. -/
theorem keepsCopy {n : Nat} {v : Value} (h : v.depth ≤ n) : KeepsCopy n v := by
  induction n generalizing v with
  | zero => exact absurd (h.trans_lt' (one_le_depth v)) (by omega)
  | succ n ih =>
      intro key
      have enough := (depth_unhook_le v).trans h
      rw [substitute, show keep key v.unhook = v.unhook from rfl, copyBy, resolve_eq]
      cases hu : v.unhook with
      | list items | tuple items =>
          rw [hu, depth] at enough
          obtain ⟨visits, ws, hws, copies⟩ := exists_substituteItems
            (fun w hw => ih ((depth_le_of_mem hw).trans (Nat.le_of_succ_le_succ enough))) 0
          simp only [hws]
          refine ⟨_, _, rfl, ?_⟩
          rw [purify, copies, resolveBelow, purify, resolveItems_eq]
      | dict entries =>
          rw [hu, depth] at enough
          obtain ⟨visits, ds, hds, copies⟩ := exists_substituteEntries
            fun e he => ih ((depth_le_of_mem_entries he).trans (Nat.le_of_succ_le_succ enough))
          simp only [hds]
          refine ⟨_, _, rfl, ?_⟩
          rw [resolveBelow, purify, purify, selected, selected, copies, purifyEntries_eq,
            resolveEntries_eq, List.map_map]
          rfl
      | _ => exact ⟨_, _, rfl, rfl⟩

/-- **A replacement that replaces nothing** makes the same copy, or fails with the same fault. -/
theorem cloneWith_keep (v : Value) : (v.cloneWith keep).map Prod.snd = v.clone := by
  obtain ⟨visits, w, hw, copy⟩ := keepsCopy (Nat.le_add_right v.depth addedDepth) ""
  rw [cloneWith, hw, clone, ← copyBy, ← copy]
  show ((purify none w >>= _).map Prod.snd) = _
  cases purify none w <;> rfl

/-! ### Pure copies -/

/-- A shape tells the number of items. So trees that show the same at a path have lists of one
length there. -/
theorem length_shape (v : Value) :
    v.shape.sequence?.map List.length = v.sequence?.map List.length := by
  cases v <;> simp [shape, sequence?]

/-- **A pure copy is JSON, or refused.** It fails exactly when it comes to a value without a JSON
form or to a dictionary with a key without one, with the fault of such a value. Otherwise it is
missing when the value is left out; else it is a JSON tree that shows at every path what the value
has there, where lists and tuples keep their lengths; and it is its own copy. A replacement that
replaces nothing changes nothing of this. -/
theorem clone_exact (v : Value) :
    ((∃ fault, v.clone = .error fault) ↔ ∃ w fault, v.Reaches w ∧ w.Refuses fault) ∧
      (∀ fault, v.clone = .error fault → ∃ w, v.Reaches w ∧ w.Refuses fault) ∧
      (∀ s, v.clone = .ok s →
        (s = missing ↔ v.unhook = missing ∨ v.unhook.isCallable = true) ∧
          (s = missing ∨ s.Json) ∧
          (∀ q, (q.find? s.orNull).map shape = (v.origin? byText q).map shape) ∧
          (∀ q, ((q.find? s.orNull).bind sequence?).map List.length =
            ((v.origin? byText q).bind sequence?).map List.length) ∧
          s.clone = .ok s) ∧
      (v.cloneWith keep).map Prod.snd = v.clone := by
  have fails : ∀ fault, v.clone = .error fault → ∃ w, v.Reaches w ∧ w.Refuses fault :=
    fun fault h => exists_refuses_of_copyBy h
  refine ⟨⟨fun ⟨fault, h⟩ => ?_, fun ⟨w, fault, hw, refused⟩ => ?_⟩, fails, fun s h => ?_,
    cloneWith_keep v⟩
  · obtain ⟨w, hw, refused⟩ := fails fault h
    exact ⟨w, fault, hw, refused⟩
  · cases hc : v.clone with
    | error e => exact ⟨e, rfl⟩
    | ok s => exact absurd refused (not_refuses_of_reaches hc hw)
  · have pure := json_of_clone h
    have shows : ∀ q : Path, (q.find? s.orNull).map shape = (v.origin? byText q).map shape :=
      shape_copyBy h
    refine ⟨?_, pure, shows, fun q => ?_, ?_⟩
    · rw [← isMissing_iff, (root_of_copyBy h).2, isLeftOut, Bool.or_eq_true, isMissing_iff]
    · have same := congrArg (fun x? => (x?.bind sequence?).map List.length) (shows q)
      simpa only [Option.bind_map, Option.map_bind, Function.comp_def, length_shape] using same
    · rcases pure with rfl | json
      · exact copyBy_leftOut rfl
      · exact clone_of_json json

/-- A number and a string with one text: the last one that is not left out stands under it. -/
example : (dict [(str "1", int 0), (int 1, tuple [missing, hooked 0 (str "a")]),
    (str "b", function 0)]).clone = .ok (dict [(str "1", list [null, str "a"])]) := by
  cbv

end TreeDelta.Value
