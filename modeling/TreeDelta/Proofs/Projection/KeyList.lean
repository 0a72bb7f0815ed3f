import TreeDelta.Proofs.Projection.Copy

/-!
# Copies with a key list

A key list restricts every dictionary of a copy to the listed keys. It is looked up among the string
keys of the dictionary as it is, before any key gets its text. So the restricted copy shows what
stands under listed string keys (`Value.shape_copyBy_listed`), while restricting the copy shows what
stands under listed texts (`Value.shape_copyBy_copy`): a number among the keys counts only in the
copy. The two agree exactly when they show the same on all paths of listed keys
(`Value.cloneKeys_exact`).

## Main definitions

* `Value.byString`: what stands under a listed string key.
* `Path.isListed`: the paths whose properties are all listed.
* `Value.CopyOf`: what a copy is made of.
* `Value.KeyedByText`: dictionaries in which only string keys have listed texts.

## Main results

* `Value.shape_copyBy_listed`, `Value.shape_copyBy_copy`: what restricted copies show.
* `Value.eq_of_shape`: restricted copies that show the same at every path are equal.
* `Value.copyBy_listed_eq_iff`: when restricting before and after agree.
* `Value.cloneKeys_exact`: a restricted copy, the restriction of a copy, and when they agree.
-/

namespace TreeDelta

/-- Whether a component is an index or a listed property. A key list says nothing about items. -/
def Component.isListed (ks : List String) : Component → Bool
  | .index _ => true
  | .property name => ks.contains name

/-- Whether all properties of a path are listed. -/
def Path.isListed (ks : List String) (q : Path) : Bool := q.all (Component.isListed ks)

namespace Value

variable {ks : List String}

/-! ### Listed keys -/

/-- What stands under a listed string key, unless it is left out. A number among the keys is not
looked at, even if its text is listed. -/
def byString (ks : List String) (entries : List (Value × Value)) (key : String) : Option Value :=
  if key ∈ ks then (lookup key entries).filter fun w => !w.isLeftOut else none

/-- A string key is found with its value, as a look-up by key would find it. -/
theorem find?_str (key : String) (es : List (Value × Value)) :
    (es.find? fun e => match e.1 with | str k => k == key | _ => false) =
      (lookup key es).map fun w => (str key, w) := by
  induction es with
  | nil => rfl
  | cons e es ih =>
      obtain ⟨k, v⟩ := e
      rw [List.find?_cons]
      cases k with
      | str l =>
          by_cases same : l = key
          · simp [lookup, same]
          · rw [lookup, if_neg same, ← ih]
            simp [beq_eq_false_iff_ne.mpr same]
      | _ => exact ih

/-- The entries of a dictionary are selected key by key, in the order of the key list and not in
that of the dictionary. -/
theorem selected_cons (key : String) (ks : List String) (es : List (Value × Value)) :
    selected (some (key :: ks)) es =
      ((lookup key es).map fun w => (str key, w)).toList ++ selected (some ks) es := by
  rw [selected, List.filterMap_cons]
  generalize hf : es.find? _ = found
  obtain rfl := (find?_str key es).symm.trans hf
  cases lookup key es <;> rfl

/-- What stands under a text in the selected entries stands under the listed string key: all
selected entries have string keys. -/
theorem byText_selected (ks : List String) (es : List (Value × Value)) (key : String) :
    byText (selected (some ks) es) key = byString ks es key := by
  induction ks with
  | nil => rfl
  | cons k ks ih =>
      rw [selected_cons]
      cases hk : lookup k es with
      | none =>
          rw [Option.map_none, Option.toList_none, List.nil_append, ih]
          by_cases same : key = k
          · simp [byString, same, hk]
          · simp [byString, same]
      | some w =>
          rw [Option.map_some, Option.toList_some, List.singleton_append, byText, ih]
          by_cases same : key = k
          · subst same
            by_cases out : w.isLeftOut = true
            · simp [byString, hk, out, jsonKey?, Option.filter_some]
            · by_cases later : key ∈ ks <;>
                simp [byString, hk, out, jsonKey?, later, Option.filter_some]
          · simp [byString, same, jsonKey?, Ne.symm same]

/-- **A restricted copy shows what stands under listed string keys.** -/
theorem shape_copyBy_listed {v r : Value} (h : copyBy (some ks) v = .ok r) (q : Path) :
    (q.find? r.orNull).map shape = (v.origin? (byString ks) q).map shape := by
  have picks : (fun es key => byText (selected (some ks) es) key) = byString ks :=
    funext fun es => funext fun key => byText_selected ks es key
  rw [shape_copyBy h, picks]

/-- Nothing stands at a path with a property that is not listed, wherever in the path it is. -/
theorem origin?_of_not_listed {v : Value} {q : Path} (h : q.isListed ks = false) :
    v.origin? (byString ks) q = none := by
  induction q generalizing v with
  | nil => exact absurd h (by simp [Path.isListed])
  | cons c q ih =>
      rw [Path.isListed, List.all_cons, Bool.and_eq_false_iff] at h
      rw [origin?]
      rcases h with first | later
      · cases c with
        | index i => exact absurd first (by simp [Component.isListed])
        | property name =>
            have away : name ∉ ks := by simpa [Component.isListed] using first
            cases v.unhook <;> simp [part?, byString, away]
      · cases v.unhook.part? (byString ks) c with
        | none => rfl
        | some w => exact ih later

/-! ### Restricting JSON trees -/

/-- JSON trees do not convert themselves, and are not left out. They are read as they stand. -/
theorem Json.unhook {t : Value} (h : t.Json) : t.unhook = t ∧ t.isLeftOut = false := by
  have node := (every_iff.mp h).1
  cases t <;> simp_all [isJsonNode, Value.unhook, isLeftOut, isMissing, isCallable]

/-- A listed component stands for the child of a JSON tree. -/
theorem Json.part? {t : Value} (h : t.Json) {c : Component} (hc : c.isListed ks = true) :
    t.part? (byString ks) c = t.child? c := by
  cases t with
  | dict es =>
      cases c with
      | index i => rfl
      | property name =>
          have listed : name ∈ ks := by simpa [Component.isListed] using hc
          show byString ks es name = lookup name es
          rw [byString, if_pos listed]
          cases hl : lookup name es with
          | none => rfl
          | some w =>
              have kept := (h.step ((child?_eq_some_iff h.tidy.hasUniqueKeys).mp
                (show (dict es).child? (.property name) = some w from hl))).unhook.2
              simp [Option.filter_some, kept]
  | tuple items => exact absurd (every_iff.mp h).1 (by simp [isJsonNode])
  | _ => cases c <;> rfl

/-- What a path of listed keys stands for in a JSON tree is what it resolves to. -/
theorem Json.origin? {t : Value} (h : t.Json) (q : Path) :
    t.origin? (byString ks) q = if q.isListed ks then (q.find? t).map Value.unhook else none := by
  cases hq : q.isListed ks with
  | false => exact origin?_of_not_listed hq
  | true =>
      rw [if_pos rfl]
      induction q generalizing t with
      | nil => rfl
      | cons c q ih =>
          rw [Path.isListed, List.all_cons, Bool.and_eq_true] at hq
          rw [Value.origin?, h.unhook.1, find?_cons, h.part? hq.1]
          cases hc : t.child? c with
          | none => rfl
          | some w =>
              exact ih (h.step ((child?_eq_some_iff h.tidy.hasUniqueKeys).mp hc)) hq.2

/-- **A restricted JSON tree shows what it has on paths of listed keys.** -/
theorem Json.shape_copyBy {t r : Value} (h : t.Json) (hr : copyBy (some ks) t = .ok r) (q : Path) :
    (q.find? r.orNull).map shape = if q.isListed ks then (q.find? t).map shape else none := by
  rw [shape_copyBy_listed hr, h.origin?]
  split
  · cases hx : q.find? t with
    | none => rfl
    | some x => simp [(h.find? hx).unhook.1]
  · rfl

/-! ### Copies that show the same -/

/-- What a copy is made of: the copies of items, gathered entries, or a scalar, with null for what
is left out. -/
inductive CopyOf (keys? : Option (List String)) (v : Value) : Value → Prop
  /-- The copy of a list or a tuple. -/
  | items {ws ss : List Value} : v.unhook.sequence? = some ws →
    List.Forall₂ (fun w x => ∃ c, copyBy keys? w = .ok c ∧ c.orNull = x) ws ss →
    CopyOf keys? v (list ss)
  /-- The copy of a dictionary. -/
  | entries {es xs : List (Value × Value)} : v.unhook = dict es →
    gather [] ((selected keys? es).map fun e => (e.1, copyBy keys? e.2)) = .ok xs →
    CopyOf keys? v (dict xs)
  /-- The copy of a scalar or of what is left out. -/
  | scalar {s : Value} : s.orNull.isJsonScalar = true → CopyOf keys? v s

/-- A copy is made of one of these. The case of a value that is refused does not arise, as it has no
copy. -/
theorem copyOf_of_copyBy {keys? : Option (List String)} {v s : Value}
    (h : copyBy keys? v = .ok s) : CopyOf keys? v s := by
  cases v.role with
  | items ws hs =>
      obtain ⟨ss, copies, rfl⟩ := (copyBy_items_eq_ok_iff hs).mp h
      exact .items hs copies
  | entries es he =>
      rw [copyBy_entries he] at h
      obtain ⟨xs, gathered, rfl⟩ := map_eq_ok_iff.mp h
      exact .entries he gathered
  | leftOut hl =>
      obtain rfl := Except.ok.inj (h.symm.trans (copyBy_leftOut hl))
      exact .scalar rfl
  | scalar hs =>
      obtain rfl := Except.ok.inj (h.symm.trans (copyBy_scalar hs))
      refine .scalar ?_
      cases hu : v.unhook <;> simp_all [orNull, isMissing, isJsonScalar]
  | refused hr => exact absurd (h.symm.trans (copyBy_refused hr)) (by simp)

/-- Puts the entries of a dictionary under some keys into another one, in the order of the keys. -/
def putAll (ks : List String) (x? : String → Option Value) (done : List (Value × Value)) :
    List (Value × Value) :=
  ks.foldl (fun xs k => (x? k).elim xs fun x => insert k x xs) done

/-- What the copy of a dictionary has under a string key. -/
def copied? (keys? : Option (List String)) (es : List (Value × Value)) (key : String) :
    Option Value :=
  ((lookup key es).bind fun w => (copyBy keys? w).toOption).filter fun x => !x.isMissing

/-- Selected entries are gathered in the order of the key list. -/
theorem putAll_copied? {keys? : Option (List String)} {es done xs : List (Value × Value)}
    (h : gather done ((selected (some ks) es).map fun e => (e.1, copyBy keys? e.2)) = .ok xs) :
    putAll ks (copied? keys? es) done = xs := by
  induction ks generalizing done with
  | nil => simpa [selected, gather, putAll] using h
  | cons k ks ih =>
      rw [selected_cons, List.map_append] at h
      show putAll ks (copied? keys? es)
        ((copied? keys? es k).elim done fun x => insert k x done) = xs
      cases hk : lookup k es with
      | none =>
          rw [hk] at h
          rw [copied?, hk]
          exact ih h
      | some w =>
          rw [hk] at h
          obtain ⟨x, hx, h⟩ := bind_eq_ok_iff.mp h
          rw [← ih h]
          rw [copied?, hk, Option.bind_some, hx]
          cases hm : x.isMissing <;> simp [Except.toOption, Option.filter_some, hm]

/-- A listed string key has in the copy what is copied for it. No later entry overwrites it with
something else. -/
theorem copied?_eq_lookup {keys? : Option (List String)} {es xs : List (Value × Value)}
    (h : gather [] ((selected (some ks) es).map fun e => (e.1, copyBy keys? e.2)) = .ok xs)
    {k : String} (hk : k ∈ ks) : copied? keys? es k = lookup k xs := by
  rcases lookup_of_gather h k with ⟨out, away⟩ | ⟨w, x, hw, hx, copied, there⟩
  · rw [byText_selected, byString, if_pos hk] at out
    rw [away, copied?]
    cases hl : lookup k es with
    | none => rfl
    | some w =>
        have left_out : w.isLeftOut = true := by simpa [hl, Option.filter_some] using out
        rw [Option.bind_some, copyBy_leftOut left_out]
        rfl
  · rw [byText_selected, byString, if_pos hk] at hw
    obtain ⟨hl, -⟩ := Option.filter_eq_some_iff.mp hw
    rw [hx, copied?, hl, Option.bind_some, copied]
    simp [Except.toOption, Option.filter_some, there]

/-- What has the shape of a scalar is that scalar, since the shape of a container is a container. -/
theorem eq_of_scalar_shape {s t : Value} (hs : s.isJsonScalar = true) (ht : t.Json)
    (same : t.shape = s.shape) : t = s := by
  have own : s.shape = s := by cases s <;> first | rfl | exact absurd hs (by simp [isJsonScalar])
  obtain rfl : t.shape = s := same.trans own
  have node := (every_iff.mp ht).1
  cases t <;> simp_all [shape, isJsonScalar, isJsonNode]

/-- A value right below a copy is the copy of a value right below, or null for it. This turns a
statement about copies into one about their parts. -/
theorem exists_copyBy_of_child {keys? : Option (List String)} {v r x : Value} {s : Component}
    (h : copyBy keys? v = .ok r) (hx : r.orNull.child? s = some x) :
    ∃ w ∈ v.unhook.parts, ∃ c, copyBy keys? w = .ok c ∧ c.orNull = x := by
  cases copyOf_of_copyBy h with
  | @items ws ss hs copies =>
      cases s with
      | property k => exact absurd hx (by simp [orNull, isMissing, child?])
      | index i =>
          have copied := rel_getElem?_of_forall₂ copies i
          rw [show ss[i]? = some x from hx] at copied
          generalize hw : ws[i]? = w? at copied
          cases copied with
          | some hc => exact ⟨_, parts_of_sequence? hs ▸ List.mem_of_getElem? hw, hc⟩
  | @entries es xs he gathered =>
      cases s with
      | index i => exact absurd hx (by simp [orNull, isMissing, child?])
      | property k =>
          have there : lookup k xs = some x := hx
          rcases lookup_of_gather gathered k with ⟨-, away⟩ | ⟨w, y, hw, hy, copied, present⟩
          · exact absurd (there.symm.trans away) (by simp [lookup])
          · obtain rfl := Option.some.inj (there.symm.trans hy)
            obtain ⟨l, hl⟩ := mem_of_byText hw
            refine ⟨w, he ▸ List.mem_map.mpr ⟨_, mem_of_mem_selected hl, rfl⟩, x, copied, ?_⟩
            rw [orNull, present]
            rfl
  | scalar bare =>
      have childless : ∀ t : Value, t.isJsonScalar = true → t.child? s = none := by
        intro t ht
        cases t <;> first | (cases s <;> rfl) | exact absurd ht (by simp [isJsonScalar])
      exact absurd (hx.symm.trans (childless _ bare)) (by simp)

/-- Restricted copies with one shape and the same values right below them are equal, up to null for
what is missing. The order of entries agrees as well, because it is that of the key list. -/
theorem eq_of_children {v v' r r' : Value} (h : copyBy (some ks) v = .ok r)
    (h' : copyBy (some ks) v' = .ok r') (root : r.orNull.shape = r'.orNull.shape)
    (below : ∀ s, r.orNull.child? s = r'.orNull.child? s) : r.orNull = r'.orNull := by
  cases copyOf_of_copyBy h with
  | items hs copies =>
      cases copyOf_of_copyBy h' with
      | items hs' copies' => exact congrArg list (List.ext_getElem? fun i => below (.index i))
      | entries he' gathered' => exact absurd root (by simp [orNull, isMissing, shape])
      | scalar bare' => exact eq_of_scalar_shape bare' (json_orNull (json_of_purify h)) root
  | @entries es xs he gathered =>
      cases copyOf_of_copyBy h' with
      | items hs' copies' => exact absurd root (by simp [orNull, isMissing, shape])
      | @entries es' xs' he' gathered' =>
          -- Both dictionaries are filled in the order of the key list.
          have same : ∀ k ∈ ks, copied? (some ks) es k = copied? (some ks) es' k := by
            intro k hk
            rw [copied?_eq_lookup gathered hk, copied?_eq_lookup gathered' hk]
            exact below (.property k)
          refine congrArg dict ?_
          rw [← putAll_copied? gathered, ← putAll_copied? gathered']
          exact List.foldl_ext _ _ _ fun done k hk => by rw [same k hk]
      | scalar bare' => exact eq_of_scalar_shape bare' (json_orNull (json_of_purify h)) root
  | scalar bare =>
      exact (eq_of_scalar_shape bare (json_orNull (json_of_purify h')) root.symm).symm

/-- **Restricted copies that show the same at every path are equal**, up to null for what is
missing. -/
theorem eq_of_shape {v v' r r' : Value} (h : copyBy (some ks) v = .ok r)
    (h' : copyBy (some ks) v' = .ok r')
    (same : ∀ q : Path, (q.find? r.orNull).map shape = (q.find? r'.orNull).map shape) :
    r.orNull = r'.orNull := by
  induction v using partInduction generalizing v' r r' with
  | step v ih =>
      -- the roots show the same; below them, the values at one component are equal by induction
      refine eq_of_children h h' (Option.some.inj (same [])) fun s => ?_
      have under : ∀ q, ((r.orNull.child? s).bind (Path.find? q)).map shape =
          ((r'.orNull.child? s).bind (Path.find? q)).map shape := by
        intro q
        rw [← find?_cons, ← find?_cons]
        exact same (s :: q)
      cases hx : r.orNull.child? s with
      | none =>
          cases hx' : r'.orNull.child? s with
          | none => rfl
          | some x' => exact absurd (under []) (by simp [hx, hx', Path.find?])
      | some x =>
          cases hx' : r'.orNull.child? s with
          | none => exact absurd (under []) (by simp [hx, hx', Path.find?])
          | some x' =>
              obtain ⟨w, hw, c, hc, rfl⟩ := exists_copyBy_of_child h hx
              obtain ⟨w', -, c', hc', rfl⟩ := exists_copyBy_of_child h' hx'
              rw [hx, hx'] at under
              exact congrArg some (ih w hw hc hc' under)

/-! ### Restricting before and after -/

/-- A dictionary is keyed by listed texts when its string keys are different, and only string keys
have listed texts. -/
def KeyedByText (ks : List String) (entries : List (Value × Value)) : Prop :=
  (keys entries).Nodup ∧ ∀ e ∈ entries, ∀ key ∈ ks, e.1.jsonKey? = some key → e.1 = str key

/-- What stands under a listed text stands under the string key, in such a dictionary. No number can
take its place, and the key has one value. -/
theorem byString_eq_byText {es : List (Value × Value)} (h : KeyedByText ks es) {key : String}
    (hk : key ∈ ks) : byString ks es key = byText es key := by
  induction es with
  | nil => simp [byString, byText, lookup]
  | cons e es ih =>
      obtain ⟨k, v⟩ := e
      obtain ⟨nodup, strings⟩ := h
      obtain ⟨own, others⟩ := List.forall_mem_cons.mp strings
      have rest : (keys es).Nodup := nodup.sublist ((List.sublist_cons_self _ _).filterMap _)
      rw [byText, ← ih ⟨rest, others⟩, byString, if_pos hk, byString, if_pos hk]
      by_cases text : k.jsonKey? = some key
      · obtain rfl : k = str key := own key hk text
        have later : lookup key es = none := lookup_eq_none_iff.mpr (List.nodup_cons.mp nodup).1
        rw [lookup, if_pos rfl, later, Option.filter_none, Option.none_or]
        cases out : v.isLeftOut <;> simp [jsonKey?, out, Option.filter_some]
      · rw [if_neg fun own => text own.1, Option.or_none]
        cases k with
        | str l => rw [lookup, if_neg fun same => text (congrArg some same)]
        | _ => rfl

/-- What a component stands for is a part of the value, so a path leads only to values that a copy
comes to. -/
theorem mem_parts_of_part? {v w : Value} {c : Component} (h : v.part? byText c = some w) :
    w ∈ v.parts := by
  cases v with
  | list items | tuple items =>
      cases c with
      | index i => exact List.mem_of_getElem? h
      | property key => exact absurd h (by simp [part?])
  | dict es =>
      cases c with
      | index i => exact absurd h (by simp [part?])
      | property key =>
          obtain ⟨k, hk⟩ := mem_of_byText h
          exact List.mem_map.mpr ⟨_, hk, rfl⟩
  | _ => exact absurd h (by simp [part?])

/-- A path of listed keys stands for the same by strings and by texts, where all dictionaries are
keyed by listed texts. -/
theorem origin?_byString_eq {v : Value} (h : ∀ es, v.Reaches (dict es) → KeyedByText ks es)
    {q : Path} (hq : q.isListed ks = true) : v.origin? (byString ks) q = v.origin? byText q := by
  induction q generalizing v with
  | nil => rfl
  | cons c q ih =>
      rw [Path.isListed, List.all_cons, Bool.and_eq_true] at hq
      have first : v.unhook.part? (byString ks) c = v.unhook.part? byText c := by
        cases c with
        | index i => cases v.unhook <;> rfl
        | property key =>
            have listed : key ∈ ks := by simpa [Component.isListed] using hq.1
            cases hu : v.unhook with
            | dict es => exact byString_eq_byText (h es (hu ▸ .here v)) listed
            | _ => rfl
      rw [origin?, origin?, first]
      cases hw : v.unhook.part? byText c with
      | none => rfl
      | some w => exact ih (fun es he => h es (.part (mem_parts_of_part? hw) he)) hq.2

/-- Restricting a pure copy makes a copy of it, as nothing in a JSON tree is refused. -/
theorem exists_copyBy_copy {v s : Value} (h : v.clone = .ok s) :
    ∃ r, copyBy (some ks) s = .ok r := by
  have again : s.clone = .ok s := by
    rcases json_of_clone h with rfl | json
    · exact copyBy_leftOut rfl
    · exact clone_of_json json
  exact exists_copyBy fun w fault hw => not_refuses_of_reaches again hw

/-- **The restriction of a copy shows what stands under listed texts.** In the copy every key has
become its text, so that a listed number is found there. -/
theorem shape_copyBy_copy {v s r : Value} (h : v.clone = .ok s) (hr : copyBy (some ks) s = .ok r)
    (q : Path) :
    (q.find? r.orNull).map shape =
      if q.isListed ks then (v.origin? byText q).map shape else none := by
  have shows : (q.find? s.orNull).map shape = (v.origin? byText q).map shape := shape_copyBy h q
  rw [← shows]
  rcases json_of_clone h with rfl | json
  · obtain rfl : missing = r := Except.ok.inj ((copyBy_leftOut rfl).symm.trans hr)
    exact Json.shape_copyBy (t := null) rfl rfl q
  · rw [json.shape_copyBy hr, orNull, json.present]
    rfl

/-- A restricted copy is missing when the copy is, since both are missing just when the value is
left out. -/
theorem isMissing_copyBy_listed {v s r : Value} (h : v.clone = .ok s)
    (hr : copyBy (some ks) v = .ok r) : r.isMissing = s.isMissing :=
  (root_of_copyBy hr).2.trans (root_of_copyBy h).2.symm

/-- The restriction of a copy is missing when the copy is; a JSON tree is never left out. -/
theorem isMissing_copyBy_copy {v s r : Value} (h : v.clone = .ok s)
    (hr : copyBy (some ks) s = .ok r) : r.isMissing = s.isMissing := by
  rw [(root_of_copyBy hr).2]
  rcases json_of_clone h with rfl | json
  · rfl
  · rw [json.unhook.2, json.present]

/-- **When restricting before and after agree**: every path of listed keys shows the same by strings
and by texts. -/
theorem copyBy_listed_eq_iff {v s r r' : Value} (h : v.clone = .ok s)
    (hr : copyBy (some ks) v = .ok r) (hr' : copyBy (some ks) s = .ok r') :
    r = r' ↔ ∀ q : Path, q.isListed ks = true →
      (v.origin? (byString ks) q).map shape = (v.origin? byText q).map shape := by
  constructor
  · rintro rfl q hq
    rw [← shape_copyBy_listed hr, shape_copyBy_copy h hr', if_pos hq]
  · intro same
    have equal : r.orNull = r'.orNull := by
      refine eq_of_shape hr hr' fun q => ?_
      rw [shape_copyBy_listed hr, shape_copyBy_copy h hr']
      cases hq : q.isListed ks with
      | true => exact same q hq
      | false => rw [origin?_of_not_listed hq]; rfl
    have out := isMissing_copyBy_listed h hr
    have out' := isMissing_copyBy_copy h hr'
    rw [orNull, orNull, out, out'] at equal
    cases hm : s.isMissing with
    | true => rw [isMissing_iff.mp (out.trans hm), isMissing_iff.mp (out'.trans hm)]
    | false => simpa [hm] using equal

/-- **A key list keeps what stands under listed string keys**, whereas restricting the copy keeps
what stands under listed texts. Both copies are made when the pure copy is, they are missing when it
is, and they are equal exactly when every path of listed keys stands for the same by strings and by
texts. So they are equal when no number among the keys of a dictionary has a listed text. -/
theorem cloneKeys_exact {v s : Value} (h : v.clone = .ok s) (keys : List Value) :
    let ks := keys.map display
    ∃ r r', v.cloneKeys keys = .ok r ∧ s.cloneKeys keys = .ok r' ∧
      (r = missing ↔ s = missing) ∧ (r' = missing ↔ s = missing) ∧
      (∀ q, (q.find? r.orNull).map shape = (v.origin? (byString ks) q).map shape) ∧
      (∀ q, (q.find? r'.orNull).map shape =
        if q.isListed ks then (v.origin? byText q).map shape else none) ∧
      (r = r' ↔ ∀ q : Path, q.isListed ks = true →
        (v.origin? (byString ks) q).map shape = (v.origin? byText q).map shape) ∧
      ((∀ es, v.Reaches (dict es) → KeyedByText ks es) → r = r') := by
  intro ks
  obtain ⟨r, hr⟩ : ∃ r, copyBy (some ks) v = .ok r :=
    exists_copyBy fun w fault hw => not_refuses_of_reaches h hw
  obtain ⟨r', hr'⟩ : ∃ r', copyBy (some ks) s = .ok r' := exists_copyBy_copy h
  have agree := copyBy_listed_eq_iff h hr hr'
  refine ⟨r, r', hr, hr', ?_, ?_, shape_copyBy_listed hr, shape_copyBy_copy h hr', agree,
    fun keyed => agree.mpr fun q hq => ?_⟩
  · rw [← isMissing_iff, ← isMissing_iff, isMissing_copyBy_listed h hr]
  · rw [← isMissing_iff, ← isMissing_iff, isMissing_copyBy_copy h hr']
  · rw [origin?_byString_eq keyed hq]

/-- A number and a string with one text: the list keeps the string entry, and the copy has the
number entry under its text. -/
theorem cloneKeys_exact_collision :
    let v : Value := dict [(str "1", int 0), (int 1, str "a"), (str "b", tuple [missing])]
    let s : Value := dict [(str "1", str "a"), (str "b", list [null])]
    let r : Value := dict [(str "b", list [null]), (str "1", int 0)]
    let r' : Value := dict [(str "b", list [null]), (str "1", str "a")]
    v.clone = .ok s ∧ v.cloneKeys [str "b", int 1] = .ok r ∧ s.cloneKeys [str "b", int 1] = .ok r' ∧
      ¬∀ q : Path, q.isListed ["b", "1"] = true →
        (v.origin? (byString ["b", "1"]) q).map shape = (v.origin? byText q).map shape := by
  intro v s r r'
  have copied : v.clone = .ok s := by cbv
  have before : v.cloneKeys [str "b", int 1] = .ok r := by cbv
  have after : s.cloneKeys [str "b", int 1] = .ok r' := by cbv
  obtain ⟨x, x', hx, hx', -, -, -, -, agree, -⟩ := cloneKeys_exact copied [str "b", int 1]
  obtain rfl : r = x := Except.ok.inj (before.symm.trans hx)
  obtain rfl : r' = x' := Except.ok.inj (after.symm.trans hx')
  exact ⟨copied, before, after, fun same => absurd (agree.mpr same) (by simp [r, r'])⟩

/-- Not every copy with a key list is the restricted copy: a number is listed, and the entry under
it is left out. -/
theorem cloneKeys_number :
    ¬∀ (v s r r' : Value) (keys : List Value), v.clone = .ok s → v.cloneKeys keys = .ok r →
      s.cloneKeys keys = .ok r' → r = r' := by
  intro commutes
  have copied : (dict [(int 1, str "a")]).clone = .ok (dict [(str "1", str "a")]) := by cbv
  have before : (dict [(int 1, str "a")]).cloneKeys [int 1] = .ok (dict []) := by cbv
  have after : (dict [(str "1", str "a")]).cloneKeys [int 1] = .ok (dict [(str "1", str "a")]) := by
    cbv
  exact absurd (commutes _ _ _ _ _ copied before after) (by simp)

end Value

end TreeDelta
