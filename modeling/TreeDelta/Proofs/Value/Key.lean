import TreeDelta.Proofs.Value.Equality

/-!
# Keys of any type

A dictionary may have any hashable value as a key, and looks keys up by loose equality: the integer
one, the double one and the truth value `true` are one and the same key. On hashable values loose
equality is an equivalence (`Value.same_laws`), so the entries of a dictionary with different keys
are read and changed key by key.

## Main definitions

* `Value.isHashable`: values that can be keys.
* `Value.Keyed`: entries under hashable keys, no two of which are equal.
* `Value.setEntry`: entries with a value under a key, or without the key.
* `Value.Nested`: dictionaries with different hashable keys, at any depth.

## Main results

* `Value.same_laws`: loose equality of hashable values is an equivalence.
* `Value.Keyed.find?_setEntry`: what stands under a key after one entry was changed.
-/

namespace TreeDelta.Value

variable {a b c k l v : Value} {es : List (Value × Value)} {v? : Option Value}

/-! ### Hashable values -/

mutual

/-- Whether a value can be a key: it cannot change, and neither can its items. -/
def isHashable : Value → Bool
  | list _ | dict _ | set _ => false
  | tuple items => areHashable items
  | _ => true

/-- Whether all of some values can be keys. -/
def areHashable : List Value → Bool
  | [] => true
  | v :: vs => isHashable v && areHashable vs

end

/-- A number is the same as what is one and the same number, or equal in value. The former matters
for a double that is not a number. -/
theorem same_of_number (h : a.number?.isSome = true) (b : Value) :
    a.same b = (identicalNan a b || sameNumber a b) := by
  cases a with
  | bool | int | float | complex => simp [same, identicalNan]
  | _ => exact absurd h (by simp [number?])

/-- What is the same as a number is a number, though it may be of another type. -/
theorem number_of_same (h : a.number?.isSome = true) (hab : a.same b = true) :
    b.number?.isSome = true := by
  rw [same_of_number h, Bool.or_eq_true] at hab
  rcases hab with one | equal
  · rwa [← eq_of_identicalNan one]
  · rw [sameNumber] at equal
    cases hb : b.number? with
    | some x => rfl
    | none =>
        rw [hb] at equal
        cases a.number? <;> exact absurd equal (by simp)

/-- Numbers are hashable. -/
theorem isHashable_of_number (h : a.number?.isSome = true) : a.isHashable = true := by
  cases a <;> first | rfl | exact absurd h (by simp [number?])

/-- What follows for a second value that is the same as a hashable one. For other values some of it
fails, which is why keys have to be hashable. -/
structure SameLaws (a b : Value) : Prop where
  /-- The second value is hashable, too. -/
  hashable : b.isHashable = true
  /-- The first value is the same as the second one. -/
  symm : b.same a = true
  /-- What is the same as the second value is the same as the first one. -/
  trans : ∀ c, b.same c = true → a.same c = true

/-- A hashable value is the same as itself. -/
theorem SameLaws.refl (h : a.isHashable = true) : SameLaws a a :=
  ⟨h, same_self a, fun _ hc => hc⟩

/-- A number and what is the same are keys alike. Doubles that are not a number are the same only if
they are one and the same. -/
theorem sameLaws_of_number (h : a.number?.isSome = true) (hab : a.same b = true) :
    SameLaws a b := by
  have hb := number_of_same h hab
  rw [same_of_number h] at hab
  refine ⟨isHashable_of_number hb, ?_, fun c hbc => ?_⟩
  · rw [same_of_number hb, identicalNan_comm, sameNumber_comm]
    exact hab
  · rw [same_of_number hb] at hbc
    rw [same_of_number h]
    exact identicalNan_or_sameNumber_trans hab hbc

mutual

/-- **Loose equality of hashable values is an equivalence.** The three laws are proved together, as
those for tuples need all of them for their items. -/
theorem same_laws : ∀ {a b : Value}, a.isHashable = true → a.same b = true → SameLaws a b
  | bool _, _, _, h => sameLaws_of_number rfl h
  | int _, _, _, h => sameLaws_of_number rfl h
  | float _, _, _, h => sameLaws_of_number rfl h
  | complex _ _, _, _, h => sameLaws_of_number rfl h
  | missing, b, _, h => by
      obtain rfl : missing = b := by cases b <;> simp_all [same, isMissing]
      exact .refl rfl
  | null, b, _, h => by
      obtain rfl : null = b := by cases b <;> simp_all [same]
      exact .refl rfl
  | str s, b, _, h => by
      obtain rfl : str s = b := by cases b <;> simp_all [same]
      exact .refl rfl
  | bytes s, b, _, h => by
      obtain rfl : bytes s = b := by cases b <;> simp_all [same]
      exact .refl rfl
  | function m, b, _, h => by
      obtain rfl : function m = b := by cases b <;> simp_all [same]
      exact .refl rfl
  | pattern m, b, _, h => by
      obtain rfl : pattern m = b := by cases b <;> simp_all [same]
      exact .refl rfl
  | tuple as, b, ha, h => by
      cases b with
      | tuple bs =>
          rw [isHashable] at ha
          rw [same] at h
          obtain ⟨hashable, symm, trans⟩ := sameItems_laws ha h
          refine ⟨by rwa [isHashable], by rwa [same], fun c hc => ?_⟩
          cases c with
          | tuple cs =>
              rw [same] at hc ⊢
              exact trans cs hc
          | _ => exact absurd hc (by simp [same])
      | _ => exact absurd h (by simp [same])
  | object m _ _, b, _, h => by
      cases b with
      | object n _ _ =>
          obtain rfl : m = n := by simpa [same] using h
          refine ⟨rfl, by simp [same], fun c hc => ?_⟩
          cases c with
          | object _ _ _ => rwa [same] at hc ⊢
          | _ => exact absurd hc (by simp [same])
      | _ => exact absurd h (by simp [same])
  | hooked m _, b, _, h => by
      cases b with
      | hooked n _ =>
          obtain rfl : m = n := by simpa [same] using h
          refine ⟨rfl, by simp [same], fun c hc => ?_⟩
          cases c with
          | hooked _ _ => rwa [same] at hc ⊢
          | _ => exact absurd hc (by simp [same])
      | _ => exact absurd h (by simp [same])
  | path p, b, _, h => by
      cases b with
      | path q =>
          have texts : p.texts = q.texts := by simpa [same, Path.same] using h
          refine ⟨rfl, by simp [same, Path.same, texts], fun c hc => ?_⟩
          cases c with
          | path r =>
              rw [same] at hc ⊢
              rwa [Path.same, texts]
          | _ => exact absurd hc (by simp [same])
      | _ => exact absurd h (by simp [same])
  | list _, _, ha, _ | dict _, _, ha, _ | set _, _, ha, _ => absurd ha (by simp [isHashable])

/-- Loose equality, item by item, of hashable values is an equivalence. This is the case of tuples,
which goes along with `same_laws`. -/
theorem sameItems_laws : ∀ {as bs : List Value}, areHashable as = true → sameItems as bs = true →
    areHashable bs = true ∧ sameItems bs as = true ∧
      ∀ cs, sameItems bs cs = true → sameItems as cs = true
  | [], [], _, _ => ⟨rfl, by rw [sameItems], fun _ hc => hc⟩
  | [], _ :: _, _, h => absurd h (by simp [sameItems])
  | _ :: _, [], _, h => absurd h (by simp [sameItems])
  | a :: as, b :: bs, ha, h => by
      rw [areHashable, Bool.and_eq_true] at ha
      rw [sameItems, Bool.and_eq_true] at h
      have first := same_laws ha.1 h.1
      obtain ⟨hashable, symm, trans⟩ := sameItems_laws ha.2 h.2
      refine ⟨by rw [areHashable, first.hashable, hashable]; rfl,
        by rw [sameItems, first.symm, symm]; rfl, fun cs hc => ?_⟩
      cases cs with
      | nil => exact absurd hc (by simp [sameItems])
      | cons c cs =>
          rw [sameItems, Bool.and_eq_true] at hc ⊢
          exact ⟨first.trans c hc.1, trans cs hc.2⟩

end

/-- Hashable values that are the same are the same as the same values, so either can be used as a
key. -/
theorem same_congr (ha : a.isHashable = true) (h : a.same b = true) (c : Value) :
    a.same c = b.same c := by
  have laws := same_laws ha h
  rw [Bool.eq_iff_iff]
  exact ⟨(same_laws laws.hashable laws.symm).trans c, laws.trans c⟩

/-- A value that is the same as a hashable one is not the same as what the hashable one is not the
same as. -/
theorem not_same_of_same (ha : a.isHashable = true) (hc : c.isHashable = true)
    (hab : a.same b = true) (hac : ¬ a.same c = true) : ¬ c.same b = true := fun hcb =>
  hac ((same_laws ha hab).trans c (same_laws hc hcb).symm)

/-- A key is the same as a string when it is the string. -/
theorem same_str (a : Value) (s : String) :
    a.same (str s) = match a with | str t => t == s | _ => false := by
  cases a <;> simp [same, isMissing, sameNumber, number?, identicalNan]

/-! ### Entries under different keys -/

/-- Entries under hashable keys, no two of which are equal. Every dictionary is like this. -/
structure Keyed (es : List (Value × Value)) : Prop where
  /-- The keys are hashable. -/
  hashable : ∀ e ∈ es, e.1.isHashable = true
  /-- No two keys are equal. -/
  distinct : es.Pairwise fun e f => e.1.same f.1 = false

/-- No entries are under different keys. -/
theorem keyed_nil : Keyed [] := ⟨by simp, .nil⟩

/-- The first of some entries has a key that no other one has, and the others are under different
keys themselves. -/
theorem keyed_cons_iff : Keyed ((k, v) :: es) ↔
    k.isHashable = true ∧ (∀ e ∈ es, k.same e.1 = false) ∧ Keyed es := by
  constructor
  · rintro ⟨hashable, distinct⟩
    obtain ⟨hk, others⟩ := List.forall_mem_cons.mp hashable
    obtain ⟨apart, rest⟩ := List.pairwise_cons.mp distinct
    exact ⟨hk, apart, others, rest⟩
  · rintro ⟨hk, apart, others, rest⟩
    exact ⟨List.forall_mem_cons.mpr ⟨hk, others⟩, List.pairwise_cons.mpr ⟨apart, rest⟩⟩

/-- Some of the entries under different keys are under different keys. -/
theorem Keyed.sublist {fs : List (Value × Value)} (h : Keyed es) (hs : fs.Sublist es) :
    Keyed fs :=
  ⟨fun e he => h.hashable e (hs.subset he), h.distinct.sublist hs⟩

/-- There is nothing under a key when no entry has the key, in the loose sense in which keys are
compared. -/
theorem find?_eq_none_iff : find? k es = none ↔ ∀ e ∈ es, e.1.same k = false := by
  induction es with
  | nil => simp [find?]
  | cons e es ih =>
      obtain ⟨l, w⟩ := e
      rw [find?, List.forall_mem_cons, ← ih]
      cases l.same k <;> simp

/-- What is found under a key is the value of an entry, whose key is equal to it but may be another
value. -/
theorem exists_mem_of_find? (h : find? k es = some v) : ∃ l, (l, v) ∈ es ∧ l.same k = true := by
  induction es with
  | nil => exact absurd h (by simp [find?])
  | cons e es ih =>
      obtain ⟨l, w⟩ := e
      rw [find?] at h
      split at h
      · next hl =>
          obtain rfl := Option.some.inj h
          exact ⟨l, List.mem_cons_self, hl⟩
      · obtain ⟨m, hm, same⟩ := ih h
        exact ⟨m, List.mem_cons_of_mem _ hm, same⟩

/-- What holds of the values of all entries holds of what is found, whatever the key. -/
theorem of_find? {P : Value → Prop} (h : ∀ e ∈ es, P e.2) (hv : find? k es = some v) : P v := by
  obtain ⟨l, hl, -⟩ := exists_mem_of_find? hv
  exact h (l, v) hl

/-- The value of an entry is found under its key, as no entry in front of it has the same key. -/
theorem Keyed.find?_of_mem (h : Keyed es) (he : (k, v) ∈ es) : find? k es = some v := by
  induction es with
  | nil => exact absurd he (by simp)
  | cons e es ih =>
      obtain ⟨l, w⟩ := e
      obtain ⟨-, apart, rest⟩ := keyed_cons_iff.mp h
      rw [find?]
      rcases List.mem_cons.mp he with first | later
      · obtain ⟨rfl, rfl⟩ := Prod.mk.inj first
        rw [if_pos (same_self k)]
      · rw [if_neg (by simp [apart _ later]), ih rest later]

/-- What is found behind the first entry is found under another key. -/
theorem Keyed.not_same_of_find? {w : Value} (h : Keyed ((k, v) :: es))
    (hw : find? l es = some w) : k.same l = false := by
  obtain ⟨hk, apart, rest⟩ := keyed_cons_iff.mp h
  obtain ⟨m, hm, same⟩ := exists_mem_of_find? hw
  have back := (same_laws (rest.hashable _ hm) same).symm
  refine Bool.eq_false_iff.mpr fun hkl => ?_
  exact absurd (((same_laws hk hkl).trans m back).symm.trans (apart _ hm)) (by simp)

/-- The first key is not found behind its entry, as no later key is equal to it. -/
theorem Keyed.find?_tail (h : Keyed ((k, v) :: es)) : find? k es = none :=
  Option.eq_none_iff_forall_ne_some.mpr fun _ hw =>
    absurd ((same_self k).symm.trans (h.not_same_of_find? hw)) (by simp)

/-- Equal keys find the same. This is why it does not matter which of several equal keys is used. -/
theorem Keyed.find?_congr (h : Keyed es) (hk : k.isHashable = true) (hkl : k.same l = true) :
    find? k es = find? l es := by
  induction es with
  | nil => rfl
  | cons e es ih =>
      obtain ⟨m, w⟩ := e
      obtain ⟨hm, -, rest⟩ := keyed_cons_iff.mp h
      have laws := same_laws hk hkl
      have agree : m.same k = m.same l := by
        rw [Bool.eq_iff_iff]
        exact ⟨fun hmk => (same_laws hm hmk).trans l hkl,
          fun hml => (same_laws hm hml).trans k laws.symm⟩
      rw [find?, find?, agree, ih rest]

/-- A string key finds what is looked up, since only a string is the same as a string. -/
theorem find?_eq_lookup (s : String) (es : List (Value × Value)) :
    find? (str s) es = lookup s es := by
  induction es with
  | nil => rfl
  | cons e es ih =>
      obtain ⟨k, v⟩ := e
      rw [find?, same_str, ih]
      cases k <;> simp [lookup]

/-! ### Changing one entry -/

/-- The entries with a value under a key, or without the key. Putting and taking away are treated as
one kind of change, so each fact about them is proved once. -/
def setEntry (key : Value) (v? : Option Value) (es : List (Value × Value)) :
    List (Value × Value) :=
  match v? with
  | some v => put key v es
  | none => remove key es

/-- Putting what is there changes nothing, as the entry keeps its place and its key. -/
theorem put_of_find? (h : find? k es = some v) : put k v es = es := by
  induction es with
  | nil => exact absurd h (by simp [find?])
  | cons e es ih =>
      obtain ⟨l, w⟩ := e
      rw [find?] at h
      rw [put]
      split at h
      · next hl => rw [if_pos hl, Option.some.inj h]
      · next hl => rw [if_neg hl, ih h]

/-- Taking away what is not there changes nothing. -/
theorem remove_of_find? (h : find? k es = none) : remove k es = es := by
  induction es with
  | nil => rfl
  | cons e es ih =>
      obtain ⟨l, w⟩ := e
      rw [find?] at h
      rw [remove]
      split at h
      · exact absurd h (by simp)
      · next hl => rw [if_neg hl, ih h]

/-- Changing an entry to what it is changes nothing, not even the order of the entries. -/
theorem setEntry_self (h : find? k es = v?) : setEntry k v? es = es := by
  cases v? with
  | some v => exact put_of_find? h
  | none => exact remove_of_find? h

/-- What stands under a key once a value was put: the value under every equal key, and what was
there under all others. -/
theorem Keyed.find?_put (h : Keyed es) (hk : k.isHashable = true) (v l : Value) :
    find? l (put k v es) = if k.same l then some v else find? l es := by
  induction es with
  | nil => rfl
  | cons e es ih =>
      obtain ⟨m, w⟩ := e
      obtain ⟨hm, -, rest⟩ := keyed_cons_iff.mp h
      rw [put]
      split
      · next hmk =>
          rw [find?, find?, same_congr hm hmk l]
          split <;> rfl
      · next hmk =>
          rw [find?, find?, ih rest]
          by_cases hml : m.same l = true
          · rw [if_pos hml, if_neg (not_same_of_same hm hk hml hmk), if_pos hml]
          · rw [if_neg hml, if_neg hml]

/-- What stands under a key once another one was taken away: nothing under an equal key, and what
was there under all others. -/
theorem Keyed.find?_remove (h : Keyed es) (hk : k.isHashable = true) (l : Value) :
    find? l (remove k es) = if k.same l then none else find? l es := by
  induction es with
  | nil => simp [remove, find?]
  | cons e es ih =>
      obtain ⟨m, w⟩ := e
      obtain ⟨hm, apart, rest⟩ := keyed_cons_iff.mp h
      rw [remove]
      split
      · next hmk =>
          rw [find?, same_congr hm hmk l]
          by_cases hkl : k.same l = true
          · have gone : find? l es = none := find?_eq_none_iff.mpr fun e he =>
              Bool.eq_false_iff.mpr fun hel => by
                have back := (same_laws (rest.hashable e he) hel).symm
                have found := (same_laws hm hmk).trans _ ((same_laws hk hkl).trans e.1 back)
                exact absurd (found.symm.trans (apart e he)) (by simp)
            rw [if_pos hkl, gone]
          · rw [if_neg hkl, if_neg hkl]
      · next hmk =>
          rw [find?, find?, ih rest]
          by_cases hml : m.same l = true
          · rw [if_pos hml, if_neg (not_same_of_same hm hk hml hmk), if_pos hml]
          · rw [if_neg hml, if_neg hml]

/-- **What stands under a key once one entry was changed**: the new value under that key and its
equals, and under other keys what was there before. -/
theorem Keyed.find?_setEntry (h : Keyed es) (hk : k.isHashable = true) (v? : Option Value)
    (l : Value) : find? l (setEntry k v? es) = if k.same l then v? else find? l es := by
  cases v? with
  | some v => exact h.find?_put hk v l
  | none => exact h.find?_remove hk l

/-- What is left was there before. -/
theorem remove_sublist (k : Value) (es : List (Value × Value)) : (remove k es).Sublist es := by
  induction es with
  | nil => exact .slnil
  | cons e es ih =>
      obtain ⟨l, w⟩ := e
      rw [remove]
      split
      · exact List.sublist_cons_self _ _
      · exact ih.cons_cons _

/-- Entries after a value was put are those from before, with their keys, or the new one. An entry
that is there keeps its key even where the new key is only equal to it. -/
theorem mem_put {e : Value × Value} (h : e ∈ put k v es) :
    e ∈ es ∨ e.2 = v ∧ (e.1 = k ∨ ∃ w, (e.1, w) ∈ es) := by
  induction es with
  | nil =>
      obtain rfl := List.mem_singleton.mp h
      exact .inr ⟨rfl, .inl rfl⟩
  | cons f es ih =>
      obtain ⟨l, w⟩ := f
      rw [put] at h
      split at h
      · rcases List.mem_cons.mp h with rfl | later
        · exact .inr ⟨rfl, .inr ⟨w, List.mem_cons_self⟩⟩
        · exact .inl (List.mem_cons_of_mem _ later)
      · rcases List.mem_cons.mp h with rfl | later
        · exact .inl List.mem_cons_self
        · rcases ih later with before | ⟨value, rfl | ⟨x, hx⟩⟩
          · exact .inl (List.mem_cons_of_mem _ before)
          · exact .inr ⟨value, .inl rfl⟩
          · exact .inr ⟨value, .inr ⟨x, List.mem_cons_of_mem _ hx⟩⟩

/-- Keys stay different when a value is put: a new key comes last, and is equal to none before
it. -/
theorem Keyed.put (h : Keyed es) (hk : k.isHashable = true) (v : Value) :
    Keyed (Value.put k v es) := by
  induction es with
  | nil => exact keyed_cons_iff.mpr ⟨hk, by simp, keyed_nil⟩
  | cons e es ih =>
      obtain ⟨l, w⟩ := e
      obtain ⟨hl, apart, rest⟩ := keyed_cons_iff.mp h
      rw [Value.put]
      split
      · exact keyed_cons_iff.mpr ⟨hl, apart, rest⟩
      · next hlk =>
          refine keyed_cons_iff.mpr ⟨hl, fun e he => ?_, ih rest⟩
          rcases mem_put he with before | ⟨-, key | ⟨x, hx⟩⟩
          · exact apart e before
          · rw [key]
            exact Bool.eq_false_iff.mpr hlk
          · exact apart (e.1, x) hx

/-- Keys stay different when one entry is changed. -/
theorem Keyed.setEntry (h : Keyed es) (hk : k.isHashable = true) (v? : Option Value) :
    Keyed (Value.setEntry k v? es) := by
  cases v? with
  | some v => exact h.put hk v
  | none => exact h.sublist (remove_sublist k es)

/-- The values after one entry was changed are those from before and the new one. Nothing is said
about keys. -/
theorem mem_setEntry {e : Value × Value} (h : e ∈ setEntry k v? es) :
    e ∈ es ∨ v? = some e.2 := by
  cases v? with
  | some v =>
      rcases mem_put h with before | ⟨value, -⟩
      · exact .inl before
      · exact .inr (congrArg some value.symm)
  | none => exact .inl ((remove_sublist k es).subset h)

/-- String keys are changed as keys of any type are. What is proved of `setEntry` holds of trees and
tables, too. -/
theorem insert_eq_setEntry (key : String) (v : Value) (es : List (Value × Value)) :
    insert key v es = setEntry (str key) (some v) es := by
  show _ = put (str key) v es
  induction es with
  | nil => rfl
  | cons e es ih =>
      obtain ⟨k, w⟩ := e
      rw [put, same_str]
      cases k <;> simp [insert, ih]

/-! ### Nested dictionaries -/

/-- Whether a value is a dictionary. -/
def isDict : Value → Bool
  | dict _ => true
  | _ => false

/-- A dictionary is one. -/
theorem isDict_iff : v.isDict = true ↔ ∃ es, v = dict es := by
  cases v <;> simp [isDict]

/-- A dictionary whose keys are hashable and different, and whose values are such dictionaries or
other values. What stands in lists does not matter, as merging does not look into them. -/
inductive Nested : Value → Prop
  /-- A dictionary. -/
  | dict {es : List (Value × Value)} (keys : Keyed es) (values : ∀ e ∈ es, Nested e.2) :
      Nested (dict es)
  /-- A value that is no dictionary. -/
  | value {v : Value} (flat : v.isDict = false) : Nested v

/-- The keys of a nested dictionary are different. -/
theorem Nested.keyed (h : Nested (.dict es)) : Keyed es := by
  cases h with
  | dict keys _ => exact keys
  | value flat => exact absurd flat (by simp [isDict])

/-- The values of a nested dictionary are nested. -/
theorem Nested.of_mem {e : Value × Value} (h : Nested (.dict es)) (he : e ∈ es) : Nested e.2 := by
  cases h with
  | dict _ values => exact values e he
  | value flat => exact absurd flat (by simp [isDict])

/-- What stands under a key of a nested dictionary is nested. -/
theorem Nested.find? (h : Nested (.dict es)) (hv : find? k es = some v) : Nested v :=
  of_find? (fun _ he => h.of_mem he) hv

/-- No entries are nested, with nothing in them to look at. -/
theorem nested_empty : Nested (.dict []) := .dict keyed_nil (by simp)

/-- A nested dictionary with one entry changed is nested, if the new value is. -/
theorem Nested.setEntry (h : Nested (.dict es)) (hk : k.isHashable = true)
    (hv : ∀ v, v? = some v → Nested v) : Nested (.dict (setEntry k v? es)) := by
  refine .dict (h.keyed.setEntry hk v?) fun e he => ?_
  rcases mem_setEntry he with before | after
  · exact h.of_mem before
  · exact hv _ after

/-- **Induction over dictionaries**: what holds of a dictionary whenever it holds of the
dictionaries among its values holds of every dictionary. Values of other types are passed over,
unlike in the induction that comes with values. -/
@[elab_as_elim]
theorem dictInduction {motive : List (Value × Value) → Prop}
    (step : ∀ es, (∀ k fs, (k, dict fs) ∈ es → motive fs) → motive es)
    (es : List (Value × Value)) : motive es :=
  step es fun _ fs h =>
    have := List.sizeOf_lt_of_mem h
    dictInduction step fs
termination_by sizeOf es
decreasing_by
  simp only [Prod.mk.sizeOf_spec, dict.sizeOf_spec] at this
  omega

end TreeDelta.Value
