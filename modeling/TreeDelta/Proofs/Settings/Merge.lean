import TreeDelta.Proofs.Outcome
import TreeDelta.Proofs.Value.Key
import TreeDelta.Settings.Merge

/-!
# Merging by key paths

A merge treats every entry of the new settings on its own: what becomes of the entry under a key
depends on the new value and on the old entry alone (`Settings.becomes`), whatever the settings are,
so a merge is known entry by entry (`Settings.updates_of_merge`).

Old settings fit new ones when they have a dictionary, or nothing, wherever the new ones have a
dictionary (`Settings.Fits`). Then a merge has a result, and a second merge finds every entry
settled (`Settings.exists_settles`). What it does at a key path follows from the entries along the
path.

## Main definitions

* `Settings.at?`, `Settings.says?`: what stands at a key path, and what is said about it.
* `Settings.becomes`: what becomes of one entry.
* `Settings.Fits`: old settings that new ones can be merged into.
* `Settings.Merged`: what a merge does at key paths.

## Main results

* `Settings.updates_of_merge`: a merge, entry by entry.
* `Settings.exists_settles`: a merge of fitting settings, and that a second one changes nothing.
* `Settings.merged_of_settles`: settled entries are what a merge does at key paths.
* `Settings.merge_by_key_paths`: the merge of fitting settings.
-/

namespace TreeDelta.Settings

open Value (Keyed Nested find? isDict isDict_iff keyed_cons_iff nested_empty setEntry)

variable {es fs ms ns ps rest : List (Value × Value)} {k l v w : Value} {old new : Value}
  {old? new? : Option Value} {p q : List Value}

/-! ### Key paths -/

/-- What stands at a key path, which steps from dictionary to dictionary. -/
def at? : List Value → Value → Option Value
  | [], v => some v
  | k :: p, .dict es => (find? k es).bind (at? p)
  | _ :: _, _ => none

/-- Wherever the new settings have a dictionary, the old ones have a dictionary or nothing. -/
def Fits (old new : Value) : Prop :=
  ∀ p fs, at? p new = some (.dict fs) → ∀ v, at? p old = some v → v.isDict = true

/-- The root of a key path, where the value itself stands. -/
@[simp] theorem at?_nil (v : Value) : at? [] v = some v := rfl

/-- A key path steps into a dictionary by its first key and goes on in what stands there. -/
@[simp] theorem at?_dict (k : Value) (p : List Value) (es : List (Value × Value)) :
    at? (k :: p) (.dict es) = (find? k es).bind (at? p) := rfl

/-- A key path steps into nothing else: lists have no keys. -/
theorem at?_flat (h : v.isDict = false) (k : Value) (p : List Value) : at? (k :: p) v = none := by
  cases v <;> first | rfl | exact absurd h (by simp [isDict])

/-- A key path that steps further has a dictionary to step into, with an entry for its first key. -/
theorem exists_dict_of_at?_cons (h : at? (k :: p) v = some w) :
    ∃ es x, v = .dict es ∧ find? k es = some x ∧ at? p x = some w := by
  cases v with
  | dict es =>
      obtain ⟨x, hx, hw⟩ := Option.bind_eq_some_iff.mp h
      exact ⟨es, x, rfl, hx, hw⟩
  | _ => exact absurd h (by simp [at?])

/-- A key path is followed one part after the other, the second in what stands at the end of the
first. -/
theorem at?_append (p q : List Value) (v : Value) : at? (p ++ q) v = (at? p v).bind (at? q) := by
  induction p generalizing v with
  | nil => rfl
  | cons k p ih =>
      cases v with
      | dict es =>
          simp only [List.cons_append, at?_dict, Option.bind_assoc]
          exact congrArg _ (funext ih)
      | _ => rfl

/-- A key path that leads nowhere leaves the dictionaries somewhere on the way: at a value that is
none, or at one without the next key. -/
theorem exists_of_at?_eq_none (h : at? p v = none) :
    ∃ q k r w, p = q ++ k :: r ∧ at? q v = some w ∧
      (w.isDict = false ∨ ∃ es, w = .dict es ∧ find? k es = none) := by
  induction p generalizing v with
  | nil => exact absurd h (by simp)
  | cons k p ih =>
      cases hd : v.isDict with
      | false => exact ⟨[], k, p, v, rfl, rfl, .inl hd⟩
      | true =>
          obtain ⟨es, rfl⟩ := isDict_iff.mp hd
          cases hx : find? k es with
          | none => exact ⟨[], k, p, _, rfl, rfl, .inr ⟨es, rfl, hx⟩⟩
          | some x =>
              rw [at?_dict, hx] at h
              obtain ⟨q, l, r, w, rfl, hw, left⟩ := ih h
              exact ⟨k :: q, l, r, w, rfl, by rw [at?_dict, hx]; exact hw, left⟩

/-- What settings say about a key path: what stands there, or a null where a value that is no
dictionary stands on the way, because nothing below it is left by a merge. Nothing is said where a
dictionary on the way does not have the next key. -/
def says? : List Value → Value → Option Value
  | [], v => some v
  | k :: p, .dict es => (find? k es).bind (says? p)
  | _ :: _, _ => some .null

/-- What stands at a key path is said about it. The converse fails where a null is said of something
below a value. -/
theorem says?_of_at? (h : at? p v = some w) : says? p v = some w := by
  induction p generalizing v with
  | nil => exact h
  | cons k p ih =>
      obtain ⟨es, x, rfl, hx, hw⟩ := exists_dict_of_at?_cons h
      rw [says?, hx]
      exact ih hw

/-- What is said about a key path is said by what stands on the way to its end. -/
theorem says?_append (h : at? p v = some w) (q : List Value) : says? (p ++ q) v = says? q w := by
  induction p generalizing v with
  | nil =>
      obtain rfl := Option.some.inj h
      rfl
  | cons k p ih =>
      obtain ⟨es, x, rfl, hx, hw⟩ := exists_dict_of_at?_cons h
      rw [List.cons_append, says?, hx]
      exact ih hw

/-! ### One entry -/

/-- The part of an entry that is kept: a null is not. A null in new settings asks for an entry to be
taken away. -/
def kept : Value → Option Value
  | .null => none
  | v => some v

/-- What is kept of a value other than a null is the value. -/
theorem kept_of_ne_null (h : v ≠ .null) : kept v = some v := by
  cases v <;> first | rfl | exact absurd rfl h

/-- What is kept of a value is the value, and no null. -/
theorem kept_eq_some_iff : kept v = some w ↔ v = w ∧ w ≠ .null := by
  by_cases null : v = .null
  · subst null
    exact iff_of_false (by simp [kept]) fun h => h.2 h.1.symm
  · rw [kept_of_ne_null null, Option.some_inj]
    exact ⟨fun h => ⟨h, h ▸ null⟩, And.left⟩

/-- What becomes of an old entry when new settings have a value there: a null takes it away, a
dictionary is merged into it and left out if nothing is in it, and any other value takes its
place. -/
def becomes (old? : Option Value) : Value → Except MergeFault (Option Value)
  | .dict ns => (mergeEntries false (old?.getD (.dict [])) ns).map fun merged =>
      if merged.isTruthy then some merged else none
  | v => .ok (kept v)

/-- Values other than dictionaries take the place of what was there, or away. Nothing is asked about
the old value. -/
theorem becomes_flat (h : v.isDict = false) (old? : Option Value) :
    becomes old? v = .ok (kept v) := by
  cases v <;> first | rfl | exact absurd h (by simp [isDict])

/-- Entries as the value of an entry, which is left out when there are none. A merge leaves no empty
dictionaries behind below the root. -/
def shown (es : List (Value × Value)) : Option Value :=
  if es.isEmpty then none else some (.dict es)

/-- Entries that are left out are no entries, which is what the next merge starts from. -/
theorem getD_shown (es : List (Value × Value)) : (shown es).getD (.dict []) = .dict es := by
  cases es <;> rfl

/-- What becomes of an entry that a dictionary is merged into, given the merge of their entries. -/
theorem becomes_dict (start : old?.getD (.dict []) = .dict ps)
    (h : mergeEntries false (.dict ps) ns = .ok (.dict ms)) :
    becomes old? (.dict ns) = .ok (shown ms) := by
  rw [becomes, start, h]
  cases ms <;> rfl

/-- **The first step of a merge** changes the first entry, and the others follow. -/
theorem mergeEntries_cons (k v : Value) (es rest : List (Value × Value)) :
    mergeEntries false (.dict es) ((k, v) :: rest) =
      becomes (find? k es) v >>= fun new? =>
        mergeEntries false (.dict (setEntry k new? es)) rest := by
  cases hd : v.isDict with
  | true =>
      obtain ⟨ns, rfl⟩ := isDict_iff.mp hd
      rw [mergeEntries, becomes]
      show (mergeEntries false ((find? k es).getD (.dict [])) ns >>= _) = _
      cases mergeEntries false ((find? k es).getD (.dict [])) ns with
      | error fault => rfl
      | ok merged =>
          simp only [bind, Except.bind, Except.map, Bool.false_or]
          cases merged.isTruthy <;> rfl
  | false =>
      rw [becomes_flat hd]
      by_cases set : v = .null
      · subst set
        rw [mergeEntries]
        rfl
      · rw [mergeEntries]
        · cases v <;> first | rfl | exact absurd rfl set
        · rintro ns rfl
          exact absurd hd (by simp [isDict])
        · exact fun _ => set

/-! ### Entry by entry -/

/-- Every entry that the new settings have becomes what it has to, and the others stay. -/
structure Updates (es ns ms : List (Value × Value)) : Prop where
  /-- The keys of the result are different. -/
  keyed : Keyed ms
  /-- An entry that the new settings have. -/
  given : ∀ k v, find? k ns = some v → becomes (find? k es) v = .ok (find? k ms)
  /-- An entry that they have not. -/
  others : ∀ k, find? k ns = none → find? k ms = find? k es

/-- A changed first entry, and then the others, are all entries. The keys are different, so no later
entry undoes what became of the first. -/
theorem Updates.cons (he : Keyed es) (hn : Keyed ((k, v) :: rest))
    (first : becomes (find? k es) v = .ok new?) (h : Updates (setEntry k new? es) rest ms) :
    Updates es ((k, v) :: rest) ms := by
  have hk := (keyed_cons_iff.mp hn).1
  have changed : ∀ l, find? l (setEntry k new? es) = if k.same l then new? else find? l es :=
    he.find?_setEntry hk new?
  have here : find? k ms = new? := by
    rw [h.others k hn.find?_tail, changed, if_pos (Value.same_self k)]
  refine ⟨h.keyed, fun l w hw => ?_, fun l hw => ?_⟩
  · rw [find?] at hw
    split at hw
    · next hkl =>
        obtain rfl := Option.some.inj hw
        rw [← he.find?_congr hk hkl, ← h.keyed.find?_congr hk hkl, here]
        exact first
    · next hkl =>
        have given := h.given l w hw
        rwa [changed, if_neg hkl] at given
  · rw [find?] at hw
    split at hw
    · exact absurd hw (by simp)
    · next hkl => rw [h.others l hw, changed, if_neg hkl]

/-- A merge that ends has updated all entries. By induction on the entries of the new settings. -/
theorem updates_of_merge {result : Value} (he : Keyed es) (hn : Keyed ns)
    (h : mergeEntries false (.dict es) ns = .ok result) :
    ∃ ms, result = .dict ms ∧ Updates es ns ms := by
  induction ns generalizing es with
  | nil =>
      obtain rfl := Except.ok.inj h
      exact ⟨es, rfl, he, by simp [find?], fun _ _ => rfl⟩
  | cons e rest ih =>
      obtain ⟨k, v⟩ := e
      obtain ⟨hk, -, hrest⟩ := keyed_cons_iff.mp hn
      rw [mergeEntries_cons] at h
      obtain ⟨new?, first, h⟩ := bind_eq_ok_iff.mp h
      obtain ⟨ms, rfl, updates⟩ := ih (he.setEntry hk new?) hrest h
      exact ⟨ms, rfl, updates.cons he hn first⟩

/-- A merge ends when every entry becomes something: only a dictionary that is merged into another
value has it fail. -/
theorem exists_merge_of_becomes (he : Keyed es) (hn : Keyed ns)
    (h : ∀ k v, find? k ns = some v → ∃ new?, becomes (find? k es) v = .ok new?) :
    ∃ result, mergeEntries false (.dict es) ns = .ok result := by
  induction ns generalizing es with
  | nil => exact ⟨.dict es, rfl⟩
  | cons e rest ih =>
      obtain ⟨k, v⟩ := e
      obtain ⟨hk, -, hrest⟩ := keyed_cons_iff.mp hn
      obtain ⟨new?, first⟩ := h k v (by rw [find?, if_pos (Value.same_self k)])
      obtain ⟨result, hr⟩ := ih (he.setEntry hk new?) hrest fun l w hw => by
        have other := hn.not_same_of_find? hw
        rw [he.find?_setEntry hk, if_neg (by simp [other])]
        exact h l w (by rw [find?, if_neg (by simp [other]), hw])
      exact ⟨result, by rw [mergeEntries_cons, first]; exact hr⟩

/-- Where all entries are what they would become, a merge changes nothing, not even the order of the
entries. -/
theorem merge_settled (hn : Keyed ns)
    (h : ∀ k v, find? k ns = some v → becomes (find? k es) v = .ok (find? k es)) :
    mergeEntries false (.dict es) ns = .ok (.dict es) := by
  induction ns with
  | nil => rfl
  | cons e rest ih =>
      obtain ⟨k, v⟩ := e
      have first := h k v (by rw [find?, if_pos (Value.same_self k)])
      rw [mergeEntries_cons, first]
      show mergeEntries false (.dict (setEntry k (find? k es) es)) rest = _
      rw [Value.setEntry_self rfl]
      refine ih (keyed_cons_iff.mp hn).2.2 fun l w hw => h l w ?_
      rw [find?, if_neg (by simp [hn.not_same_of_find? hw]), hw]

/-- **A merge without dictionaries** puts every value that is no null, and takes nulls away. -/
theorem exists_merge_flat (he : Keyed es) (hn : Keyed ns) (flat : ∀ e ∈ ns, e.2.isDict = false) :
    ∃ ms, mergeEntries false (.dict es) ns = .ok (.dict ms) ∧ Keyed ms ∧
      ∀ k, find? k ms = match find? k ns with
        | some v => kept v
        | none => find? k es := by
  have flat_at : ∀ k v, find? k ns = some v → v.isDict = false := fun _ _ =>
    Value.of_find? (P := (isDict · = false)) flat
  obtain ⟨result, hr⟩ := exists_merge_of_becomes he hn fun k v hv =>
    ⟨kept v, becomes_flat (flat_at k v hv) _⟩
  obtain ⟨ms, rfl, updates⟩ := updates_of_merge he hn hr
  refine ⟨ms, hr, updates.keyed, fun k => ?_⟩
  cases hv : find? k ns with
  | none => exact updates.others k hv
  | some v =>
      have given := updates.given k v hv
      rw [becomes_flat (flat_at k v hv)] at given
      exact (Except.ok.inj given).symm

/-! ### Settings that fit -/

/-- **What becomes of an entry of fitting settings**, down to the last key. -/
inductive Settled : Value → Option Value → Option Value → Prop
  /-- A value that is no dictionary takes the place of an entry, and a null takes it away. -/
  | flat {v : Value} {old? : Option Value} (flat : v.isDict = false) : Settled v old? (kept v)
  /-- A dictionary settles the entries that it has, and leaves the others alone. -/
  | dict {ns ps ms : List (Value × Value)} {old? : Option Value}
      (start : old?.getD (.dict []) = .dict ps)
      (given : ∀ k v, find? k ns = some v → Settled v (find? k ps) (find? k ms))
      (others : ∀ k, find? k ns = none → find? k ms = find? k ps) :
      Settled (.dict ns) old? (shown ms)

/-- A merge of entries that settles all of them: what it results in, and what this result is
like. -/
structure Settles (es ns ms : List (Value × Value)) : Prop where
  /-- The merge has this result. -/
  result : mergeEntries false (.dict es) ns = .ok (.dict ms)
  /-- The result is nested. -/
  nested : Nested (.dict ms)
  /-- The entries of the new settings are settled. -/
  given : ∀ k v, find? k ns = some v → Settled v (find? k es) (find? k ms)
  /-- Other entries are left alone. -/
  others : ∀ k, find? k ns = none → find? k ms = find? k es
  /-- A second merge changes nothing. -/
  again : mergeEntries false (.dict ms) ns = .ok (.dict ms)

/-- What becomes of one entry that is settled, as a part of `Settles` that concerns this entry
alone. -/
structure Lands (v : Value) (old? new? : Option Value) : Prop where
  /-- The entry becomes this. -/
  result : becomes old? v = .ok new?
  /-- It is settled. -/
  settled : Settled v old? new?
  /-- What is there is nested. -/
  nested : ∀ w, new? = some w → Nested w
  /-- It becomes the same again. -/
  again : becomes new? v = .ok new?

/-- A value that is no dictionary lands, whatever was there before. -/
theorem lands_flat (h : v.isDict = false) (old? : Option Value) : Lands v old? (kept v) := by
  refine ⟨becomes_flat h old?, .flat h, fun w hw => ?_, becomes_flat h _⟩
  obtain ⟨rfl, -⟩ := kept_eq_some_iff.mp hw
  exact .value h

/-- A dictionary that is merged lands, when its own entries are settled. -/
theorem lands_dict (start : old?.getD (.dict []) = .dict ps) (h : Settles ps ns ms) :
    Lands (.dict ns) old? (shown ms) := by
  refine ⟨becomes_dict start h.result, .dict start h.given h.others, fun w hw => ?_, ?_⟩
  · cases ms with
    | nil => exact absurd hw (by simp [shown])
    | cons e es =>
        obtain rfl := Option.some.inj hw
        exact h.nested
  · -- what was left out because it is empty is merged from nothing, to nothing again
    exact becomes_dict (getD_shown ms) h.again

/-- Settings that fit still do below a key of the new ones. -/
theorem Fits.below (h : Fits (.dict es) (.dict ns)) (hv : find? k ns = some (.dict fs)) :
    ∃ ps, (find? k es).getD (.dict []) = .dict ps ∧ Fits (.dict ps) (.dict fs) := by
  have here : ∀ q gs, at? q (.dict fs) = some (.dict gs) →
      ∀ w, (find? k es).bind (at? q) = some w → w.isDict = true := fun q gs hq w hw =>
    h (k :: q) gs (by rw [at?_dict, hv]; exact hq) w hw
  cases hold : find? k es with
  | none =>
      refine ⟨[], rfl, fun q gs hq w hw => ?_⟩
      cases q with
      | nil =>
          obtain rfl := Option.some.inj hw
          rfl
      | cons l q => exact absurd hw (by simp [find?])
  | some v =>
      rw [hold] at here
      obtain ⟨ps, rfl⟩ := isDict_iff.mp (here [] fs rfl v rfl)
      exact ⟨ps, rfl, here⟩

/-- Nothing, or a nested dictionary, is where a merge starts, so the merge of the entries of an
entry starts from nested ones again. -/
theorem nested_start (he : Nested (.dict es)) (h : (find? k es).getD (.dict []) = .dict ps) :
    Nested (.dict ps) := by
  cases hold : find? k es with
  | none =>
      rw [hold] at h
      obtain rfl : [] = ps := Value.dict.inj h
      exact nested_empty
  | some w =>
      rw [hold] at h
      obtain rfl : w = .dict ps := h
      exact he.find? hold

/-- **A merge of fitting settings settles all entries**, and a second one changes nothing. -/
theorem exists_settles (hn : Nested (.dict ns)) (he : Nested (.dict es))
    (fits : Fits (.dict es) (.dict ns)) : ∃ ms, Settles es ns ms := by
  induction ns using Value.dictInduction generalizing es with
  | step ns ih =>
      have lands : ∀ k v, find? k ns = some v → ∃ new?, Lands v (find? k es) new? := by
        intro k v hv
        cases hd : v.isDict with
        | false => exact ⟨_, lands_flat hd _⟩
        | true =>
            obtain ⟨fs, rfl⟩ := isDict_iff.mp hd
            obtain ⟨l, hl, -⟩ := Value.exists_mem_of_find? hv
            obtain ⟨ps, start, below⟩ := fits.below hv
            obtain ⟨ms, settles⟩ := ih l fs hl (hn.find? hv) (nested_start he start) below
            exact ⟨_, lands_dict start settles⟩
      obtain ⟨result, hr⟩ := exists_merge_of_becomes he.keyed hn.keyed fun k v hv => by
        obtain ⟨new?, landed⟩ := lands k v hv
        exact ⟨new?, landed.result⟩
      obtain ⟨ms, rfl, updates⟩ := updates_of_merge he.keyed hn.keyed hr
      have landed : ∀ k v, find? k ns = some v → Lands v (find? k es) (find? k ms) := by
        intro k v hv
        obtain ⟨new?, landed⟩ := lands k v hv
        rwa [Except.ok.inj (landed.result.symm.trans (updates.given k v hv))] at landed
      refine ⟨ms, hr, .dict updates.keyed fun e he' => ?_, fun k v hv => (landed k v hv).settled,
        updates.others, merge_settled hn.keyed fun k v hv => (landed k v hv).again⟩
      have found := updates.keyed.find?_of_mem (k := e.1) (v := e.2) he'
      cases hv : find? e.1 ns with
      | none => exact he.find? ((updates.others e.1 hv).symm.trans found)
      | some v => exact (landed e.1 v hv).nested e.2 found

/-- Settings fit when they do below every key of the new ones. The converse is `Fits.below`. -/
theorem fits_of_entries (he : Keyed es) (hn : Keyed ns)
    (h : ∀ l fs, (l, .dict fs) ∈ ns →
      ∃ ps, (find? l es).getD (.dict []) = .dict ps ∧ Fits (.dict ps) (.dict fs)) :
    Fits (.dict es) (.dict ns) := by
  intro p fs hp v hv
  cases p with
  | nil =>
      obtain rfl := Option.some.inj hv
      rfl
  | cons k p =>
      obtain ⟨x, hx, hfs⟩ := Option.bind_eq_some_iff.mp hp
      obtain ⟨l, hl, same⟩ := Value.exists_mem_of_find? hx
      obtain ⟨w, hw, hv⟩ := Option.bind_eq_some_iff.mp hv
      cases hd : x.isDict with
      | false =>
          cases p with
          | nil =>
              obtain rfl := Option.some.inj hfs
              exact absurd hd (by simp [isDict])
          | cons m p => exact absurd ((at?_flat hd m p).symm.trans hfs) (by simp)
      | true =>
          obtain ⟨gs, rfl⟩ := isDict_iff.mp hd
          obtain ⟨ps, hps, below⟩ := h l gs hl
          rw [he.find?_congr (hn.hashable _ hl) same, hw] at hps
          obtain rfl : w = .dict ps := hps
          exact below p fs hfs v hv

/-! ### Settled entries at key paths -/

/-- A key path steps into entries, whether or not they are left out: where there are none it leads
nowhere either way. -/
theorem shown_bind (k : Value) (p : List Value) (es : List (Value × Value)) :
    (shown es).bind (at? (k :: p)) = (find? k es).bind (at? p) := by
  cases es <;> rfl

/-- A key path steps into the old entry, or into no entries where there is none. -/
theorem bind_of_getD (h : old?.getD (.dict []) = .dict ps) (k : Value) (p : List Value) :
    old?.bind (at? (k :: p)) = (find? k ps).bind (at? p) := by
  cases old? with
  | none =>
      obtain rfl : [] = ps := Value.dict.inj h
      rfl
  | some v =>
      obtain rfl : v = .dict ps := h
      rfl

/-- What becomes of an entry where the new settings have no dictionary is what is kept of their
value. -/
theorem Settled.eq_kept (h : Settled v old? new?) (flat : v.isDict = false) : new? = kept v := by
  cases h with
  | flat => rfl
  | dict => exact absurd flat (by simp [isDict])

/-- What becomes of an entry where the new settings have a dictionary: its entries are settled from
those that were there, and it is left out if none remain. -/
theorem Settled.exists_shown (h : Settled (.dict ns) old? new?) :
    ∃ ps ms, old?.getD (.dict []) = .dict ps ∧ new? = shown ms ∧
      (∀ k v, find? k ns = some v → Settled v (find? k ps) (find? k ms)) ∧
      ∀ k, find? k ns = none → find? k ms = find? k ps := by
  cases h with
  | flat bad => exact absurd bad (by simp [isDict])
  | @dict _ ps ms _ start given others => exact ⟨ps, ms, start, rfl, given, others⟩

/-- **What is settled is settled at every key path** of the new settings. -/
theorem Settled.at_path (h : Settled new old? new?) (hp : at? p new = some v) :
    Settled v (old?.bind (at? p)) (new?.bind (at? p)) := by
  induction p generalizing new old? new? with
  | nil =>
      obtain rfl := Option.some.inj hp
      have same (x? : Option Value) : x?.bind (at? []) = x? := by cases x? <;> rfl
      rwa [same, same]
  | cons k p ih =>
      obtain ⟨ns, x, rfl, hx, hv⟩ := exists_dict_of_at?_cons hp
      obtain ⟨ps, ms, start, rfl, given, -⟩ := h.exists_shown
      rw [shown_bind, bind_of_getD start]
      exact ih (given k x hx) hv

/-- At a key path where the new settings have a dictionary there is nothing or a dictionary with
entries. -/
theorem Settled.at_dict (h : Settled new old? new?) (hp : at? p new = some (.dict fs)) :
    new?.bind (at? p) = none ∨ ∃ ms, ms ≠ [] ∧ new?.bind (at? p) = some (.dict ms) := by
  obtain ⟨-, ms, -, shows, -⟩ := (h.at_path hp).exists_shown
  rw [shows]
  cases ms with
  | nil => exact .inl rfl
  | cons e es => exact .inr ⟨e :: es, List.cons_ne_nil e es, rfl⟩

/-- At a key path that leaves the new settings at a dictionary there is what was there before. -/
theorem Settled.at_beyond (h : Settled new old? new?) (hq : at? q new = some (.dict fs))
    (hk : find? k fs = none) (p : List Value) :
    new?.bind (at? (q ++ k :: p)) = old?.bind (at? (q ++ k :: p)) := by
  have split (x? : Option Value) : x?.bind (at? (q ++ k :: p)) =
      (x?.bind (at? q)).bind (at? (k :: p)) := by
    rw [Option.bind_assoc]
    exact congrArg _ (funext fun x => at?_append q (k :: p) x)
  obtain ⟨ps, ms, start, shows, -, others⟩ := (h.at_path hq).exists_shown
  rw [split, split, shows, shown_bind, others k hk, bind_of_getD start]

/-! ### Merges -/

/-- **What a merge does at key paths.** The clauses go by what the new settings have on a path, and
none of them depends on the order of keys. -/
structure Merged (old new result : Value) : Prop where
  /-- A value of the new settings, other than a null and a dictionary, stands where it stands in
  them. -/
  values : ∀ p v, at? p new = some v → v ≠ .null → v.isDict = false → at? p result = some v
  /-- Where the new settings have a null there is nothing. -/
  nulls : ∀ p, at? p new = some .null → at? p result = none
  /-- Where the new settings have a dictionary under a key there is nothing or a dictionary with
  entries. -/
  dicts : ∀ k p fs, at? (k :: p) new = some (.dict fs) →
    at? (k :: p) result = none ∨ ∃ ms, ms ≠ [] ∧ at? (k :: p) result = some (.dict ms)
  /-- At a key path that leaves the new settings at a dictionary without the next key there is what
  was there before. -/
  untouched : ∀ q k p fs, at? q new = some (.dict fs) → find? k fs = none →
    at? (q ++ k :: p) result = at? (q ++ k :: p) old

/-- **Where values come from**: what is no dictionary is what the new settings say, and no null, or
it was in the old ones and the new ones say nothing. -/
theorem Merged.origin {result : Value} (h : Merged old new result) (hr : result.isDict = true)
    (hv : at? p result = some v) (flat : v.isDict = false) :
    says? p new = some v ∧ v ≠ .null ∨ says? p new = none ∧ at? p old = some v := by
  cases hx : at? p new with
  | some x =>
      left
      cases hd : x.isDict with
      | true =>
          obtain ⟨fs, rfl⟩ := isDict_iff.mp hd
          cases p with
          | nil =>
              obtain rfl := Option.some.inj hv
              exact absurd (hr.symm.trans flat) (by simp)
          | cons k p =>
              rcases h.dicts k p fs hx with gone | ⟨ms, -, found⟩
              · exact absurd (gone.symm.trans hv) (by simp)
              · obtain rfl := Option.some.inj (found.symm.trans hv)
                exact absurd flat (by simp [isDict])
      | false =>
          by_cases null : x = .null
          · subst null
            exact absurd ((h.nulls p hx).symm.trans hv) (by simp)
          · obtain rfl := Option.some.inj ((h.values p x hx null hd).symm.trans hv)
            exact ⟨says?_of_at? hx, null⟩
  | none =>
      right
      obtain ⟨q, k, r, w, rfl, hw, left⟩ := exists_of_at?_eq_none hx
      rcases left with hd | ⟨fs, rfl, hk⟩
      · -- nothing stands below a value of the new settings that is no dictionary
        have below : at? (q ++ k :: r) result = none := by
          rw [at?_append]
          by_cases null : w = .null
          · rw [h.nulls q (null ▸ hw)]
            rfl
          · rw [h.values q w hw null hd]
            exact at?_flat hd k r
        exact absurd (below.symm.trans hv) (by simp)
      · rw [says?_append hw, says?, hk, ← h.untouched q k r fs hw hk]
        exact ⟨rfl, hv⟩

/-- **Settled entries are what a merge does at key paths.** Settling follows the recursion of the
merge, and this restates it for whole paths. -/
theorem merged_of_settles (h : Settles es ns ms) : Merged (.dict es) (.dict ns) (.dict ms) := by
  have settled : Settled (.dict ns) (some (.dict es)) (shown ms) := .dict rfl h.given h.others
  -- the root is not left out when it is empty, which makes no difference one step further down
  have below : ∀ k p, at? (k :: p) (.dict ms) = (shown ms).bind (at? (k :: p)) := fun k p =>
    (shown_bind k p ms).symm
  constructor
  case values =>
    intro p v hp set flat
    cases p with
    | nil =>
        obtain rfl := Option.some.inj hp
        exact absurd flat (by simp [isDict])
    | cons k p => rw [below, (settled.at_path hp).eq_kept flat, kept_of_ne_null set]
  case nulls =>
    intro p hp
    cases p with
    | nil => exact absurd hp (by simp)
    | cons k p =>
        rw [below, (settled.at_path hp).eq_kept rfl]
        rfl
  case dicts =>
    intro k p fs hp
    rw [below]
    exact settled.at_dict hp
  case untouched =>
    intro q k p fs hq hk
    have beyond := settled.at_beyond hq hk p
    cases q with
    | nil => exact (below k p).trans beyond
    | cons l q => exact (below l (q ++ k :: p)).trans beyond

/-- **Merging is a merge by key paths**: settings that fit are merged, and a second merge changes
nothing. -/
theorem merge_by_key_paths (ho : Nested (.dict es)) (hn : Nested (.dict ns))
    (fits : Fits (.dict es) (.dict ns)) :
    ∃ result, merge false (.dict es) (.dict ns) = .ok result ∧
      Merged (.dict es) (.dict ns) result ∧ merge false result (.dict ns) = .ok result := by
  obtain ⟨ms, settles⟩ := exists_settles hn ho fits
  exact ⟨.dict ms, settles.result, merged_of_settles settles, settles.again⟩

/-- A dictionary that loses its last entry and gets an empty one; its key is the integer one in the
old settings and the truth value `true` in the new ones. -/
theorem merge_by_key_paths_pruned :
    merge false (.dict [(.int 1, .dict [(.str "x", .int 5)])])
        (.dict [(.bool true, .dict [(.str "x", .null), (.str "z", .dict [])]),
          (.str "b", .int 2)]) =
      .ok (.dict [(.str "b", .int 2)]) ∧
    Merged (.dict [(.int 1, .dict [(.str "x", .int 5)])])
      (.dict [(.bool true, .dict [(.str "x", .null), (.str "z", .dict [])]), (.str "b", .int 2)])
      (.dict [(.str "b", .int 2)]) := by
  have bottom : Keyed [(.str "x", .int 5)] := ⟨by decide, by simp⟩
  have added : Keyed [(.str "x", .null), (.str "z", .dict [])] :=
    ⟨by decide, by simp [Value.same]⟩
  have before : Keyed [(.int 1, .dict [(.str "x", .int 5)])] := ⟨by decide, by simp⟩
  have after : Keyed [(.bool true, .dict [(.str "x", .null), (.str "z", .dict [])]),
      (.str "b", .int 2)] := ⟨by decide, by simp [Value.same_str]⟩
  have old : Nested (.dict [(.int 1, .dict [(.str "x", .int 5)])]) := by
    refine .dict before (List.forall_mem_singleton.mpr (.dict bottom ?_))
    exact List.forall_mem_singleton.mpr (.value rfl)
  have new : Nested (.dict [(.bool true, .dict [(.str "x", .null), (.str "z", .dict [])]),
      (.str "b", .int 2)]) := by
    refine .dict after (List.forall_mem_cons.mpr ⟨.dict added ?_, ?_⟩)
    · exact List.forall_mem_cons.mpr ⟨.value rfl, List.forall_mem_singleton.mpr nested_empty⟩
    · exact List.forall_mem_singleton.mpr (.value rfl)
  have fits : Fits (.dict [(.int 1, .dict [(.str "x", .int 5)])])
      (.dict [(.bool true, .dict [(.str "x", .null), (.str "z", .dict [])]),
        (.str "b", .int 2)]) := by
    refine fits_of_entries before after fun l fs hl => ?_
    obtain ⟨rfl, rfl⟩ : l = .bool true ∧ fs = [(.str "x", .null), (.str "z", .dict [])] := by
      simpa using hl
    refine ⟨[(.str "x", .int 5)], by cbv, fits_of_entries bottom added fun l fs hl => ?_⟩
    obtain ⟨rfl, rfl⟩ : l = .str "z" ∧ fs = [] := by simpa using hl
    exact ⟨[], by cbv, fits_of_entries Value.keyed_nil Value.keyed_nil (by simp)⟩
  obtain ⟨result, hresult, merged, -⟩ := merge_by_key_paths old new fits
  have value : merge false (.dict [(.int 1, .dict [(.str "x", .int 5)])])
      (.dict [(.bool true, .dict [(.str "x", .null), (.str "z", .dict [])]),
        (.str "b", .int 2)]) = .ok (.dict [(.str "b", .int 2)]) := by
    cbv
  obtain rfl := Except.ok.inj (hresult.symm.trans value)
  exact ⟨value, merged⟩

end TreeDelta.Settings
