import TreeDelta.Proofs.Report.Balance

/-!
# Colours of a report

A coloured report is a plain one with escape sequences in its marks. The sequences show nothing,
but they are measured as a part of the mark where a list is put on one line or not. So a coloured
report without its sequences is the plain report exactly when every list on one line of the plain
report leaves room for the sequence of its colour (`Report.uncoloured_exact`).

Where one does not, it is printed item by item in colours only, and nothing can make up for it: no
list goes back to one line, and the balance of the report tells how many are printed item by item.

## Main definitions

* `Report.uncoloured`: a text without the sequences of the colours.
* `Report.Becomes`: what is left of a text with sequences, whatever comes behind it.
* `Report.IsClean`: JSON trees without the first character of escape sequences.
* `Report.Recoloured`: coloured texts that are the plain ones under some condition only.
* `Report.LeavesRoom`: changes that colours do not print in another form.

## Main results

* `Report.value_recoloured`, `Report.change_recoloured`: coloured values and changes.
* `Report.uncoloured_exact`: when colours are only colours.
-/

namespace TreeDelta

namespace Report

/-! ### Taking sequences out -/

/-- The first character of an escape sequence. A text without it can be neither a sequence nor the
start of one. -/
def escape : Char := '\x1b'

/-- The renditions that colours set: red, green, blue, bright, and none. The last one ends what the
others began. -/
def renditions : List String := ["31", "32", "34", "1", "0"]

/-- Takes the sequences of the colours out of a text, where the first `skip` characters belong to a
sequence that has started before. -/
def takeOut : Nat → List Char → List Char
  | _, [] => []
  | skip + 1, _ :: cs => takeOut skip cs
  | 0, c :: cs =>
    match renditions.find? fun r => (escapeSequence r).toList.isPrefixOf (c :: cs) with
    | some r => takeOut ((escapeSequence r).length - 1) cs
    | none => c :: takeOut 0 cs

/-- A text without the sequences of the colours: what one sees of it, or what a reader without
colours gets. -/
def uncoloured (s : String) : String := String.ofList (takeOut 0 s.toList)

/-- A text is left of another one when the sequences are taken out, whatever comes behind it. The
text that follows is part of the definition, since a sequence could be cut in two. -/
def Becomes (s t : String) : Prop :=
  ∀ rest : List Char, takeOut 0 (s.toList ++ rest) = t.toList ++ takeOut 0 rest

/-- What is left of a text is the text without its sequences. Nothing needs to come behind it. -/
theorem Becomes.uncoloured {s t : String} (h : Becomes s t) : uncoloured s = t := by
  have whole := h []
  rw [List.append_nil, takeOut, List.append_nil] at whole
  rw [Report.uncoloured, whole, String.ofList_toList]

/-- What is left of two texts behind each other is what is left of each. This holds since no
sequence lies across the border. -/
theorem Becomes.append {s t s' t' : String} (h : Becomes s t) (h' : Becomes s' t') :
    Becomes (s ++ s') (t ++ t') := by
  intro rest
  rw [String.toList_append, String.toList_append, List.append_assoc, h, h', List.append_assoc]

/-- What is left of many texts behind each other, by induction on how many they are. -/
theorem Becomes.join {α : Type} {f g : α → String} {as : List α}
    (h : ∀ a ∈ as, Becomes (f a) (g a)) :
    Becomes (String.join (as.map f)) (String.join (as.map g)) := by
  induction as with
  | nil => exact fun _ => rfl
  | cons a as ih =>
      obtain ⟨ha, has⟩ := List.forall_mem_cons.mp h
      simpa using ha.append (ih has)

/-- A text without the first character of a sequence is left as it is, even when a sequence
follows. -/
theorem becomes_self {s : String} (h : escape ∉ s.toList) : Becomes s s := by
  intro rest
  generalize s.toList = cs at h
  induction cs with
  | nil => rfl
  | cons c cs ih =>
      obtain ⟨hc, hcs⟩ := not_or.mp (List.mem_cons.not.mp h)
      have no_sequence : renditions.find?
          (fun r => (escapeSequence r).toList.isPrefixOf (c :: (cs ++ rest))) = none := by
        refine List.find?_eq_none.mpr fun r _ starts => hc ?_
        rw [escapeSequence, String.append_assoc, String.toList_append] at starts
        exact eq_of_beq (Bool.and_eq_true_iff.mp starts).1
      rw [List.cons_append, takeOut, no_sequence, ih hcs, List.cons_append]

/-- Nothing is left of a sequence, and none of the sequences is the start of another one. -/
theorem becomes_empty {r : String} (h : r ∈ renditions) : Becomes (escapeSequence r) "" := by
  intro rest
  simp only [renditions, List.mem_cons, List.not_mem_nil, or_false] at h
  rcases h with rfl | rfl | rfl | rfl | rfl <;> rfl

/-! ### Values without escape sequences -/

/-- Whether no string and no key of a node could start an escape sequence. -/
def lacksEscape : Value → Bool
  | .str s => !s.toList.contains escape
  | .dict es => es.all fun e => !e.1.display.toList.contains escape
  | _ => true

/-- A JSON tree without the first character of escape sequences in its strings and keys. Its own
text could otherwise pass for a colour. -/
def IsClean (v : Value) : Prop := v.Json ∧ v.every lacksEscape = true

instance (v : Value) : Decidable (IsClean v) := inferInstanceAs (Decidable (_ ∧ _))

/-- A layout of a JSON tree has no escape sequences, whatever is in its strings: quoting writes
control characters as visible ones. -/
theorem escape_not_mem_layout {v : Value} (h : v.Json) : escape ∉ v.layout.toList := by
  have data : v.every Value.isData = true := by
    refine Value.every_mono (fun w hw => ?_) h
    cases w with
    | dict es => exact (Bool.and_eq_true_iff.mp hw).1
    | _ => first | rfl | exact hw
  rw [← Text.tally_eq_zero_iff, Value.layout, Value.tally_layoutAt (by decide) h,
    Text.tally_eq_zero_iff]
  exact (Value.consists_flat data).not_mem (by decide)

/-- The text of a value without items has no escape sequences. A string is printed unquoted, and so
it has to be clean itself. -/
theorem escape_not_mem_text {v : Value} (h : IsClean v) : escape ∉ (text v).toList := by
  cases v with
  | str s =>
      have clean := (Value.every_iff.mp h.2).1
      simpa [lacksEscape, text] using clean
  | _ => exact escape_not_mem_layout h.1

/-- What is written for a value without items has no escape sequences, if its key and its text have
none. -/
theorem escape_not_mem_writtenField {mark key s : String} (hk : escape ∉ key.toList)
    (hs : escape ∉ s.toList) : ∀ w ∈ writtenField mark key s, escape ∉ w.text.toList := by
  rw [writtenField]
  split
  · refine List.forall_mem_cons.mpr ⟨by simpa [escape] using hk, fun w hw mem => hs ?_⟩
    obtain ⟨line, there, rfl⟩ := List.mem_map.mp hw
    obtain ⟨l, hl, rfl⟩ := List.mem_map.mp there
    rw [Text.dropBreak, String.toList_ofList, String.toList_ofList] at mem
    rw [← Text.flatten_linesOf s.toList]
    exact List.mem_flatten.mpr ⟨l, hl, List.takeWhile_subset _ mem⟩
  · exact List.forall_mem_singleton.mpr (by simpa [escape] using ⟨hk, hs⟩)

/-- Printing keeps values without escape sequences clean, so that the only sequences of a report are
those in its marks. -/
theorem kept_clean :
    Kept (fun v => v.isJsonNode && lacksEscape v) fun s => escape ∉ s.toList where
  keyLine hk := by simpa [escape] using hk
  index i := by
    have digits : escape ∉ (toString i).toList := (Text.consists_nat i).not_mem (by decide)
    simpa [escape] using digits
  keys := by
    intro es node e he
    obtain ⟨json, clean⟩ := Bool.and_eq_true_iff.mp node
    have string := List.all_eq_true.mp (Bool.and_eq_true_iff.mp json).1 e he
    have own := List.all_eq_true.mp clean e he
    obtain ⟨k, v⟩ := e
    cases k with
    | str k => exact ⟨k, rfl, by simpa [Value.display] using own⟩
    | _ => exact absurd string (by simp [Value.isString])
  field := by
    intro mark key v scalar node hk
    obtain ⟨json, clean⟩ := Bool.and_eq_true_iff.mp node
    have alone : ∀ {p : Value → Bool}, p v = true → v.every p = true := fun hp =>
      Value.every_iff.mpr ⟨hp, by simp [Value.steps_eq_nil scalar]⟩
    exact escape_not_mem_writtenField hk (escape_not_mem_text ⟨alone json, alone clean⟩)
  line := fun hv _ => escape_not_mem_layout
    (Value.every_mono (fun _ hw => (Bool.and_eq_true_iff.mp hw).1) hv)

/-! ### Values and changes -/

/-- A coloured text and a plain one that are the same without colours if and only if something
holds: otherwise the coloured text has the greater balance. -/
def Recoloured (coloured plain : String) (alike : Prop) : Prop :=
  ∃ left, Becomes coloured left ∧ balance plain ≤ balance left ∧
    (balance left ≤ balance plain → alike) ∧ (alike → left = plain)

/-- The texts are the same without colours if and only if the condition holds: if it does not, the
balances are different. -/
theorem Recoloured.uncoloured_iff {coloured plain : String} {alike : Prop}
    (h : Recoloured coloured plain alike) : uncoloured coloured = plain ↔ alike := by
  obtain ⟨left, becomes, -, few, same⟩ := h
  rw [becomes.uncoloured]
  exact ⟨fun equal => few (Int.le_of_eq (congrArg balance equal)), same⟩

/-- Texts with nothing different but the sequences are the same under no condition. -/
theorem Becomes.recoloured {coloured plain : String} (h : Becomes coloured plain) :
    Recoloured coloured plain True :=
  ⟨plain, h, Int.le_refl _, fun _ => trivial, fun _ => rfl⟩

/-- Texts behind each other are the same when both pairs are. The balances add up, so a difference
in one pair cannot be made up for by the other one. -/
theorem Recoloured.append {s t s' t' : String} {alike alike' : Prop} (h : Recoloured s t alike)
    (h' : Recoloured s' t' alike') : Recoloured (s ++ s') (t ++ t') (alike ∧ alike') := by
  obtain ⟨left, becomes, more, few, same⟩ := h
  obtain ⟨left', becomes', more', few', same'⟩ := h'
  refine ⟨left ++ left', becomes.append becomes', ?_, fun least => ?_, fun both => ?_⟩
  · rw [balance_append, balance_append]
    omega
  · rw [balance_append, balance_append] at least
    exact ⟨few (by omega), few' (by omega)⟩
  · rw [same both.1, same' both.2]

/-- The condition may be stated in any equivalent way. Putting texts together builds up conjunctions
and implications, and this turns them into the wording of `HasRoom` and `LeavesRoom`. -/
theorem Recoloured.congr {s t : String} {alike alike' : Prop} (h : Recoloured s t alike)
    (same : alike ↔ alike') : Recoloured s t alike' := propext same ▸ h

/-- Many texts behind each other are the same when all pairs are, by induction on how many they
are. -/
theorem Recoloured.join {α : Type} {f g : α → String} {alike : α → Prop} {as : List α}
    (h : ∀ a ∈ as, Recoloured (f a) (g a) (alike a)) :
    Recoloured (String.join (as.map f)) (String.join (as.map g)) (∀ a ∈ as, alike a) := by
  induction as with
  | nil => exact (Becomes.recoloured fun _ => rfl).congr (by simp)
  | cons a as ih =>
      obtain ⟨ha, has⟩ := List.forall_mem_cons.mp h
      rw [List.map_cons, List.map_cons, String.join_cons, String.join_cons]
      exact (ha.append (ih has)).congr List.forall_mem_cons.symm

/-- Texts that are there unless something holds. An added value has no old part, so nothing is asked
of it. -/
theorem Recoloured.unless {s t : String} {absent alike : Prop} [Decidable absent]
    (h : ¬absent → Recoloured s t alike) :
    Recoloured (if absent then "" else s) (if absent then "" else t) (¬absent → alike) := by
  by_cases out : absent
  · rw [if_pos out, if_pos out]
    exact (Becomes.recoloured fun _ => rfl).congr
      (iff_of_true trivial fun there => absurd out there)
  · rw [if_neg out, if_neg out]
    exact (h out).congr ⟨fun holds _ => holds, fun holds => holds out⟩

section Mark

variable {code mark : String}

/-- An indented mark with a code in front is an indented mark: the indentation comes behind both. -/
theorem Indents.exists_append {m : String} (h : Indents (code ++ mark) m) :
    ∃ m', Indents mark m' ∧ m = code ++ m' := by
  induction h with
  | here => exact ⟨mark, .here, rfl⟩
  | further _ ih =>
      obtain ⟨m', inner, rfl⟩ := ih
      exact ⟨m' ++ step, .further inner, String.append_assoc⟩

/-- Texts behind marks with a code in front are texts behind marks, to which the code was added. -/
theorem exists_coded {ws : List Written} (h : ∀ w ∈ ws, Indents (code ++ mark) w.mark) :
    ∃ us : List Written, ws = us.map (coded code) ∧ ∀ u ∈ us, Indents mark u.mark := by
  induction ws with
  | nil => exact ⟨[], rfl, by simp⟩
  | cons w ws ih =>
      obtain ⟨hw, hws⟩ := List.forall_mem_cons.mp h
      obtain ⟨m, inner, shown⟩ := hw.exists_append
      obtain ⟨us, rfl, marks⟩ := ih hws
      exact ⟨⟨m, w.text⟩ :: us, by rw [List.map_cons, coded, ← shown],
        List.forall_mem_cons.mpr ⟨inner, marks⟩⟩

variable (hc : Becomes code "") (clean : escape ∉ mark.toList) (balanced : balance mark = 0)

include hc in
/-- A text behind a code is left without it, provided that the code is a sequence. -/
theorem becomes_code {s : String} (hs : escape ∉ s.toList) : Becomes (code ++ s) s := by
  simpa using hc.append (becomes_self hs)

include hc clean in
/-- Lines behind marks are left without the codes, which are in front of each line. -/
theorem becomes_lines {s : String} (hs : escape ∉ s.toList) :
    Becomes (lines (code ++ mark) s) (lines mark s) := by
  refine Becomes.append (Becomes.join fun line hl => ?_) (becomes_self (by split <;> decide))
  have inside : escape ∉ line.toList := by
    intro mem
    obtain ⟨l, there, rfl⟩ := List.mem_map.mp hl
    rw [String.toList_ofList] at mem
    exact hs (Text.flatten_linesOf s.toList ▸ List.mem_flatten.mpr ⟨l, there, mem⟩)
  rw [String.append_assoc]
  exact becomes_code hc (by simpa using ⟨clean, inside⟩)

include hc in
/-- What is written behind marks is left without the codes, as neither marks nor texts have
sequences of their own. -/
theorem becomes_printAll {us : List Written}
    (h : ∀ u ∈ us, escape ∉ u.mark.toList ∧ escape ∉ u.text.toList) :
    Becomes (printAll (us.map (coded code))) (printAll us) := by
  rw [printAll, printAll, List.map_map]
  refine Becomes.join fun u hu => ?_
  show Becomes (code ++ u.mark ++ u.text ++ "\n") (u.mark ++ u.text ++ "\n")
  rw [String.append_assoc, String.append_assoc, String.append_assoc]
  exact becomes_code hc (by simpa [escape] using h u hu)

/-- What is written behind marks without colons and brackets has the balance of the texts. -/
theorem balance_printAll {us : List Written} (h : ∀ u ∈ us, balance u.mark = 0) :
    balance (printAll us) = total us := by
  induction us with
  | nil => rfl
  | cons u us ih =>
      obtain ⟨hu, hus⟩ := List.forall_mem_cons.mp h
      rw [printAll_cons, Written.print, balance_append, balance_append, balance_append, hu, ih hus,
        show balance "\n" = 0 by decide, total_cons]
      omega

/-- An indented mark has no escape sequence more than the mark, since a step is made of blanks. -/
theorem Indents.escape_not_mem {m : String} (h : Indents mark m) (clean : escape ∉ mark.toList) :
    escape ∉ m.toList := by
  induction h with
  | here => exact clean
  | further _ ih =>
      rw [String.toList_append, List.mem_append, not_or]
      exact ⟨ih, by decide⟩

/-- An indented mark has the balance of the mark, since a step has neither colons nor brackets. -/
theorem Indents.balance_eq {m : String} (h : Indents mark m) : balance m = balance mark := by
  induction h with
  | here => rfl
  | further _ ih => rw [balance_append, ih, show balance step = 0 by decide, Int.add_zero]

include balanced in
/-- The balance of a printed container is that of its literal, and one more for each list that is
printed item by item. -/
theorem balance_written {v : Value} (hv : v.Json) (some_written : written mark v ≠ []) :
    balance (printAll (written mark v)) = balance v.flat + itemised (measured mark v) := by
  have marks : ∀ w ∈ written mark v, balance w.mark = 0 := fun w hw =>
    (indents_of_mem_written w hw).balance_eq.trans balanced
  rw [balance_printAll marks, total_written hv some_written]

include hc clean balanced in
/-- What is left of a coloured container, and its balance, which counts the lists that are printed
item by item in colours. -/
theorem exists_left {v : Value} (hv : IsClean v) (some_written : written (code ++ mark) v ≠ []) :
    ∃ us, written (code ++ mark) v = us.map (coded code) ∧
      Becomes (printAll (us.map (coded code))) (printAll us) ∧
      balance (printAll us) = balance v.flat + itemised (measured (code ++ mark) v) := by
  have texts : ∀ w ∈ written (code ++ mark) v, escape ∉ w.text.toList :=
    kept_clean.of_mem_written (Value.every_and hv.1 hv.2)
  have totals := total_written hv.1 some_written
  obtain ⟨us, shown, marks⟩ : ∃ us : List Written, written (code ++ mark) v = us.map (coded code) ∧
      ∀ u ∈ us, Indents mark u.mark := exists_coded indents_of_mem_written
  rw [shown] at texts totals
  have same_texts : total (us.map (coded code)) = total us := by
    rw [total, total, List.map_map]
    rfl
  refine ⟨us, shown, becomes_printAll hc fun u hu => ?_, ?_⟩
  · exact ⟨(marks u hu).escape_not_mem clean, texts (coded code u) (List.mem_map_of_mem hu)⟩
  · rw [balance_printAll fun u hu => (marks u hu).balance_eq.trans balanced, ← same_texts, totals]

include hc clean balanced in
/-- **A coloured value** is the plain one without its sequences if and only if there is room. -/
theorem value_recoloured {v : Value} (hv : IsClean v)
    (narrow : code.length + mark.length + "[]".length < lineWidth) :
    Recoloured (value (code ++ mark) v) (value mark v) (HasRoom code (measured mark v)) := by
  rcases value_cases mark v with ⟨none_written, printed⟩ | ⟨some_written, -, printed⟩
  · have none_coded : written (code ++ mark) v = [] :=
      written_eq_nil_iff.mpr (written_eq_nil_iff.mp none_written)
    have coloured := (value_cases (code ++ mark) v).resolve_right fun h => h.1 none_coded
    have room := hasRoom_of_written_nil none_written narrow
    rw [printed, coloured.2]
    exact (becomes_lines hc clean (escape_not_mem_text hv)).recoloured.congr
      (iff_of_true trivial room)
  · have some_coded : written (code ++ mark) v ≠ [] := fun none_coded =>
      some_written (written_eq_nil_iff.mpr (written_eq_nil_iff.mp none_coded))
    have coloured := (value_cases (code ++ mark) v).resolve_left fun h => some_coded h.1
    have plain_balance := balance_written balanced hv.1 some_written
    obtain ⟨us, shown, left, left_balance⟩ := exists_left hc clean balanced hv some_coded
    obtain ⟨more, room⟩ := widens_measured code mark v
    rw [printed, coloured.2.2, shown]
    refine ⟨printAll us, left, by omega, fun few => room (by omega), fun alike => ?_⟩
    have same := shown.symm.trans (written_append alike)
    rw [List.map_injective_iff.mpr (coded_injective code) same]

end Mark

/-- Whether every list on one line of a change leaves room for the sequence of its colour. -/
structure LeavesRoom (c : Change) : Prop where
  /-- Those of the old value. -/
  old : c.op ≠ .add → HasRoom (escapeSequence "31") (measured Palette.plain.remove c.old)
  /-- Those of the new value. -/
  new : c.op ≠ .remove → HasRoom (escapeSequence "32") (measured Palette.plain.add c.new)

/-- The header of a change is left without its sequences. A header is on one line whatever its
length, so there is no condition. -/
theorem becomes_header {what : String} (hw : escape ∉ what.toList) (q : Path) :
    Becomes (header .coloured what q) (header .plain what q) := by
  have blue : Becomes (escapeSequence "34") "" := becomes_empty (by decide)
  have bright : Becomes (escapeSequence "1") "" := becomes_empty (by decide)
  have reset : Becomes (escapeSequence "0") "" := becomes_empty (by decide)
  have path : escape ∉ q.render.toList := q.consists_render.not_mem (by decide)
  have inside : ∀ s, escape ∉ s.toList → Becomes s s := fun _ => becomes_self
  exact ((((((blue.append bright).append (inside Palette.plain.info (by decide))).append
    (inside what hw)).append (inside " " (by decide))).append (inside _ path)).append
    (inside ":" (by decide))).append reset |>.append (inside "\n" (by decide))

/-- **A coloured change** is the plain one without its sequences if and only if there is room. -/
theorem change_recoloured {c : Change} (old : c.op ≠ .add → IsClean c.old)
    (new : c.op ≠ .remove → IsClean c.new) :
    Recoloured (change .coloured c) (change .plain c) (LeavesRoom c) := by
  have no_object : ∀ {v : Value}, IsClean v → ∀ label name payload,
      v ≠ .object label name payload := by
    rintro v clean label name payload rfl
    exact absurd clean.1 (by simp [Value.Json, Value.every, Value.isJsonNode])
  have words : escape ∉ (changeWords c).toList :=
    (consists_changeWords (fun h => no_object (old h)) fun h => no_object (new h)).not_mem
      (by decide)
  have red : Becomes (escapeSequence "31") "" := becomes_empty (by decide)
  have green : Becomes (escapeSequence "32") "" := becomes_empty (by decide)
  have old_part : Recoloured (oldPart .coloured c) (oldPart .plain c)
      (c.op ≠ .add → HasRoom (escapeSequence "31") (measured Palette.plain.remove c.old)) :=
    .unless fun there => value_recoloured red (by decide) (by decide) (old there) (by decide)
  have new_part : Recoloured (newPart .coloured c) (newPart .plain c)
      (c.op ≠ .remove → HasRoom (escapeSequence "32") (measured Palette.plain.add c.new)) :=
    .unless fun there => value_recoloured green (by decide) (by decide) (new there) (by decide)
  have feed : Becomes "\n" "\n" := becomes_self (by decide)
  have reset : Becomes (escapeSequence "0") "" := becomes_empty (by decide)
  rw [change, change, changeBody_eq, changeBody_eq]
  refine ((((becomes_header words c.path).recoloured.append old_part).append new_part).append
    feed.recoloured).append reset.recoloured |>.congr ?_
  constructor
  · rintro ⟨⟨⟨⟨-, old⟩, new⟩, -⟩, -⟩
    exact ⟨old, new⟩
  · rintro ⟨old, new⟩
    exact ⟨⟨⟨⟨trivial, old⟩, new⟩, trivial⟩, trivial⟩

/-- **Colours are only colours**, exactly when every list on one line leaves room for the sequence
of its colour: then a coloured report of changes between JSON trees without escape sequences is the
plain report when its sequences are taken out. -/
theorem uncoloured_exact (cs : List Change) (old : ∀ c ∈ cs, c.op ≠ .add → IsClean c.old)
    (new : ∀ c ∈ cs, c.op ≠ .remove → IsClean c.new) :
    uncoloured (String.join (cs.map (change .coloured))) = String.join (cs.map (change .plain)) ↔
      ∀ c ∈ cs, LeavesRoom c :=
  (Recoloured.join fun c hc => change_recoloured (old c hc) (new c hc)).uncoloured_iff

/-- A list on one line, in a list that is printed item by item. -/
theorem uncoloured_exact_nested :
    let v : Value := .list [.list [.int 1, .null], .str "a\nb"]
    let c : Change := ⟨[.property "log"], some (.str "[0]:"), some v, false⟩
    IsClean c.old ∧ IsClean c.new ∧ LeavesRoom c ∧
      uncoloured (change .coloured c) = change .plain c := by
  intro v c
  have old : IsClean c.old := by decide
  have new : IsClean c.new := by decide
  have room : LeavesRoom c := ⟨fun _ => by decide, fun _ => by decide⟩
  have exact := uncoloured_exact [c] (by simpa using fun _ => old) (by simpa using fun _ => new)
  refine ⟨old, new, room, ?_⟩
  simpa using exact.mpr (by simpa using room)

/-- Colours are not only colours: a list of seventy columns is on one line without them only. -/
theorem not_uncoloured_wide :
    ¬∀ cs : List Change, (∀ c ∈ cs, c.op ≠ .add → IsClean c.old) →
      (∀ c ∈ cs, c.op ≠ .remove → IsClean c.new) →
      uncoloured (String.join (cs.map (change .coloured))) =
        String.join (cs.map (change .plain)) := by
  intro always
  let v : Value := .list [.str (String.ofList (List.replicate 66 'a'))]
  have same := always [⟨[], none, some v, false⟩] (by simp [Change.op]) (by
    intro c hc _
    rw [List.mem_singleton.mp hc]
    decide)
  exact absurd same (by decide +kernel)

end Report

end TreeDelta
