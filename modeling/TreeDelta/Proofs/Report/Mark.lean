import TreeDelta.Proofs.Report.Layout
import TreeDelta.Report.Print

/-!
# Every row of a value carries its mark

A value is printed behind a mark that tells old from new. What is printed line by line carries the
mark in every row (`Report.marked_lines`), but an empty text has no line to carry it. Keys and lists
on one line are written behind the mark as they are, so a line feed inside starts a row without the
mark. The marks are complete exactly when neither happens (`Report.marked_value_exact`). A list on
one line has a line feed only if its layout has become short by cutting a string with both kinds of
quotes.

## Main definitions

* `Report.Written`, `Report.written`: the texts of a value that are written behind marks as they
  are.
* `Report.Indents`: a mark, or some steps further in.
* `Report.Kept`: properties of texts that printing keeps.
* `Report.KeepsRows`: values that are printed in marked rows, by their keys and strings.
* `Report.ToldApart`: changes with rows that show what they belong to.

## Main results

* `Report.item_eq`, `Report.value_cases`: values are printed as written, or line by line.
* `Report.marked_printAll_iff`: where the rows of what is written are marked.
* `Report.marked_value_exact`: where the rows of a value are marked.
-/

namespace TreeDelta

namespace Report

open Text

/-! ### Texts line by line -/

/-- The printed form of a text is made of lines behind marks, and the last one ends in a line feed,
which is supplied if the text does not have it. -/
theorem exists_lines {s : String} (hs : s ≠ "") (mark : String) :
    ∃ init last, (∀ l ∈ init ++ [last], '\n' ∉ l.dropLast) ∧ last.getLast? = some '\n' ∧
      (lines mark s).toList = (init ++ [last]).flatMap (mark.toList ++ ·) := by
  have whole := flatten_linesOf s.toList
  have written : (lines mark s).toList = (linesOf s.toList).flatMap (mark.toList ++ ·) ++
      if s.toList.getLast? == some '\n' then [] else ['\n'] := by
    rw [lines, String.toList_append, String.toList_join, Text.lines, List.map_map,
      List.flatMap_map]
    congr 1
    · simp
    · split <;> rfl
  have inner : ∀ l ∈ linesOf s.toList, '\n' ∉ l.dropLast := fun l hl => (of_mem_linesOf hl).2
  have full : ∀ l ∈ linesOf s.toList, l ≠ [] := fun l hl => (of_mem_linesOf hl).1
  rcases List.eq_nil_or_concat (linesOf s.toList) with none_there | ⟨init, last, cut⟩
  · rw [none_there] at whole
    exact absurd (String.toList_eq_nil_iff.mp whole.symm) hs
  · rw [List.concat_eq_append] at cut
    rw [cut] at whole written inner full
    have last_char : s.toList.getLast? = last.getLast? := by
      have there : last ≠ [] := full last (by simp)
      rw [← whole, List.flatten_append, List.flatten_singleton, List.getLast?_append,
        Option.or_of_isSome (by simpa using there)]
    -- The line feed that is added belongs to the last line.
    by_cases ended : s.toList.getLast? = some '\n'
    · refine ⟨init, last, inner, last_char ▸ ended, ?_⟩
      rw [written, ended]
      simp
    · refine ⟨init, last ++ ['\n'], ?_, by simp, ?_⟩
      · rw [List.forall_mem_append] at inner ⊢
        refine ⟨inner.1, ?_⟩
        simpa using feed_not_mem_of_getLast? (inner.2 last (by simp)) (last_char ▸ ended)
      · rw [written, if_neg (by simpa using ended)]
        simp

/-- **Every row of a printed text is marked**, unless the text is empty. -/
theorem marked_lines {mark s : String} (hm : IsRow mark) (hs : s ≠ "") :
    Marked mark (lines mark s) := by
  obtain ⟨init, last, inner, -, written⟩ := exists_lines hs mark
  rw [Marked, written]
  exact prefix_of_mem_rows_flatMap hm inner

/-- An empty text is printed as a line feed, without a mark: it has no lines that could be
marked. -/
theorem lines_empty (mark : String) : lines mark "" = "\n" := by
  simp [lines, Text.lines, linesOf]

/-- A printed text ends in a line feed, so that what comes behind it starts a new row. -/
theorem getLast?_lines (mark s : String) : (lines mark s).toList.getLast? = some '\n' := by
  by_cases hs : s = ""
  · rw [hs, lines_empty]
    rfl
  · obtain ⟨init, last, -, ended, written⟩ := exists_lines hs mark
    rw [written, List.flatMap_append, List.getLast?_append, List.flatMap_singleton,
      List.getLast?_append, ended]
    rfl

/-! ### What is written behind a mark -/

/-- A text that is written behind a mark, with a line feed behind it. -/
structure Written where
  /-- The mark. -/
  mark : String
  /-- The text. -/
  text : String

/-- The mark, the text and the line feed. -/
def Written.print (w : Written) : String := w.mark ++ w.text ++ "\n"

/-- What is written one after the other, each with its line feed. -/
def printAll (ws : List Written) : String := String.join (ws.map Written.print)

/-- What is written for a value without items below its key: one row, or the key and the lines of
the text one step further in. -/
def writtenField (mark key s : String) : List Written :=
  if s.toList.contains '\n' then
    ⟨mark, key ++ ":"⟩ :: (Text.lines s).map fun line => ⟨mark ++ step, dropBreak line⟩
  else [⟨mark, key ++ ": " ++ s⟩]

mutual

/-- What is written for a value below its key. -/
def writtenItem (mark key : String) : Value → List Written
  | .dict es => ⟨mark, key ++ ":"⟩ :: writtenEntries (mark ++ step) es
  | .list vs =>
    ⟨mark, key ++ ":"⟩ ::
      (if isShort (mark ++ step) (Value.list vs).layout
        then [⟨mark ++ step, (Value.list vs).layout⟩]
        else writtenItems (mark ++ step) 0 vs)
  | v => writtenField mark key (text v)

/-- What is written for the entries of a dictionary, in their order and under the display of their
keys. -/
def writtenEntries (mark : String) : List (Value × Value) → List Written
  | [] => []
  | (k, v) :: es => writtenItem mark k.display v ++ writtenEntries mark es

/-- What is written for the items of a list, with indices from `i` on, which stand in brackets for
the keys. -/
def writtenItems (mark : String) (i : Nat) : List Value → List Written
  | [] => []
  | v :: vs => writtenItem mark ("[" ++ toString i ++ "]") v ++ writtenItems mark (i + 1) vs

end

/-- What is written for a dictionary or a list with items; other values are printed line by
line. -/
def written (mark : String) : Value → List Written
  | .dict (e :: es) => writtenEntries mark (e :: es)
  | .list (v :: vs) =>
    let s := (Value.list (v :: vs)).layout
    if isShort mark s then [⟨mark, s⟩] else writtenItems mark 0 (v :: vs)
  | _ => []

/-- Writing some texts and then some more is writing them all. -/
theorem printAll_append (ws us : List Written) :
    printAll (ws ++ us) = printAll ws ++ printAll us := by
  simp [printAll]

/-- Writing a text first and then the others, as the definition of `printAll` has it. -/
theorem printAll_cons (w : Written) (ws : List Written) :
    printAll (w :: ws) = w.print ++ printAll ws := by
  simp [printAll]

/-- The key and the line feed are written behind the mark. -/
theorem keyLine_eq (mark key : String) : keyLine mark key = Written.print ⟨mark, key ++ ":"⟩ := by
  simp [keyLine, Written.print, String.append_assoc]

/-- A value without items is printed as written. Printing itself puts texts together and does not
keep them apart. -/
theorem field_eq (mark key s : String) : field mark key s = printAll (writtenField mark key s) := by
  rw [field, writtenField]
  split
  · rw [printAll_cons, keyLine_eq, printAll, List.map_map]
    rfl
  · simp [printAll, Written.print, String.append_assoc]

mutual

/-- An item is printed as written. This goes by recursion, together with entries and items. -/
theorem item_eq (mark key : String) : ∀ v, item mark key v = printAll (writtenItem mark key v)
  | .dict es => by
      rw [item, writtenItem, printAll_cons, keyLine_eq, entries_eq]
  | .list vs => by
      rw [item, writtenItem, printAll_cons, keyLine_eq, items_eq]
      split
      · simp [printAll, Written.print]
      · rfl
  | .missing | .null | .bool _ | .int _ | .float _ | .complex _ _ | .str _ | .bytes _ | .tuple _
  | .set _ | .function _ | .object _ _ _ | .hooked _ _ | .path _ | .pattern _ => by
      simp only [item, writtenItem, field_eq]

/-- Entries are printed as written, each below its key. -/
theorem entries_eq (mark : String) :
    ∀ es, entries mark es = printAll (writtenEntries mark es)
  | [] => rfl
  | (k, v) :: es => by
      rw [entries, writtenEntries, printAll_append, item_eq, entries_eq]

/-- Items are printed as written, each below its index. -/
theorem items_eq (mark : String) (i : Nat) :
    ∀ vs, items mark i vs = printAll (writtenItems mark i vs)
  | [] => rfl
  | v :: vs => by
      rw [items, writtenItems, printAll_append, item_eq, items_eq]

end

/-! ### Items one by one -/

/-- The entries of a dictionary are written one by one, all behind the same mark. -/
theorem writtenEntries_eq (mark : String) (es : List (Value × Value)) :
    writtenEntries mark es = es.flatMap fun e => writtenItem mark e.1.display e.2 := by
  induction es with
  | nil => rfl
  | cons e es ih => rw [writtenEntries, ih, List.flatMap_cons]

/-- The items of a list are written one by one, all behind the same mark. -/
theorem writtenItems_eq (mark : String) (i : Nat) (vs : List Value) :
    writtenItems mark i vs =
      (vs.zipIdx i).flatMap fun p => writtenItem mark ("[" ++ toString p.2 ++ "]") p.1 := by
  induction vs generalizing i with
  | nil => rfl
  | cons v vs ih => rw [writtenItems, ih, List.zipIdx_cons, List.flatMap_cons]

/-- A value without items below its key is written as a field. The other cases are containers. -/
theorem writtenItem_of_kind? {v : Value} (h : v.kind? = none) (mark key : String) :
    writtenItem mark key v = writtenField mark key (text v) := by
  cases v with
  | list vs | dict es => exact absurd h (by simp [Value.kind?])
  | _ => simp only [writtenItem]

/-- **Induction over items**: values without items, and containers by what is in them, one step
further in. The mark changes on the way down, so it is part of what is proved. -/
@[elab_as_elim]
theorem itemInduction {motive : String → Value → Prop}
    (field : ∀ mark v, v.kind? = none → motive mark v)
    (dict : ∀ mark es, (∀ e ∈ es, motive (mark ++ step) e.2) → motive mark (.dict es))
    (list : ∀ mark vs, (∀ v ∈ vs, motive (mark ++ step) v) → motive mark (.list vs))
    (mark : String) (v : Value) : motive mark v :=
  match v with
  | .dict es => dict mark es fun e he =>
      have : sizeOf e.2 < 1 + sizeOf es := by
        have inside := List.sizeOf_lt_of_mem he
        obtain ⟨k, w⟩ := e
        simp only [Prod.mk.sizeOf_spec] at inside ⊢
        omega
      itemInduction field dict list (mark ++ step) e.2
  | .list vs => list mark vs fun w hw =>
      have := List.sizeOf_lt_of_mem hw
      itemInduction field dict list (mark ++ step) w
  | .missing | .null | .bool _ | .int _ | .float _ | .complex _ _ | .str _ | .bytes _ | .tuple _
  | .set _ | .function _ | .object _ _ _ | .hooked _ _ | .path _ | .pattern _ =>
      field mark _ rfl
termination_by sizeOf v

/-! ### Indented marks -/

/-- A mark, or some steps further in: the marks behind which the parts of a value are written. -/
inductive Indents (mark : String) : String → Prop
  /-- The mark itself. -/
  | here : Indents mark mark
  /-- One step further in. -/
  | further {m : String} : Indents mark m → Indents mark (m ++ step)

/-- What is further in than one step is further in. So a part of a part is written behind an
indented mark, too. -/
theorem Indents.of_step {mark m : String} (h : Indents (mark ++ step) m) : Indents mark m := by
  induction h with
  | here => exact .further .here
  | further _ ih => exact .further ih

/-- An indented mark starts with the mark. A row behind it is therefore marked. -/
theorem Indents.prefix_toList {mark m : String} (h : Indents mark m) :
    mark.toList <+: m.toList := by
  induction h with
  | here => exact List.prefix_refl _
  | further _ ih =>
      rw [String.toList_append]
      exact ih.trans (List.prefix_append _ _)

/-- An indented mark has no more line feeds than the mark, as a step is made of blanks. -/
theorem Indents.isRow {mark m : String} (h : Indents mark m) (hm : IsRow mark) : IsRow m := by
  induction h with
  | here => exact hm
  | further _ ih => exact ih.append (by decide)

/-- A value without items is written behind its mark, or one step further in. -/
theorem indents_of_mem_writtenField {mark key s : String} :
    ∀ w ∈ writtenField mark key s, Indents mark w.mark := by
  rw [writtenField]
  split
  · refine List.forall_mem_cons.mpr ⟨.here, fun w hw => ?_⟩
    obtain ⟨line, -, rfl⟩ := List.mem_map.mp hw
    exact .further .here
  · exact List.forall_mem_singleton.mpr .here

/-- An item is written behind its mark, or further in, at every depth. -/
theorem indents_of_mem_writtenItem (mark key : String) (v : Value) :
    ∀ w ∈ writtenItem mark key v, Indents mark w.mark := by
  induction mark, v using itemInduction generalizing key with
  | field mark v scalar =>
      rw [writtenItem_of_kind? scalar]
      exact indents_of_mem_writtenField
  | dict mark es ih =>
      rw [writtenItem, writtenEntries_eq]
      refine List.forall_mem_cons.mpr ⟨.here, fun w hw => ?_⟩
      obtain ⟨e, he, hw⟩ := List.mem_flatMap.mp hw
      exact (ih e he _ w hw).of_step
  | list mark vs ih =>
      rw [writtenItem, writtenItems_eq]
      refine List.forall_mem_cons.mpr ⟨.here, fun w hw => ?_⟩
      split at hw
      · obtain rfl := List.mem_singleton.mp hw
        exact .further .here
      · obtain ⟨p, hp, hw⟩ := List.mem_flatMap.mp hw
        exact (ih p.1 (List.fst_mem_of_mem_zipIdx hp) _ w hw).of_step

/-- A container is written behind its mark, or further in. Its entries start at the mark itself. -/
theorem indents_of_mem_written {mark : String} {v : Value} :
    ∀ w ∈ written mark v, Indents mark w.mark := by
  cases v with
  | dict es =>
      cases es with
      | nil => simp [written]
      | cons e es =>
          intro w hw
          rw [written, writtenEntries_eq] at hw
          obtain ⟨e, -, hw⟩ := List.mem_flatMap.mp hw
          exact indents_of_mem_writtenItem mark _ e.2 w hw
  | list vs =>
      cases vs with
      | nil => simp [written]
      | cons v vs =>
          intro w hw
          rw [written, writtenItems_eq] at hw
          split at hw
          · obtain rfl := List.mem_singleton.mp hw
            exact .here
          · obtain ⟨p, -, hw⟩ := List.mem_flatMap.mp hw
            exact indents_of_mem_writtenItem mark _ p.1 w hw
  | _ => simp [written]

/-- What is written ends in a line feed, or is nothing at all. So the rows of two such texts do not
run into each other. -/
theorem isBlock_printAll (ws : List Written) : IsBlock (printAll ws) := by
  induction ws with
  | nil => exact fun hne => absurd rfl hne
  | cons w ws ih =>
      rw [printAll_cons]
      refine IsBlock.append (fun _ => ?_) ih
      rw [Written.print, String.toList_append, List.getLast?_append]
      rfl

/-- **Where rows are marked**: what is written behind marks has marked rows exactly when every text
goes on with marked rows. -/
theorem marked_printAll_iff {mark : String} (hm : IsRow mark) {ws : List Written}
    (h : ∀ w ∈ ws, Indents mark w.mark) :
    Marked mark (printAll ws) ↔ ∀ w ∈ ws, Continues mark w.text := by
  induction ws with
  | nil => simpa [printAll] using marked_empty mark
  | cons w ws ih =>
      obtain ⟨hw, hws⟩ := List.forall_mem_cons.mp h
      have block : IsBlock w.print := by simpa [printAll] using isBlock_printAll [w]
      rw [printAll_cons, block.marked_append_iff, List.forall_mem_cons, ih hws, Written.print,
        marked_line_iff (hw.isRow hm) hw.prefix_toList]

/-- Something is written for every item, at least its key. -/
theorem writtenItem_ne_nil (mark key : String) (v : Value) : writtenItem mark key v ≠ [] := by
  cases v with
  | dict es | list vs => simp [writtenItem]
  | _ =>
      simp only [writtenItem, writtenField]
      split <;> simp

/-- A value is printed line by line, or as written if it is a container that is not empty. -/
theorem value_cases (mark : String) (v : Value) :
    (written mark v = [] ∧ value mark v = lines mark (text v)) ∨
      (written mark v ≠ [] ∧ v ≠ .str "" ∧ value mark v = printAll (written mark v)) := by
  cases v with
  | dict es =>
      cases es with
      | nil => exact .inl ⟨rfl, rfl⟩
      | cons e es =>
          refine .inr ⟨?_, by simp, entries_eq mark _⟩
          simp [written, writtenEntries, writtenItem_ne_nil]
  | list vs =>
      cases vs with
      | nil => exact .inl ⟨rfl, rfl⟩
      | cons w vs =>
          rw [value, list, written]
          split
          · exact .inr ⟨by simp, by simp, by simp [printAll, Written.print]⟩
          · refine .inr ⟨?_, by simp, items_eq mark 0 _⟩
            simp [writtenItems, writtenItem_ne_nil]
  | _ => exact .inl ⟨rfl, rfl⟩

/-- Only the empty string is printed as an empty text. The literals of all other values have a
character. -/
theorem text_eq_empty_iff {v : Value} : text v = "" ↔ v = .str "" := by
  cases v with
  | str s => simp [text]
  | _ => exact iff_of_false (Value.layout_ne_empty rfl) (by simp)

/-- A printed value ends in a line feed, whatever its kind. -/
theorem getLast?_value (mark : String) (v : Value) :
    (value mark v).toList.getLast? = some '\n' := by
  rcases value_cases mark v with ⟨-, printed⟩ | ⟨some_written, -, printed⟩
  · rw [printed]
    exact getLast?_lines mark (text v)
  · rw [printed]
    obtain ⟨w, ws, hw⟩ := List.exists_cons_of_ne_nil some_written
    refine isBlock_printAll _ ?_
    simp [hw, printAll_cons, Written.print]

/-- **Where the rows of a value are marked**: the value is not an empty string behind a mark, and
every text that is written as it is goes on with marked rows. -/
theorem marked_value_iff {mark : String} (hm : IsRow mark) (v : Value) :
    Marked mark (value mark v) ↔
      (v = .str "" → mark = "") ∧ ∀ w ∈ written mark v, Continues mark w.text := by
  rcases value_cases mark v with ⟨none_written, printed⟩ | ⟨-, some_value, printed⟩
  · rw [printed, none_written]
    -- Only the empty string has no line that could carry the mark.
    by_cases hv : v = .str ""
    · rw [hv, show text (.str "") = "" from rfl, lines_empty]
      simp [Marked, rows]
    · have full : text v ≠ "" := text_eq_empty_iff.not.mpr hv
      simp [hv, marked_lines hm full]
  · rw [printed, marked_printAll_iff hm indents_of_mem_written]
    simp [some_value]

/-! ### What the texts have in common -/

/-- A property of texts that printing keeps: where it holds of the keys of values of some kind, it
holds of what is written for them. -/
structure Kept (good : Value → Bool) (P : String → Prop) : Prop where
  /-- A key on a line of its own has it. -/
  keyLine : ∀ {key}, P key → P (key ++ ":")
  /-- The key of an item of a list has it. -/
  index : ∀ i : Nat, P ("[" ++ toString i ++ "]")
  /-- The keys of a dictionary have it. -/
  keys : ∀ {es}, good (.dict es) = true → ∀ e ∈ es, ∃ k, e.1 = .str k ∧ P k
  /-- What is written for a value without items has it. -/
  field : ∀ {mark key v}, v.kind? = none → good v = true → P key →
    ∀ w ∈ writtenField mark key (text v), P w.text
  /-- A list on one line has it. -/
  line : ∀ {mark vs}, (Value.list vs).every good = true →
    isShort mark (Value.list vs).layout = true → P (Value.list vs).layout

namespace Kept

variable {good : Value → Bool} {P : String → Prop}

/-- The values below the keys of a dictionary are of the kind, and the keys have the property. -/
theorem of_mem_dict (h : Kept good P) {es : List (Value × Value)}
    (hv : (Value.dict es).every good = true) {e : Value × Value} (he : e ∈ es) :
    P e.1.display ∧ e.2.every good = true := by
  obtain ⟨node, below⟩ := Value.every_iff.mp hv
  obtain ⟨k, w⟩ := e
  obtain ⟨k, rfl, hk⟩ := h.keys node _ he
  exact ⟨hk, below _ w (Value.mem_entrySteps_iff.mpr ⟨k, rfl, he⟩)⟩

/-- The items of a list are of the kind. Their indices are keys of their own and have the property
anyway. -/
theorem of_mem_list {vs : List Value} (hv : (Value.list vs).every good = true) {v : Value}
    (h : v ∈ vs) : v.every good = true := by
  obtain ⟨c, there⟩ := Value.exists_step_of_mem h
  exact (Value.every_iff.mp hv).2 c v there

/-- The texts of an item have the property, by induction over the item. -/
theorem of_mem_writtenItem (h : Kept good P) (mark : String) {key : String} (hk : P key) (v : Value)
    (hv : v.every good = true) : ∀ w ∈ writtenItem mark key v, P w.text := by
  induction mark, v using itemInduction generalizing key with
  | field mark v scalar =>
      rw [writtenItem_of_kind? scalar]
      exact h.field scalar (Value.every_iff.mp hv).1 hk
  | dict mark es ih =>
      rw [writtenItem, writtenEntries_eq]
      refine List.forall_mem_cons.mpr ⟨h.keyLine hk, fun w hw => ?_⟩
      obtain ⟨e, he, hw⟩ := List.mem_flatMap.mp hw
      obtain ⟨name, there⟩ := h.of_mem_dict hv he
      exact ih e he name there w hw
  | list mark vs ih =>
      rw [writtenItem, writtenItems_eq]
      refine List.forall_mem_cons.mpr ⟨h.keyLine hk, fun w hw => ?_⟩
      split at hw
      · rename_i short
        obtain rfl := List.mem_singleton.mp hw
        exact h.line hv short
      · obtain ⟨p, hp, hw⟩ := List.mem_flatMap.mp hw
        have mem := List.fst_mem_of_mem_zipIdx hp
        exact ih p.1 mem (h.index p.2) (of_mem_list hv mem) w hw

/-- The texts of a container have the property, as its parts are written as items. -/
theorem of_mem_written (h : Kept good P) {mark : String} {v : Value} (hv : v.every good = true) :
    ∀ w ∈ written mark v, P w.text := by
  intro w hw
  cases v with
  | dict es =>
      cases es with
      | nil => exact absurd hw (by simp [written])
      | cons e es =>
          rw [written, writtenEntries_eq] at hw
          obtain ⟨e, he, hw⟩ := List.mem_flatMap.mp hw
          obtain ⟨name, there⟩ := h.of_mem_dict hv he
          exact h.of_mem_writtenItem mark name e.2 there w hw
  | list vs =>
      cases vs with
      | nil => exact absurd hw (by simp [written])
      | cons v vs =>
          rw [written, writtenItems_eq] at hw
          split at hw
          · rename_i short
            obtain rfl := List.mem_singleton.mp hw
            exact h.line hv short
          · obtain ⟨p, hp, hw⟩ := List.mem_flatMap.mp hw
            have there := of_mem_list hv (List.fst_mem_of_mem_zipIdx hp)
            exact h.of_mem_writtenItem mark (h.index p.2) p.1 there w hw
  | _ => exact absurd hw (by simp [written])

end Kept

/-! ### Values with marked rows -/

/-- Whether a node of data is printed in marked rows: a key has no line feed, and no string in a
list has both kinds of quotes. -/
def keepsRows : Value → Bool
  | .null | .bool _ | .int _ | .float _ | .complex _ _ | .str _ | .bytes _ => true
  | .list vs => (Value.list vs).every Value.isPlainlyQuoted
  | .dict es => es.all fun e => match e.1 with
    | .str k => decide (IsRow k)
    | _ => false
  | _ => false

/-- A list that is printed on one line is one row, when no string in it has both kinds of quotes. -/
theorem isRow_layout_of_isShort {mark : String} {vs : List Value}
    (h : (Value.list vs).every Value.isPlainlyQuoted = true)
    (short : isShort mark (Value.list vs).layout = true) : IsRow (Value.list vs).layout := by
  have narrow : (Value.list vs).layout.length < pageWidth := by
    have fits := of_decide_eq_true (Bool.and_eq_true_iff.mp short).1
    rw [lineWidth] at fits
    rw [pageWidth]
    omega
  rw [Value.layout_eq_flat h narrow]
  exact (Value.consists_flat (Value.every_mono (fun _ => Value.isData_of_isPlainlyQuoted) h)).isRow

/-- The texts of a value without items below a key are rows: a text with line feeds is written line
by line. -/
theorem isRow_of_mem_writtenField {mark key s : String} (hk : IsRow key) :
    ∀ w ∈ writtenField mark key s, IsRow w.text := by
  rw [writtenField]
  split
  · refine List.forall_mem_cons.mpr ⟨hk.append (by decide), fun w hw => ?_⟩
    obtain ⟨line, -, rfl⟩ := List.mem_map.mp hw
    exact isRow_dropBreak line
  · rename_i one
    rw [List.contains_iff_mem] at one
    exact List.forall_mem_singleton.mpr ((hk.append (by decide)).append one)

/-- Printing keeps values of this kind in rows, so no text that is written brings in an unmarked
row. -/
theorem kept_isRow : Kept keepsRows IsRow where
  keyLine hk := hk.append (by decide)
  index i := (IsRow.append (by decide) (isRow_nat i)).append (by decide)
  keys := by
    intro es node e he
    have string := List.all_eq_true.mp node e he
    obtain ⟨k, v⟩ := e
    cases k with
    | str k => exact ⟨k, rfl, of_decide_eq_true string⟩
    | _ => exact absurd string (by simp)
  field := fun _ _ hk => isRow_of_mem_writtenField hk
  line := fun hv short => isRow_layout_of_isShort (Value.every_iff.mp hv).1 short

/-- A value other than the empty string that is printed in marked rows. The empty string is no
matter of its nodes, as it does no harm below a key. -/
def KeepsRows (v : Value) : Prop := v ≠ .str "" ∧ v.every keepsRows = true

/-- The rows of such a value are marked, behind any mark that is a row. -/
theorem KeepsRows.marked {mark : String} {v : Value} (h : KeepsRows v) (hm : IsRow mark) :
    Marked mark (value mark v) :=
  (marked_value_iff hm v).mpr ⟨fun empty => absurd empty h.1,
    fun w hw => continues_of_isRow mark (kept_isRow.of_mem_written h.2 w hw)⟩

/-! ### Changes -/

/-- What has become of a value, in words. A replacement also tells the types, if these are
different. -/
def changeWords (c : Change) : String :=
  match c.op with
  | .add => "added"
  | .remove => "deleted"
  | .replace => replacedWords c.old c.new

/-- The old value of a change as it is printed. An addition has none. -/
def oldPart (p : Palette) (c : Change) : String :=
  if c.op = .add then "" else value p.remove c.old

/-- The new value of a change as it is printed. A removal has none. -/
def newPart (p : Palette) (c : Change) : String :=
  if c.op = .remove then "" else value p.add c.new

/-- A change is printed as its header, its old value and its new value, each of them from a new row
on. -/
theorem changeBody_eq (p : Palette) (c : Change) :
    changeBody p c = header p (changeWords c) c.path ++ oldPart p c ++ newPart p c := by
  rw [changeBody, changeWords, oldPart, newPart]
  cases c.op <;> simp

/-- Names of types are visible, except for objects of an unknown class. -/
theorem consists_typeName {v : Value} (h : ∀ label name payload, v ≠ .object label name payload) :
    Consists isVisible v.typeName := by
  cases v with
  | object label name payload => exact absurd rfl (h label name payload)
  | _ => rw [Value.typeName]; decide

/-- The words of a change between values without such objects are visible. So they have no line
feeds. -/
theorem consists_changeWords {c : Change}
    (old : c.op ≠ .add → ∀ label name payload, c.old ≠ .object label name payload)
    (new : c.op ≠ .remove → ∀ label name payload, c.new ≠ .object label name payload) :
    Consists isVisible (changeWords c) := by
  rw [changeWords]
  cases hop : c.op with
  | add => exact (by decide : Consists isVisible "added")
  | remove => exact (by decide : Consists isVisible "deleted")
  | replace =>
      rw [hop] at old new
      show Consists isVisible (replacedWords c.old c.new)
      rw [replacedWords]
      split
      · decide
      · exact ((((Consists.append (by decide) (consists_typeName (old (by simp)))).append
          (by decide)).append (consists_typeName (new (by simp)))).append (by decide))

/-- The header of a change is one row behind its mark. The path is in it by its text, whose quoted
keys have no line feeds. -/
theorem marked_header {p : Palette} (hi : IsRow p.info) (hr : IsRow p.reset) {what : String}
    (hw : IsRow what) (q : Path) : Marked p.info (header p what q) := by
  have whole : header p what q = p.info ++ (what ++ " " ++ q.render ++ ":" ++ p.reset) ++ "\n" := by
    simp [header, String.append_assoc]
  rw [whole, marked_line_iff hi (List.prefix_refl _)]
  exact continues_of_isRow _
    ((((hw.append (by decide)).append q.consists_render.isRow).append (by decide)).append hr)

/-- No two of the marks of a report are in front of one row, with colours or without. -/
theorem pairwise_marks (colour : Bool) :
    let p := Palette.ofColour colour
    [p.info, p.remove, p.add].Pairwise fun m m' =>
      ∀ row : List Char, ¬(m.toList <+: row ∧ m'.toList <+: row) := by
  intro p
  have apart : [p.info, p.remove, p.add].Pairwise fun m m' =>
      ¬(m.toList <+: m'.toList ∨ m'.toList <+: m.toList) := by
    cases colour <;> decide
  exact apart.imp fun distinct row both => distinct (List.prefix_or_prefix_of_prefix both.1 both.2)

/-- The rows of a change are those of its header, its old value and its new value, each with a mark
of its own, and no row has two of these marks. -/
structure ToldApart (p : Palette) (c : Change) : Prop where
  /-- The rows come one group after the other. -/
  groups : rows (changeBody p c).toList = rows (header p (changeWords c) c.path).toList ++
    rows (oldPart p c).toList ++ rows (newPart p c).toList
  /-- Those of the header are marked. -/
  header : Marked p.info (header p (changeWords c) c.path)
  /-- Those of the old value are marked. -/
  old : Marked p.remove (oldPart p c)
  /-- Those of the new value are marked. -/
  new : Marked p.add (newPart p c)
  /-- The marks are different at the start of a row. -/
  apart : [p.info, p.remove, p.add].Pairwise fun m m' =>
    ∀ row : List Char, ¬(m.toList <+: row ∧ m'.toList <+: row)

/-- Changes between values that are printed in marked rows have rows that are told apart. A mark
alone tells which part of a change its row belongs to. -/
theorem toldApart (colour : Bool) {c : Change} (old : c.op ≠ .add → KeepsRows c.old)
    (new : c.op ≠ .remove → KeepsRows c.new) : ToldApart (Palette.ofColour colour) c := by
  have marks : IsRow (Palette.ofColour colour).info ∧ IsRow (Palette.ofColour colour).remove ∧
      IsRow (Palette.ofColour colour).add ∧ IsRow (Palette.ofColour colour).reset := by
    cases colour <;> decide
  obtain ⟨info, remove, add, reset⟩ := marks
  generalize hp : Palette.ofColour colour = p at info remove add reset
  have no_object : ∀ {v : Value}, KeepsRows v → ∀ label name payload,
      v ≠ .object label name payload := by
    rintro v kept label name payload rfl
    exact absurd kept.2 (by simp [Value.every, keepsRows])
  have words := (consists_changeWords (fun h => no_object (old h)) fun h => no_object (new h)).isRow
  have head : IsBlock (header p (changeWords c) c.path) := fun _ => by
    rw [header, String.toList_append, List.getLast?_append]
    rfl
  have old_block : IsBlock (oldPart p c) := by
    rw [oldPart]
    split
    · exact fun hne => absurd rfl hne
    · exact fun _ => getLast?_value p.remove c.old
  refine ⟨?_, marked_header info reset words c.path, ?_, ?_, hp ▸ pairwise_marks colour⟩
  · rw [changeBody_eq, String.append_assoc, String.toList_append, head.rows_append,
      String.toList_append, old_block.rows_append, List.append_assoc]
  · rw [oldPart]
    split
    · exact marked_empty p.remove
    · rename_i there
      exact (old there).marked remove
  · rw [newPart]
    split
    · exact marked_empty p.add
    · rename_i there
      exact (new there).marked add

/-- **Every printed row of a value carries its mark**, exactly when the value is not an empty string
behind a mark, and every text that is written behind a mark as it is goes on with the mark after
each of its line feeds. This is so when no key has a line feed and no string in a list has both
kinds of quotes; in changes between such values, the rows of headers, old values and new values are
told apart. A printed value always ends in a line feed. -/
theorem marked_value_exact {mark : String} (hm : IsRow mark) (v : Value) :
    (value mark v).toList.getLast? = some '\n' ∧
      value mark v =
        (if written mark v = [] then lines mark (text v) else printAll (written mark v)) ∧
      (Marked mark (value mark v) ↔
        (v = .str "" → mark = "") ∧ ∀ w ∈ written mark v, Continues mark w.text) ∧
      (KeepsRows v → Marked mark (value mark v)) ∧
      ∀ (colour : Bool) (c : Change), (c.op ≠ .add → KeepsRows c.old) →
        (c.op ≠ .remove → KeepsRows c.new) → ToldApart (Palette.ofColour colour) c := by
  refine ⟨getLast?_value mark v, ?_, marked_value_iff hm v, fun kept => kept.marked hm,
    fun colour _ old new => toldApart colour old new⟩
  rcases value_cases mark v with ⟨none_written, printed⟩ | ⟨some_written, -, printed⟩
  · rw [if_pos none_written, printed]
  · rw [if_neg some_written, printed]

/-- Texts with line feeds, in a list within a dictionary. -/
theorem marked_value_exact_nested :
    let v : Value :=
      .dict [(.str "log", .list [.str "a\nb", .str "it's"]), (.str "", .list [.int 1])]
    IsRow "-  " ∧ KeepsRows v ∧ Marked "-  " (value "-  " v) ∧
      ToldApart .plain ⟨[], none, some v, false⟩ := by
  intro v
  have row : IsRow "-  " := by decide
  have kept : KeepsRows v := ⟨by simp [v], by decide⟩
  obtain ⟨-, -, -, marked, told⟩ := marked_value_exact row v
  exact ⟨row, kept, marked kept, told false _ (fun h => absurd rfl h) fun _ => kept⟩

/-- Not every printed row is marked: an empty string is printed as a line feed only. -/
theorem not_marked_empty :
    ¬∀ (mark : String) (v : Value), IsRow mark → Marked mark (value mark v) := by
  intro always
  have marked := always "-  " (.str "") (by decide)
  rw [show value "-  " (.str "") = "\n" from lines_empty "-  "] at marked
  exact absurd marked (by decide)

/-- A line feed in a key. -/
example : value "-  " (.dict [(.str "a\nb", .int 1)]) = "-  a\nb: 1\n" := by
  cbv

end Report

end TreeDelta
