import TreeDelta.Proofs.Report.Mark
import TreeDelta.Proofs.Report.Tally

/-!
# Lists on one line and item by item

A list is put on one line if it is short enough behind its mark. Behind a longer mark no more lists
are short enough, and a value is written alike exactly when every list on one line leaves room for
what the mark is longer by.

How many lists are printed item by item can be read off the characters that are written
(`Report.total_writtenItem`). Item by item, a list has one colon more for each opening bracket than
on one line, whatever its items are. So the colons less the opening brackets, the balance of what is
written, are those of the literal and one more for each list that is printed item by item.

## Main definitions

* `Report.measured`: the lists of a value that are measured.
* `Report.itemised`: how many of them are printed item by item.
* `Report.HasRoom`: lists that are printed alike behind a longer mark.
* `Report.balance`, `Report.total`: the colons of texts less their opening brackets.

## Main results

* `Report.widens_measured`: a longer mark only adds to the lists that are printed item by item.
* `Report.written_append`: what has room is written alike behind a longer mark.
* `Report.total_written`: the balance of what is written.
-/

namespace TreeDelta

namespace Report

open Text (tally)

/-! ### Measured lists -/

mutual

/-- The lists of a value that are measured, with their marks: a list within one line is not. -/
def measured (mark : String) : Value → List Written
  | .dict es => measuredEntries (mark ++ step) es
  | .list vs =>
    ⟨mark, (Value.list vs).layout⟩ ::
      (if isShort mark (Value.list vs).layout then [] else measuredItems (mark ++ step) vs)
  | _ => []

/-- The lists in the entries of a dictionary that are measured, all of them one step further in. -/
def measuredEntries (mark : String) : List (Value × Value) → List Written
  | [] => []
  | (_, v) :: es => measured mark v ++ measuredEntries mark es

/-- The lists in the items of a list that are measured, where the list itself is not on one line. -/
def measuredItems (mark : String) : List Value → List Written
  | [] => []
  | v :: vs => measured mark v ++ measuredItems mark vs

end

/-- The values of a dictionary are measured one by one. Keys are never measured. -/
theorem measuredEntries_eq (mark : String) (es : List (Value × Value)) :
    measuredEntries mark es = es.flatMap fun e => measured mark e.2 := by
  induction es with
  | nil => rfl
  | cons e es ih => rw [measuredEntries, ih, List.flatMap_cons]

/-- The items of a list are measured one by one, all behind the same mark. -/
theorem measuredItems_eq (mark : String) (vs : List Value) :
    measuredItems mark vs = vs.flatMap (measured mark) := by
  induction vs with
  | nil => rfl
  | cons v vs ih => rw [measuredItems, ih, List.flatMap_cons]

/-- A value without items has no list to measure. Its text is printed in as many columns as it
takes. -/
theorem measured_of_kind? {v : Value} (h : v.kind? = none) (mark : String) :
    measured mark v = [] := by
  cases v with
  | list vs | dict es => exact absurd h (by simp [Value.kind?])
  | _ => simp only [measured]

/-- The number of lists that are printed item by item, as the layout behind their mark is too long
for one line. -/
def itemised (ws : List Written) : Nat := ws.countP fun w => !isShort w.mark w.text

/-- Whether every list on one line leaves room for a longer mark. Nothing is asked of lists that are
printed item by item already. -/
def HasRoom (code : String) (ws : List Written) : Prop :=
  ∀ w ∈ ws, isShort w.mark w.text = true →
    code.length + w.mark.length + w.text.length < lineWidth

instance (code : String) (ws : List Written) : Decidable (HasRoom code ws) :=
  inferInstanceAs (Decidable (∀ w ∈ _, _ → _))

/-- A list is on one line behind a longer mark when it is so behind the mark and leaves room. Its
layout is the same behind both marks. -/
theorem isShort_append_iff {code mark s : String} :
    isShort (code ++ mark) s = true ↔
      isShort mark s = true ∧ code.length + mark.length + s.length < lineWidth := by
  simp only [isShort, Bool.and_eq_true, decide_eq_true_eq, String.length_append]
  grind

/-- What a longer mark does to measured lists: no fewer of them are printed item by item, and more
of them are unless there is room. -/
def Widens (code : String) (ws us : List Written) : Prop :=
  itemised ws ≤ itemised us ∧ (itemised us ≤ itemised ws → HasRoom code ws)

/-- Measured lists behind each other: the numbers add up, and there is room in both or in
neither. -/
theorem Widens.append {code : String} {ws us ws' us' : List Written} (h : Widens code ws us)
    (h' : Widens code ws' us') : Widens code (ws ++ ws') (us ++ us') := by
  simp only [Widens, itemised, List.countP_append] at h h' ⊢
  refine ⟨by omega, fun few => List.forall_mem_append.mpr ⟨h.2 (by omega), h'.2 (by omega)⟩⟩

/-- Measured lists of many values, by induction on how many they are. -/
theorem Widens.flatMap {code : String} {α : Type} {f g : α → List Written} {as : List α}
    (h : ∀ a ∈ as, Widens code (f a) (g a)) : Widens code (as.flatMap f) (as.flatMap g) := by
  induction as with
  | nil => exact ⟨Nat.le_refl _, fun _ w hw => absurd hw (by simp)⟩
  | cons a as ih =>
      obtain ⟨ha, has⟩ := List.forall_mem_cons.mp h
      rw [List.flatMap_cons, List.flatMap_cons]
      exact ha.append (ih has)

/-- **A longer mark only adds to the lists that are printed item by item.** A list that leaves its
line brings the lists in it into the count, and takes none away. -/
theorem widens_measured (code mark : String) (v : Value) :
    Widens code (measured mark v) (measured (code ++ mark) v) := by
  induction mark, v using itemInduction with
  | field mark v scalar =>
      rw [measured_of_kind? scalar, measured_of_kind? scalar]
      exact ⟨Nat.le_refl _, fun _ w hw => absurd hw (by simp)⟩
  | dict mark es ih =>
      rw [measured, measured, measuredEntries_eq, measuredEntries_eq, String.append_assoc]
      exact .flatMap ih
  | list mark vs ih =>
      rw [measured, measured, measuredItems_eq, measuredItems_eq, String.append_assoc]
      have below : Widens code (vs.flatMap (measured (mark ++ step)))
          (vs.flatMap (measured (code ++ (mark ++ step)))) := .flatMap ih
      generalize (Value.list vs).layout = s
      by_cases coloured : isShort (code ++ mark) s = true
      · obtain ⟨plain, room⟩ := isShort_append_iff.mp coloured
        rw [if_pos plain, if_pos coloured]
        refine ⟨by simp [itemised, plain, coloured], fun _ => ?_⟩
        exact List.forall_mem_singleton.mpr fun _ => room
      · by_cases plain : isShort mark s = true
        · -- The list is on one line only without the code, so more lists are printed item by item.
          rw [if_pos plain, if_neg coloured]
          simp [Widens, itemised, plain, coloured]
        · rw [if_neg plain, if_neg coloured]
          obtain ⟨more, room⟩ := below
          simp only [Widens, itemised, List.countP_cons, plain, coloured] at more room ⊢
          refine ⟨by simpa using more, fun few => List.forall_mem_cons.mpr
            ⟨fun short => absurd short plain, room (by simpa using few)⟩⟩

/-- A text behind a longer mark: the code comes in front of the mark, as a colour does. -/
def coded (code : String) (w : Written) : Written := ⟨code ++ w.mark, w.text⟩

/-- Different texts are different behind a longer mark, because the mark can be had back. -/
theorem coded_injective (code : String) : Function.Injective (coded code) := by
  rintro ⟨m, t⟩ ⟨m', t'⟩ equal
  simpa [coded] using equal

/-- A value without items is written alike behind a longer mark, without any condition: the mark is
not measured for it. -/
theorem writtenField_append (code mark key s : String) :
    writtenField (code ++ mark) key s = (writtenField mark key s).map (coded code) := by
  rw [writtenField, writtenField]
  split
  · simp [coded, String.append_assoc]
  · rfl

/-- Entries with room are written alike behind a longer mark, when every value is. -/
theorem writtenEntries_append {code mark : String} {es : List (Value × Value)}
    (ih : ∀ e ∈ es, ∀ key, HasRoom code (measured (mark ++ step) e.2) →
      writtenItem (code ++ mark) key e.2 = (writtenItem mark key e.2).map (coded code))
    (h : HasRoom code (measuredEntries (mark ++ step) es)) :
    writtenEntries (code ++ mark) es = (writtenEntries mark es).map (coded code) := by
  rw [measuredEntries_eq] at h
  rw [writtenEntries_eq, writtenEntries_eq, List.map_flatMap]
  exact List.flatMap_congr fun e he => ih e he _ fun w hw =>
    h w (List.mem_flatMap.mpr ⟨e, he, hw⟩)

/-- A list with room is written alike behind a longer mark, when every item is. -/
theorem writtenList_append {code mark : String} {vs : List Value}
    (ih : ∀ v ∈ vs, ∀ key, HasRoom code (measured (mark ++ step) v) →
      writtenItem (code ++ mark) key v = (writtenItem mark key v).map (coded code))
    (h : HasRoom code (measured mark (.list vs))) :
    (if isShort (code ++ mark) (Value.list vs).layout
        then [⟨code ++ mark, (Value.list vs).layout⟩] else writtenItems (code ++ mark) 0 vs) =
      (if isShort mark (Value.list vs).layout
        then [⟨mark, (Value.list vs).layout⟩] else writtenItems mark 0 vs).map (coded code) := by
  rw [measured, measuredItems_eq] at h
  by_cases plain : isShort mark (Value.list vs).layout = true
  · have room := (List.forall_mem_cons.mp h).1 plain
    rw [if_pos plain, if_pos (isShort_append_iff.mpr ⟨plain, room⟩)]
    rfl
  · rw [if_neg plain] at h
    rw [if_neg plain, if_neg fun coloured => plain (isShort_append_iff.mp coloured).1,
      writtenItems_eq, writtenItems_eq, List.map_flatMap]
    refine List.flatMap_congr fun p hp => ?_
    have mem := List.fst_mem_of_mem_zipIdx hp
    exact ih p.1 mem _ fun w hw =>
      h w (List.mem_cons_of_mem _ (List.mem_flatMap.mpr ⟨p.1, mem, hw⟩))

/-- **An item with room is written alike behind a longer mark.** -/
theorem writtenItem_append {code mark : String} (key : String) {v : Value}
    (h : HasRoom code (measured (mark ++ step) v)) :
    writtenItem (code ++ mark) key v = (writtenItem mark key v).map (coded code) := by
  induction mark, v using itemInduction generalizing key with
  | field mark v scalar =>
      rw [writtenItem_of_kind? scalar, writtenItem_of_kind? scalar]
      exact writtenField_append code mark key _
  | dict mark es ih =>
      rw [measured] at h
      rw [writtenItem, writtenItem, String.append_assoc, List.map_cons]
      exact congrArg _ (writtenEntries_append ih h)
  | list mark vs ih =>
      rw [writtenItem, writtenItem, String.append_assoc, List.map_cons]
      exact congrArg _ (writtenList_append ih h)

/-- **A container with room is written alike behind a longer mark.** -/
theorem written_append {code mark : String} {v : Value} (h : HasRoom code (measured mark v)) :
    written (code ++ mark) v = (written mark v).map (coded code) := by
  cases v with
  | dict es =>
      cases es with
      | nil => rfl
      | cons e es => exact writtenEntries_append (fun e _ key => writtenItem_append key) h
  | list vs =>
      cases vs with
      | nil => rfl
      | cons v vs => exact writtenList_append (fun v _ key => writtenItem_append key) h
  | _ => rfl

/-- Nothing is written behind marks for values that are printed line by line, whatever the mark. -/
theorem written_eq_nil_iff {mark : String} {v : Value} :
    written mark v = [] ↔ v.kind? = none ∨ v = .list [] ∨ v = .dict [] := by
  cases v with
  | list vs =>
      cases vs with
      | nil => simp [written]
      | cons v vs =>
          simp only [written, Value.kind?]
          split <;> simp [writtenItems, writtenItem_ne_nil]
  | dict es => cases es <;> simp [written, writtenEntries, writtenItem_ne_nil, Value.kind?]
  | _ => simp [written, Value.kind?]

/-- A value that is printed line by line has room behind a mark that is not too long. -/
theorem hasRoom_of_written_nil {code mark : String} {v : Value} (h : written mark v = [])
    (narrow : code.length + mark.length + "[]".length < lineWidth) :
    HasRoom code (measured mark v) := by
  rcases written_eq_nil_iff.mp h with scalar | rfl | rfl
  · rw [measured_of_kind? scalar]
    exact fun w hw => absurd hw (by simp)
  · have empty : (Value.list []).layout = "[]" := by decide
    rw [measured, empty]
    refine List.forall_mem_cons.mpr ⟨fun _ => narrow, fun w hw => absurd hw ?_⟩
    split <;> simp [measuredItems]
  · exact fun w hw => absurd hw (by simp [measured, measuredEntries])

/-! ### Colons and brackets -/

/-- The colons of a text less its opening brackets. A list on one line has a bracket of its own, and
one that is printed item by item has not, so this number tells them apart. -/
def balance (s : String) : Int := tally ':' s - tally '[' s

/-- The balance of two texts behind each other is the sum of their balances. -/
@[simp] theorem balance_append (s t : String) : balance (s ++ t) = balance s + balance t := by
  simp only [balance, Text.tally_append]
  omega

/-- A text without colons and opening brackets has no balance, such as the indentation and the signs
in front of values. -/
theorem balance_eq_zero {s : String} (colon : ':' ∉ s.toList) (bracket : '[' ∉ s.toList) :
    balance s = 0 := by
  rw [balance, Text.tally_eq_zero_iff.mpr colon, Text.tally_eq_zero_iff.mpr bracket]
  rfl

/-- The balance of many texts is the number of their colons less that of their brackets. -/
theorem sum_balance (ts : List String) :
    (ts.map balance).sum = ((ts.map (tally ':')).sum : Nat) - ((ts.map (tally '[')).sum : Nat) := by
  induction ts with
  | nil => rfl
  | cons t ts ih =>
      simp only [List.map_cons, List.sum_cons, ih, balance]
      omega

/-- The balance of joined texts is the sum of their balances, as the separators have none. -/
theorem balance_commaJoin (ts : List String) :
    balance (Value.commaJoin ts) = (ts.map balance).sum := by
  rw [balance, Value.commaJoin, Text.tally_intercalate (by decide),
    Text.tally_intercalate (by decide), sum_balance]

/-- A colon and an opening bracket are quoted as they are, and nothing else is quoted with one of
them. -/
theorem count_quotedChar_self {x : Char} (hx : x = ':' ∨ x = '[') (c : Char) :
    (Text.quotedChar '"' c).count x = [c].count x := by
  obtain ⟨itself, numeral, letter⟩ : Text.quotedChar '"' x = [x] ∧ Text.isNumeral x = false ∧
      x ∉ ['\\', 'n', 'r', 't'] := by
    rcases hx with rfl | rfl <;> decide
  simp only [List.mem_cons, List.not_mem_nil, or_false, not_or] at letter
  by_cases hc : c = x
  · rw [hc, itself]
  · have other : x ∉ Text.quotedChar '"' c := by
      obtain ⟨kind, width, hk, code⟩ := Text.exists_escapeCode c.toNat
      have digits : x ∉ kind :: Text.hex width c.toNat := fun mem => Bool.false_ne_true <| by
        rw [← numeral]
        rcases List.mem_cons.mp mem with rfl | mem
        · exact hk
        · exact Text.isNumeral_of_mem_hex _ _ x mem
      rw [Text.quotedChar, code]
      repeat' split
      all_goals simp_all [Ne.symm hc]
    rw [List.count_eq_zero.mpr other, List.count_eq_zero.mpr (by simpa using Ne.symm hc)]

/-- A quoted string has the balance of the string. So a string counts the same in a layout and on
lines of its own. -/
theorem balance_quoted (s : String) : balance (Text.quoted s) = balance s := by
  have same : ∀ {x : Char}, x = ':' ∨ x = '[' → tally x (Text.quoted s) = tally x s := by
    intro x hx
    have sign : x ∉ Value.fillers := by rcases hx with rfl | rfl <;> decide
    have inside := Value.tally_quoted sign s.toList
    rw [String.ofList_toList] at inside
    have spread : s.toList.count x = (s.toList.map (List.count x ∘ fun c => [c])).sum := by
      rw [← List.count_flatMap, List.flatMap_singleton']
    rw [inside, tally, spread]
    exact congrArg _ (List.map_congr_left fun c _ => count_quotedChar_self hx c)
  rw [balance, balance, same (.inl rfl), same (.inr rfl)]

/-- A layout has the balance of the literal on one line: the page moves neither colons nor
brackets. -/
theorem balance_layout {v : Value} (h : v.Json) : balance v.layout = balance v.flat := by
  rw [balance, balance, Value.layout, Value.tally_layoutAt (by decide) h,
    Value.tally_layoutAt (by decide) h]

/-- The literal of a list has one opening bracket more than its items. -/
theorem balance_flat_list (vs : List Value) :
    balance (Value.list vs).flat = (vs.map fun v => balance v.flat).sum - 1 := by
  rw [Value.flat, Value.flats_eq, balance_append, balance_append, balance_commaJoin, List.map_map,
    show balance "[" = -1 by decide, show balance "]" = 0 by decide]
  simp only [Function.comp_def]
  omega

/-- The literal of a dictionary has one colon more for every entry. -/
theorem balance_flat_dict (es : List (Value × Value)) :
    balance (Value.dict es).flat =
      (es.map fun e => balance e.1.flat + 1 + balance e.2.flat).sum := by
  have sorted := ((Value.sortEntries_perm (Value.flatEntries es)).map Prod.snd).map balance
  rw [Value.flat, balance_append, balance_append, balance_commaJoin, sorted.sum_eq,
    Value.flatEntries_eq, List.map_map, List.map_map, show balance "\x7b" = 0 by decide,
    show balance "\x7d" = 0 by decide, Int.zero_add, Int.add_zero]
  refine congrArg _ (List.map_congr_left fun e _ => ?_)
  simp only [Function.comp_apply, balance_append, show balance ": " = 1 by decide]

/-- The text of a value without items has the balance of its literal. A string loses its quotes
only. -/
theorem balance_text {v : Value} (h : v.Json) : balance (text v) = balance v.flat := by
  cases v with
  | str s => rw [text, Value.flat, Value.literal, balance_quoted]; all_goals simp
  | _ => exact balance_layout h

/-! ### The balance of what is written -/

/-- The balance of texts without their marks, which have none in a report. -/
def total (ws : List Written) : Int := (ws.map fun w => balance w.text).sum

/-- The balance of a first text and of the others is their sum. -/
@[simp] theorem total_cons (w : Written) (ws : List Written) :
    total (w :: ws) = balance w.text + total ws := rfl

/-- The balance of some texts and of others is their sum. -/
@[simp] theorem total_append (ws us : List Written) :
    total (ws ++ us) = total ws + total us := by
  simp [total]

/-- The balance of many values is known when that of each is: the lists that are printed item by
item add up. -/
theorem total_flatMap {α : Type} {f g : α → List Written} {n : α → Int} {as : List α}
    (h : ∀ a ∈ as, total (f a) = n a + itemised (g a)) :
    total (as.flatMap f) = (as.map n).sum + itemised (as.flatMap g) := by
  induction as with
  | nil => rfl
  | cons a as ih =>
      obtain ⟨ha, has⟩ := List.forall_mem_cons.mp h
      rw [List.flatMap_cons, List.flatMap_cons, total_append, ha, ih has, List.map_cons,
        List.sum_cons, itemised, itemised, itemised, List.countP_append]
      push_cast
      omega

/-- Without their line breaks, the lines of a text have all its other characters. -/
theorem sum_dropBreak {x : Char} (hx : Text.isBreak x = false) (s : String) :
    (((Text.lines s).map Text.dropBreak).map (tally x)).sum = tally x s := by
  rw [Text.lines, List.map_map, List.map_map, tally]
  generalize s.toList = cs
  simp only [Function.comp_def, Text.dropBreak, tally, String.toList_ofList]
  fun_induction Text.linesOf cs with
  | case1 => rfl
  | case2 cs ih =>
      have apart : '\r' ≠ x ∧ '\n' ≠ x := by
        constructor <;> (rintro rfl; exact absurd hx (by decide))
      rw [List.map_cons, List.sum_cons, ih, List.count_cons_of_ne apart.1,
        List.count_cons_of_ne apart.2]
      simp [Text.isBreak]
  | case3 c cs _ ended ih =>
      have apart : c ≠ x := by
        rintro rfl
        exact Bool.false_ne_true (hx ▸ ended)
      rw [List.map_cons, List.sum_cons, ih, List.count_cons_of_ne apart]
      simp [ended]
  | case4 c cs _ goes_on ih =>
      rw [← List.singleton_append, List.count_append, ← ih]
      cases Text.linesOf cs with
      | nil => simp [Text.consChar, goes_on]
      | cons line rest =>
          simp only [Text.consChar, List.map_cons, List.sum_cons, List.takeWhile_cons, goes_on,
            Bool.not_false, if_true]
          rw [← List.singleton_append, List.count_append, Nat.add_assoc]

/-- The lines of a text without their line breaks have the balance of the text. -/
theorem total_lines (mark s : String) :
    total ((Text.lines s).map fun line => ⟨mark, Text.dropBreak line⟩) = balance s := by
  have texts : total ((Text.lines s).map fun line => ⟨mark, Text.dropBreak line⟩) =
      (((Text.lines s).map Text.dropBreak).map balance).sum := by
    rw [total, List.map_map, List.map_map]
    rfl
  rw [texts, sum_balance, sum_dropBreak (by decide), sum_dropBreak (by decide), balance]

/-- The balance of a value without items below its key: the colon behind the key is one more. -/
theorem total_writtenField (mark key s : String) :
    total (writtenField mark key s) = balance key + 1 + balance s := by
  rw [writtenField]
  split
  · rw [total_cons, total_lines, balance_append, show balance ":" = 1 by decide]
  · rw [total_cons, balance_append, balance_append, show balance ": " = 1 by decide]
    exact Int.add_zero _

/-- The key of an item of a list is balanced by the colon behind it. -/
theorem balance_index (i : Nat) : balance ("[" ++ toString i ++ "]") = -1 := by
  have digits := Text.consists_nat i
  rw [balance_append, balance_append, show balance "[" = -1 by decide,
    show balance "]" = 0 by decide,
    balance_eq_zero (digits.not_mem (by decide)) (digits.not_mem (by decide))]
  rfl

/-- A key of a JSON tree is written with the balance of its literal. -/
theorem balance_display {es : List (Value × Value)} (h : (Value.dict es).Json)
    {e : Value × Value} (he : e ∈ es) : balance e.1.display = balance e.1.flat := by
  obtain ⟨⟨k, hk⟩, -⟩ := (Value.json_dict_iff.mp h).1 e he
  rw [hk, Value.display, Value.flat, Value.literal, balance_quoted]
  all_goals simp

/-- The balance of the entries of a dictionary, when it is known of every value. A key and its colon
are in the literal, too. -/
theorem total_entries {mark : String} {es : List (Value × Value)} (h : (Value.dict es).Json)
    (ih : ∀ e ∈ es, ∀ key, total (writtenItem mark key e.2) =
      balance key + 1 + balance e.2.flat + itemised (measured (mark ++ step) e.2)) :
    total (writtenEntries mark es) =
      balance (Value.dict es).flat + itemised (measuredEntries (mark ++ step) es) := by
  rw [writtenEntries_eq, measuredEntries_eq, balance_flat_dict]
  exact total_flatMap fun e he => by rw [ih e he, balance_display h he]

/-- The balance of the items of a list, when it is known of every item. What is one more is the
bracket that opens the literal of the list. -/
theorem total_items {mark : String} {vs : List Value}
    (ih : ∀ v ∈ vs, ∀ key, total (writtenItem mark key v) =
      balance key + 1 + balance v.flat + itemised (measured (mark ++ step) v)) :
    total (writtenItems mark 0 vs) =
      balance (Value.list vs).flat + 1 + itemised (measuredItems (mark ++ step) vs) := by
  have each : ∀ p ∈ vs.zipIdx, total (writtenItem mark ("[" ++ toString p.2 ++ "]") p.1) =
      balance p.1.flat + itemised (measured (mark ++ step) p.1) := by
    intro p hp
    rw [ih p.1 (List.fst_mem_of_mem_zipIdx hp), balance_index, show (-1 : Int) + 1 = 0 by decide,
      Int.zero_add]
  have firsts : vs.zipIdx.map Prod.fst = vs := List.zipIdx_map_fst 0 vs
  rw [writtenItems_eq, total_flatMap each, balance_flat_list, measuredItems_eq]
  conv_rhs => rw [← firsts, List.flatMap_map, List.map_map]
  simp only [Function.comp_def]
  omega

/-- A list has the balance of its literal, and one more if it is printed item by item, besides the
lists in it that are. -/
theorem total_list {mark : String} {vs : List Value} (h : (Value.list vs).Json)
    (ih : ∀ v ∈ vs, ∀ key, total (writtenItem mark key v) =
      balance key + 1 + balance v.flat + itemised (measured (mark ++ step) v)) :
    total (if isShort mark (Value.list vs).layout then [⟨mark, (Value.list vs).layout⟩]
        else writtenItems mark 0 vs) =
      balance (Value.list vs).flat + itemised (measured mark (.list vs)) := by
  rw [measured]
  by_cases short : isShort mark (Value.list vs).layout = true
  · rw [if_pos short, if_pos short, total_cons, balance_layout h]
    simp [total, itemised, short]
  · rw [if_neg short, if_neg short, total_items ih, itemised, itemised, List.countP_cons]
    simp [short]
    omega

/-- **The balance of an item** tells how many of its lists are printed item by item. -/
theorem total_writtenItem (mark key : String) {v : Value} (h : v.Json) :
    total (writtenItem mark key v) =
      balance key + 1 + balance v.flat + itemised (measured (mark ++ step) v) := by
  induction mark, v using itemInduction generalizing key with
  | field mark v scalar =>
      rw [writtenItem_of_kind? scalar, total_writtenField, measured_of_kind? scalar, balance_text h]
      simp [itemised]
  | dict mark es ih =>
      have below := total_entries h fun e he key =>
        ih e he key ((Value.json_dict_iff.mp h).1 e he).2
      rw [writtenItem, total_cons, below, balance_append, show balance ":" = 1 by decide, measured]
      omega
  | list mark vs ih =>
      have below := total_list h fun v hv key => ih v hv key (Value.json_list_iff.mp h v hv)
      rw [writtenItem, total_cons, below, balance_append, show balance ":" = 1 by decide]
      omega

/-- The balance of a container tells how many of its lists are printed item by item, when it is not
printed line by line. -/
theorem total_written {mark : String} {v : Value} (h : v.Json) (hv : written mark v ≠ []) :
    total (written mark v) = balance v.flat + itemised (measured mark v) := by
  cases v with
  | dict es =>
      cases es with
      | nil => exact absurd rfl hv
      | cons e es =>
          rw [written, measured]
          exact total_entries h fun e he key =>
            total_writtenItem mark key ((Value.json_dict_iff.mp h).1 e he).2
  | list vs =>
      cases vs with
      | nil => exact absurd rfl hv
      | cons v vs =>
          exact total_list h fun w hw key =>
            total_writtenItem mark key (Value.json_list_iff.mp h w hw)
  | _ => exact absurd rfl hv

end Report

end TreeDelta
