import Mathlib.Data.List.Perm.Basic
import TreeDelta.Proofs.Text.Row
import TreeDelta.Proofs.Tree.Node
import TreeDelta.Report.Layout

/-!
# Layouts are not shorter than literals

The literal of data on one line has no control characters, whatever its strings hold
(`Value.consists_flat`). A layout is this literal where it fits on the page. Where it does not, the
layout is no shorter: line breaks and indentation take more room than the commas between items, and
every piece of a string that is cut has quotes of its own (`Value.length_flat_le`). Only a string
with both kinds of quotes may get shorter, since a piece with one of them is quoted by the other one
and needs no escapes.

## Main definitions

* `Text.hasOneQuote`: texts that do not have both kinds of quotes.
* `Text.HasWidth`: writings of lists that are as long as their members together.
* `Value.isData`, `Value.isPlainlyQuoted`: nodes of data, and those that are quoted without escaped
  quotes.

## Main results

* `Value.sortEntries_perm`: sorting moves entries only.
* `Value.consists_flat`: the literal on one line is visible.
* `Value.length_flat_le`: a layout is not shorter than the literal on one line.
* `Value.layout_eq_flat`: a layout of fewer columns than a page is the literal on one line.
-/

namespace TreeDelta

namespace Text

/-! ### Quotes -/

/-- Whether a text does not have both kinds of quotes, so that neither is escaped in it. -/
def hasOneQuote (cs : List Char) : Bool := !(cs.contains '\x27' && cs.contains '"')

/-- The quote around such a text is not inside, so nothing in it is escaped for being a quote. -/
theorem quoteFor_not_mem {cs : List Char} (h : hasOneQuote cs = true) : quoteFor cs ∉ cs := by
  rw [quoteFor]
  by_cases apostrophe : '\x27' ∈ cs <;> by_cases double : '"' ∈ cs <;>
    simp_all [hasOneQuote]

/-- A part of such a text is such a text. The pieces of a string that is cut are therefore quoted
like the whole. -/
theorem hasOneQuote_of_subset {cs ds : List Char} (h : hasOneQuote cs = true) (sub : ds ⊆ cs) :
    hasOneQuote ds = true := by
  simp only [hasOneQuote, Bool.not_eq_true', Bool.and_eq_false_iff, List.contains_eq_mem,
    decide_eq_false_iff_not] at h ⊢
  exact h.imp (fun away mem => away (sub mem)) fun away mem => away (sub mem)

/-- A character that is neither quote is shown alike between both, whether it is visible or
escaped. -/
theorem quotedChar_eq {q r c : Char} (hq : c ≠ q) (hr : c ≠ r) :
    quotedChar q c = quotedChar r c := by
  rw [quotedChar, quotedChar, beq_eq_false_iff_ne.mpr hq, beq_eq_false_iff_ne.mpr hr]

/-- A byte that is neither quote is shown alike between both, whether it is visible or escaped. -/
theorem quotedByte_eq {q r : Char} {b : UInt8} (hq : Char.ofNat b.toNat ≠ q)
    (hr : Char.ofNat b.toNat ≠ r) : quotedByte q b = quotedByte r b := by
  simp only [quotedByte, beq_eq_false_iff_ne.mpr hq, beq_eq_false_iff_ne.mpr hr]

/-- A writing of lists in which the parts of a list are as long as what their members become one by
one, and the quotes around them. -/
def HasWidth {α : Type} (quote : List α → String) (as : List α) : Prop :=
  ∃ (shown : α → List Char) (around : Nat), ∀ bs : List α, bs ⊆ as →
    (quote bs).length = (bs.flatMap shown).length + around

/-- The parts of a string with at most one kind of quotes have the width of their characters. -/
theorem hasWidth_quoted {cs : List Char} (h : hasOneQuote cs = true) :
    HasWidth (fun ds => quoted (String.ofList ds)) cs := by
  refine ⟨quotedChar (quoteFor cs), 2, fun ds sub => ?_⟩
  have inside : ds.flatMap (quotedChar (quoteFor ds)) = ds.flatMap (quotedChar (quoteFor cs)) :=
    List.flatMap_congr fun c hc => quotedChar_eq
      (fun same => quoteFor_not_mem (hasOneQuote_of_subset h sub) (same ▸ hc))
      (fun same => quoteFor_not_mem h (same ▸ sub hc))
  simp only [quoted, quotedChars, String.toList_ofList, inside, String.length_ofList,
    List.length_append, List.length_cons, List.length_nil]

/-- The parts of a byte string with at most one kind of quotes have the width of their bytes. -/
theorem hasWidth_quotedBytes {bs : List UInt8}
    (h : hasOneQuote (bs.map fun b => Char.ofNat b.toNat) = true) : HasWidth quotedBytes bs := by
  let quote (as : List UInt8) := quoteFor (as.map fun b => Char.ofNat b.toNat)
  have away : ∀ as ⊆ bs, ∀ a ∈ as, Char.ofNat a.toNat ≠ quote as := fun as sub a ha same =>
    quoteFor_not_mem (hasOneQuote_of_subset h (List.map_subset _ sub))
      (List.mem_map.mpr ⟨a, ha, same⟩)
  refine ⟨quotedByte (quote bs), 3, fun as sub => ?_⟩
  have inside : as.flatMap (quotedByte (quote as)) = as.flatMap (quotedByte (quote bs)) :=
    List.flatMap_congr fun a ha => quotedByte_eq (away as sub a ha)
      (away bs (List.Subset.refl bs) a (sub ha))
  show (String.ofList ('b' :: quote as :: as.flatMap (quotedByte (quote as)) ++ [quote as])).length
    = _
  simp only [inside, String.length_ofList, List.length_append, List.length_cons, List.length_nil]

end Text

namespace Value

/-! ### Cut texts -/

/-- Texts below each other are longer by the line breaks and the indentation. -/
theorem length_stack_cons (indent : Nat) (t : String) {ts : List String} (hne : ts ≠ []) :
    (stack indent (t :: ts)).length = t.length + (indent + 1) + (stack indent ts).length := by
  have sep : ("\n" ++ spaces indent).length = indent + 1 := by
    rw [String.length_append, Nat.add_comm indent]
    simp only [spaces, String.length_ofList, List.length_replicate]
    rfl
  obtain ⟨u, us, rfl⟩ := List.exists_cons_of_ne_nil hne
  rw [stack, String.intercalate_cons_cons, String.length_append, String.length_append, sep]
  rfl

/-- Pieces below each other are not shorter than the whole. -/
theorem length_le_stack {α : Type} {quote : List α → String} {as : List α}
    (h : Text.HasWidth quote as) (indent : Nat) {pieces : List (List α)} (hne : pieces ≠ [])
    (hp : pieces.flatten = as) :
    (quote as).length ≤ (stack indent (pieces.map quote)).length := by
  obtain ⟨shown, around, measure⟩ := h
  -- Every piece has its own quotes; those of the first one stand for those of the whole.
  have total : ∀ ps : List (List α), ps ≠ [] → (∀ p ∈ ps, p ⊆ as) →
      (ps.flatten.flatMap shown).length + around ≤ (stack indent (ps.map quote)).length := by
    intro ps
    induction ps with
    | nil => exact fun hne => absurd rfl hne
    | cons p ps ih =>
        intro _ sub
        obtain ⟨hp, hps⟩ := List.forall_mem_cons.mp sub
        have own := measure p hp
        cases ps with
        | nil => simp [stack, own]
        | cons q qs =>
            have rest := ih (by simp) hps
            rw [List.flatten_cons, List.flatMap_append, List.length_append, List.map_cons,
              length_stack_cons _ _ (by simp), own]
            omega
  rw [measure as (List.Subset.refl as), ← hp]
  exact total pieces hne fun p hmem a ha => hp ▸ List.mem_flatten.mpr ⟨p, hmem, ha⟩

/-- Putting a character in front of the first line puts it in front of them all. -/
theorem flatten_consChar (c : Char) (ls : List (List Char)) :
    (Text.consChar c ls).flatten = c :: ls.flatten := by
  cases ls <;> rfl

/-- Cutting into words loses nothing: the blanks stay at the ends of the words. -/
theorem flatten_words (cs : List Char) : (words cs).flatten = cs := by
  fun_induction words cs with
  | case1 => rfl
  | case2 c => rfl
  | case3 c d cs _ ih => simp [ih]
  | case4 c d cs _ ih => rw [flatten_consChar, ih]

/-- Cutting into groups of four loses nothing, the last group being shorter if need be. -/
theorem flatten_groupsOfFour {α : Type} (as : List α) : (groupsOfFour as).flatten = as := by
  fun_induction groupsOfFour as with
  | case1 a b c d rest ih => simp [ih]
  | case2 => rfl
  | case3 => simp

/-- Filled lines are written pieces of the parts. -/
theorem exists_fill {α : Type} (quote : List α → String) (room reserve : Nat) (current : List α)
    (parts : List (List α)) :
    ∃ pieces : List (List α), fill quote room reserve current parts = pieces.map quote ∧
      pieces.flatten = current ++ parts.flatten := by
  induction parts generalizing current with
  | nil =>
      rw [fill]
      cases current with
      | nil => exact ⟨[], rfl, rfl⟩
      | cons a as => exact ⟨[a :: as], rfl, rfl⟩
  | cons part parts ih =>
      rw [fill]
      generalize (if parts.isEmpty then reserve else 0) = reserved
      split
      · obtain ⟨pieces, filled, whole⟩ := ih part
        cases current with
        | nil => exact ⟨pieces, filled, whole⟩
        | cons a as => exact ⟨(a :: as) :: pieces, by rw [List.map_cons, ← filled]; rfl,
            by rw [List.flatten_cons, whole, List.flatten_cons]⟩
      · obtain ⟨pieces, filled, whole⟩ := ih (current ++ part)
        exact ⟨pieces, filled, by rw [whole, List.flatten_cons, List.append_assoc]⟩

/-- The written lines of a string are written pieces of its lines. -/
theorem exists_stringLines (room reserve : Nat) (lines : List (List Char)) :
    ∃ pieces : List (List Char),
      stringLines room reserve lines = pieces.map (fun cs => Text.quoted (String.ofList cs)) ∧
        pieces.flatten = lines.flatten := by
  induction lines with
  | nil => exact ⟨[], rfl, rfl⟩
  | cons line lines ih =>
      obtain ⟨later, written, whole⟩ := ih
      rw [stringLines, written]
      generalize (if lines.isEmpty then reserve else 0) = reserved
      split
      · exact ⟨line :: later, rfl, by rw [List.flatten_cons, List.flatten_cons, whole]⟩
      · obtain ⟨pieces, filled, cut⟩ := exists_fill (fun cs => Text.quoted (String.ofList cs)) room
          reserved [] (words line)
        refine ⟨pieces ++ later, by rw [List.map_append, filled], ?_⟩
        rw [List.flatten_append, List.flatten_cons, cut, whole, List.nil_append, flatten_words]

/-- Lines in parentheses are longer than lines alone. -/
theorem length_le_stackAt {place : Place} {n : Nat} {lines : List String}
    (h : ∀ indent, n ≤ (stack indent lines).length) : n ≤ (stackAt place lines).length := by
  rw [stackAt]
  split
  · have inside := h (place.indent + 1)
    rw [String.length_append, String.length_append]
    omega
  · exact h place.indent

/-- A string below the margin is not shorter than its quoted form. -/
theorem length_le_layoutString {s : String} (h : Text.hasOneQuote s.toList = true) (place : Place) :
    (Text.quoted s).length ≤ (layoutString place s).length := by
  rw [layoutString]
  generalize pageWidth - _ = room
  generalize place.reserve + _ = reserve
  obtain ⟨pieces, written, whole⟩ := exists_stringLines room reserve (Text.linesOf s.toList)
  rw [Text.flatten_linesOf] at whole
  rw [written]
  have width := length_le_stack (Text.hasWidth_quoted h)
  match pieces, whole with
  | [], _ => exact Nat.le_refl _
  | [p], whole =>
      obtain rfl : p = s.toList := by simpa using whole
      simp
  | p :: q :: ps, whole =>
      refine length_le_stackAt fun indent => ?_
      have longer := width indent (by simp) whole
      rwa [String.ofList_toList] at longer

/-- With both kinds of quotes, the pieces need no escapes, and are shorter than the whole. -/
example : stringLines 8 0 [['\x27', '\x27', '\x27', '\x27', ' ', '"']] = ["\"'''' \"", "'\"'"] ∧
    Text.quoted "'''' \"" = "'\\'\\'\\'\\' \"'" := by
  cbv

/-- A byte string below the margin is not shorter than its quoted form. -/
theorem length_le_layoutBytes {bs : List UInt8}
    (h : Text.hasOneQuote (bs.map fun b => Char.ofNat b.toNat) = true) (place : Place) :
    (Text.quotedBytes bs).length ≤ (layoutBytes place bs).length := by
  rw [layoutBytes]
  split
  · exact Nat.le_refl _
  · rename_i many
    obtain ⟨pieces, filled, whole⟩ := exists_fill Text.quotedBytes
      (pageWidth - (place.indent + if place.isWhole then 1 else 0))
      (if bs.length % 4 == 0 then 0 else place.reserve + if place.isWhole then 1 else 0) []
      (groupsOfFour bs)
    rw [List.nil_append, flatten_groupsOfFour] at whole
    have some_piece : pieces ≠ [] := by
      rintro rfl
      rw [← whole] at many
      simp at many
    refine length_le_stackAt fun indent => ?_
    rw [bytesLines, filled]
    exact length_le_stack (Text.hasWidth_quotedBytes h) indent some_piece whole

/-! ### Sorted entries -/

variable {α : Type}

/-- Splitting where a run ends loses nothing, and keeps the order on either side. -/
theorem splitRun_append (falling : Bool) (key : Value) (es : List (Value × α)) :
    (splitRun falling key es).1 ++ (splitRun falling key es).2 = es := by
  induction es generalizing key with
  | nil => rfl
  | cons e es ih =>
      rw [splitRun]
      split
      · exact congrArg (e :: ·) (ih e.1)
      · rfl

/-- Turning the first run round moves entries only. The run is turned when it falls. -/
theorem firstRun_perm (es : List (Value × α)) :
    ((firstRun es).1 ++ (firstRun es).2).Perm es := by
  match es with
  | [] | [e] => simp [firstRun]
  | a :: b :: es =>
      have split := splitRun_append (keyLess b.1 a.1) a.1 (b :: es)
      rw [firstRun]
      generalize splitRun (keyLess b.1 a.1) a.1 (b :: es) = parts at split
      obtain ⟨run, rest⟩ := parts
      rw [← split]
      cases keyLess b.1 a.1 with
      | true => exact (List.reverse_perm (a :: run)).append_right rest
      | false => exact List.Perm.refl _

/-- Putting an entry among sorted ones moves entries only, wherever it ends up. -/
theorem insertSorted_perm (entry : Value × α) (es : List (Value × α)) :
    (insertSorted entry es).Perm (entry :: es) := by
  fun_induction insertSorted entry es with
  | case1 es none_behind =>
      have short : es.length ≤ es.length / 2 := List.drop_eq_nil_iff.mp none_behind
      obtain rfl : es = [] := List.length_eq_zero_iff.mp (by omega)
      exact List.Perm.refl _
  | case2 es front e back behind hlen less ih =>
      have parts : front ++ e :: back = es := by
        rw [← behind]
        exact List.take_append_drop _ _
      rw [← parts]
      exact ih.append_right (e :: back)
  | case3 es front e back behind hlen less ih =>
      have parts : front ++ e :: back = es := by
        rw [← behind]
        exact List.take_append_drop _ _
      rw [← parts]
      exact ((ih.cons e).append_left front).trans
        ((List.Perm.swap entry e back).append_left front |>.trans List.perm_middle)

/-- **Sorting moves entries only.** Some pairs of keys cannot be compared, so the result need not be
in any order, but no entry is lost. -/
theorem sortEntries_perm (es : List (Value × α)) : (sortEntries es).Perm es := by
  have fold : ∀ rest run : List (Value × α),
      (rest.foldl (fun es e => insertSorted e es) run).Perm (run ++ rest) := by
    intro rest
    induction rest with
    | nil => intro run; rw [List.append_nil]; exact List.Perm.refl run
    | cons e rest ih =>
        intro run
        refine (ih (insertSorted e run)).trans ?_
        exact ((insertSorted_perm e run).append_right rest).trans List.perm_middle.symm
  exact (fold _ _).trans (firstRun_perm es)

/-! ### Containers -/

/-- Joined texts are as long as the texts, with a comma and a space between them. -/
theorem length_commaJoin (ts : List String) :
    (commaJoin ts).length = (ts.flatMap String.toList).length + 2 * (ts.length - 1) := by
  induction ts with
  | nil => rfl
  | cons t ts ih =>
      cases ts with
      | nil => simp [commaJoin, String.length_toList]
      | cons u us =>
          rw [commaJoin, String.intercalate_cons_cons, ← commaJoin, String.length_append,
            String.length_append, ih, show ", ".length = 2 from rfl]
          simp only [List.flatMap_cons, List.length_append, List.length_cons, String.length_toList]
          omega

/-- An item is not shorter than a text, wherever it stands on the page. -/
def IsLonger (t : String) (item : Item) : Prop :=
  ∀ place, t.length ≤ (item.1 ++ item.2 place).length

/-- Items below each other are not shorter than texts joined by commas: a line break and the
indentation take no less room than a blank. -/
theorem length_commaJoin_le {ts : List String} {items : List Item}
    (h : List.Forall₂ IsLonger ts items) (indent reserve : Nat) :
    (commaJoin ts).length ≤ (stack indent (itemLines indent reserve items)).length := by
  induction h with
  | nil => exact Nat.zero_le _
  | @cons t item ts items first rest ih =>
      obtain ⟨label, text⟩ := item
      cases rest with
      | nil => simpa [commaJoin, stack, itemLines] using first _
      | @cons u next us others second later =>
          have there : itemLines indent reserve (next :: others) ≠ [] := by
            cases others <;> simp [itemLines]
          have own := first ⟨indent + label.length, 1, false⟩
          rw [itemLines, length_stack_cons _ _ there, commaJoin, String.intercalate_cons_cons,
            ← commaJoin]
          simp only [String.length_append, show ", ".length = 2 from rfl,
            show ",".length = 1 from rfl] at own ⊢
          omega
          simp

/-- A container with longer items, in any order, is not shorter. -/
theorem length_le_enclose {opening closing : String} {ts us : List String} {items those : List Item}
    (perm : ts.Perm us) (h : List.Forall₂ IsLonger us those) (perm' : those.Perm items)
    (place : Place) :
    (opening ++ commaJoin ts ++ closing).length ≤ (enclose opening closing items place).length := by
  obtain ⟨ws, longer, moved⟩ := List.perm_comp_forall₂ perm'.symm h.flip
  have same : (commaJoin ts).length = (commaJoin ws).length := by
    have all := perm.trans moved.symm
    rw [length_commaJoin, length_commaJoin, (all.flatMap_right String.toList).length_eq,
      all.length_eq]
  have inside := length_commaJoin_le longer.flip (place.indent + 1)
    (place.reserve + closing.length)
  rw [enclose]
  simp only [String.length_append]
  omega

/-- The literals of a list of values, one by one: the recursion through the values, stated as a
map. -/
theorem flats_eq (vs : List Value) : flats vs = vs.map flat := by
  induction vs with
  | nil => rfl
  | cons v vs ih => rw [flats, ih, List.map_cons]

/-- The layouts of the items of a list, one by one. Nothing is written in front of them. -/
theorem layoutItems_eq (vs : List Value) : layoutItems vs = vs.map fun v => ("", layoutAt v) := by
  induction vs with
  | nil => rfl
  | cons v vs ih => rw [layoutItems, ih, List.map_cons]

/-- The literals of the entries of a dictionary, one by one, together with the keys that they are
sorted by. -/
theorem flatEntries_eq (es : List (Value × Value)) :
    flatEntries es = es.map fun e => (e.1, flat e.1 ++ ": " ++ flat e.2) := by
  induction es with
  | nil => rfl
  | cons e es ih => rw [flatEntries, ih, List.map_cons]

/-- The layouts of the entries of a dictionary, one by one, with their keys in front of them. -/
theorem layoutEntries_eq (es : List (Value × Value)) :
    layoutEntries es = es.map fun e => (e.1, flat e.1 ++ ": ", layoutAt e.2) := by
  induction es with
  | nil => rfl
  | cons e es ih => rw [layoutEntries, ih, List.map_cons]

/-! ### Data -/

/-- Whether a node is data that is quoted without escaped quotes: a scalar, a list, or a dictionary
with string keys, and no string with both kinds of quotes. -/
def isPlainlyQuoted : Value → Bool
  | null | bool _ | int _ | float _ | complex _ _ | list _ => true
  | str s => Text.hasOneQuote s.toList
  | bytes bs => Text.hasOneQuote (bs.map fun b => Char.ofNat b.toNat)
  | dict entries => entries.all fun e => e.1.isString
  | _ => false

/-- Whether a node is data: a scalar, a list, or a dictionary with string keys. Sets and tuples are
laid out as well, but nothing is said about them here. -/
def isData : Value → Bool
  | null | bool _ | int _ | float _ | complex _ _ | str _ | bytes _ | list _ => true
  | dict entries => entries.all fun e => e.1.isString
  | _ => false

/-- What is quoted without escaped quotes is data, the converse of which fails for a string with
both kinds of quotes. -/
theorem isData_of_isPlainlyQuoted {v : Value} (h : v.isPlainlyQuoted = true) :
    v.isData = true := by
  cases v <;> first | rfl | exact h

/-- A step leads to every item of a list, by the index of the item. -/
theorem exists_step_of_mem {items : List Value} {v : Value} (h : v ∈ items) :
    ∃ c, (c, v) ∈ (list items).steps := by
  obtain ⟨i, hi⟩ := List.mem_iff_getElem?.mp h
  exact ⟨.index (0 + i), mem_itemSteps_iff.mpr ⟨i, rfl, hi⟩⟩

/-- **A layout is not shorter than the literal on one line**, where no quotes are escaped. -/
theorem length_flat_le {v : Value} (h : v.every isPlainlyQuoted = true) (place : Place) :
    v.flat.length ≤ (v.layoutAt place).length := by
  induction v using stepInduction generalizing place with
  | step v ih =>
      obtain ⟨node, below⟩ := every_iff.mp h
      have fitOr_le : ∀ {short : String} {long : Place → String},
          short.length ≤ (long place).length → short.length ≤ (fitOr short long place).length := by
        intro short long longer
        rw [fitOr]
        split
        · exact Nat.le_refl _
        · exact longer
      cases v with
      | list items =>
          rw [layoutAt]
          refine fitOr_le ?_
          rw [flat, flats_eq, layoutItems_eq]
          refine length_le_enclose (List.Perm.refl _) ?_ (List.Perm.refl _) place
          rw [List.forall₂_map_left_iff, List.forall₂_map_right_iff, List.forall₂_same]
          intro w hw here
          obtain ⟨c, step⟩ := exists_step_of_mem hw
          rw [String.empty_append]
          exact ih _ _ step (below _ _ step) here
      | dict entries =>
          rw [layoutAt]
          refine fitOr_le ?_
          rw [flat, flatEntries_eq, layoutEntries_eq]
          -- Literals and layouts are sorted apart, and only their lengths together count.
          refine length_le_enclose ((sortEntries_perm _).map Prod.snd) ?_
            ((sortEntries_perm _).map Prod.snd).symm place
          rw [List.map_map, List.map_map, List.forall₂_map_left_iff, List.forall₂_map_right_iff,
            List.forall₂_same]
          intro e he here
          obtain ⟨k, w⟩ := e
          have string := List.all_eq_true.mp node _ he
          cases k with
          | str k =>
              have step := mem_entrySteps_iff.mpr ⟨k, rfl, he⟩
              have value := ih _ _ step (below _ _ step) here
              simp only [Function.comp_apply, String.length_append] at value ⊢
              omega
          | _ => exact absurd string (by simp [isString])
      | str s =>
          rw [layoutAt]
          exact fitOr_le (length_le_layoutString node place)
      | bytes bs =>
          rw [layoutAt]
          exact fitOr_le (length_le_layoutBytes node place)
      | null | bool _ | int _ | float _ | complex _ _ =>
          exact Nat.le_of_eq (by simp only [flat, layoutAt])
      | _ => exact absurd node (by simp [isPlainlyQuoted])

/-- Every value but a string has a layout that is not empty. Strings are not asked about here, as
they are printed without their quotes. -/
theorem layout_ne_empty {v : Value} (h : v.isString = false) : v.layout ≠ "" := by
  have fitOr_ne : ∀ {short : String} {long : Place → String} {place : Place}, short ≠ "" →
      long place ≠ "" → fitOr short long place ≠ "" := by
    intro short long place hs hl
    rw [fitOr]
    split
    · exact hs
    · exact hl
  rw [layout]
  cases v with
  | str s => exact absurd h (by simp [isString])
  | list items | dict entries =>
      rw [layoutAt]
      exact fitOr_ne (by simp [flat]) (by simp [enclose])
  | tuple items =>
      rcases items with _ | ⟨v, _ | ⟨w, items⟩⟩ <;>
        (simp only [layoutAt]; exact fitOr_ne (by simp [flat]) (by simp [enclose]))
  | set items =>
      rcases items with _ | ⟨v, items⟩
      · simp [layoutAt]
      · simp only [layoutAt]
        exact fitOr_ne (by simp [flat, literal]) (by simp [enclose])
  | bytes bs =>
      rw [layoutAt]
      refine fitOr_ne (by simp [Text.quotedBytes]) ?_
      rw [layoutBytes]
      split
      · simp [Text.quotedBytes]
      · simp [stackAt]
  | bool b => cases b <;> simp [layoutAt, literal, boolText]
  | int n => simpa [layoutAt, literal] using Text.int_ne_empty n
  | float x => simpa [layoutAt, literal] using x.text_ne_empty true
  | complex re im =>
      simp only [layoutAt, literal, complexText]
      split <;> simp
  | _ => simp [layoutAt, literal, Path.literal, Pattern.literal]

/-- **The literal of data on one line is visible.** -/
theorem consists_flat {v : Value} (h : v.every isData = true) :
    Text.Consists Text.isVisible v.flat := by
  induction v using stepInduction with
  | step v ih =>
      obtain ⟨node, below⟩ := every_iff.mp h
      have enclosed : ∀ {opening closing : String} {ts : List String},
          Text.Consists Text.isVisible opening → Text.Consists Text.isVisible closing →
          (∀ t ∈ ts, Text.Consists Text.isVisible t) →
          Text.Consists Text.isVisible (opening ++ commaJoin ts ++ closing) := fun ho hc hts =>
        (ho.append (Text.Consists.intercalate (by decide) hts)).append hc
      have double : ∀ (x : Binary64) (point : Bool), Text.Consists Text.isVisible (x.text point) :=
        fun x point => (x.consists_text point).mono fun _ => Text.isVisible_of_isNumeral
      cases v with
      | list items =>
          rw [flat, flats_eq]
          refine enclosed (by decide) (by decide) fun t ht => ?_
          obtain ⟨w, hw, rfl⟩ := List.mem_map.mp ht
          obtain ⟨c, step⟩ := exists_step_of_mem hw
          exact ih c w step (below c w step)
      | dict entries =>
          rw [flat, flatEntries_eq]
          refine enclosed (by decide) (by decide) fun t ht => ?_
          rw [((sortEntries_perm _).map Prod.snd).mem_iff, List.map_map] at ht
          obtain ⟨⟨k, w⟩, he, rfl⟩ := List.mem_map.mp ht
          have string := List.all_eq_true.mp node _ he
          cases k with
          | str k =>
              have step := mem_entrySteps_iff.mpr ⟨k, rfl, he⟩
              have key : Text.Consists Text.isVisible (flat (str k)) := by
                simp only [flat, literal]
                exact Text.consists_quoted k
              exact (key.append (by decide)).append (ih _ w step (below _ w step))
          | _ => exact absurd string (by simp [isString])
      | null => simp only [flat, literal]; decide
      | bool b => simp only [flat, literal]; cases b <;> decide
      | int n =>
          simp only [flat, literal]
          exact (Text.consists_int n).mono fun _ => Text.isVisible_of_isNumeral
      | float x => simp only [flat, literal]; exact double x true
      | complex re im =>
          simp only [flat, literal, complexText]
          split
          · exact (double im false).append (by decide)
          · refine ((((Text.Consists.append (by decide) (double re false)).append ?_).append
              (double im false)).append (by decide))
            split <;> decide
      | str s => simp only [flat, literal]; exact Text.consists_quoted s
      | bytes bs => simp only [flat, literal]; exact Text.consists_quotedBytes bs
      | _ => exact absurd node (by simp [isData])

/-- **A layout of fewer columns than a page is the literal on one line.** -/
theorem layout_eq_flat {items : List Value} (h : (list items).every isPlainlyQuoted = true)
    (short : (list items).layout.length < pageWidth) : (list items).layout = (list items).flat := by
  have longer := length_flat_le h ⟨0, 0, true⟩
  rw [layout] at short ⊢
  have fits : Place.fits ⟨0, 0, true⟩ (list items).flat = true := by
    rw [Place.fits, decide_eq_true_eq]
    show (list items).flat.length + 0 + 0 ≤ pageWidth
    omega
  rw [layoutAt, fitOr, if_pos fits]

end Value

end TreeDelta
