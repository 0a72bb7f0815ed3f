import Mathlib.Algebra.BigOperators.Group.List.Basic
import Mathlib.Algebra.Order.Ring.Int
import TreeDelta.Proofs.Projection.Clone
import TreeDelta.Proofs.Report.Layout

/-!
# Characters of a layout

A layout and the literal on one line show the same data between other blanks and quotes. So every
other character is in both equally often (`Value.tally_layoutAt`), wherever strings are cut and
however the entries of dictionaries are sorted.

## Main definitions

* `Text.tally`: how often a character is in a text.
* `Value.fillers`: the characters that depend on the page.

## Main results

* `Value.tally_layoutAt`: how often a character is in a layout.
-/

namespace TreeDelta

namespace Text

variable {x : Char}

/-- How often a character is in a text. Tallies add up when texts are put together, which lengths
and widths of a layout do not. -/
def tally (x : Char) (s : String) : Nat := s.toList.count x

/-- What is in two texts behind each other is in one of them. -/
@[simp] theorem tally_append (x : Char) (s t : String) :
    tally x (s ++ t) = tally x s + tally x t := by
  rw [tally, String.toList_append, List.count_append]
  rfl

/-- What is in texts with another one between them is in the texts, if it is not in the
separator. -/
theorem tally_intercalate {sep : String} (hsep : tally x sep = 0) (ts : List String) :
    tally x (sep.intercalate ts) = (ts.map (tally x)).sum := by
  induction ts with
  | nil => rfl
  | cons t ts ih =>
      cases ts with
      | nil => simp
      | cons u us => simp_all [String.intercalate_cons_cons, tally_append]

/-- A character that is not in a text is there no times. -/
theorem tally_eq_zero_iff {s : String} : tally x s = 0 ↔ x ∉ s.toList := List.count_eq_zero

end Text

namespace Value

open Text (tally)

variable {x : Char}

/-- The characters of a layout that depend on the page: blanks between items, commas, the quotes
around pieces of strings, backslashes before quotes, and parentheses. -/
def fillers : List Char := ['\n', ' ', ',', '"', '\x27', '\\', '(', ')']

/-- A text of fillers has no other character. So nothing that a layout puts in between is
counted. -/
theorem tally_fillers (hx : x ∉ fillers) {s : String} (h : s.toList ⊆ fillers) : tally x s = 0 :=
  Text.tally_eq_zero_iff.mpr fun mem => hx (h mem)

/-! ### Strings -/

/-- What stands for a character in quotes has the same characters between both quotes, up to
fillers: only the escaping of quotes is different. -/
theorem count_quotedChar (hx : x ∉ fillers) {q : Char} (hq : q = '"' ∨ q = '\x27') (c : Char) :
    (Text.quotedChar q c).count x = (Text.quotedChar '"' c).count x := by
  by_cases hc : c = '"' ∨ c = '\x27'
  · -- A quote is shown as it is or behind a backslash.
    have none_there : ∀ {q : Char}, q = '"' ∨ q = '\x27' → (Text.quotedChar q c).count x = 0 := by
      intro q hq
      have shown : Text.quotedChar q c ⊆ fillers := by
        rcases hq with rfl | rfl <;> rcases hc with rfl | rfl <;> decide
      exact List.count_eq_zero.mpr fun mem => hx (shown mem)
    rw [none_there hq, none_there (.inl rfl)]
  · have apart : ∀ {q : Char}, q = '"' ∨ q = '\x27' → c ≠ q := fun hq same => hc (same ▸ hq)
    rw [Text.quotedChar_eq (apart hq) (apart (.inl rfl))]

/-- A quote is a filler, whichever of the two it is. -/
theorem count_quote (hx : x ∉ fillers) {q : Char} (hq : q = '"' ∨ q = '\x27') :
    [q].count x = 0 := by
  have quote : [q] ⊆ fillers := by rcases hq with rfl | rfl <;> decide
  exact List.count_eq_zero.mpr fun mem => hx (quote mem)

/-- What is in a quoted string is in what stands for its characters. The quote that is chosen does
not matter. -/
theorem tally_quoted (hx : x ∉ fillers) (cs : List Char) :
    tally x (Text.quoted (String.ofList cs)) =
      (cs.map fun c => (Text.quotedChar '"' c).count x).sum := by
  have quote := Text.quoteFor_eq cs
  have around := count_quote hx quote
  rw [tally, Text.quoted, String.toList_ofList, String.toList_ofList, Text.quotedChars]
  show ([Text.quoteFor cs] ++ _ ++ [Text.quoteFor cs]).count x = _
  rw [List.count_append, List.count_append, around]
  simp [List.count_flatten, Function.comp_def, count_quotedChar hx quote]

/-! ### Texts below each other -/

/-- What is in texts below each other is in the texts: line breaks and indentation are fillers. -/
theorem tally_stack (hx : x ∉ fillers) (indent : Nat) (ts : List String) :
    tally x (stack indent ts) = (ts.map (tally x)).sum := by
  have blanks : (spaces indent).toList ⊆ fillers := by
    intro c hc
    rw [spaces, String.toList_ofList] at hc
    rw [List.eq_of_mem_replicate hc]
    decide
  have sep : ("\n" ++ spaces indent).toList ⊆ fillers := by
    rw [String.toList_append]
    exact List.append_subset.mpr ⟨by decide, blanks⟩
  rw [stack, Text.tally_intercalate (tally_fillers hx sep)]

/-- What is in texts below each other, in parentheses or not. Parentheses are fillers, too. -/
theorem tally_stackAt (hx : x ∉ fillers) (place : Place) (ts : List String) :
    tally x (stackAt place ts) = (ts.map (tally x)).sum := by
  rw [stackAt]
  split
  · rw [Text.tally_append, Text.tally_append, tally_fillers hx (s := "(") (by decide),
      tally_fillers hx (s := ")") (by decide), tally_stack hx]
    omega
  · exact tally_stack hx _ ts

/-- What is in written pieces is in what their members become one by one. It does not matter where
the pieces were cut. -/
theorem sum_pieces {α : Type} {quote : List α → String} {n : α → Nat}
    (h : ∀ as, tally x (quote as) = (as.map n).sum) (pieces : List (List α)) :
    ((pieces.map quote).map (tally x)).sum = (pieces.flatten.map n).sum := by
  induction pieces with
  | nil => rfl
  | cons p ps ih => simp_all

/-- A string that is cut has the same characters, up to fillers: the quotes of its pieces and the
backslashes in them. -/
theorem tally_layoutString (hx : x ∉ fillers) (place : Place) (s : String) :
    tally x (layoutString place s) = tally x (Text.quoted s) := by
  rw [layoutString]
  generalize pageWidth - _ = room
  generalize place.reserve + _ = reserve
  obtain ⟨pieces, written, whole⟩ := exists_stringLines room reserve (Text.linesOf s.toList)
  rw [Text.flatten_linesOf] at whole
  have inside := sum_pieces (tally_quoted hx) pieces
  rw [whole, ← tally_quoted hx, String.ofList_toList] at inside
  rw [written]
  rcases pieces with _ | ⟨p, _ | ⟨q, ps⟩⟩
  · rfl
  · simpa using inside
  · rw [← inside, List.map_cons, List.map_cons]
    exact tally_stackAt hx place (_ :: _ :: _)

/-! ### Containers -/

/-- An item has a character as often as a text, wherever it stands. -/
def IsTallied (x : Char) (t : String) (item : Item) : Prop :=
  ∀ place, tally x (item.1 ++ item.2 place) = tally x t

/-- What is in the lines of items is in the texts of the items, as the commas behind them are
fillers. -/
theorem tally_itemLines (hx : x ∉ fillers) {ts : List String} {items : List Item}
    (h : List.Forall₂ (IsTallied x) ts items) (indent reserve : Nat) :
    ((itemLines indent reserve items).map (tally x)).sum = (ts.map (tally x)).sum := by
  have comma : tally x "," = 0 := tally_fillers hx (by decide)
  induction h with
  | nil => rfl
  | @cons t item ts items first rest ih =>
      obtain ⟨label, text⟩ := item
      cases rest with
      | nil => simpa [itemLines] using first _
      | @cons u next us others second later =>
          have own := first ⟨indent + label.length, 1, false⟩
          rw [itemLines]
          · simp only [List.map_cons, List.sum_cons, Text.tally_append, comma] at own ih ⊢
            omega
          · simp

/-- A container has the same characters as its items in any order, and its brackets. -/
theorem tally_enclose (hx : x ∉ fillers) {opening closing : String} {ts us : List String}
    {items those : List Item} (perm : ts.Perm us) (h : List.Forall₂ (IsTallied x) us those)
    (perm' : those.Perm items) (place : Place) :
    tally x (enclose opening closing items place) =
      tally x (opening ++ commaJoin ts ++ closing) := by
  obtain ⟨ws, tallied, moved⟩ := List.perm_comp_forall₂ perm'.symm h.flip
  have same : (ts.map (tally x)).sum = (ws.map (tally x)).sum :=
    ((perm.trans moved.symm).map (tally x)).sum_eq
  have inside := tally_itemLines hx tallied.flip (place.indent + 1)
    (place.reserve + closing.length)
  rw [enclose]
  simp only [Text.tally_append, tally_stack hx, inside, commaJoin,
    Text.tally_intercalate (tally_fillers hx (s := ", ") (by decide)), same]

/-- **How often a character is in a layout**: as often as in the literal on one line, unless it
depends on the page. By induction on the value, whose parts are at other places of the page than in
the literal. -/
theorem tally_layoutAt (hx : x ∉ fillers) {v : Value} (h : v.Json) (place : Place) :
    tally x (v.layoutAt place) = tally x v.flat := by
  induction v using stepInduction generalizing place with
  | step v ih =>
      have node := (every_iff.mp h).1
      have fitOr_eq : ∀ {short : String} {long : Place → String},
          tally x (long place) = tally x short →
            tally x (fitOr short long place) = tally x short := by
        intro short long same
        rw [fitOr]
        split
        · rfl
        · exact same
      cases v with
      | list items =>
          rw [layoutAt]
          refine fitOr_eq ?_
          rw [flat, flats_eq, layoutItems_eq]
          refine tally_enclose hx (List.Perm.refl _) ?_ (List.Perm.refl _) place
          rw [List.forall₂_map_left_iff, List.forall₂_map_right_iff, List.forall₂_same]
          intro w hw here
          obtain ⟨c, step⟩ := exists_step_of_mem hw
          rw [String.empty_append]
          exact ih _ _ step (h.step step) here
      | dict entries =>
          rw [layoutAt]
          refine fitOr_eq ?_
          rw [flat, flatEntries_eq, layoutEntries_eq]
          refine tally_enclose hx ((sortEntries_perm _).map Prod.snd) ?_
            ((sortEntries_perm _).map Prod.snd).symm place
          rw [List.map_map, List.map_map, List.forall₂_map_left_iff, List.forall₂_map_right_iff,
            List.forall₂_same]
          intro e he here
          obtain ⟨k, w⟩ := e
          obtain ⟨⟨k, rfl⟩, -⟩ := (json_dict_iff.mp h).1 _ he
          have step := mem_entrySteps_iff.mpr ⟨k, rfl, he⟩
          have value := ih _ _ step (h.step step) here
          simp only [Function.comp_apply, Text.tally_append] at value ⊢
          omega
      | str s =>
          rw [layoutAt]
          exact fitOr_eq (tally_layoutString hx place s)
      | null | bool _ | int _ | float _ => simp only [flat, layoutAt]
      | _ => exact absurd node (by simp [isJsonNode])

end Value

end TreeDelta
