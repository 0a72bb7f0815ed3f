/-!
# Lines of a text

Text is split after every line break: line feed, carriage return (with a line feed after it as one
break), vertical tab, form feed, the separators `1C`, `1D` and `1E`, next line, and the line and
paragraph separators.

## Main definitions

* `Text.lines`: the lines of a text, each with its line break.
* `Text.dropBreak`: a line without its line break.
-/

namespace TreeDelta.Text

/-- Whether a character ends a line. Besides the usual breaks, these are the vertical tab, the form
feed, the separators of files, groups and records, and the breaks beyond ASCII. -/
def isBreak (c : Char) : Bool :=
  let n := c.toNat
  (0xa ≤ n && n ≤ 0xd) || (0x1c ≤ n && n ≤ 0x1e) || n == 0x85 || n == 0x2028 || n == 0x2029

/-- Puts a character in front of the first line, which is not ended yet. Without lines it starts
one. -/
def consChar (c : Char) : List (List Char) → List (List Char)
  | [] => [[c]]
  | line :: rest => (c :: line) :: rest

/-- The lines of a list of characters, each with its line break. A carriage return and a line feed
after it are one break; text without a break at its end is a line, too. -/
def linesOf : List Char → List (List Char)
  | [] => []
  | '\r' :: '\n' :: cs => ['\r', '\n'] :: linesOf cs
  | c :: cs => if isBreak c then [c] :: linesOf cs else consChar c (linesOf cs)

/-- The lines of a text, each with its line break. -/
def lines (s : String) : List String := (linesOf s.toList).map String.ofList

/-- A line without the line break at its end. A line has no break anywhere else. -/
def dropBreak (line : String) : String :=
  String.ofList (line.toList.takeWhile fun c => !isBreak c)

/-- Splitting into lines loses nothing: put together again, the lines are the text, since every one
keeps its break. -/
theorem flatten_linesOf (cs : List Char) : (linesOf cs).flatten = cs := by
  have consFlat : ∀ c ls, (consChar c ls).flatten = c :: ls.flatten := by
    intro c ls; cases ls <;> rfl
  fun_induction linesOf cs with
  | case1 => rfl
  | case2 cs ih => simp [ih]
  | case3 c cs _ _ ih => simp [ih]
  | case4 c cs _ _ ih => simp [consFlat, ih]

end TreeDelta.Text
