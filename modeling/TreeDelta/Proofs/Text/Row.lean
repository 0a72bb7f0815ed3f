import TreeDelta.Number.Shortest
import TreeDelta.Path.Basic
import TreeDelta.Proofs.Text.JsonString
import TreeDelta.Text.Line

/-!
# Rows of a text

A reader sees a text as rows that line feeds end. Numbers, quoted strings and the texts of paths
have no control characters, so each of them stays in one row. A text that is cut into lines, at any
line break, gets marked rows when every line gets a mark: no line has a line feed before its end.

## Main definitions

* `Text.Consists`: texts of characters of some kind, such as visible ones.
* `Text.IsRow`, `Text.IsBlock`: texts without line feeds, and texts of whole rows.
* `Text.rows`: the rows of a text.
* `Text.Marked`, `Text.Continues`: whether all rows start with a mark, or all but the first one.

## Main results

* `Text.consists_nat`, `Text.consists_int`, `Binary64.consists_text`: how numbers are written.
* `Text.consists_quoted`, `Path.consists_render`: what is written with visible characters.
* `Text.IsBlock.marked_append_iff`: marks of texts behind each other.
* `Text.marked_line_iff`: a text behind a mark.
* `Text.prefix_of_mem_rows_flatMap`: lines behind marks.
-/

namespace TreeDelta

/-! ### Texts without line feeds -/

namespace Text

/-- A text that stays in one row: it has no line feed. Other line breaks are not counted, as a
report is read by line feeds. -/
def IsRow (s : String) : Prop := '\n' ∉ s.toList

instance (s : String) : Decidable (IsRow s) := inferInstanceAs (Decidable (_ ∉ _))

/-- Two rows behind each other are a row: there is no line feed at the border either. -/
theorem IsRow.append {s t : String} (hs : IsRow s) (ht : IsRow t) : IsRow (s ++ t) := by
  rw [IsRow, String.toList_append, List.mem_append, not_or]
  exact ⟨hs, ht⟩

/-! ### Texts of some characters -/

/-- A text in which every character is of some kind. The kinds below are wide enough for whole
families of texts, so that it rarely matters what is written exactly. -/
def Consists (p : Char → Bool) (s : String) : Prop := ∀ c ∈ s.toList, p c = true

instance (p : Char → Bool) (s : String) : Decidable (Consists p s) :=
  decidable_of_iff (s.toList.all p = true) List.all_eq_true

/-- Texts of some characters behind each other are one text of these characters. -/
theorem Consists.append {p : Char → Bool} {s t : String} (hs : Consists p s) (ht : Consists p t) :
    Consists p (s ++ t) := by
  rw [Consists, String.toList_append]
  exact List.forall_mem_append.mpr ⟨hs, ht⟩

/-- Texts of some characters with one between them are one, such as the parts of a path with the
signs between them. -/
theorem Consists.intercalate {p : Char → Bool} {sep : String} (hsep : Consists p sep)
    {ts : List String} (h : ∀ t ∈ ts, Consists p t) : Consists p (sep.intercalate ts) := by
  induction ts with
  | nil => simp [Consists]
  | cons t ts ih =>
      obtain ⟨ht, hts⟩ := List.forall_mem_cons.mp h
      cases ts with
      | nil => simpa using ht
      | cons u us =>
          rw [String.intercalate_cons_cons]
          exact (ht.append hsep).append (ih hts)

/-- A text of some characters is one of more characters. So a text of digits is visible as soon as
digits are. -/
theorem Consists.mono {p q : Char → Bool} (hpq : ∀ c, p c = true → q c = true) {s : String}
    (h : Consists p s) : Consists q s := fun c hc => hpq c (h c hc)

/-- What is no such character is not in the text. For visible characters this rules out line feeds
and escape sequences. -/
theorem Consists.not_mem {p : Char → Bool} {s : String} (h : Consists p s) {x : Char}
    (hx : p x = false) : x ∉ s.toList := fun mem => Bool.false_ne_true (hx ▸ h x mem)

/-- Whether a character is a letter, a digit, a sign or a point, as numbers have them. -/
def isNumeral (c : Char) : Bool := c.isAlphanum || c == '+' || c == '-' || c == '.'

/-- Whether a character is none of the control characters before the space. Line feeds and escape
sequences are written with these. -/
def isVisible (c : Char) : Bool := 0x20 ≤ c.toNat

/-- A text of visible characters is one row, since a line feed is not visible. -/
theorem Consists.isRow {s : String} (h : Consists isVisible s) : IsRow s := h.not_mem (by decide)

/-- Letters, digits, signs and points are visible. -/
theorem isVisible_of_isNumeral {c : Char} (h : isNumeral c = true) : isVisible c = true := by
  have none_low : ∀ n < 0x20, isNumeral (Char.ofNat n) = false := by decide
  rw [isVisible, decide_eq_true_eq]
  refine Nat.le_of_not_lt fun low => ?_
  rw [← Char.ofNat_toNat c, none_low _ low] at h
  exact Bool.false_ne_true h

/-- Printable characters are visible. -/
theorem isVisible_of_isPrintable {c : Char} (h : isPrintable c = true) : isVisible c = true := by
  rw [isPrintable] at h
  rw [isVisible, decide_eq_true_eq]
  split at h
  · exact of_decide_eq_true h
  · omega

/-! ### Numbers -/

/-- Numbers in a base up to sixteen are written with digits and letters. -/
theorem isNumeral_of_mem_toDigits {b : Nat} (hb : 1 < b) (hb' : b ≤ 16) (n : Nat) :
    ∀ c ∈ Nat.toDigits b n, isNumeral c = true := by
  have digit : ∀ m < 16, isNumeral (Nat.digitChar m) = true := by decide
  induction n using Nat.base_induction b hb with
  | single m hm =>
      rw [Nat.toDigits_of_lt_base hm, List.forall_mem_singleton]
      exact digit m (Nat.lt_of_lt_of_le hm hb')
  | digit m k hk hm ih =>
      rw [← Nat.toDigits_append_toDigits hb hm hk, Nat.toDigits_of_lt_base hk]
      exact List.forall_mem_append.mpr
        ⟨ih, List.forall_mem_singleton.mpr (digit k (Nat.lt_of_lt_of_le hk hb'))⟩

/-- A number is written with digits. -/
theorem consists_nat (n : Nat) : Consists isNumeral (toString n) := by
  rw [Consists, Nat.toString_eq_repr, Nat.toList_repr]
  exact isNumeral_of_mem_toDigits (by decide) (by decide) n

/-- A number is written in one row. -/
theorem isRow_nat (n : Nat) : IsRow (toString n) := (consists_nat n).not_mem (by decide)

/-- A number has digits. -/
theorem nat_ne_empty (n : Nat) : toString n ≠ "" := by
  rw [Nat.toString_eq_repr, ← String.toList_inj.ne, Nat.toList_repr]
  exact Nat.toDigits_ne_nil

/-- An integer has digits. -/
theorem int_ne_empty (n : Int) : toString n ≠ "" := by
  cases n with
  | ofNat n => exact nat_ne_empty n
  | negSucc n =>
      show "-" ++ toString (n + 1) ≠ ""
      simp

/-- An integer is written with digits and a sign. -/
theorem consists_int (n : Int) : Consists isNumeral (toString n) := by
  cases n with
  | ofNat n => exact consists_nat n
  | negSucc n => exact Consists.append (s := "-") (by decide) (consists_nat (n + 1))

/-- A number in base sixteen is written with digits and letters. -/
theorem isNumeral_of_mem_hex (width n : Nat) : ∀ c ∈ hex width n, isNumeral c = true := by
  rw [hex]
  refine List.forall_mem_append.mpr ⟨fun c hc => ?_,
    isNumeral_of_mem_toDigits (by decide) (by decide) n⟩
  rw [List.eq_of_mem_replicate hc]
  decide

/-! ### Quotes -/

/-- A code point is escaped with a backslash, a letter for how many digits follow, and the
digits. -/
theorem exists_escapeCode (n : Nat) :
    ∃ kind width, isNumeral kind = true ∧ escapeCode n = '\\' :: kind :: hex width n := by
  rw [escapeCode]
  split
  · exact ⟨'x', 2, by decide, rfl⟩
  · split
    · exact ⟨'u', 4, by decide, rfl⟩
    · exact ⟨'U', 8, by decide, rfl⟩

/-- An escaped code point is visible, which is what the escape is for. -/
theorem isVisible_of_mem_escapeCode (n : Nat) : ∀ c ∈ escapeCode n, isVisible c = true := by
  obtain ⟨kind, width, hk, shown⟩ := exists_escapeCode n
  rw [shown]
  exact List.forall_mem_cons.mpr ⟨by decide, List.forall_mem_cons.mpr
    ⟨isVisible_of_isNumeral hk, fun c hc => isVisible_of_isNumeral (isNumeral_of_mem_hex _ _ c hc)⟩⟩

/-- The escapes that strings and byte strings share are visible; `shown` is what a character that
needs none of them becomes. Both kinds of string only differ in this last case. -/
theorem isVisible_of_mem_escaped {q c : Char} {shown : List Char} (hq : isVisible q = true)
    (hs : ∀ d ∈ shown, isVisible d = true) :
    ∀ d ∈ (if c == q || c == '\\' then ['\\', c] else if c == '\n' then ['\\', 'n']
      else if c == '\r' then ['\\', 'r'] else if c == '\t' then ['\\', 't'] else shown),
      isVisible d = true := by
  have behind : ∀ {d : Char}, isVisible d = true → ∀ e ∈ ['\\', d], isVisible e = true := fun hd =>
    List.forall_mem_cons.mpr ⟨by decide, List.forall_mem_singleton.mpr hd⟩
  split
  · rename_i special
    refine behind ?_
    rcases Bool.or_eq_true_iff.mp special with h | h <;> rw [eq_of_beq h]
    · exact hq
    · decide
  · split
    · exact behind (by decide)
    · split
      · exact behind (by decide)
      · split
        · exact behind (by decide)
        · exact hs

/-- What stands for a character in quotes is visible: the character itself if it is printable, and
an escape otherwise. -/
theorem isVisible_of_mem_quotedChar {q : Char} (hq : isVisible q = true) (c : Char) :
    ∀ d ∈ quotedChar q c, isVisible d = true := by
  refine isVisible_of_mem_escaped hq ?_
  split
  · rename_i printable
    exact List.forall_mem_singleton.mpr (isVisible_of_isPrintable printable)
  · exact isVisible_of_mem_escapeCode c.toNat

/-- What stands for a byte in quotes is visible: only bytes of printable characters are shown as
they are. -/
theorem isVisible_of_mem_quotedByte {q : Char} (hq : isVisible q = true) (b : UInt8) :
    ∀ d ∈ quotedByte q b, isVisible d = true := by
  refine isVisible_of_mem_escaped hq ?_
  split
  · rename_i ascii
    obtain ⟨low, high⟩ := Bool.and_eq_true_iff.mp ascii
    have shown : ∀ n < 0x7f, 0x20 ≤ n → isVisible (Char.ofNat n) = true := by decide
    exact List.forall_mem_singleton.mpr (shown _ (of_decide_eq_true high) (of_decide_eq_true low))
  · exact List.forall_mem_cons.mpr ⟨by decide, List.forall_mem_cons.mpr ⟨by decide,
      fun c hc => isVisible_of_isNumeral (isNumeral_of_mem_hex _ _ c hc)⟩⟩

/-- The quotes around a text are single or double ones, depending on what is in the text. -/
theorem quoteFor_eq (cs : List Char) : quoteFor cs = '"' ∨ quoteFor cs = '\x27' := by
  rw [quoteFor]
  split
  · exact .inl rfl
  · exact .inr rfl

/-- A quote is visible. -/
theorem isVisible_quoteFor (cs : List Char) : isVisible (quoteFor cs) = true := by
  rcases quoteFor_eq cs with quote | quote <;> (rw [quote]; decide)

/-- Quoted text is visible when what is quoted is. -/
theorem consists_between {q : Char} (hq : isVisible q = true) {cs : List Char}
    (h : ∀ c ∈ cs, isVisible c = true) :
    Consists isVisible (String.ofList (q :: cs ++ [q])) := by
  rw [Consists, String.toList_ofList]
  exact List.forall_mem_append.mpr
    ⟨List.forall_mem_cons.mpr ⟨hq, h⟩, List.forall_mem_singleton.mpr hq⟩

/-- A quoted string is visible, whatever is quoted: control characters are escaped. -/
theorem consists_quoted (s : String) : Consists isVisible (quoted s) := by
  have quote := isVisible_quoteFor s.toList
  refine consists_between quote fun d hd => ?_
  obtain ⟨c, -, hd⟩ := List.mem_flatMap.mp hd
  exact isVisible_of_mem_quotedChar quote c d hd

/-- A quoted byte string is visible, whatever its bytes are. -/
theorem consists_quotedBytes (bs : List UInt8) : Consists isVisible (quotedBytes bs) := by
  have quote := isVisible_quoteFor (bs.map fun b => Char.ofNat b.toNat)
  have inside : ∀ d ∈ bs.flatMap (quotedByte (quoteFor (bs.map fun b => Char.ofNat b.toNat))),
      isVisible d = true := by
    intro d hd
    obtain ⟨b, -, hd⟩ := List.mem_flatMap.mp hd
    exact isVisible_of_mem_quotedByte quote b d hd
  rw [Consists, quotedBytes, String.toList_ofList]
  refine List.forall_mem_cons.mpr ⟨by decide, ?_⟩
  have between := consists_between quote inside
  rwa [Consists, String.toList_ofList] at between

end Text

namespace Binary64

/-- The decimal of a double is written with digits, signs, points and letters, in either
notation. -/
theorem consists_layout (point : Bool) (d : Decimal) :
    Text.Consists Text.isNumeral (layout point d) := by
  have digits := Text.consists_nat d.digits
  have front : ∀ n, Text.Consists Text.isNumeral ((toString d.digits).take n).toString :=
    fun n c hc => digits c (List.mem_of_mem_take (String.toList_copy_take ▸ hc))
  have back : ∀ n, Text.Consists Text.isNumeral ((toString d.digits).drop n).toString :=
    fun n c hc => digits c (List.mem_of_mem_drop (String.toList_copy_drop ▸ hc))
  have zeros : ∀ n, Text.Consists Text.isNumeral (zeros n) := by
    intro n c hc
    rw [Binary64.zeros, String.toList_ofList] at hc
    rw [List.eq_of_mem_replicate hc]
    decide
  have exponent : ∀ e, Text.Consists Text.isNumeral (exponentText e) := by
    intro e
    have power := Text.consists_nat e.natAbs
    refine Text.Consists.append (by split <;> decide) ?_
    split
    · exact Text.Consists.append (by decide) power
    · exact power
  rw [layout]
  split
  · refine (((front 1).append ?_).append (by decide)).append (exponent _)
    split
    · decide
    · exact Text.Consists.append (by decide) (back 1)
  · split
    · exact (Text.Consists.append (by decide) (zeros _)).append digits
    · split
      · exact (digits.append (zeros _)).append (by split <;> decide)
      · exact ((front _).append (by decide)).append (back _)

/-- A double is not written as an empty text: there is a digit, or a name such as that of
infinity. -/
theorem text_ne_empty (x : Binary64) (point : Bool) : x.text point ≠ "" := by
  have decimal : ∀ d, layout point d ≠ "" := by
    intro d
    have digits := Text.nat_ne_empty d.digits
    rw [layout]
    split
    · simp
    · split
      · simp
      · split <;> simp_all
  have magnitude : x.magnitudeText point ≠ "" := by
    cases x with
    | finite s m => exact decimal (shortest m)
    | infinite s => simp [magnitudeText]
    | nan s => simp [magnitudeText]
  simp [text, magnitude]

/-- A double is written with digits, signs, points and letters. The letters are those of an exponent
and of the words for infinities and what is not a number. -/
theorem consists_text (x : Binary64) (point : Bool) :
    Text.Consists Text.isNumeral (x.text point) := by
  refine Text.Consists.append (by split <;> decide) ?_
  cases x with
  | finite s m => exact consists_layout point (shortest m)
  | infinite s => exact (by decide : Text.Consists Text.isNumeral "inf")
  | nan s => exact (by decide : Text.Consists Text.isNumeral "nan")

end Binary64

/-! ### Paths -/

/-- A string of JSON is visible, as control characters are escaped in it. -/
theorem consists_encode (s : String) : Text.Consists Text.isVisible (JsonString.encode s) := by
  have letter : ∀ e ∈ JsonString.letters, Text.isVisible e.1 = true := by decide
  have char : ∀ c, ∀ d ∈ JsonString.encodeChar c, Text.isVisible d = true := by
    intro c
    unfold JsonString.encodeChar
    split
    · rename_i e escape
      exact List.forall_mem_cons.mpr ⟨by decide, List.forall_mem_singleton.mpr
        (letter _ (JsonString.letterEscape?_spec escape))⟩
    · split
      · exact List.forall_mem_cons.mpr ⟨by decide, List.forall_mem_cons.mpr ⟨by decide,
          fun d hd => Text.isVisible_of_isNumeral (Text.isNumeral_of_mem_hex _ _ d hd)⟩⟩
      · rename_i high
        exact List.forall_mem_singleton.mpr (decide_eq_true (Nat.le_of_not_lt high))
  refine Text.consists_between (by decide) fun d hd => ?_
  obtain ⟨c, -, hd⟩ := List.mem_flatMap.mp hd
  exact char c d hd

/-- An identifier is visible. It is made of letters, digits and underscores. -/
theorem consists_of_isIdentifier {s : String} (h : isIdentifier s = true) :
    Text.Consists Text.isVisible s := by
  have range : ∀ {c lo hi : Char}, Text.isVisible lo = true → (lo ≤ c && c ≤ hi) = true →
      Text.isVisible c = true := fun hlo h =>
    decide_eq_true (Nat.le_trans (of_decide_eq_true hlo)
      (of_decide_eq_true (Bool.and_eq_true_iff.mp h).1))
  have start : ∀ c, isIdentifierStart c = true → Text.isVisible c = true := by
    intro c hc
    rcases Bool.or_eq_true_iff.mp hc with letter | underscore
    · rcases Bool.or_eq_true_iff.mp letter with lower | upper
      · exact range (by decide) lower
      · exact range (by decide) upper
    · rw [eq_of_beq underscore]
      decide
  rw [isIdentifier] at h
  split at h
  · exact absurd h (by simp)
  · rename_i c cs letters
    obtain ⟨first, later⟩ := Bool.and_eq_true_iff.mp h
    rw [Text.Consists, letters]
    refine List.forall_mem_cons.mpr ⟨start c first, fun d hd => ?_⟩
    rcases Bool.or_eq_true_iff.mp (List.all_eq_true.mp later d hd) with letter | digit
    · exact start d letter
    · exact range (by decide) digit

/-- The text of a path is visible, as properties with other characters are quoted. -/
theorem Path.consists_render (q : Path) : Text.Consists Text.isVisible q.render := by
  have component : ∀ c : Component, Text.Consists Text.isVisible c.render := by
    intro c
    cases c with
    | index i =>
        have numeral := (Text.consists_nat i).mono fun _ => Text.isVisible_of_isNumeral
        exact (Text.Consists.append (by decide) numeral).append (by decide)
    | property name =>
        rw [Component.render]
        split
        · rename_i identifier
          exact Text.Consists.append (by decide) (consists_of_isIdentifier identifier)
        · exact (Text.Consists.append (by decide) (consists_encode name)).append (by decide)
  refine Text.Consists.append (by decide) fun x hx => ?_
  rw [String.toList_join] at hx
  obtain ⟨t, ht, hx⟩ := List.mem_flatMap.mp hx
  obtain ⟨c, -, rfl⟩ := List.mem_map.mp ht
  exact component c x hx

namespace Text

/-! ### Rows -/

/-- The rows of a text: what its line feeds end. What comes after the last one is no row, so a row
is something that was written to its end. -/
def rows : List Char → List (List Char)
  | [] => []
  | c :: cs => if c = '\n' then [] :: rows cs else (rows cs).modifyHead (c :: ·)

/-- A text without line feeds is put in front of the first row, and the other rows stay. -/
theorem rows_append_of_not_mem {r : List Char} (h : '\n' ∉ r) (cs : List Char) :
    rows (r ++ cs) = (rows cs).modifyHead (r ++ ·) := by
  induction r with
  | nil => rw [List.nil_append]; cases rows cs <;> rfl
  | cons c r ih =>
      obtain ⟨hc, hr⟩ := not_or.mp (List.mem_cons.not.mp h)
      rw [List.cons_append, rows, if_neg (Ne.symm hc), ih hr]
      cases rows cs <;> rfl

/-- A text without line feeds is ended by the first one behind it, and is then a row by itself. -/
theorem rows_append_feed {r : List Char} (h : '\n' ∉ r) (cs : List Char) :
    rows (r ++ '\n' :: cs) = r :: rows cs := by
  rw [rows_append_of_not_mem h, rows, if_pos rfl, List.modifyHead_cons, List.append_nil]

/-- An empty row, and a rest that is no row. -/
example : rows "a\n\nb\nc".toList = ["a".toList, [], "b".toList] := by decide

/-- A text with a line feed has a row. -/
theorem rows_ne_nil {cs : List Char} (h : '\n' ∈ cs) : rows cs ≠ [] := by
  induction cs with
  | nil => exact absurd h (by simp)
  | cons c cs ih =>
      rw [rows]
      split
      · simp
      · rename_i other
        have later := (List.mem_cons.mp h).resolve_left (Ne.symm other)
        simpa using ih later

/-- The rows behind a line feed are those of the rest. So texts that end in line feeds can be looked
at one by one. -/
theorem rows_append (as bs : List Char) :
    rows (as ++ '\n' :: bs) = rows (as ++ ['\n']) ++ rows bs := by
  induction as with
  | nil => rfl
  | cons a as ih =>
      rw [List.cons_append, List.cons_append, rows, rows, ih]
      split
      · rfl
      · have feed : '\n' ∈ as ++ ['\n'] := by simp
        obtain ⟨r, rs, hr⟩ := List.exists_cons_of_ne_nil (rows_ne_nil feed)
        rw [hr]
        rfl

/-- A text of whole rows: it is empty or ends in a line feed. Values are printed as blocks. -/
def IsBlock (s : String) : Prop := s ≠ "" → s.toList.getLast? = some '\n'

/-- The rows of a block come before those of what is behind it, and none of them is continued
there. -/
theorem IsBlock.rows_append {s : String} (h : IsBlock s) (cs : List Char) :
    rows (s.toList ++ cs) = rows s.toList ++ rows cs := by
  by_cases hs : s = ""
  · subst hs
    rfl
  · obtain ⟨as, has⟩ := List.getLast?_eq_some_iff.mp (h hs)
    rw [has, List.append_assoc]
    exact Text.rows_append as cs

/-- Blocks behind each other are a block. So whole reports are blocks when their parts are. -/
theorem IsBlock.append {s t : String} (hs : IsBlock s) (ht : IsBlock t) : IsBlock (s ++ t) := by
  intro hne
  rw [String.toList_append]
  by_cases empty : t = ""
  · subst empty
    rw [String.append_empty] at hne
    rw [String.toList_empty, List.append_nil]
    exact hs hne
  · rw [List.getLast?_append, ht empty]
    rfl

/-! ### Marks -/

/-- Whether every row of a text starts with a mark. A rest behind the last line feed need not. -/
def Marked (mark s : String) : Prop := ∀ row ∈ rows s.toList, mark.toList <+: row

instance (mark s : String) : Decidable (Marked mark s) :=
  inferInstanceAs (Decidable (∀ row ∈ _, _))

/-- Whether the rows of a text but the first one start with a mark, when a line feed ends it. The
first row is left out because something is printed in front of it. -/
def Continues (mark s : String) : Prop :=
  ∀ row ∈ (rows (s ++ "\n").toList).tail, mark.toList <+: row

/-- An empty text has no rows to mark, so it is marked with anything. -/
theorem marked_empty (mark : String) : Marked mark "" := by
  simp [Marked, rows]

/-- A block and what is behind it are marked when both are. Without a block in front, the first row
behind it would not be a row of its own. -/
theorem IsBlock.marked_append_iff {mark s t : String} (h : IsBlock s) :
    Marked mark (s ++ t) ↔ Marked mark s ∧ Marked mark t := by
  rw [Marked, String.toList_append, h.rows_append, List.forall_mem_append]
  rfl

/-- A text in one row has no further rows that could lack the mark. -/
theorem continues_of_isRow (mark : String) {s : String} (h : IsRow s) : Continues mark s := by
  rw [Continues, String.toList_append]
  simp [rows_append_feed h, rows]

/-- A text behind a mark goes on with marked rows exactly when all its rows are marked. -/
theorem marked_line_iff {mark m s : String} (hm : IsRow m) (hp : mark.toList <+: m.toList) :
    Marked mark (m ++ s ++ "\n") ↔ Continues mark s := by
  have feed : '\n' ∈ (s ++ "\n").toList := by simp
  obtain ⟨r, rs, hr⟩ := List.exists_cons_of_ne_nil (rows_ne_nil feed)
  rw [Marked, Continues, String.append_assoc, String.toList_append, rows_append_of_not_mem hm, hr,
    List.modifyHead_cons, List.tail_cons, List.forall_mem_cons]
  exact and_iff_right (hp.trans (List.prefix_append _ _))

/-! ### Lines of a text -/

/-- A line is not empty, and has no line feed before its last character. There may be one as its
last character. -/
theorem of_mem_linesOf {cs l : List Char} (h : l ∈ linesOf cs) : l ≠ [] ∧ '\n' ∉ l.dropLast := by
  fun_induction linesOf cs generalizing l with
  | case1 => exact absurd h (by simp)
  | case2 cs ih =>
      rcases List.mem_cons.mp h with rfl | later
      · exact ⟨by simp, by decide⟩
      · exact ih later
  | case3 c cs _ _ ih =>
      rcases List.mem_cons.mp h with rfl | later
      · simp
      · exact ih later
  | case4 c cs _ plain ih =>
      have other : '\n' ≠ c := by
        rintro rfl
        exact plain (by decide)
      cases hl : linesOf cs with
      | nil =>
          rw [hl] at h
          obtain rfl : l = [c] := by simpa [consChar] using h
          simp
      | cons first rest =>
          rw [hl] at h ih
          rcases List.mem_cons.mp h with rfl | later
          · obtain ⟨full, inside⟩ := ih List.mem_cons_self
            obtain ⟨d, ds, rfl⟩ := List.exists_cons_of_ne_nil full
            rw [List.dropLast_cons_cons, List.mem_cons, not_or]
            exact ⟨by simp, other, inside⟩
          · exact ih (List.mem_cons_of_mem _ later)

/-- A line that does not end in a line feed has none, as there is none before its end. -/
theorem feed_not_mem_of_getLast? {l : List Char} (h : '\n' ∉ l.dropLast)
    (last : l.getLast? ≠ some '\n') : '\n' ∉ l := by
  rcases List.eq_nil_or_concat l with rfl | ⟨r, c, rfl⟩
  · simp
  · rw [List.concat_eq_append] at h last ⊢
    rw [List.dropLast_concat] at h
    rw [List.getLast?_concat, ne_eq, Option.some.injEq] at last
    simp [h, Ne.symm last]

/-- A text with lines behind marks has marked rows, where line feeds only end lines. Other breaks
end lines, too, so there may be several lines in a row. -/
theorem prefix_of_mem_rows_flatMap {m : List Char} (hm : '\n' ∉ m) {ls : List (List Char)}
    (h : ∀ l ∈ ls, '\n' ∉ l.dropLast) : ∀ row ∈ rows (ls.flatMap (m ++ ·)), m <+: row := by
  induction ls with
  | nil => simp [rows]
  | cons l ls ih =>
      obtain ⟨hl, hls⟩ := List.forall_mem_cons.mp h
      have later := ih hls
      rw [List.flatMap_cons]
      -- A line that a line feed ends is a row with its mark; any other line break leaves the row
      -- open, and the next mark stands inside it.
      by_cases ended : l.getLast? = some '\n'
      · obtain ⟨r, rfl⟩ := List.getLast?_eq_some_iff.mp ended
        rw [List.dropLast_concat] at hl
        have front : '\n' ∉ m ++ r := by simp [hm, hl]
        rw [← List.append_assoc, List.append_assoc _ ['\n'], List.singleton_append,
          rows_append_feed front, List.forall_mem_cons]
        exact ⟨List.prefix_append _ _, later⟩
      · have front : '\n' ∉ m ++ l := by
          simp [hm, feed_not_mem_of_getLast? hl ended]
        rw [rows_append_of_not_mem front]
        cases hrest : rows (ls.flatMap (m ++ ·)) with
        | nil => simp
        | cons r rs =>
            rw [hrest, List.forall_mem_cons] at later
            rw [List.modifyHead_cons, List.forall_mem_cons]
            exact ⟨(List.prefix_append m l).trans (List.prefix_append _ _), later.2⟩

/-- A line without its line break is a row, and so can be written behind a mark. -/
theorem isRow_dropBreak (line : String) : IsRow (dropBreak line) := by
  intro h
  rw [dropBreak, String.toList_ofList] at h
  exact absurd (List.all_eq_true.mp List.all_takeWhile _ h) (by decide)

end Text

end TreeDelta
