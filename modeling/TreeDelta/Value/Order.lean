import TreeDelta.Value.Equality

/-!
# Order of values

Keys of a dictionary are sorted for a report. Only some of them have an order of their own, numbers
among themselves for one; all others go by their types. Such an order need not be transitive, and
a not-a-number value is neither below nor above a number, so the result depends on which keys are
compared: the entries at the start that are in order already are taken as they are, and every later
one is put among them by halving. Where the order of the keys is total, the result is sorted and
entries with equal keys keep their order.

## Main definitions

* `Value.keyLess`: whether a key comes before another one.
* `Value.sortEntries`: entries sorted by their keys.
* `Value.ofMembers`: a set with given members.
-/

namespace TreeDelta.Value

/-! ### Order of keys -/

/-- Whether a real number, an integer or a double, is less than another one. -/
def lessReal : Int ⊕ Binary64 → Int ⊕ Binary64 → Bool
  | .inl m, .inl n => decide (m < n)
  | .inl m, .inr y => Binary64.intLess m y
  | .inr x, .inl n => x.lessInt n
  | .inr x, .inr y => x.less y

/-- The real number that a value is; truth values are the numbers one and zero. -/
def real? : Value → Option (Int ⊕ Binary64)
  | bool b => some (.inl (if b then 1 else 0))
  | int n => some (.inl n)
  | float x => some (.inr x)
  | _ => none

/-- The place of the type of a value among the types, for values that cannot be compared. Types are
ordered by their names. -/
def typeRank : Value → Nat
  | null => 0
  | bool _ => 1
  | bytes _ => 2
  | complex _ _ => 3
  | dict _ => 4
  | float _ => 5
  | function _ => 6
  | int _ => 7
  | list _ => 8
  | missing => 9
  | path _ => 10
  | pattern _ => 11
  | object _ _ _ => 12
  | hooked _ _ => 13
  | set _ => 14
  | str _ => 15
  | tuple _ => 16

mutual

/-- Whether a key comes before another one: numbers, strings, byte strings and tuples are compared
among themselves, and other keys by their types. -/
def keyLess : Value → Value → Bool
  | str s, b => match b with
    | str t => decide (s < t)
    | b => (str s).typeRank < b.typeRank
  | bytes s, b => match b with
    | bytes t => decide (s < t)
    | b => (bytes s).typeRank < b.typeRank
  | tuple as, b => match b with
    | tuple bs => keysLess as bs
    | b => (tuple as).typeRank < b.typeRank
  | a, b => match real? a, real? b with
    | some x, some y => lessReal x y
    | _, _ => a.typeRank < b.typeRank

/-- Whether a tuple of keys comes before another one. The first places where the tuples differ
decide, and a tuple comes before its extensions. -/
def keysLess : List Value → List Value → Bool
  | [], bs => !bs.isEmpty
  | _ :: _, [] => false
  | a :: as, b :: bs => if same a b then keysLess as bs else keyLess a b

end

/-! ### Sorting entries -/

/-- Splits entries where a run ends that starts with a key. Every key of a falling run comes before
the one in front of it; in a rising run none does. -/
def splitRun {α : Type} (falling : Bool) (key : Value) :
    List (Value × α) → List (Value × α) × List (Value × α)
  | [] => ([], [])
  | e :: es =>
    if keyLess e.1 key == falling then
      let (run, rest) := splitRun falling e.1 es
      (e :: run, rest)
    else ([], e :: es)

/-- The run at the start of entries, a falling one turned round, and the entries behind it. Sorting
starts from this run, which matters only where keys have no total order. -/
def firstRun {α : Type} : List (Value × α) → List (Value × α) × List (Value × α)
  | a :: b :: es =>
    let falling := keyLess b.1 a.1
    let (run, rest) := splitRun falling a.1 (b :: es)
    (if falling then (a :: run).reverse else a :: run, rest)
  | es => (es, [])

/-- Puts an entry among sorted ones: before the middle one if its key comes before that key, and
otherwise behind it. -/
def insertSorted {α : Type} (entry : Value × α) (es : List (Value × α)) : List (Value × α) :=
  let front := es.take (es.length / 2)
  match h : es.drop (es.length / 2) with
  | [] => [entry]
  | e :: back =>
    have hlen : es.length - es.length / 2 = back.length + 1 := by
      simpa using congrArg List.length h
    if keyLess entry.1 e.1 then insertSorted entry front ++ e :: back
    else front ++ e :: insertSorted entry back
termination_by es.length
decreasing_by
  · simp only [List.length_take]
    omega
  · omega

/-- The entries sorted by their keys: the first run, and then the other entries put among them, one
by one. The order is stable. -/
def sortEntries {α : Type} (entries : List (Value × α)) : List (Value × α) :=
  let (run, rest) := firstRun entries
  rest.foldl (fun es e => insertSorted e es) run

/-! ### Members of a set -/

/-- Puts a member among other ones: a number before the first greater number and before all that
are no numbers, and everything else last. -/
def insertMember (v : Value) : List Value → List Value
  | [] => [v]
  | w :: ws =>
    let comesFirst := match real? v, real? w with
      | some x, some y => lessReal x y
      | some _, none => true
      | none, _ => false
    if comesFirst then v :: w :: ws else w :: insertMember v ws

/-- The set with the given members. Of equal ones the first stays, and the numbers stand in
ascending order. -/
def ofMembers (members : List Value) : Value :=
  set (members.foldl (fun vs v => if vs.any (same v) then vs else insertMember v vs) [])

end TreeDelta.Value
