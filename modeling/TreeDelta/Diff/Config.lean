import TreeDelta.Value.Equality

/-!
# Options of a diff

A diff asks three predicates: which values take part, which containers count as one atomic value,
and which unequal values count as equal.

## Main definitions

* `Diff.Config`: the predicates, and whether containers are reported themselves.
* `Diff.Config.ignoring`: leaves out what lies at or below the places some patterns match.
-/

namespace TreeDelta.Diff

/-- A value takes part unless it is missing, which is what a hole in a list is. -/
def acceptPresent : Path → Value → Bool := fun _ v => !v.isMissing

/-- The options of a diff. The three predicates come from the caller, and each of them is asked
about values at their paths. -/
structure Config where
  /-- Whether a value takes part; one that does not is left out with everything below it. -/
  accepts : Path → Value → Bool := acceptPresent
  /-- Whether a value that is no scalar counts as one atomic value. -/
  isAtomic? : Option (Value → Path → Bool) := none
  /-- Whether two values that are not strictly equal count as equal. -/
  isEqual? : Option (Value → Value → Path → Bool) := none
  /-- Whether lists and dictionaries are reported themselves, besides their leaves. -/
  includeContainers : Bool := false

/-- Leaves out what lies at or below a place some pattern matches, and asks `inner` about the
rest. -/
def ignoring (patterns : List Pattern) (inner : Path → Value → Bool) : Path → Value → Bool :=
  fun p v => !patterns.any (fun m => m.covers p) && inner p v

namespace Config

/-- The options without what lies at or below the places some patterns match. The rest is left to
the predicate that was there before. -/
def ignoring (cfg : Config) (patterns : List Pattern) : Config :=
  { cfg with accepts := Diff.ignoring patterns cfg.accepts }

/-- The options with containers reported, too, so that empty containers make a difference. -/
def withContainers (cfg : Config) : Config := { cfg with includeContainers := true }

/-- Whether two atomic values count as equal at a path. The predicate is only asked when the values
are not strictly equal. -/
def equates (cfg : Config) (a b : Value) (p : Path) : Bool :=
  a.samePrimitive b || match cfg.isEqual? with
    | some equal => equal a b p
    | none => false

end Config

end TreeDelta.Diff
