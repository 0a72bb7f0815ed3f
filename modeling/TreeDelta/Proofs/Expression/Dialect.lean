import TreeDelta.Proofs.Expression.Limit

/-!
# The two dialects agree on literals

The dialect of patterns has all the segments of the dialect of paths, and the segments that it has
besides spell wildcards and unions. So a literal selector is spelled by the same tokens in both, and
the texts of a path are the texts of its pattern: reading a text as a path and reading it as a
pattern of literals are one and the same, although the readers go through different phases. A limit
of digits makes no difference between the dialects either, because it looks at the text alone.

## Main definitions

* `Selector.IsLiteral`: an index or a property.

## Main results

* `Expression.segment_ofComponent_iff`: a literal selector is spelled alike in all dialects.
* `Expression.spells_ofPath_iff`: the pattern of a path is spelled alike in all dialects.
* `Expression.dialects_agree`: paths are the patterns that are read without wildcards and unions.
-/

namespace TreeDelta

/-! ### Patterns of paths -/

/-- A selector that is an index or a property. These are the selectors that both dialects know. -/
def Selector.IsLiteral (s : Selector) : Prop := s.component?.isSome = true

/-- The selector of a component is a literal. -/
theorem Selector.isLiteral_ofComponent (c : Component) : (Selector.ofComponent c).IsLiteral := by
  cases c <;> rfl

/-- The selector of a component accepts the component. -/
theorem Selector.accepts_ofComponent (c : Component) :
    (Selector.ofComponent c).accepts c = true := by
  cases c <;> simp [ofComponent, accepts, literals, Component.same]

/-- The pattern of a path accepts the path. -/
theorem Pattern.accepts_ofPath (p : Path) : (Pattern.ofPath p).accepts p = true := by
  induction p with
  | nil => rfl
  | cons c p ih =>
      rw [ofPath, List.map_cons, accepts, Selector.accepts_ofComponent]
      exact ih

namespace Expression

variable {d e : Dialect} {ts : List Token} {s : Selector} {c : Component} {p : Path}
  {text : String}

/-! ### The same tokens -/

/-- The segments of a literal selector are in every dialect. -/
theorem Segment.of_literal (h : Segment d ts s) (literal : s.IsLiteral) : Segment e ts s := by
  cases h with
  | name hdot kind ht => exact .name hdot kind ht
  | literal hl kind ht hr => exact .literal hl kind ht hr
  | anyProperty | anyIndex | union => exact absurd literal Bool.false_ne_true

/-- **A literal selector is spelled alike** in all dialects. Where only one dialect has a way to
spell something, it is for a wildcard or a union. -/
theorem segment_ofComponent_iff :
    Segment d ts (.ofComponent c) ↔ Segment e ts (.ofComponent c) :=
  have literal := Selector.isLiteral_ofComponent c
  ⟨fun h => h.of_literal literal, fun h => h.of_literal literal⟩

/-- The segments of the pattern of a path are in every dialect. -/
theorem Segments.of_ofPath (h : Segments d ts (Pattern.ofPath p)) :
    Segments e ts (Pattern.ofPath p) := by
  -- the induction is on the segments, so the path is the one that is left at each of them
  generalize hm : Pattern.ofPath p = m at h
  induction h generalizing p with
  | nil => exact .nil
  | cons segment _ ih =>
      cases p with
      | nil => exact absurd hm (by simp [Pattern.ofPath])
      | cons c p =>
          obtain ⟨rfl, rest⟩ := List.cons.inj hm
          exact .cons (segment_ofComponent_iff.mp segment) (ih rest)

/-- **The pattern of a path is spelled alike** in all dialects, so that a text of literals means the
same as a path and as a pattern. -/
theorem spells_ofPath_iff :
    Spells d text (Pattern.ofPath p) ↔ Spells e text (Pattern.ofPath p) := by
  constructor
  · rintro ⟨ts, lexed, root, rest, rfl, kind, segments⟩
    exact ⟨_, lexed, root, rest, rfl, kind, segments.of_ofPath⟩
  · rintro ⟨ts, lexed, root, rest, rfl, kind, segments⟩
    exact ⟨_, lexed, root, rest, rfl, kind, segments.of_ofPath⟩

/-! ### The same readings -/

/-- **Paths are the patterns that are read without wildcards and unions**: a text is read as a path
exactly when it is read as a pattern of literals that is the pattern of the path. This pattern
accepts the path. All this is so whatever the limit of digits. -/
theorem dialects_agree (limit : Nat) (text : String) (p : Path) :
    (Path.parse text limit = .ok p ↔ ∃ m, Pattern.parse text limit = .ok m ∧
      (∀ s ∈ m, s.IsLiteral) ∧ m = Pattern.ofPath p) ∧
    (Pattern.ofPath p).accepts p = true := by
  have readings :
      Path.parse text limit = .ok p ↔ Pattern.parse text limit = .ok (Pattern.ofPath p) := by
    rw [(readExactly_parse .literal limit text).path.ok, Pattern.parse,
      (readExactly_parse .wild limit text).ok, id, spells_ofPath_iff (e := .wild)]
  have literals : ∀ s ∈ Pattern.ofPath p, s.IsLiteral := by
    intro s hs
    obtain ⟨c, -, rfl⟩ := List.mem_map.mp hs
    exact Selector.isLiteral_ofComponent c
  refine ⟨⟨fun h => ⟨_, readings.mp h, literals, rfl⟩, ?_⟩, Pattern.accepts_ofPath p⟩
  rintro ⟨m, hm, -, rfl⟩
  exact readings.mpr hm

/-- Zeros in front and blanks make no difference, whichever way the text is read. -/
example : Path.parse "$[007] . a" = .ok [.index 7, .property "a"] ∧
    Pattern.parse "$[007] . a" = .ok [.index 7, .property "a"] := by
  cbv

end Expression

end TreeDelta
