import Mathlib.Data.List.Infix
import TreeDelta.Proofs.Text.Numeral

/-!
# Accepting, covering and meeting

A pattern accepts the paths of its own length, covers what lies at or below these, and meets what
lies at, above or below them. So covering is a matter of prefixes (`Pattern.covers_iff`), and it
passes on to everything further down. Every selector accepts some component
(`Selector.exists_accepts`), so a path that agrees with a pattern as far as it goes can be extended
to one that the pattern accepts, and meeting is a matter of prefixes and extensions
(`Pattern.covers_meets_iff`).

A pattern that covers an item of a list covers the whole list or has a selector that accepts an
index, which only the wildcard of indices and literals with the text of a numeral do
(`Selector.accepts_index`).

## Main definitions

* `Selector.namesNumeral`: a literal property of a selector is the numeral of an index.

## Main results

* `Pattern.covers_iff`: what a pattern covers lies at or below a place that it accepts.
* `Pattern.meets_of_covers`, `Pattern.meets_of_accepts`: what a pattern meets.
* `Pattern.covers_meets_iff`: covering and meeting in terms of accepting, and what they imply.
* `Selector.accepts_index`: which selectors accept an index.
-/

namespace TreeDelta

namespace Pattern

/-! ### Covering -/

/-- **What a pattern covers lies at or below a place that it accepts.** That place is the path cut
to the length of the pattern. -/
theorem covers_iff {m : Pattern} {q : Path} :
    m.covers q = true ↔ ∃ p, p <+: q ∧ m.accepts p = true := by
  induction m generalizing q with
  | nil =>
      have root : accepts [] [] = true := rfl
      exact ⟨fun _ => ⟨[], List.nil_prefix, root⟩, fun _ => by cases q <;> rfl⟩
  | cons s m ih =>
      cases q with
      | nil =>
          constructor
          · intro h
            exact absurd h (by simp [covers])
          · rintro ⟨p, hp, ha⟩
            rw [List.prefix_nil.mp hp] at ha
            exact absurd ha (by simp [accepts])
      | cons c q =>
          rw [covers, Bool.and_eq_true, ih]
          constructor
          · rintro ⟨hs, p, hp, ha⟩
            refine ⟨c :: p, List.cons_prefix_cons.mpr ⟨rfl, hp⟩, ?_⟩
            rw [accepts, hs, ha]
            rfl
          · rintro ⟨p, hp, ha⟩
            cases p with
            | nil => exact absurd ha (by simp [accepts])
            | cons d p =>
                obtain ⟨rfl, below⟩ := List.cons_prefix_cons.mp hp
                rw [accepts, Bool.and_eq_true] at ha
                exact ⟨ha.1, p, below, ha.2⟩

/-- What lies below a covered place is covered, so what is ignored is ignored as a whole. -/
theorem covers_of_isPrefix {m : Pattern} {p q : Path} (hpq : p <+: q) (h : m.covers p = true) :
    m.covers q = true := by
  obtain ⟨r, hr, ha⟩ := covers_iff.mp h
  exact covers_iff.mpr ⟨r, hr.trans hpq, ha⟩

/-! ### Meeting -/

/-- A pattern meets what it covers. -/
theorem meets_of_covers {m : Pattern} {q : Path} (h : m.covers q = true) : m.meets q = true := by
  induction m generalizing q with
  | nil => cases q <;> rfl
  | cons s m ih =>
      cases q with
      | nil => rfl
      | cons c q =>
          rw [covers, Bool.and_eq_true] at h
          rw [meets, h.1, ih h.2]
          rfl

/-- A pattern meets what lies above a place that it accepts. The way to an accepted place is met
from the root on. -/
theorem meets_of_accepts {m : Pattern} {p q : Path} (hqp : q <+: p) (h : m.accepts p = true) :
    m.meets q = true := by
  induction m generalizing p q with
  | nil => cases q <;> rfl
  | cons s m ih =>
      cases q with
      | nil => rfl
      | cons c q =>
          obtain ⟨r, rfl⟩ := hqp
          rw [List.cons_append, accepts, Bool.and_eq_true] at h
          rw [meets, h.1, ih (List.prefix_append q r) h.2]
          rfl

end Pattern

/-! ### Meeting and extensions -/

/-- **Every selector accepts some component**: a literal accepts itself, a union its first member,
and a wildcard any component of its kind. -/
theorem Selector.exists_accepts (s : Selector) : ∃ c, s.accepts c = true := by
  have member : ∀ (c : Component) (others : List Component),
      (c :: others).any c.same = true := by
    intro c others
    exact List.any_eq_true.mpr ⟨c, List.mem_cons_self, beq_self_eq_true c.text⟩
  cases s with
  | index i => exact ⟨.index i, member _ []⟩
  | property name => exact ⟨.property name, member _ []⟩
  | union a b others => exact ⟨a, member a (b :: others)⟩
  | anyIndex => exact ⟨.index 0, rfl⟩
  | anyProperty => exact ⟨.property "", rfl⟩

namespace Pattern

/-- Every pattern accepts some path, since each of its selectors accepts some component. -/
theorem exists_accepts (m : Pattern) : ∃ p, m.accepts p = true := by
  induction m with
  | nil => exact ⟨[], rfl⟩
  | cons s m ih =>
      obtain ⟨c, hc⟩ := s.exists_accepts
      obtain ⟨p, hp⟩ := ih
      exact ⟨c :: p, by rw [accepts, hc, hp]; rfl⟩

/-- What a pattern meets is covered by it, or can be extended to a path that it accepts. Which of
the two it is depends on which is longer. -/
theorem covers_or_extends_of_meets {m : Pattern} {p : Path} (h : m.meets p = true) :
    m.covers p = true ∨ ∃ s, m.accepts (p ++ s) = true := by
  induction m generalizing p with
  | nil => exact .inl (by cases p <;> rfl)
  | cons s m ih =>
      cases p with
      | nil => exact .inr (exists_accepts (s :: m))
      | cons c p =>
          rw [meets, Bool.and_eq_true] at h
          refine (ih h.2).imp (fun hc => ?_) fun ⟨r, hr⟩ => ⟨r, ?_⟩
          · rw [covers, h.1, hc]
            rfl
          · rw [List.cons_append, accepts, h.1, hr]
            rfl

/-- What lies above a path that is met is met. -/
theorem meets_of_isPrefix {m : Pattern} {p q : Path} (hqp : q <+: p) (h : m.meets p = true) :
    m.meets q = true := by
  rcases covers_or_extends_of_meets h with covered | ⟨s, extended⟩
  · obtain ⟨r, hr, ha⟩ := covers_iff.mp covered
    -- The accepted prefix ends above `q` or below it.
    rcases List.prefix_or_prefix_of_prefix hr hqp with hrq | hqr
    · exact meets_of_covers (covers_iff.mpr ⟨r, hrq, ha⟩)
    · exact meets_of_accepts hqr ha
  · exact meets_of_accepts (hqp.trans (List.prefix_append p s)) extended

/-- **Covering and meeting in terms of accepting.** A pattern covers a path when it accepts a prefix
of it, and meets it when it accepts a prefix or an extension. So accepting implies covering,
covering implies meeting, covering passes on to extensions, and meeting to prefixes. -/
theorem covers_meets_iff (m : Pattern) (p : Path) :
    (m.covers p = true ↔ ∃ q, q <+: p ∧ m.accepts q = true) ∧
      (m.meets p = true ↔
        (∃ q, q <+: p ∧ m.accepts q = true) ∨ ∃ s, m.accepts (p ++ s) = true) ∧
      (m.accepts p = true → m.covers p = true) ∧
      (m.covers p = true → m.meets p = true) ∧
      (∀ q, p <+: q → m.covers p = true → m.covers q = true) ∧
      (∀ q, q <+: p → m.meets p = true → m.meets q = true) := by
  refine ⟨covers_iff, ?_, fun h => covers_iff.mpr ⟨p, List.prefix_refl p, h⟩, meets_of_covers,
    fun q => covers_of_isPrefix, fun q => meets_of_isPrefix⟩
  rw [← covers_iff]
  constructor
  · exact covers_or_extends_of_meets
  · rintro (covered | ⟨s, extended⟩)
    · exact meets_of_covers covered
    · exact meets_of_accepts (List.prefix_append p s) extended

end Pattern

/-! ### Selectors and indices -/

namespace Selector

/-- Whether a literal property of a selector is the numeral of an index, so that it also names an
item of a list. -/
def namesNumeral (s : Selector) : Bool :=
  s.literals.any fun
    | .property name => (numeral? name).isSome
    | .index _ => false

/-- **A selector that accepts an index** allows gaps or names a numeral. -/
theorem accepts_index {s : Selector} {i : Nat} (h : s.accepts (.index i) = true) :
    s.allowsGaps = true ∨ s.namesNumeral = true := by
  have literal : s.literals.any (Component.same (.index i)) = true →
      s.literals.any Component.isIndex = true ∨ s.namesNumeral = true := by
    intro hany
    obtain ⟨c, hc, hsame⟩ := List.any_eq_true.mp hany
    cases c with
    | index j => exact .inl (List.any_eq_true.mpr ⟨_, hc, rfl⟩)
    | property name =>
        have text : toString i = name := beq_iff_eq.mp hsame
        have numeral : (numeral? name).isSome = true := by
          rw [numeral?_eq_some_iff.mpr text]
          rfl
        exact .inr (List.any_eq_true.mpr ⟨_, hc, numeral⟩)
  cases s with
  | anyIndex => exact .inl rfl
  | anyProperty => exact absurd h (by simp [accepts, Component.isProperty])
  | index j => exact literal h
  | property name => exact literal h
  | union a b others => exact literal h

end Selector

namespace Pattern

/-- Whether a selector of the pattern names an item of a list by a property. -/
def namesNumeral (m : Pattern) : Bool := m.any Selector.namesNumeral

/-- What a pattern accepts has an index only where a selector accepts one, and such a selector
allows gaps or names a numeral. -/
theorem accepts_index {m : Pattern} {p q : Path} {i : Nat}
    (h : m.accepts (p ++ .index i :: q) = true) : m.allowsGaps = true ∨ m.namesNumeral = true := by
  induction p generalizing m with
  | nil =>
      cases m with
      | nil => exact absurd h (by simp [accepts])
      | cons s m =>
          rw [List.nil_append, accepts, Bool.and_eq_true] at h
          rw [allowsGaps, namesNumeral, List.any_cons, List.any_cons, Bool.or_eq_true,
            Bool.or_eq_true]
          exact (Selector.accepts_index h.1).imp .inl .inl
  | cons c p ih =>
      cases m with
      | nil => exact absurd h (by simp [accepts])
      | cons s m =>
          rw [List.cons_append, accepts, Bool.and_eq_true] at h
          rw [allowsGaps, namesNumeral, List.any_cons, List.any_cons, Bool.or_eq_true,
            Bool.or_eq_true]
          exact (ih h.2).imp .inr .inr

/-- A pattern that selects no items covers an item of a list only with the whole list, so that it
leaves no gap in it. -/
theorem covers_of_covers_item {m : Pattern} {q : Path} {i : Nat} (hg : m.allowsGaps = false)
    (hn : m.namesNumeral = false) (h : m.covers (q ++ [.index i]) = true) : m.covers q = true := by
  obtain ⟨p, hp, ha⟩ := covers_iff.mp h
  rcases List.prefix_concat_iff.mp hp with rfl | hp
  · rcases accepts_index (q := []) ha with hg' | hn'
    · exact absurd (hg.symm.trans hg') (by simp)
    · exact absurd (hn.symm.trans hn') (by simp)
  · exact covers_iff.mpr ⟨p, hp, ha⟩

end Pattern

end TreeDelta
