import Mathlib.Data.List.Forall2
import TreeDelta.Proofs.Pattern.Cover
import TreeDelta.Value.Component

/-!
# Paths that name the same place

Components are compared in several ways: as values that are equal or shown alike, by a hash of what
they show, by a literal selector, and by a union. All of them come down to the texts of the
components, so they are one relation (`Path.same_agrees`): an equivalence that passes on to parents
and to longer paths. A pattern keeps to it exactly when it has no wildcards, which look at the kind
of a component and not at its text (`Pattern.accepts_congr_iff`).

## Main definitions

* `Selector.isWildcard`: the selectors that look at the kind of a component.
* `Path.hashBy`: the hash of a path.

## Main results

* `Component.sameComponent_toValue`: components as values are compared by their texts.
* `Pattern.accepts_ofPath_iff`: the pattern of a path accepts the paths to the same place.
* `Pattern.accepts_congr_iff`: the patterns that do not tell such paths apart.
* `Path.same_agrees`: equality, hashes and literal patterns agree.
-/

namespace TreeDelta

/-! ### Components -/

namespace Component

variable {c d : Component}

/-- The value of a component is shown as its text. -/
theorem display_toValue (c : Component) : c.toValue.display = c.text := by
  cases c with
  | index i => simp only [toValue, Value.display, Value.literal, text]; rfl
  | property name => rfl

/-- Components with equal values have the same text. -/
theorem text_eq_of_same_toValue (h : c.toValue.same d.toValue = true) : c.text = d.text := by
  cases c with
  | index i =>
      cases d with
      | index j =>
          have number : (i : Int) = j := by
            simpa [toValue, Value.same, Value.sameNumber, Value.number?, Value.sameReal] using h
          rw [Int.ofNat_inj.mp number]
      | property name => simp [toValue, Value.same, Value.sameNumber, Value.number?] at h
  | property name =>
      cases d with
      | index j => simp [toValue, Value.same] at h
      | property other => simpa [toValue, Value.same, text] using h

/-- **Components as values** are equal or shown alike exactly when their texts agree. Loose equality
adds nothing here, since equal components are shown alike. -/
theorem sameComponent_toValue : c.toValue.sameComponent d.toValue = c.same d := by
  rw [Value.sameComponent, display_toValue, display_toValue, same]
  cases h : c.toValue.same d.toValue with
  | false => rfl
  | true => rw [text_eq_of_same_toValue h, beq_self_eq_true, Bool.or_true]

end Component

/-! ### Selectors -/

namespace Selector

variable {s : Selector} {c d : Component}

/-- Whether a selector looks at the kind of a component. The other selectors look at its text
alone. -/
def isWildcard : Selector → Bool
  | anyIndex | anyProperty => true
  | _ => false

/-- Literals and unions look at the text of a component. -/
theorem accepts_congr (hs : s.isWildcard = false) (h : c.text = d.text) :
    s.accepts c = s.accepts d := by
  have texts : c.same = d.same := by
    funext e
    rw [Component.same, Component.same, h]
  cases s with
  | anyIndex | anyProperty => exact absurd hs (by simp [isWildcard])
  | index | property | union => simp only [accepts, texts]

/-- The selector of a component accepts what has the same text. -/
theorem accepts_ofComponent_eq (c d : Component) : (ofComponent c).accepts d = d.same c := by
  cases c <;> simp [ofComponent, accepts, literals]

/-- A wildcard accepts only one of two components with the same text. -/
theorem exists_told_apart (hs : s.isWildcard = true) :
    ∃ c d : Component, c.text = d.text ∧ s.accepts c = true ∧ s.accepts d = false := by
  have zero : (Component.index 0).text = (Component.property "0").text := rfl
  cases s with
  | anyIndex => exact ⟨_, _, zero, rfl, rfl⟩
  | anyProperty => exact ⟨_, _, zero.symm, rfl, rfl⟩
  | index | property | union => exact absurd hs (by simp [isWildcard])

end Selector

/-! ### Paths -/

namespace Path

variable {p q p' q' : Path} {c d : Component}

/-- Paths name the same place when the texts of their components agree. -/
theorem same_iff : p.same q = true ↔ p.texts = q.texts := beq_iff_eq

/-- Paths name the same place when their components do, one by one, as values. -/
theorem same_iff_forall₂ :
    p.same q = true ↔ List.Forall₂ (fun a b => a.toValue.sameComponent b.toValue = true) p q := by
  have texts : (fun a b : Component => a.toValue.sameComponent b.toValue = true) =
      fun a b => a.text = b.text := by
    funext a b
    rw [Component.sameComponent_toValue, Component.same, beq_iff_eq]
  rw [same_iff, texts, Path.texts, Path.texts, ← List.forall₂_eq_eq_eq, List.forall₂_map_left_iff,
    List.forall₂_map_right_iff]

/-- Naming the same place is an equivalence. -/
theorem same_equivalence : Equivalence fun p q : Path => p.same q = true where
  refl _ := same_iff.mpr rfl
  symm h := same_iff.mpr (same_iff.mp h).symm
  trans h h' := same_iff.mpr ((same_iff.mp h).trans (same_iff.mp h'))

/-- The hash of a path, from a hash of the texts of its components. How texts are hashed is left
open. -/
def hashBy {α : Type} (hash : List String → α) (p : Path) : α := hash p.texts

/-- Paths name the same place when their hashes agree, whatever the texts are hashed with. A single
hash may agree by chance, so all of them are asked. -/
theorem hashBy_eq_iff :
    (∀ {α : Type} (hash : List String → α), p.hashBy hash = q.hashBy hash) ↔ p.same q = true :=
  ⟨fun h => same_iff.mpr (h id), fun h _ hash => congrArg hash (same_iff.mp h)⟩

/-- The root has no parent, and the parents of paths to the same place lead to the same place. -/
theorem same_parent (h : p.same q = true) :
    (p.parent? = none ↔ q.parent? = none) ∧
      ∀ p' q', p.parent? = some p' → q.parent? = some q' → p'.same q' = true := by
  have texts := same_iff.mp h
  have root : p = [] ↔ q = [] := by
    rw [← List.map_eq_nil_iff (f := Component.text), ← Path.texts, texts, Path.texts,
      List.map_eq_nil_iff]
  constructor
  · simp [parent?, root]
  · intro p' q' hp hq
    simp only [parent?, Option.ite_none_left_eq_some, Option.some.injEq] at hp hq
    rw [same_iff, ← hp.2, ← hq.2, Path.texts, Path.texts, List.map_dropLast, List.map_dropLast]
    exact congrArg List.dropLast texts

/-- Paths behind each other lead to the same place when both parts do. -/
theorem same_relocate (h : p.same q = true) (h' : p'.same q' = true) :
    (p.relocate p').same (q.relocate q') = true := by
  rw [same_iff] at h h' ⊢
  rw [relocate, relocate, Path.texts, Path.texts, List.map_append, List.map_append, ← Path.texts,
    ← Path.texts, h, h']
  rfl

/-- Paths that are extended alike lead to the same place. -/
theorem same_child (h : p.same q = true) (hcd : c.same d = true) :
    (p.child c).same (q.child d) = true :=
  same_relocate (p := [c]) (q := [d]) (same_iff.mpr (congrArg ([·]) (beq_iff_eq.mp hcd))) h

end Path

/-! ### Patterns -/

namespace Pattern

variable {m : Pattern} {p q : Path}

/-- **The pattern of a path accepts the paths to the same place**, and no others. -/
theorem accepts_ofPath_iff : (ofPath p).accepts q = true ↔ p.same q = true := by
  rw [Path.same_iff]
  induction p generalizing q with
  | nil => cases q <;> simp [ofPath, accepts, Path.texts]
  | cons c p ih =>
      cases q with
      | nil => simp [ofPath, accepts, Path.texts]
      | cons d q =>
          have first : d.same c = true ↔ c.text = d.text := beq_iff_eq.trans eq_comm
          rw [ofPath, List.map_cons, accepts, Bool.and_eq_true, Selector.accepts_ofComponent_eq,
            first, ← ofPath, ih, Path.texts, Path.texts, Path.texts, Path.texts, List.map_cons,
            List.map_cons, List.cons.injEq]

/-- A pattern without wildcards treats paths to one place alike, however they are matched: as a
whole, from above or from below. -/
theorem matches_congr (hm : ∀ s ∈ m, s.isWildcard = false) (h : p.texts = q.texts) :
    m.accepts p = m.accepts q ∧ m.covers p = m.covers q ∧ m.meets p = m.meets q := by
  induction m generalizing p q with
  | nil => cases p <;> cases q <;> simp_all [accepts, covers, meets, Path.texts]
  | cons s m ih =>
      obtain ⟨hs, hm⟩ := List.forall_mem_cons.mp hm
      cases p with
      | nil =>
          obtain rfl : q = [] := List.map_eq_nil_iff.mp h.symm
          exact ⟨rfl, rfl, rfl⟩
      | cons c p =>
          cases q with
          | nil => exact absurd h (by simp [Path.texts])
          | cons d q =>
              obtain ⟨first, rest⟩ := List.cons.inj h
              obtain ⟨accepted, covered, met⟩ := ih hm rest
              simp only [accepts, covers, meets, s.accepts_congr hs first, accepted, covered, met,
                and_self]

/-- A pattern with a wildcard tells two paths to one place apart: one with an index and one with its
numeral, where the wildcard stands. -/
theorem exists_told_apart (hm : ∃ s ∈ m, s.isWildcard = true) :
    ∃ p q : Path, p.texts = q.texts ∧ m.accepts p = true ∧ m.accepts q = false := by
  induction m with
  | nil => simp at hm
  | cons s m ih =>
      by_cases hs : s.isWildcard = true
      · obtain ⟨c, d, text, hc, hd⟩ := Selector.exists_told_apart hs
        obtain ⟨p, hp⟩ := exists_accepts m
        refine ⟨c :: p, d :: p, by rw [Path.texts, Path.texts, List.map_cons, text]; rfl, ?_, ?_⟩
        · rw [accepts, hc, hp]
          rfl
        · rw [accepts, hd]
          rfl
      · obtain ⟨c, hc⟩ := s.exists_accepts
        obtain ⟨p, q, texts, hp, hq⟩ := ih (by simpa [hs] using hm)
        refine ⟨c :: p, c :: q, congrArg (c.text :: ·) texts, ?_, ?_⟩
        · rw [accepts, hc, hp]
          rfl
        · rw [accepts, hq, Bool.and_false]

/-- **The patterns that do not tell paths to one place apart** are those without wildcards. So the
condition is as weak as it can be. -/
theorem accepts_congr_iff :
    (∀ s ∈ m, s.isWildcard = false) ↔
      ∀ p q : Path, p.same q = true → m.accepts p = m.accepts q := by
  constructor
  · exact fun hm p q h => (matches_congr hm (Path.same_iff.mp h)).1
  · intro alike s hs
    by_contra wild
    obtain ⟨p, q, texts, hp, hq⟩ := exists_told_apart ⟨s, hs, by simpa using wild⟩
    rw [alike p q (Path.same_iff.mpr texts), hq] at hp
    exact absurd hp (by simp)

end Pattern

/-! ### One relation -/

namespace Path

/-- Two paths that serve alike wherever places count and kinds of components do not. -/
structure Interchangeable (p q : Path) : Prop where
  /-- They have the same hash. -/
  hash : ∀ {α : Type} (hash : List String → α), p.hashBy hash = q.hashBy hash
  /-- Both have a parent, or none has. -/
  root : p.parent? = none ↔ q.parent? = none
  /-- Their parents name the same place. -/
  parent : ∀ p' q', p.parent? = some p' → q.parent? = some q' → p'.same q' = true
  /-- They lead on to the same places. -/
  concat : ∀ p' q' : Path, p'.same q' = true → (p'.relocate p).same (q'.relocate q) = true
  /-- They lead to the same place from anywhere. -/
  connect : ∀ p' q' : Path, p'.same q' = true → (p.relocate p').same (q.relocate q') = true
  /-- Their children name the same places. -/
  child : ∀ c d : Component, c.same d = true → (p.child c).same (q.child d) = true
  /-- Patterns without wildcards treat them alike. -/
  pattern : ∀ m : Pattern, (∀ s ∈ m, s.isWildcard = false) →
    m.accepts p = m.accepts q ∧ m.covers p = m.covers q ∧ m.meets p = m.meets q

/-- **Equality, hashes and literal patterns agree**: two paths name the same place when their
components, as values, are equal or shown alike one by one, and exactly when the pattern of either
one accepts the other. This is an equivalence, and two paths to the same place are interchangeable,
also for every pattern without wildcards, and for no other pattern. -/
theorem same_agrees (p q : Path) :
    (p.same q = true ↔
      List.Forall₂ (fun a b => a.toValue.sameComponent b.toValue = true) p q) ∧
    (p.same q = true ↔ (Pattern.ofPath p).accepts q = true) ∧
    (p.same q = true ↔ (Pattern.ofPath q).accepts p = true) ∧
    Equivalence (fun p q : Path => p.same q = true) ∧
    (p.same q = true → Interchangeable p q) ∧
    ∀ m : Pattern, (∀ s ∈ m, s.isWildcard = false) ↔
      ∀ p q : Path, p.same q = true → m.accepts p = m.accepts q := by
  have turned : p.same q = true ↔ q.same p = true :=
    ⟨same_equivalence.symm, same_equivalence.symm⟩
  refine ⟨same_iff_forall₂, Pattern.accepts_ofPath_iff.symm,
    turned.trans Pattern.accepts_ofPath_iff.symm, same_equivalence, fun h => ?_,
    fun m => Pattern.accepts_congr_iff⟩
  have parents := same_parent h
  exact {
    hash := hashBy_eq_iff.mpr h
    root := parents.1
    parent := parents.2
    concat := fun _ _ h' => same_relocate h' h
    connect := fun _ _ h' => same_relocate h h'
    child := fun _ _ hcd => same_child h hcd
    pattern := fun m hm => Pattern.matches_congr hm (same_iff.mp h) }

/-- An index and its numeral, but not a numeral with a zero in front, which is another property. -/
theorem same_agrees_numeral :
    let p : Path := [.property "a", .index 7]
    let q : Path := [.property "a", .property "7"]
    p.same q = true ∧ Interchangeable p q ∧ p.same [.property "a", .property "07"] = false := by
  intro p q
  have same : p.same q = true := by decide
  exact ⟨same, (same_agrees p q).2.2.2.2.1 same, by decide⟩

end Path

end TreeDelta
