import Mathlib
import TreeDelta.Proofs.Diff.Changeset
import TreeDelta.Proofs.Value.Equality

/-!
# Diffing is symmetric

A comparison collects one tree into a table and walks the other one, but its changes are those
between what stands at a path in the two trees (`Diff.mem_changesBy_iff`). Whether two leaves differ
does not depend on which of them is the old one, as long as the predicate for equality does not care
(`Diff.differ_comm`). So the changes in the other direction are at the same paths, and each of them
undoes its counterpart (`Diff.changeTable_reversed`). A walk that fails does so in either direction.

## Main definitions

* `Diff.Config.IsSymmetric`: the predicate for equality does not distinguish its two values.

## Main results

* `Diff.exists_fault_iff`: there is no changeset when one of the trees has no leaves.
* `Diff.changeTable_reversed`: the changeset in the other direction.
-/

namespace TreeDelta

/-- Changes at one path with the same values are the same, in whatever order they list them. Undoing
a change twice may move the new value to the front, and this does not count. -/
theorem Change.same_of_eq {c d : Change} (hp : c.path = d.path) (ho : c.old? = d.old?)
    (hn : c.new? = d.new?) : c.same d = true := by
  have optional : ∀ v? : Option Value, sameOptional v? v? = true := by
    rintro (- | v)
    · rfl
    · exact Value.same_self v
  rw [same, hp, ho, hn, optional, optional, Path.same, beq_self_eq_true]
  rfl

namespace Diff

/-! ### Differing is symmetric -/

/-- The predicate for equality, if there is one, does not distinguish its two values. Nothing is
asked of it where there is none, as strict equality of scalars is symmetric anyway. -/
def Config.IsSymmetric (cfg : Config) : Prop :=
  ∀ equal, cfg.isEqual? = some equal → ∀ a b p, equal a b p = equal b a p

variable {cfg : Config}

/-- Whether two atomic values count as equal does not depend on their order. -/
theorem Config.IsSymmetric.equates_comm (h : cfg.IsSymmetric) (a b : Value) (p : Path) :
    cfg.equates a b p = cfg.equates b a p := by
  rw [Config.equates, Config.equates, Value.samePrimitive_comm]
  cases he : cfg.isEqual? with
  | none => rfl
  | some equal => exact congrArg _ (h equal he a b p)

/-- Whether two leaves count as equal does not depend on their order. -/
theorem Config.IsSymmetric.equal_comm (h : cfg.IsSymmetric) (p : Path) (x y : Content) :
    x.equal cfg p y = y.equal cfg p x := by
  cases x <;> cases y
  · exact h.equates_comm _ _ p
  · rfl
  · rfl
  · exact BEq.comm

/-- **Whether what stands at a path makes a change** does not depend on the order of the trees. -/
theorem Config.IsSymmetric.differ_comm (h : cfg.IsSymmetric) (p : Path) (x? y? : Option Content) :
    differ cfg p x? y? = differ cfg p y? x? := by
  cases x? <;> cases y? <;> simp [differ, h.equal_comm]

/-! ### Changesets in both directions -/

/-- There is no changeset when one of the trees has no leaves, that is, when the walk over it meets
a value that it rejects. -/
theorem exists_fault_iff {before after : Value} :
    (∃ fault, changeTable cfg before after = .error fault) ↔
      (∃ fault, leaves cfg before = .error fault) ∨ ∃ fault, leaves cfg after = .error fault := by
  rw [changeTable]
  cases leaves cfg before with
  | error fault => exact iff_of_true ⟨fault, rfl⟩ (.inl ⟨fault, rfl⟩)
  | ok old =>
      cases leaves cfg after with
      | error fault => exact iff_of_true ⟨fault, rfl⟩ (.inr ⟨fault, rfl⟩)
      | ok new => simp [bind, Except.bind, pure, Except.pure]

/-- The entries of a changeset stand under the texts of the paths at which two trees differ, with
the change that belongs there. The condition does not depend on which tree comes first, up to the
order of the arguments of `differ`. -/
theorem mem_changeTable_iff {before after : Value} {table : Table Change} {old new : List Leaf}
    (hb : before.WellKeyed) (ha : after.WellKeyed) (hold : leaves cfg before = .ok old)
    (hnew : leaves cfg after = .ok new) (h : changeTable cfg before after = .ok table)
    {k : String} {c : Change} :
    (k, c) ∈ table ↔ ∃ p, k = p.render ∧ c = changeAt p (contentAt? p old) (contentAt? p new) ∧
      differ cfg p (contentAt? p old) (contentAt? p new) = true := by
  have old_nodup := nodup_leaves hold hb
  have new_nodup := nodup_leaves hnew ha
  rw [changeTable, hold, hnew] at h
  obtain rfl : tableOf cfg old new = table := Except.ok.inj h
  rw [tableOf_eq cfg old_nodup new_nodup, keyed, List.mem_map]
  constructor
  · rintro ⟨d, hd, he⟩
    obtain ⟨rfl, rfl⟩ := Prod.mk.inj he
    obtain ⟨p, rfl, differs⟩ := (mem_changesBy_iff old_nodup new_nodup).mp hd
    exact ⟨p, rfl, rfl, differs⟩
  · rintro ⟨p, rfl, rfl, differs⟩
    exact ⟨_, (mem_changesBy_iff old_nodup new_nodup).mpr ⟨p, rfl, differs⟩, rfl⟩

/-- **Diffing is symmetric**: between two trees there is a changeset in one direction when there is
one in the other. The two have the same keys, and the changes under a key undo each other; undoing a
change twice gives the change back, although it lists its new value first then. -/
theorem changeTable_reversed {before after : Value} (hb : before.WellKeyed) (ha : after.WellKeyed)
    (symmetric : cfg.IsSymmetric) :
    ((∃ fault, changeTable cfg before after = .error fault) ↔
      ∃ fault, changeTable cfg after before = .error fault) ∧
    (∀ table back, changeTable cfg before after = .ok table →
      changeTable cfg after before = .ok back →
        (∀ k, k ∈ back.map Prod.fst ↔ k ∈ table.map Prod.fst) ∧
        ∀ k c d, (k, c) ∈ table → (k, d) ∈ back →
          { d with newFirst := true } = c.reversed ∧ d.same c.reversed = true) ∧
    ∀ c : Change, c.reversed.reversed = { c with newFirst := true } ∧
      c.reversed.reversed.same c = true := by
  refine ⟨?_, fun table back htable hback => ?_, fun c => ⟨rfl, Change.same_of_eq rfl rfl rfl⟩⟩
  · rw [exists_fault_iff, exists_fault_iff, or_comm]
  · obtain ⟨old, new, hold, hnew, -⟩ := exists_leaves_of_changeTable hb ha htable
    constructor
    · intro k
      simp only [List.mem_map, Prod.exists, exists_and_right, exists_eq_right,
        mem_changeTable_iff hb ha hold hnew htable, mem_changeTable_iff ha hb hnew hold hback]
      constructor
      · rintro ⟨d, p, rfl, -, differs⟩
        exact ⟨_, p, rfl, rfl, (symmetric.differ_comm p _ _).trans differs⟩
      · rintro ⟨c, p, rfl, -, differs⟩
        exact ⟨_, p, rfl, rfl, (symmetric.differ_comm p _ _).trans differs⟩
    · intro k c d hc hd
      obtain ⟨p, rfl, rfl, -⟩ := (mem_changeTable_iff hb ha hold hnew htable).mp hc
      obtain ⟨q, hq, rfl, -⟩ := (mem_changeTable_iff ha hb hnew hold hback).mp hd
      obtain rfl : p = q := Path.render_inj.mp hq
      exact ⟨rfl, Change.same_of_eq rfl rfl rfl⟩

/-- Two trees under a tolerance for integers: a list gives way to a dictionary, two floats are each
not a number, and an integer changes too little to be reported. -/
theorem changeTable_reversed_tolerance :
    let near : Value → Value → Path → Bool := fun a b _ =>
      match a, b with
      | .int m, .int n => (m - n).natAbs ≤ 1
      | _, _ => false
    let cfg : Config := { isEqual? := some near, includeContainers := true }
    let before : Value := .dict [(.str "a", .list []), (.str "b", .float (.nan 1)),
      (.str "c", .int 5)]
    let after : Value := .dict [(.str "c", .int 6), (.str "b", .float (.nan 2)),
      (.str "a", .dict [(.str "0", .bool true)])]
    let table : Table Change := [
      ("$.b", ⟨[.property "b"], some (.float (.nan 1)), some (.float (.nan 2)), false⟩),
      ("$.a", ⟨[.property "a"], some (.list []), some (.dict []), false⟩),
      ("$.a[\"0\"]", ⟨[.property "a", .property "0"], none, some (.bool true), false⟩)]
    let back : Table Change := [
      ("$.a", ⟨[.property "a"], some (.dict []), some (.list []), false⟩),
      ("$.b", ⟨[.property "b"], some (.float (.nan 2)), some (.float (.nan 1)), false⟩),
      ("$.a[\"0\"]", ⟨[.property "a", .property "0"], some (.bool true), none, false⟩)]
    before.WellKeyed ∧ after.WellKeyed ∧ cfg.IsSymmetric ∧
      changeTable cfg before after = .ok table ∧ changeTable cfg after before = .ok back ∧
      (∀ k, k ∈ back.map Prod.fst ↔ k ∈ table.map Prod.fst) ∧
      ∀ k c d, (k, c) ∈ table → (k, d) ∈ back → d.same c.reversed = true := by
  intro near cfg before after table back
  have hb : before.WellKeyed := by decide
  have ha : after.WellKeyed := by decide
  have symmetric : cfg.IsSymmetric := by
    rintro equal ⟨⟩ a b p
    show near a b p = near b a p
    cases a <;> cases b <;> simp only [near]
    rw [← Int.natAbs_neg, Int.neg_sub]
  have htable : changeTable cfg before after = .ok table := by cbv
  have hback : changeTable cfg after before = .ok back := by cbv
  obtain ⟨-, reversed, -⟩ := changeTable_reversed hb ha symmetric
  obtain ⟨keys, undone⟩ := reversed table back htable hback
  exact ⟨hb, ha, symmetric, htable, hback, keys, fun k c d hc hd => (undone k c d hc hd).2⟩

end Diff

end TreeDelta
