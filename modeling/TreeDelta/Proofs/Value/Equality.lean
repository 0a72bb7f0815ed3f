import Mathlib.Logic.Basic
import TreeDelta.Value.Equality

/-!
# Laws of the two equalities

Loose equality is reflexive, because a value that is not equal to itself in value is still one and
the same value; strict equality is so for scalars. Strict equality does not distinguish its two
sides, and it is transitive, because real numbers of both types are compared by what they are worth.

## Main definitions

* `Value.worth?`: what a real number is worth.

## Main results

* `Value.same_self`: a value is the same as itself.
* `Value.samePrimitive_self`: a scalar is strictly equal to itself.
* `Value.samePrimitive_comm`, `Value.samePrimitive_trans`: strict equality is symmetric and
  transitive.
-/

namespace TreeDelta

/-- Equality in value is symmetric. -/
theorem Binary64.sameValue_comm (x y : Binary64) : x.sameValue y = y.sameValue x := by
  cases x <;> cases y <;> simp only [sameValue] <;> exact BEq.comm

namespace Value

/-! ### Reflexivity -/

/-- A double is equal to itself in value, or one and the same: what is not a number falls under the
second case. -/
theorem identicalNan_or_sameValue (x : Binary64) :
    (identicalNan (float x) (float x) || x.sameValue x) = true := by
  cases x <;> simp [identicalNan, Binary64.sameValue]

/-- A scalar is strictly equal to itself. -/
theorem samePrimitive_self {v : Value} (h : v.isPrimitive = true) : v.samePrimitive v = true := by
  cases v with
  | float x =>
      have real := identicalNan_or_sameValue x
      simpa [samePrimitive, isReal, sameNumber, number?, sameReal] using real
  | complex re im => simp [samePrimitive, identicalNan]
  | int n => simp [samePrimitive, isReal, sameNumber, number?, sameReal]
  | missing | null => rfl
  | bool b => exact beq_self_eq_true b
  | str s => exact beq_self_eq_true s
  | bytes bs => exact beq_self_eq_true bs
  | _ => exact absurd h (by simp [isPrimitive])

mutual

/-- **A value is the same as itself**, also where it is, or holds, what is not a number: identity is
looked at besides equality in value. -/
theorem same_self : ∀ v : Value, v.same v = true
  | missing => by simp [same, isMissing]
  | null => by simp [same]
  | bool b => by simp [same, sameNumber, number?, sameReal]
  | int n => by simp [same, sameNumber, number?, sameReal]
  | float x => by
      have real := identicalNan_or_sameValue x
      simpa [same, sameNumber, number?, sameReal] using real
  | complex re im => by simp [same, identicalNan]
  | str s => by simp [same]
  | bytes bs => by simp [same]
  | list items => by rw [same]; exact sameItems_self items
  | tuple items => by rw [same]; exact sameItems_self items
  | set items => by
      rw [same, beq_self_eq_true, allIn_of_subset items items fun _ hv => hv]
      rfl
  | dict entries => by
      rw [same, beq_self_eq_true, entriesIn_of_subset entries entries fun _ he => he]
      rfl
  | function _ | object _ _ _ | hooked _ _ | pattern _ => by simp [same]
  | path p => by simp [same, Path.same]

/-- A list is the same as itself, item by item. -/
theorem sameItems_self : ∀ items : List Value, sameItems items items = true
  | [] => by rw [sameItems]
  | v :: vs => by
      rw [sameItems, same_self v, sameItems_self vs]
      rfl

/-- Some of the members of a set are in the set. The set stays fixed in the induction while its
members are gone through. -/
theorem allIn_of_subset : ∀ items all : List Value, (∀ v ∈ items, v ∈ all) → allIn items all = true
  | [], all, _ => by rw [allIn]
  | v :: vs, all, h => by
      have rest := allIn_of_subset vs all fun w hw => h w (List.mem_cons_of_mem v hw)
      have found : all.any (fun w => v.same w) = true :=
        List.any_eq_true.mpr ⟨v, h v List.mem_cons_self, same_self v⟩
      rw [allIn, found, rest]
      rfl

/-- Some of the entries of a dictionary are in the dictionary. -/
theorem entriesIn_of_subset : ∀ entries all : List (Value × Value), (∀ e ∈ entries, e ∈ all) →
    entriesIn entries all = true
  | [], all, _ => by rw [entriesIn]
  | (k, v) :: es, all, h => by
      have rest := entriesIn_of_subset es all fun e he => h e (List.mem_cons_of_mem (k, v) he)
      have found : all.any (fun e => k.same e.1 && v.same e.2) = true := by
        refine List.any_eq_true.mpr ⟨(k, v), h (k, v) List.mem_cons_self, ?_⟩
        rw [same_self k, same_self v]
        rfl
      rw [entriesIn, found, rest]
      rfl

end

/-! ### Symmetry -/

/-- Equality of reals is symmetric. -/
theorem sameReal_comm (x y : Int ⊕ Binary64) : sameReal x y = sameReal y x := by
  rcases x with m | x <;> rcases y with n | y
  · exact BEq.comm
  · rfl
  · rfl
  · exact x.sameValue_comm y

/-- Equality of numbers is symmetric. -/
theorem sameNumber_comm (a b : Value) : sameNumber a b = sameNumber b a := by
  rw [sameNumber, sameNumber]
  cases a.number? <;> cases b.number? <;> simp [sameReal_comm]

/-- Being one and the same number is symmetric. -/
theorem identicalNan_comm (a b : Value) : identicalNan a b = identicalNan b a := by
  cases a <;> cases b <;> simp only [identicalNan]
  · grind
  · congr 1 <;> exact BEq.comm

/-- **Strict equality is symmetric**, so it does not matter which of two trees is the old one. -/
theorem samePrimitive_comm (a b : Value) : a.samePrimitive b = b.samePrimitive a := by
  fun_cases samePrimitive a b
  case case1 | case2 | case10 | case11 => rfl
  case case3 | case4 | case5 | case7 | case8 | case9 => exact BEq.comm
  case case6 x y x' y' =>
      rw [samePrimitive, identicalNan_comm, x.sameValue_comm, y.sameValue_comm]
  case case12 =>
      -- no other row of the table has the two values on either side
      rw [samePrimitive, identicalNan_comm b, sameNumber_comm b, Bool.and_comm b.isReal]
      all_goals grind

/-! ### Transitivity -/

/-- What a real number is worth: a number of units, or an infinity with its sign. What is not a
number is worth nothing, and is equal to nothing in value. -/
def worth? : Int ⊕ Binary64 → Option (Int ⊕ Bool)
  | .inl m => some (.inl (Binary64.unitsOfInt m))
  | .inr (.finite s m) => some (.inl (Binary64.signed s m))
  | .inr (.infinite s) => some (.inr s)
  | .inr (.nan _) => none

/-- Different integers are not worth the same. -/
theorem unitsOfInt_inj {m n : Int} : Binary64.unitsOfInt m = Binary64.unitsOfInt n ↔ m = n := by
  have positive (k : Nat) : ((Nat.pow 2 k : Nat) : Int) ≠ 0 :=
    Int.natCast_ne_zero.mpr (Nat.ne_of_gt (Nat.pow_pos Nat.zero_lt_two))
  exact Int.mul_eq_mul_right_iff (positive Binary64.unitExponent)

/-- **Reals are equal** when they are worth the same. Integers and doubles become comparable this
way, so that transitivity needs no cases. -/
theorem sameReal_iff {x y : Int ⊕ Binary64} :
    sameReal x y = true ↔ ∃ w, worth? x = some w ∧ worth? y = some w := by
  rcases x with m | (⟨s, m⟩ | s | _) <;> rcases y with n | (⟨t, n⟩ | t | _) <;>
    simp only [sameReal, worth?, Binary64.isInt, Binary64.sameValue, beq_iff_eq,
      Option.some.injEq, exists_eq_left', Sum.inl.injEq, Sum.inr.injEq, reduceCtorEq,
      unitsOfInt_inj, Bool.false_eq_true, false_and, and_false, exists_const] <;>
    exact eq_comm

/-- Equality of reals is transitive. -/
theorem sameReal_trans {x y z : Int ⊕ Binary64} (hxy : sameReal x y = true)
    (hyz : sameReal y z = true) : sameReal x z = true := by
  obtain ⟨w, hx, hy⟩ := sameReal_iff.mp hxy
  obtain ⟨w', hy', hz⟩ := sameReal_iff.mp hyz
  obtain rfl : w = w' := Option.some.inj (hy.symm.trans hy')
  exact sameReal_iff.mpr ⟨w, hx, hz⟩

/-- Equality of numbers is transitive. -/
theorem sameNumber_trans {a b c : Value} (hab : sameNumber a b = true)
    (hbc : sameNumber b c = true) : sameNumber a c = true := by
  rw [sameNumber] at hab hbc ⊢
  cases ha : a.number? with
  | none => simp [ha] at hab
  | some x =>
      cases hb : b.number? with
      | none => simp [hb] at hbc
      | some y =>
          cases hc : c.number? with
          | none => simp [hb, hc] at hbc
          | some z =>
              simp only [ha, hb, Bool.and_eq_true] at hab
              simp only [hb, hc, Bool.and_eq_true] at hbc
              exact Bool.and_eq_true_iff.mpr
                ⟨sameReal_trans hab.1 hbc.1, sameReal_trans hab.2 hbc.2⟩

/-- What is one and the same number is the same. -/
theorem eq_of_identicalNan {a b : Value} (h : identicalNan a b = true) : a = b := by
  fun_cases identicalNan a b
  case case1 m n => rw [beq_iff_eq.mp h]
  case case2 x y x' y' =>
      obtain ⟨hx, hy⟩ := Bool.and_eq_true_iff.mp h
      rw [beq_iff_eq.mp hx, beq_iff_eq.mp hy]
  case case3 => exact absurd h (by simp [identicalNan])

/-- Strict equality with a real number: the other one is real, too, and either the very same or
equal in value. -/
theorem samePrimitive_of_isReal {a : Value} (ha : a.isReal = true) (b : Value) :
    a.samePrimitive b = (b.isReal && (identicalNan a b || sameNumber a b)) := by
  cases a with
  | int | float => cases b <;> rfl
  | _ => exact absurd ha (by simp [isReal])

/-- Being one and the same number or equal in value is transitive. The two cannot be mixed: what is
identical without being equal in value is equal to nothing else. -/
theorem identicalNan_or_sameNumber_trans {a b c : Value}
    (hab : (identicalNan a b || sameNumber a b) = true)
    (hbc : (identicalNan b c || sameNumber b c) = true) :
    (identicalNan a c || sameNumber a c) = true := by
  rcases Bool.or_eq_true_iff.mp hab with one | equal
  · rwa [eq_of_identicalNan one]
  · rcases Bool.or_eq_true_iff.mp hbc with one | equal'
    · rwa [← eq_of_identicalNan one]
    · exact Bool.or_eq_true_iff.mpr (.inr (sameNumber_trans equal equal'))

/-- **Strict equality is transitive**, so changes between three versions can be compared. -/
theorem samePrimitive_trans {a b c : Value} (hab : a.samePrimitive b = true)
    (hbc : b.samePrimitive c = true) : a.samePrimitive c = true := by
  fun_cases samePrimitive a b
  case case1 | case2 | case10 | case11 => exact hbc
  case case3 | case4 | case5 | case7 =>
      rwa [beq_iff_eq.mp hab]
  case case8 m _ _ n _ _ | case9 m _ n _ =>
      obtain rfl : m = n := beq_iff_eq.mp hab
      cases c <;> exact hbc
  case case6 x y x' y' =>
      cases c with
      | complex x'' y'' => exact identicalNan_or_sameNumber_trans hab hbc
      | _ => exact hbc
  case case12 =>
      have reals : (a.isReal && b.isReal && (identicalNan a b || sameNumber a b)) = true := by
        rwa [samePrimitive] at hab
        all_goals assumption
      obtain ⟨⟨ha, hb⟩, equal⟩ := by simpa only [Bool.and_eq_true] using reals
      rw [samePrimitive_of_isReal hb] at hbc
      obtain ⟨hc, equal'⟩ := Bool.and_eq_true_iff.mp hbc
      rw [samePrimitive_of_isReal ha, hc]
      exact identicalNan_or_sameNumber_trans equal equal'

end Value

end TreeDelta
