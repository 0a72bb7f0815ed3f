import TreeDelta.Json.Read
import TreeDelta.Proofs.Value.Key

/-!
# Documents that were read

A document may repeat the name of a member, but what is read has no name twice: the dictionaries
of a value that was read have different keys, at any depth.

## Main results

* `Json.nested_of_read?`: what is read is nested.
-/

namespace TreeDelta.Json

open Value (Nested nested_empty isDict)

variable {v : Value} {cs rest : List Char} {es fs : List (Value × Value)}

/-- The words stand for scalars. -/
theorem nested_of_word? (h : word? cs = some (v, rest)) : Nested v := by
  obtain ⟨⟨w, x⟩, hw, after⟩ := List.exists_of_findSome?_eq_some h
  obtain ⟨_, _, pair⟩ := Option.map_eq_some_iff.mp after
  obtain rfl : x = v := (Prod.mk.inj pair).1
  have scalars : ∀ e ∈ words, e.2.isDict = false := by decide
  exact .value (scalars _ hw)

/-- A number is a scalar. -/
theorem nested_of_unsigned? {negative : Bool} (h : unsigned? negative cs = some (v, rest)) :
    Nested v := by
  simp only [unsigned?] at h
  split at h
  · exact absurd h (by simp)
  · split at h <;>
      · obtain rfl := (Prod.mk.inj (Option.some.inj h)).1
        exact .value rfl

/-- A number with a sign is a scalar. -/
theorem nested_of_number? (h : number? cs = some (v, rest)) : Nested v := by
  rw [number?.eq_def] at h
  split at h <;> exact nested_of_unsigned? h

/-- **What is read has different keys at any depth**, and so have the members of a dictionary that
are read after others. Both come from one induction on the fuel, as members hold values and values
hold members. -/
theorem nested_of_fuel (fuel : Nat) :
    (∀ {cs v rest}, value? fuel cs = some (v, rest) → Nested v) ∧
      ∀ {es cs fs rest}, Nested (.dict es) → members? fuel es cs = some (fs, rest) →
        Nested (.dict fs) := by
  induction fuel with
  | zero => exact ⟨fun h => absurd h (by simp [value?]), fun _ h => absurd h (by simp [members?])⟩
  | succ fuel ih =>
      obtain ⟨value, members⟩ := ih
      constructor
      · intro cs v rest h
        rw [value?.eq_def] at h
        simp only at h
        split at h
        · obtain ⟨⟨s, _⟩, -, pair⟩ := Option.map_eq_some_iff.mp h
          obtain rfl : .str s = v := (Prod.mk.inj pair).1
          exact .value rfl
        · split at h
          · obtain rfl := (Prod.mk.inj (Option.some.inj h)).1
            exact .value rfl
          · obtain ⟨⟨vs, _⟩, -, pair⟩ := Option.map_eq_some_iff.mp h
            obtain rfl : .list vs = v := (Prod.mk.inj pair).1
            exact .value rfl
        · split at h
          · obtain rfl := (Prod.mk.inj (Option.some.inj h)).1
            exact nested_empty
          · obtain ⟨⟨es, _⟩, hes, pair⟩ := Option.map_eq_some_iff.mp h
            obtain rfl : .dict es = v := (Prod.mk.inj pair).1
            exact members nested_empty hes
        · cases hw : word? cs with
          | some found =>
              rw [hw] at h
              obtain rfl := Option.some.inj h
              exact nested_of_word? hw
          | none =>
              rw [hw] at h
              exact nested_of_number? h
      · intro es cs fs rest hes h
        rw [members?] at h
        obtain ⟨⟨k, _⟩, -, h⟩ := Option.bind_eq_some_iff.mp h
        obtain ⟨_, -, h⟩ := Option.bind_eq_some_iff.mp h
        obtain ⟨⟨v, _⟩, hv, h⟩ := Option.bind_eq_some_iff.mp h
        have added : Nested (.dict (Value.insert k v es)) := by
          rw [Value.insert_eq_setEntry]
          exact hes.setEntry rfl fun w hw => Option.some.inj hw ▸ value hv
        simp only at h
        split at h
        · exact members added h
        · obtain rfl := (Prod.mk.inj (Option.some.inj h)).1
          exact added
        · exact absurd h (by simp)

/-- **What is read of a document is nested.** A name that comes twice is one key, with the later
value. -/
theorem nested_of_read? {text : String} (h : read? text = some v) : Nested v := by
  obtain ⟨⟨w, _⟩, hw, h⟩ := Option.bind_eq_some_iff.mp h
  simp only at h
  split at h
  · obtain rfl := Option.some.inj h
    exact (nested_of_fuel _).1 hw
  · exact absurd h (by simp)

end TreeDelta.Json
