import Mathlib.Data.List.Forall2

/-!
# Lists in step

Two lists are in step when they have the same length, and what stands at one index of both is
related. Changes and what is kept of them, values and their copies, and the leaves of two trees that
look alike are in step. These lemmas carry what is known of one list over to the other.

## Main results

* `exists_of_mem_left`, `exists_of_mem_right`: everything has a partner in the other list.
* `map_eq_of_forall₂`: what partners have in common, the lists have in common.
* `rel_getElem?_of_forall₂`: partners stand at one index.
-/

namespace TreeDelta

variable {α β γ : Type} {R : α → β → Prop} {as : List α} {bs : List β}

/-- What is in the first of two lists in step has a partner in the second one. Lists are in step
when they have the same length and are related item by item. -/
theorem exists_of_mem_left (h : List.Forall₂ R as bs) {a : α} (ha : a ∈ as) : ∃ b ∈ bs, R a b := by
  induction h with
  | nil => exact absurd ha (by simp)
  | cons r _ ih =>
      rcases List.mem_cons.mp ha with rfl | ha
      · exact ⟨_, List.mem_cons_self, r⟩
      · obtain ⟨b, hb, rel⟩ := ih ha
        exact ⟨b, List.mem_cons_of_mem _ hb, rel⟩

/-- What is in the second of two lists in step has a partner in the first one. -/
theorem exists_of_mem_right (h : List.Forall₂ R as bs) {b : β} (hb : b ∈ bs) : ∃ a ∈ as, R a b :=
  exists_of_mem_left h.flip hb

/-- Lists in step have the same images when what is in step has. -/
theorem map_eq_of_forall₂ {f : α → γ} {g : β → γ} (h : List.Forall₂ R as bs)
    (same : ∀ a b, R a b → g b = f a) : bs.map g = as.map f := by
  induction h with
  | nil => rfl
  | cons r _ ih => rw [List.map_cons, List.map_cons, same _ _ r, ih]

/-- Lists in step have values in step at every index, or none of them has one there. -/
theorem rel_getElem?_of_forall₂ (h : List.Forall₂ R as bs) (i : Nat) :
    Option.Rel R as[i]? bs[i]? := by
  induction h generalizing i with
  | nil => exact .none
  | cons r _ ih =>
      cases i with
      | zero => exact .some r
      | succ i => exact ih i

end TreeDelta
