import Mathlib.Logic.Basic

/-!
# Computations that may fail

Walks, writes and readers give a value or a fault. These lemmas take a computation that has given a
value apart, one part after the other, and follow two computations side by side (`Related`).
-/

namespace TreeDelta

variable {ε α β : Type}

/-- Two computations in a row give a value when the first one gives one that the second one goes on
from. Runs are taken apart with this, one step after the other. -/
theorem bind_eq_ok_iff {x : Except ε α} {f : α → Except ε β} {b : β} :
    (x >>= f) = .ok b ↔ ∃ a, x = .ok a ∧ f a = .ok b := by
  cases x with
  | error e => simp [bind, Except.bind]
  | ok a => simp [bind, Except.bind]

/-- Two computations in a row fail when the first one does, or the second one does after it. -/
theorem bind_eq_error_iff {x : Except ε α} {f : α → Except ε β} {e : ε} :
    (x >>= f) = .error e ↔ x = .error e ∨ ∃ a, x = .ok a ∧ f a = .error e := by
  cases x with
  | error e => simp [bind, Except.bind]
  | ok a => simp [bind, Except.bind]

/-- A computation whose value is changed gives a value when the computation gives one, and it is the
changed one. -/
theorem map_eq_ok_iff {x : Except ε α} {f : α → β} {b : β} :
    x.map f = .ok b ↔ ∃ a, x = .ok a ∧ f a = b := by
  cases x with
  | error e => simp [Except.map]
  | ok a => simp [Except.map]

/-- A computation whose value is changed fails when the computation does, with the same fault. -/
theorem map_eq_error_iff {x : Except ε α} {f : α → β} {e : ε} :
    x.map f = .error e ↔ x = .error e := by
  cases x with
  | error e => simp [Except.map]
  | ok a => simp [Except.map]

/-- A computation that gives a value has no fault to change. -/
theorem mapError_ok {ε' : Type} (f : ε → ε') (a : α) :
    Except.mapError f (.ok a : Except ε α) = .ok a :=
  rfl

/-- The fault of a computation is changed. -/
theorem mapError_error {ε' : Type} (f : ε → ε') (e : ε) :
    Except.mapError f (.error e : Except ε α) = .error (f e) :=
  rfl

/-- A computation whose fault is changed gives what the computation gives. Values are not
touched. -/
theorem mapError_eq_ok_iff {ε' : Type} {x : Except ε α} {f : ε → ε'} {a : α} :
    x.mapError f = .ok a ↔ x = .ok a := by
  cases x with
  | error e => simp [mapError_error]
  | ok b => simp [mapError_ok]

/-- A fault that was changed is that of the computation, changed, so it has the form that the change
gives it. -/
theorem exists_of_mapError_eq_error {ε' : Type} {x : Except ε α} {f : ε → ε'} {e : ε'}
    (h : x.mapError f = .error e) : ∃ e', e = f e' := by
  cases x with
  | error e' => exact ⟨e', (Except.error.inj h).symm⟩
  | ok a => exact absurd h (by simp [mapError_ok])

/-! ### Two computations -/

/-- Two computations are related when both have one fault, or both give values that are. Two runs
are compared this way whose answers differ in some known respect only. -/
inductive Related (R : α → β → Prop) : Except ε α → Except ε β → Prop
  /-- Both fail. -/
  | error (e : ε) : Related R (.error e) (.error e)
  /-- Both give a value. -/
  | ok {a : α} {b : β} : R a b → Related R (.ok a) (.ok b)

variable {α' β' : Type} {R : α → β → Prop} {S : α' → β' → Prop} {x : Except ε α} {y : Except ε β}

/-- Related computations are equal where related values are. -/
theorem Related.eq {R : α → α → Prop} {x y : Except ε α} (h : Related R x y)
    (strict : ∀ a b, R a b → a = b) : x = y := by
  cases h with
  | error e => rfl
  | ok hab => exact congrArg Except.ok (strict _ _ hab)

/-- The values of related computations are those that the first one gives. So what is known of these
values may be used further on. -/
theorem Related.of_eq_ok (h : Related R x y) : Related (fun a b => x = .ok a ∧ R a b) x y := by
  cases h with
  | error e => exact .error e
  | ok hab => exact .ok ⟨rfl, hab⟩

/-- Related computations go on as related ones, if the second computations are related at values
that are. -/
theorem Related.bind {f : α → Except ε α'} {g : β → Except ε β'} (h : Related R x y)
    (hfg : ∀ a b, R a b → Related S (f a) (g b)) : Related S (x >>= f) (y >>= g) := by
  cases h with
  | error e => exact .error e
  | ok hab => exact hfg _ _ hab

/-- The values of related computations are changed into related ones. -/
theorem Related.map {f : α → α'} {g : β → β'} (h : Related R x y)
    (hfg : ∀ a b, R a b → S (f a) (g b)) : Related S (x.map f) (y.map g) := by
  cases h with
  | error e => exact .error e
  | ok hab => exact .ok (hfg _ _ hab)

end TreeDelta
