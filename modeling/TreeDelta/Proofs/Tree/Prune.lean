import TreeDelta.Proofs.Tree.Edit

/-!
# Pruned trees

Some places of a tree can be hidden. A pruned tree has missing values there, and all other values
keep their paths (`Value.slot_prune`).

## Main definitions

* `Value.prune`: a tree in which hidden places are missing.

## Main results

* `Value.steps_prune`, `Value.slot_prune`: a pruned tree step by step.
* `Value.every_prune`: predicates on all values of a pruned tree.
* `Value.prune_nothing`: where nothing is hidden, a tree stays as it is.
-/

namespace TreeDelta

namespace Value

mutual

/-- The tree with hidden places replaced by missing values. Lists keep their lengths and
dictionaries their keys, so that all other places stay where they are. -/
def prune (hide : Path → Bool) : Value → Value
  | list items => if hide [] then missing else list (pruneItems hide 0 items)
  | dict entries => if hide [] then missing else dict (pruneEntries hide entries)
  | v => if hide [] then missing else v

/-- The items with hidden places replaced by missing values, with indices from `i` on. No item moves
to another index. -/
def pruneItems (hide : Path → Bool) (i : Nat) : List Value → List Value
  | [] => []
  | v :: vs => prune (fun q => hide (.index i :: q)) v :: pruneItems hide (i + 1) vs

/-- The entries with hidden places replaced by missing values. Keys stay, and entries under other
keys than strings have no place that could be hidden. -/
def pruneEntries (hide : Path → Bool) : List (Value × Value) → List (Value × Value)
  | [] => []
  | (str k, v) :: es =>
    (str k, prune (fun q => hide (.property k :: q)) v) :: pruneEntries hide es
  | e :: es => e :: pruneEntries hide es

end

section Prune

variable {hide : Path → Bool}

/-- Nothing is left of a hidden tree, whatever is said of the places below. -/
theorem prune_of_hidden (h : hide [] = true) (v : Value) : v.prune hide = missing := by
  cases v <;> simp [prune, h]

/-- Nothing is left of a missing tree. -/
@[simp] theorem prune_missing (hide : Path → Bool) : missing.prune hide = missing := by
  simp [prune]

/-- The root of a tree stays unless it is hidden: pruning replaces what is below. -/
theorem kind?_prune (h : hide [] = false) (v : Value) : (v.prune hide).kind? = v.kind? := by
  cases v <;> simp [prune, h, kind?]

/-- What is no container stays unless it is hidden, as there are no places below it. -/
theorem prune_of_kind? (h : hide [] = false) {v : Value} (hk : v.kind? = none) :
    v.prune hide = v := by
  cases v <;> simp_all [prune, kind?]

/-- A scalar stays one unless it is hidden, and nothing else becomes one. -/
theorem isPrimitive_prune (h : hide [] = false) (v : Value) :
    (v.prune hide).isPrimitive = v.isPrimitive := by
  cases v <;> simp [prune, h, isPrimitive]

/-- A tree that is there stays there unless it is hidden, and a missing one stays missing. -/
theorem isMissing_prune (h : hide [] = false) (v : Value) :
    (v.prune hide).isMissing = v.isMissing := by
  cases v <;> simp [prune, h, isMissing]

/-- The steps to the items are the ones that were there, and each leads to the pruned item. -/
theorem itemSteps_pruneItems (hide : Path → Bool) (i : Nat) (items : List Value) :
    itemSteps i (pruneItems hide i items) =
      (itemSteps i items).map fun s => (s.1, s.2.prune fun q => hide (s.1 :: q)) := by
  induction items generalizing i with
  | nil => rfl
  | cons v vs ih => rw [pruneItems, itemSteps, ih]; rfl

/-- The steps to the entries are the ones that were there, and each leads to the pruned value. -/
theorem entrySteps_pruneEntries (hide : Path → Bool) (entries : List (Value × Value)) :
    entrySteps (pruneEntries hide entries) =
      (entrySteps entries).map fun s => (s.1, s.2.prune fun q => hide (s.1 :: q)) := by
  induction entries with
  | nil => rfl
  | cons e es ih =>
      obtain ⟨key, v⟩ := e
      cases key with
      | str k => rw [pruneEntries, entrySteps, ih]; rfl
      | _ => exact ih

/-- The steps out of a tree that is not hidden are the ones that were there, each leading to a
pruned tree. -/
theorem steps_prune (h : hide [] = false) (v : Value) :
    (v.prune hide).steps = v.steps.map fun s => (s.1, s.2.prune fun q => hide (s.1 :: q)) := by
  cases v with
  | list items => simp only [prune, h, Bool.false_eq_true, if_false, steps, itemSteps_pruneItems]
  | dict entries =>
      simp only [prune, h, Bool.false_eq_true, if_false, steps, entrySteps_pruneEntries]
  | _ => simp [prune, h, steps]

/-- The keys are the ones that were there. -/
theorem keys_pruneEntries (hide : Path → Bool) (entries : List (Value × Value)) :
    keys (pruneEntries hide entries) = keys entries := by
  induction entries with
  | nil => rfl
  | cons e es ih =>
      obtain ⟨key, v⟩ := e
      cases key with
      | str k => rw [pruneEntries, keys_cons, keys_cons, ih]
      | _ => exact ih

/-- The keys of a value are different after hidden places were replaced, because they are the same
keys. -/
theorem hasUniqueKeys_prune {v : Value} (h : v.hasUniqueKeys = true) :
    (v.prune hide).hasUniqueKeys = true := by
  cases hr : hide [] with
  | true =>
      rw [prune_of_hidden hr]
      rfl
  | false =>
      cases v with
      | dict entries =>
          simp only [prune, hr, Bool.false_eq_true, if_false, hasUniqueKeys, keys_pruneEntries]
          exact h
      | _ => simp [prune, hr, hasUniqueKeys]

/-- A predicate holds of a whole pruned tree when pruning a value cannot break it. Missing values
have to satisfy it for this. -/
theorem every_prune {f : Value → Bool}
    (hf : ∀ (hide : Path → Bool) w, f w = true → f (w.prune hide) = true) {v : Value}
    (h : v.every f = true) : (v.prune hide).every f = true := by
  induction v using stepInduction generalizing hide with
  | step v ih =>
      obtain ⟨root, below⟩ := every_iff.mp h
      refine every_iff.mpr ⟨hf hide v root, fun c w hs => ?_⟩
      cases hr : hide [] with
      | true =>
          rw [prune_of_hidden hr] at hs
          exact absurd hs (by simp [steps])
      | false =>
          rw [steps_prune hr] at hs
          obtain ⟨⟨d, x⟩, hx, he⟩ := List.mem_map.mp hs
          obtain ⟨rfl, rfl⟩ := Prod.mk.inj he
          exact ih d x hx (below d x hx)

/-- A pruned tree is well-keyed. By induction on the tree, since every value in it keeps its
keys. -/
theorem WellKeyed.prune {v : Value} (h : v.WellKeyed) : (v.prune hide).WellKeyed :=
  every_prune (fun _ _ => hasUniqueKeys_prune) h

/-- The slots of a pruned tree are pruned slots, where what is hidden is seen from one step further
down. -/
theorem slot_prune (h : hide [] = false) {v : Value} (hk : v.hasUniqueKeys = true) (c : Component) :
    (v.prune hide).slot c = (v.slot c).prune fun q => hide (c :: q) := by
  have unique := @hasUniqueKeys_prune hide v hk
  by_cases hc : c ∈ v.steps.map Prod.fst
  · obtain ⟨⟨c, w⟩, hs, rfl⟩ := List.mem_map.mp hc
    rw [slot_of_mem_steps hk hs]
    refine slot_of_mem_steps unique ?_
    rw [steps_prune h]
    exact List.mem_map_of_mem hs
  · rw [slot_of_notMem_steps hk hc, prune_missing]
    refine slot_of_notMem_steps unique ?_
    rw [steps_prune h, List.map_map]
    exact hc

/-- Where nothing is hidden, a tree stays as it is. So a tree is one of its own pruned forms. -/
theorem prune_nothing (v : Value) : v.prune (fun _ => false) = v := by
  induction v using stepInduction with
  | step v ih =>
      cases v with
      | list items =>
          have same : ∀ (vs : List Value) (i : Nat), (∀ w ∈ vs, w.prune (fun _ => false) = w) →
              pruneItems (fun _ => false) i vs = vs := by
            intro vs i hvs
            induction vs generalizing i with
            | nil => rfl
            | cons w ws ihs =>
                rw [pruneItems, hvs w List.mem_cons_self,
                  ihs (i + 1) fun x hx => hvs x (List.mem_cons_of_mem w hx)]
          rw [prune, same items 0 fun w hw => ?_]
          · rfl
          · obtain ⟨i, hi⟩ := List.mem_iff_getElem?.mp hw
            exact ih _ w (mem_itemSteps_iff.mpr ⟨i, rfl, hi⟩)
      | dict entries =>
          have same : ∀ es : List (Value × Value),
              (∀ k w, (str k, w) ∈ es → w.prune (fun _ => false) = w) →
              pruneEntries (fun _ => false) es = es := by
            intro es hes
            induction es with
            | nil => rfl
            | cons e es ihs =>
                have rest := ihs fun k w hw => hes k w (List.mem_cons_of_mem e hw)
                obtain ⟨key, w⟩ := e
                cases key with
                | str k => rw [pruneEntries, hes k w List.mem_cons_self, rest]
                | _ => exact congrArg _ rest
          rw [prune, same entries fun k w hw => ih _ w (mem_entrySteps_iff.mpr ⟨k, rfl, hw⟩)]
          rfl
      | _ => rfl

end Prune

end Value

end TreeDelta
