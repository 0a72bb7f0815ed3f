import Mathlib
import TreeDelta.Proofs.Diff.Changeset
import TreeDelta.Proofs.Value.Equality

/-!
# Changed paths obey the triangle inequality

Two trees differ at a path when something stands there and not the same in both. Without a predicate
for equality this is strict equality of what stands there, which is transitive
(`Value.samePrimitive_trans`), or that nothing stands there. So a path at which the first and the
last of three trees differ is one at which the middle one differs from one of them. The trees may be
of any shape, because the path is looked up in each of them apart.

## Main results

* `Diff.differ_trans`: what differs in the end has differed on the way.
* `Diff.mem_changedPaths_iff`: the changed paths are those at which two trees differ.
* `Diff.changedPaths_triangle`: the triangle inequality.
-/

namespace TreeDelta.Diff

variable {cfg : Config}

/-! ### Differing on the way -/

/-- Without a predicate for equality, what stands at a path counts as equal transitively. With one
it need not: a tolerance for numbers is not transitive. -/
theorem Content.equal_trans (hn : cfg.isEqual? = none) {p : Path} {x y z : Content}
    (hxy : x.equal cfg p y = true) (hyz : y.equal cfg p z = true) : x.equal cfg p z = true := by
  cases x with
  | atomic a =>
      cases y with
      | container k => exact absurd hxy Bool.false_ne_true
      | atomic b =>
          cases z with
          | container k => exact absurd hyz Bool.false_ne_true
          | atomic c =>
              simp only [Content.equal, Config.equates, hn, Bool.or_false] at hxy hyz ⊢
              exact Value.samePrimitive_trans hxy hyz
  | container k =>
      cases y with
      | atomic b => exact absurd hxy Bool.false_ne_true
      | container l =>
          cases z with
          | atomic c => exact absurd hyz Bool.false_ne_true
          | container m => exact beq_iff_eq.mpr ((beq_iff_eq.mp hxy).trans (beq_iff_eq.mp hyz))

/-- **What differs in the end has differed on the way**, also where nothing stands at the path in
one of the trees. -/
theorem differ_trans (hn : cfg.isEqual? = none) {p : Path} {x? y? z? : Option Content}
    (h : differ cfg p x? z? = true) : differ cfg p x? y? = true ∨ differ cfg p y? z? = true := by
  cases y? with
  | none => cases x? <;> cases z? <;> first | exact .inl rfl | exact .inr rfl | exact .inl h
  | some y =>
      cases x? with
      | none => exact .inl rfl
      | some x =>
          cases z? with
          | none => exact .inr rfl
          | some z =>
              by_contra same
              simp only [differ, Bool.not_eq_true', not_or, Bool.not_eq_false] at h same
              exact absurd (h.symm.trans (Content.equal_trans hn same.1 same.2)) (by simp)

/-! ### Changed paths -/

/-- **The changed paths** are those at which the leaves of two trees differ. -/
theorem mem_changedPaths_iff {before after : Value} {old new : List Leaf} {paths : List Path}
    (hb : before.WellKeyed) (ha : after.WellKeyed) (hold : leaves cfg before = .ok old)
    (hnew : leaves cfg after = .ok new) (h : changedPaths cfg before after = .ok paths) {p : Path} :
    p ∈ paths ↔ differ cfg p (contentAt? p old) (contentAt? p new) = true := by
  obtain ⟨changes, hchanges, rfl⟩ := map_eq_ok_iff.mp h
  obtain ⟨old', new', hold', hnew', rfl⟩ := exists_leaves_of_changeset hb ha hchanges
  obtain rfl : old = old' := Except.ok.inj (hold.symm.trans hold')
  obtain rfl : new = new' := Except.ok.inj (hnew.symm.trans hnew')
  rw [List.mem_map]
  constructor
  · rintro ⟨c, hc, rfl⟩
    obtain ⟨q, rfl, differs⟩ :=
      (mem_changesBy_iff (nodup_leaves hold hb) (nodup_leaves hnew ha)).mp hc
    exact differs
  · intro differs
    exact ⟨_, (mem_changesBy_iff (nodup_leaves hold hb) (nodup_leaves hnew ha)).mpr
      ⟨p, rfl, differs⟩, rfl⟩

/-- Two trees have a changeset when both have leaves. So whether a comparison fails is a matter of
each tree alone, not of the pair. -/
theorem exists_changedPaths_iff {before after : Value} :
    (∃ paths, changedPaths cfg before after = .ok paths) ↔
      (∃ old, leaves cfg before = .ok old) ∧ ∃ new, leaves cfg after = .ok new := by
  simp only [changedPaths, changeset, changeTable, map_eq_ok_iff, bind_eq_ok_iff]
  constructor
  · rintro ⟨_, _, ⟨_, ⟨old, hold, new, hnew, -⟩, -⟩, -⟩
    exact ⟨⟨old, hold⟩, new, hnew⟩
  · rintro ⟨⟨old, hold⟩, new, hnew⟩
    exact ⟨_, _, ⟨_, ⟨old, hold, new, hnew, rfl⟩, rfl⟩, rfl⟩

/-- There are no changes when there are no changed paths, which are the paths of the changes. -/
theorem changeset_eq_nil_iff {before after : Value} :
    changeset cfg before after = .ok [] ↔ changedPaths cfg before after = .ok [] := by
  rw [changedPaths, map_eq_ok_iff]
  constructor
  · exact fun h => ⟨[], h, rfl⟩
  · rintro ⟨changes, h, none_changed⟩
    rwa [List.map_eq_nil_iff.mp none_changed] at h

/-- **Changed paths obey the triangle inequality**: without a predicate for equality, two trees that
are both compared with a third one can be compared, too, and are different only at paths at which
one of them is different from the third. So having no changes is transitive. -/
theorem changedPaths_triangle {a b c : Value} (ha : a.WellKeyed) (hb : b.WellKeyed)
    (hc : c.WellKeyed) (hn : cfg.isEqual? = none) {ab bc : List Path}
    (hab : changedPaths cfg a b = .ok ab) (hbc : changedPaths cfg b c = .ok bc) :
    ∃ ac, changedPaths cfg a c = .ok ac ∧ (∀ p ∈ ac, p ∈ ab ∨ p ∈ bc) ∧
      (changeset cfg a b = .ok [] → changeset cfg b c = .ok [] → changeset cfg a c = .ok []) := by
  obtain ⟨⟨first, hfirst⟩, middle, hmiddle⟩ := exists_changedPaths_iff.mp ⟨ab, hab⟩
  obtain ⟨-, last, hlast⟩ := exists_changedPaths_iff.mp ⟨bc, hbc⟩
  obtain ⟨ac, hac⟩ : ∃ ac, changedPaths cfg a c = .ok ac :=
    exists_changedPaths_iff.mpr ⟨⟨first, hfirst⟩, last, hlast⟩
  have triangle : ∀ p ∈ ac, p ∈ ab ∨ p ∈ bc := by
    intro p hp
    rw [mem_changedPaths_iff ha hb hfirst hmiddle hab, mem_changedPaths_iff hb hc hmiddle hlast hbc]
    exact differ_trans hn ((mem_changedPaths_iff ha hc hfirst hlast hac).mp hp)
  refine ⟨ac, hac, triangle, fun same same' => ?_⟩
  rw [changeset_eq_nil_iff] at same same' ⊢
  obtain rfl : [] = ab := Except.ok.inj (same.symm.trans hab)
  obtain rfl : [] = bc := Except.ok.inj (same'.symm.trans hbc)
  have nothing : ac = [] := List.eq_nil_iff_forall_not_mem.mpr fun p hp => by
    simpa using triangle p hp
  rw [hac, nothing]

/-- An integer becomes the float of its value, which does not show, and then a string; a truth value
becomes the integer one; and a list gives way to a dictionary and comes back. -/
theorem changedPaths_triangle_kinds :
    let cfg : Config := { includeContainers := true }
    let one : Value := .float (.finite false (Nat.pow 2 Binary64.unitExponent))
    let a : Value := .dict [(.str "n", .int 1), (.str "t", .bool true), (.str "l", .list [.null])]
    let b : Value := .dict [(.str "n", one), (.str "t", .int 1),
      (.str "l", .dict [(.str "0", .null)])]
    let c : Value := .dict [(.str "l", .list [.null]), (.str "n", .str "1"), (.str "t", .int 1)]
    let list : Path := [.property "l"]
    let ab : List Path := [[.property "t"], list, list ++ [.property "0"], list ++ [.index 0]]
    let bc : List Path := [list, list ++ [.index 0], [.property "n"], list ++ [.property "0"]]
    let ac : List Path := [[.property "n"], [.property "t"]]
    a.WellKeyed ∧ b.WellKeyed ∧ c.WellKeyed ∧ cfg.isEqual? = none ∧
      changedPaths cfg a b = .ok ab ∧ changedPaths cfg b c = .ok bc ∧
      changedPaths cfg a c = .ok ac ∧ ∀ p ∈ ac, p ∈ ab ∨ p ∈ bc := by
  intro cfg one a b c list ab bc ac
  have ha : a.WellKeyed := by decide
  have hb : b.WellKeyed := by decide
  have hc : c.WellKeyed := by decide
  have hab : changedPaths cfg a b = .ok ab := by decide +kernel
  have hbc : changedPaths cfg b c = .ok bc := by decide +kernel
  have hac : changedPaths cfg a c = .ok ac := by decide +kernel
  obtain ⟨ac', hac', triangle, -⟩ := changedPaths_triangle ha hb hc rfl hab hbc
  obtain rfl : ac = ac' := Except.ok.inj (hac.symm.trans hac')
  exact ⟨ha, hb, hc, rfl, hab, hbc, hac, triangle⟩

end TreeDelta.Diff
