import TreeDelta.Proofs.Diff.Patch
import TreeDelta.Proofs.Tree.Part

/-!
# What a diff sees

Where containers are reported, a diff sees a scalar at a place, the kind of a container, or nothing.
The changed paths of two trees are the places at which it does not see the same
(`Diff.exists_changeset`), and two plain trees are alike when it sees the same at all places
(`Diff.alike_iff_sameView`). So a difference of two trees, however deep, is a changed path.

## Main definitions

* `Diff.sameView`: a diff sees the same in place of two values.

## Main results

* `Diff.exists_changeset`: the paths of a changeset.
* `Diff.alike_iff_sameView`: trees are alike when they look alike at every path.
-/

namespace TreeDelta.Diff

open Patch (seek viewed? viewed?_container viewed?_scalar isSome_viewed?)
open Value (Alike missing)

/-- Whether a diff that reports containers sees the same in place of two values: strictly equal
scalars, containers of one kind, or nothing. -/
def sameView (v w : Value) : Bool :=
  match viewed? v, viewed? w with
  | some x, some y => x.agrees y
  | none, none => true
  | _, _ => false

/-- What a diff sees makes no change when it is the same. The path plays no part, as the
configuration has no predicates. -/
theorem differ_viewed? (p : Path) (v w : Value) :
    differ { includeContainers := true } p (viewed? v) (viewed? w) = !sameView v w := by
  rw [sameView]
  cases viewed? v <;> cases viewed? w <;> simp [differ, equal_default]

/-- The value that is sought at a path is the value that is read there. Reading gives its default
where nothing is found, and with `missing` as the default the two agree. -/
theorem seek_eq_get (p : Path) (v : Value) : seek p v = p.get v missing := by
  rw [seek, Path.get]
  cases p.find? v with
  | none => rfl
  | some w => cases w <;> rfl

/-- **The paths of a changeset** are the places at which a diff does not see the same. -/
theorem exists_changeset {before after : Value} (hb : before.WellKeyed) (ha : after.WellKeyed)
    (walk_before : before.every isWalkable = true) (walk_after : after.every isWalkable = true) :
    ∃ changes, changeset { includeContainers := true } before after = .ok changes ∧
      ∀ p, p ∈ changes.map Change.path ↔
        sameView (p.get before missing) (p.get after missing) = false := by
  obtain ⟨old, hold⟩ := exists_leaves { includeContainers := true } walk_before
  obtain ⟨new, hnew⟩ := exists_leaves { includeContainers := true } walk_after
  have old_nodup := nodup_leaves hold hb
  have new_nodup := nodup_leaves hnew ha
  have differs : ∀ p, differ { includeContainers := true } p (contentAt? p old)
      (contentAt? p new) = !sameView (p.get before missing) (p.get after missing) := by
    intro p
    rw [Patch.contentAt?_eq_viewed? hb hold, Patch.contentAt?_eq_viewed? ha hnew, differ_viewed?,
      seek_eq_get, seek_eq_get]
  refine ⟨changesBy { includeContainers := true } old new, ?_, fun p => ?_⟩
  · rw [changeset, changeTable, hold, hnew]
    show Except.ok (changesOf _ old new) = _
    rw [changesOf_eq _ old_nodup new_nodup]
  · rw [List.mem_map]
    constructor
    · rintro ⟨c, hc, rfl⟩
      obtain ⟨q, rfl, hd⟩ := (mem_changesBy_iff old_nodup new_nodup).mp hc
      rw [differs, Bool.not_eq_true'] at hd
      exact hd
    · intro hp
      refine ⟨_, (mem_changesBy_iff old_nodup new_nodup).mpr ⟨p, rfl, ?_⟩, rfl⟩
      rw [differs, hp]
      rfl

/-! ### Views of plain trees -/

/-- Containers of one kind look the same: what is in them are leaves of their own. -/
theorem sameView_container {v w : Value} {k : Kind} (hv : v.kind? = some k)
    (hw : w.kind? = some k) : sameView v w = true := by
  rw [sameView, viewed?_container hv, viewed?_container hw]
  exact beq_self_eq_true k

/-- Scalars look the same when they are strictly equal, so an integer does not look like the float
or the truth value of the same number. -/
theorem sameView_scalar {v w : Value} (hv : v.Plain) (hw : w.Plain) (kv : v.kind? = none)
    (kw : w.kind? = none) : sameView v w = v.samePrimitive w := by
  rw [sameView, viewed?_scalar hv kv, viewed?_scalar hw kw]
  rfl

/-- What looks like a plain tree is a container of its kind, or a scalar like it. A scalar and a
container never look the same. -/
theorem kind?_of_sameView {v w : Value} (hv : v.Plain) (hw : w.Plain)
    (h : sameView v w = true) : v.kind? = w.kind? := by
  rw [sameView] at h
  cases kv : v.kind? with
  | none =>
      rw [viewed?_scalar hv kv] at h
      cases kw : w.kind? with
      | none => rfl
      | some l =>
          rw [viewed?_container kw] at h
          exact absurd h (by simp [Content.agrees])
  | some k =>
      rw [viewed?_container kv] at h
      cases kw : w.kind? with
      | none =>
          rw [viewed?_scalar hw kw] at h
          exact absurd h (by simp [Content.agrees])
      | some l =>
          rw [viewed?_container kw] at h
          exact congrArg some (beq_iff_eq.mp h)

/-- Nothing looks like a plain tree, in either order: what is added or removed always shows. -/
theorem sameView_missing {v : Value} (h : v.Plain) :
    sameView missing v = false ∧ sameView v missing = false := by
  obtain ⟨x, hx⟩ := Option.isSome_iff_exists.mp (isSome_viewed? h)
  have gone : viewed? missing = none := rfl
  constructor
  · rw [sameView, gone, hx]
  · rw [sameView, gone, hx]

/-- What is one step down in trees that are alike is missing in both, or alike. For dictionaries
this uses that likeness looks entries up by their keys, in whatever order they stand. -/
theorem child?_of_alike {v w : Value} (h : Alike v w) (c : Component) :
    (v.slot c = missing ∧ w.slot c = missing) ∨
      ∃ x y, v.child? c = some x ∧ w.child? c = some y ∧ Alike x y := by
  cases h with
  | leaf hp hp' =>
      have kv := Value.kind?_of_isPrimitive hp
      have kw := Value.kind?_of_isPrimitive hp'
      exact .inl ⟨Value.slot_of_kind?_ne (by simp [kv]), Value.slot_of_kind?_ne (by simp [kw])⟩
  | @list vs ws length items =>
      cases c with
      | property k => exact .inl ⟨rfl, rfl⟩
      | index i =>
          cases hv : vs[i]? with
          | none =>
              have hw : ws[i]? = none := by
                rw [List.getElem?_eq_none_iff] at hv ⊢
                omega
              exact .inl ⟨by rw [Value.slot_list, hv]; rfl, by rw [Value.slot_list, hw]; rfl⟩
          | some x =>
              obtain ⟨hi, -⟩ := List.getElem?_eq_some_iff.mp hv
              have hw : ws[i]? = some ws[i] := List.getElem?_eq_getElem (length ▸ hi)
              exact .inr ⟨x, ws[i], hv, hw, items i x ws[i] hv hw⟩
  | @dict es fs keys values =>
      cases c with
      | index i => exact .inl ⟨rfl, rfl⟩
      | property k =>
          have same := keys k
          cases hv : Value.lookup k es with
          | none =>
              rw [hv, eq_comm, Option.isSome_none, Option.isSome_eq_false_iff,
                Option.isNone_iff_eq_none] at same
              exact .inl ⟨by rw [Value.slot_dict, hv]; rfl, by rw [Value.slot_dict, same]; rfl⟩
          | some x =>
              rw [hv, eq_comm, Option.isSome_some, Option.isSome_iff_exists] at same
              obtain ⟨y, hw⟩ := same
              exact .inr ⟨x, y, hv, hw, values k x y hv hw⟩

/-- Trees that are alike look the same at every path. The induction is on the path, through
`child?_of_alike`. -/
theorem sameView_of_alike {v w : Value} (hv : v.Plain) (hw : w.Plain) (h : Alike v w) (p : Path) :
    sameView (p.get v missing) (p.get w missing) = true := by
  induction p generalizing v w with
  | nil =>
      rw [Path.get_root, Path.get_root]
      cases h with
      | leaf hp hp' same =>
          rwa [sameView_scalar hv hw (Value.kind?_of_isPrimitive hp)
            (Value.kind?_of_isPrimitive hp')]
      | list => exact sameView_container rfl rfl
      | dict => exact sameView_container rfl rfl
  | cons c p ih =>
      rw [Path.get_cons, Path.get_cons]
      rcases child?_of_alike h c with ⟨gone, gone'⟩ | ⟨x, y, hx, hy, alike⟩
      · rw [gone, gone', Path.get_missing]
        rfl
      · have sx := (Value.child?_eq_some_iff hv.wellKeyed.hasUniqueKeys).mp hx
        have sy := (Value.child?_eq_some_iff hw.wellKeyed.hasUniqueKeys).mp hy
        rw [(Value.slot_of_child? hx).1, (Value.slot_of_child? hy).1]
        exact ih (hv.step sx) (hw.step sy) alike

/-- Trees that look the same at every path are alike. The induction is on the second tree; the root
settles the kind, and every slot is again such a pair of trees. -/
theorem alike_of_sameView {v w : Value} (hv : v.Plain) (hw : w.Plain)
    (h : ∀ p : Path, sameView (p.get v missing) (p.get w missing) = true) : Alike v w := by
  induction w using Value.stepInduction generalizing v with
  | step w ih =>
      have root := h []
      rw [Path.get_root, Path.get_root] at root
      have below : ∀ c, ∀ p : Path,
          sameView (p.get (v.slot c) missing) (p.get (w.slot c) missing) = true := by
        intro c p
        rw [← Path.get_cons, ← Path.get_cons]
        exact h (c :: p)
      have kind := kind?_of_sameView hv hw root
      have keys := hw.wellKeyed.hasUniqueKeys
      cases kw : w.kind? with
      | none =>
          have kv := kind.trans kw
          rw [sameView_scalar hv hw kv kw] at root
          exact .leaf (hv.isPrimitive kv) (hw.isPrimitive kw) root
      | some k =>
          have container : w.isContainer = true := by rw [Value.isContainer, kw]; rfl
          refine (Value.alike_of_slots hw kind container hv.tidy (fun c x hx => ?_)
            fun c hc => ?_).1
          · have same := below c
            rw [Value.slot_of_mem_steps keys hx] at same
            rcases hv.slot c with gone | plain
            · have top := same []
              rw [gone, Path.get_root, Path.get_root, (sameView_missing (hw.step hx)).1] at top
              exact absurd top (by simp)
            · exact ⟨ih c x hx plain (hw.step hx) same, plain⟩
          · have top := below c []
            rw [Value.slot_of_notMem_steps keys hc, Path.get_root, Path.get_root] at top
            rcases hv.slot c with gone | plain
            · exact gone
            · rw [(sameView_missing plain).2] at top
              exact absurd top (by simp)

/-- **Plain trees are alike when a diff sees the same at all places.** -/
theorem alike_iff_sameView {v w : Value} (hv : v.Plain) (hw : w.Plain) :
    Alike v w ↔ ∀ p : Path, sameView (p.get v missing) (p.get w missing) = true :=
  ⟨sameView_of_alike hv hw, alike_of_sameView hv hw⟩

end TreeDelta.Diff
