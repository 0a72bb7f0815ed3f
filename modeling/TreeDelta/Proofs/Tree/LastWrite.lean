import TreeDelta.Proofs.Tree.Search
import TreeDelta.Proofs.Tree.Write

/-!
# The last write wins

A value that was written at a path is found again by the pattern of the path, at one node and no
other (`Path.exists_search_of_assignFrom`). Strict reading may miss it, because a write takes an
index into a dictionary as a key; but the literals of a pattern cross kinds as a write does, and
the step that they pick has the text of the component. A second write at the path replaces the first
one as if that had not been (`Path.assignFrom_again`): the containers that the first one made are
those that the second one would have made.

## Main results

* `Component.pick_putChild`: a literal picks what was put one step down.
* `Path.exists_search_of_assignFrom`, `Path.assignFrom_again`: a write, and a second one.
* `Path.last_write_found`: the value that was written last is the one that is found.
-/

namespace TreeDelta

/-! ### What a literal picks -/

namespace Component

variable {t r : Value} {c : Component}

/-- A literal stands for the step that an edit takes. Searching and editing agree on what an index
means in a dictionary. -/
theorem resolve_of_admits (h : t.admits c = true) : c.resolve t = some (t.editStep c) := by
  cases t <;> cases c <;> first | rfl | exact absurd h (by simp [Value.admits])

/-- **A literal picks what was put** one step down, whatever was there before. -/
theorem pick_putChild (h : t.admits c = true) (there : r.isMissing = false) :
    c.pick (t.putChild c r) = some ((t.putChild c r).editStep c, r) := by
  have admitted : (t.putChild c r).admits c = true := by rwa [Value.admits_putChild]
  have reached := Value.editChild?_putChild rfl h h r
  exact pick_eq_some_iff_resolve.mpr
    ⟨resolve_of_admits admitted, Value.child?_editStep reached, there⟩

end Component

/-- A literal selector picks the one step that its literal picks. -/
theorem Selector.select_ofComponent {t w : Value} {c d : Component} (h : c.pick t = some (d, w)) :
    (Selector.ofComponent c).select t = [(d, w)] := by
  have alone : (Selector.ofComponent c).select t =
      distinct [] ([c].filterMap (Component.pick t)) := by
    cases c <;> rfl
  rw [alone, List.filterMap_cons_some h]
  rfl

namespace Path

variable {path place p : Path} {t r x y : Value}

/-! ### A write, and a second one -/

/-- **What was written is found** by the pattern of its path, and nothing else is. The path of the
node has the same texts; an index may have become a key. -/
theorem exists_search_of_assignFrom (there : x.isMissing = false)
    (h : assignFrom path place p t x = .ok r) :
    ∃ q : Path, (Pattern.ofPath p).search r = [⟨q, x⟩] ∧ q.texts = p.texts := by
  induction p generalizing place t r with
  | nil =>
      obtain rfl := Except.ok.inj h
      exact ⟨[], rfl, rfl⟩
  | cons c p ih =>
      rw [assignFrom] at h
      obtain ⟨container, opened, h⟩ := bind_eq_ok_iff.mp h
      obtain ⟨child, written, h⟩ := bind_eq_ok_iff.mp h
      obtain rfl : container.putChild c child = r := Except.ok.inj h
      obtain ⟨q, found, texts⟩ := ih written
      have admitted := (Value.openFor_eq_ok_iff.mp opened).2
      have present := isMissing_assign there (assignFrom_ok written)
      have picked := Component.pick_putChild admitted present
      refine ⟨(container.putChild c child).editStep c :: q, ?_, ?_⟩
      · rw [Pattern.ofPath, List.map_cons, Pattern.search_cons, Selector.select_ofComponent picked,
          List.flatMap_singleton]
        exact congrArg (List.map _) found
      · rw [Path.texts, List.map_cons, Value.text_editStep]
        exact congrArg _ texts

/-- **A second write at a path** gives what it would have given without the first one: it finds the
containers that the first one has left, and puts another value there. -/
theorem assignFrom_again (h : assignFrom path place p t x = .ok r) (y : Value) :
    ∃ t', assignFrom path place p r y = .ok t' ∧ assignFrom path place p t y = .ok t' := by
  induction p generalizing place t r with
  | nil => exact ⟨y, rfl, rfl⟩
  | cons c p ih =>
      rw [assignFrom] at h
      obtain ⟨container, opened, h⟩ := bind_eq_ok_iff.mp h
      obtain ⟨child, written, h⟩ := bind_eq_ok_iff.mp h
      obtain rfl : container.putChild c child = r := Except.ok.inj h
      obtain ⟨child', again, anew⟩ := ih written
      have admitted := (Value.openFor_eq_ok_iff.mp opened).2
      refine ⟨container.putChild c child', ?_, ?_⟩
      · have reopened : (container.putChild c child).openFor path place c =
            .ok (container.putChild c child) :=
          Value.openFor_of_admits (by rwa [Value.admits_putChild])
        rw [assignFrom, reopened]
        refine bind_eq_ok_iff.mpr ⟨_, rfl, ?_⟩
        rw [Value.editChild?_putChild rfl admitted admitted]
        refine bind_eq_ok_iff.mpr ⟨child', again, ?_⟩
        rw [Value.putChild_putChild]
        rfl
      · rw [assignFrom, opened]
        exact bind_eq_ok_iff.mpr ⟨container, rfl, bind_eq_ok_iff.mpr ⟨child', anew, rfl⟩⟩

/-- **The last write wins**: where a value can be written, the pattern of its path finds exactly one
node afterwards, at the place that the path names and with this value, and another value that is
written there then leaves the tree that it would have left without the first one. -/
theorem last_write_found (there : x.isMissing = false) (h : p.set t x = .ok r) :
    (∃ q : Path, (Pattern.ofPath p).search r = [⟨q, x⟩] ∧ q.same p = true) ∧
      ∀ y, y.isMissing = false → ∃ t', p.set r y = .ok t' ∧ p.set t y = .ok t' := by
  have written : p.assign t x = .ok r := by
    rw [set, there] at h
    exact h
  refine ⟨?_, fun y present => ?_⟩
  · obtain ⟨q, found, texts⟩ := exists_search_of_assignFrom there written
    exact ⟨q, found, beq_iff_eq.mpr texts⟩
  · obtain ⟨t', again, anew⟩ := assignFrom_again written y
    rw [set, set, present]
    exact ⟨t', again, anew⟩

/-- An index goes into a dictionary as a key, a null gives way to a list, and a list is filled up.
The value is found under the key, where strict reading of the path finds none. -/
theorem last_write_found_numeral :
    let tree : Value := .dict [(.str "b", .null), (.str "0", .list [.null])]
    let p : Path := [.index 0, .index 2, .property "c"]
    let grown (x : Value) : Value := .dict [(.str "b", .null),
      (.str "0", .list [.null, .missing, .dict [(.str "c", x)]])]
    (Value.int 1).isMissing = false ∧ p.set tree (.int 1) = .ok (grown (.int 1)) ∧
      p.get (grown (.int 1)) .null = .null ∧
      (∃ q : Path, (Pattern.ofPath p).search (grown (.int 1)) = [⟨q, .int 1⟩] ∧
        q.same p = true) ∧
      ∃ t, p.set (grown (.int 1)) (.str "d") = .ok t ∧ p.set tree (.str "d") = .ok t := by
  intro tree p grown
  have there : (Value.int 1).isMissing = false := rfl
  have written : p.set tree (.int 1) = .ok (grown (.int 1)) := by cbv
  obtain ⟨found, again⟩ := last_write_found there written
  exact ⟨there, written, rfl, found, again (.str "d") rfl⟩

end Path

end TreeDelta
