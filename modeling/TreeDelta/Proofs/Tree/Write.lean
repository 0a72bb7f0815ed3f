import Mathlib.Data.List.Basic
import TreeDelta.Proofs.Tree.NoEffect

/-!
# A write that fails changes nothing

A write edits containers where they stand: a new container is put into the tree before the write
goes on in it, and a list is filled up with holes. `Path.fill` follows what has become of the
container that a write started from, also when the write is stopped further down.

Only what was there before can stop a write: a scalar on the way, or a property of a list
(`Path.Obstacle`). A new container is empty and of the kind that the next component needs, so that
nothing is in the way from the first one on, and a write that fails has not put anything yet.

## Main definitions

* `Value.Stops`, `Path.Obstacle`: what is in the way of a write.
* `Path.settle`: what has become of a container when a failing write does nothing.

## Main results

* `Path.assignFrom_eq_error_iff`: a write fails at an obstacle, and only there.
* `Path.fill_eq`, `Path.writeInPlace_eq`: a write in place gives what a write gives.
* `Path.failed_set_changes_nothing`: a write that fails leaves the tree as it was.
-/

namespace TreeDelta

/-! ### Obstacles -/

/-- The fault of a write at `path` that comes to a scalar at a place. -/
def EditFault.scalar (path place : Path) (typeName : String) : EditFault :=
  if place.isEmpty then .rootType path typeName else .valueType path place typeName

/-- Why a write at `path` cannot go on with a component from the value at a place. A vacant value
stops no write, because a new container takes its place. -/
inductive Value.Stops (path place : Path) : Component → Value → EditFault → Prop
  /-- A value that is neither vacant nor a container has nothing below it. -/
  | scalar {c : Component} {v : Value} (filled : v.isVacant = false)
      (scalar : v.isContainer = false) : Stops path place c v (.scalar path place v.typeName)
  /-- A list has no properties. -/
  | property {name : String} {items : List Value} :
      Stops path place (.property name) (.list items) (.listProperty path name)

/-- What is in the way of a write at `path` that has come to a place: the walk from there along the
containers that are there, in which an index of a dictionary stands for its numeral, comes to a
value that stops it. -/
def Path.ObstacleFrom (path place p : Path) (t : Value) (fault : EditFault) : Prop :=
  ∃ (q : Path) (c : Component) (rest : Path) (v : Value),
    p = q ++ c :: rest ∧ q.reach? t = some v ∧ v.Stops path (place ++ q) c fault

/-- What is in the way of a write into a tree. It is described without the write itself, in terms of
what is reached along the path. -/
def Path.Obstacle (p : Path) (tree : Value) (fault : EditFault) : Prop :=
  p.ObstacleFrom root p tree fault

namespace Value

variable {path place : Path} {c : Component} {t v : Value} {fault : EditFault}

/-- A missing value and a null are vacant, and nothing else is. -/
theorem isVacant_iff : v.isVacant = true ↔ v = missing ∨ v = null := by
  cases v <;> simp [isVacant]

/-- A write steps into a vacant value, where a new container takes its place. -/
theorem openFor_vacant (h : v.isVacant = true) : v.openFor path place c = .ok (emptyFor c) := by
  obtain rfl | rfl := isVacant_iff.mp h <;> cases c <;> rfl

/-- A write steps into the container that was made for it. -/
theorem openFor_emptyFor : (emptyFor c).openFor path place c = .ok (emptyFor c) := by
  cases c <;> rfl

/-- What is made for a component is a container. -/
theorem isContainer_emptyFor (c : Component) : (emptyFor c).isContainer = true := by
  cases c <;> rfl

/-- A write cannot step into a scalar. -/
theorem openFor_scalar (filled : v.isVacant = false) (scalar : v.isContainer = false) :
    v.openFor path place c = .error (.scalar path place v.typeName) := by
  cases v with
  | missing | null => exact absurd filled (by decide)
  | list items => exact absurd scalar (by simp [isContainer, kind?])
  | dict entries => exact absurd scalar (by simp [isContainer, kind?])
  | _ => cases place <;> rfl

/-- A write steps into a container that admits the component. -/
theorem openFor_of_admits (h : v.admits c = true) : v.openFor path place c = .ok v := by
  refine openFor_eq_ok_iff.mpr ⟨?_, h⟩
  cases v <;> first | rfl | exact absurd h (by simp [admits])

/-- A write cannot step into a container that does not admit the component: a list has no
properties. -/
theorem openFor_of_not_admits (container : v.isContainer = true) (h : v.admits c = false) :
    v.openFor path place c = .error (.listProperty path c.text) := by
  cases v with
  | list items =>
      cases c with
      | index i => exact absurd h (by simp [admits])
      | property name => rfl
  | dict entries => cases c <;> exact absurd h (by simp [admits])
  | _ => exact absurd container (by simp [isContainer, kind?])

/-- **One step of a write** fails where a value stops it, and with the fault of that value. -/
theorem openFor_eq_error_iff :
    v.openFor path place c = .error fault ↔ v.Stops path place c fault := by
  constructor
  · intro h
    cases vacant : v.isVacant with
    | true => rw [openFor_vacant vacant] at h; exact absurd h (by simp)
    | false =>
        cases container : v.isContainer with
        | false =>
            rw [openFor_scalar vacant container] at h
            exact Except.error.inj h ▸ .scalar vacant container
        | true =>
            cases v with
            | list items =>
                cases c with
                | index i => exact absurd h (by simp [openFor, isVacant])
                | property name => exact Except.error.inj h ▸ .property
            | dict entries => cases c <;> exact absurd h (by simp [openFor, isVacant])
            | _ => exact absurd container (by simp [isContainer, kind?])
  · rintro (⟨filled, scalar⟩ | _)
    · exact openFor_scalar filled scalar
    · rfl

/-- A write that steps to a place where nothing is finds nothing in a new container, either. -/
theorem editChild?_of_openFor {container : Value} (h : t.openFor path place c = .ok container)
    (nothing : t.editChild? c = none) : container.editChild? c = none := by
  obtain ⟨rfl, -⟩ := openFor_eq_ok_iff.mp h
  split
  · cases c <;> rfl
  · exact nothing

/-- A value that is not vacant and is read one step down stands there. -/
theorem editChild?_of_getD (h : (t.editChild? c).getD missing = v) (filled : v.isVacant = false) :
    t.editChild? c = some v := by
  cases hc : t.editChild? c with
  | some u => rw [hc] at h; exact congrArg some h
  | none =>
      rw [hc] at h
      obtain rfl : missing = v := h
      exact absurd filled (by decide)

/-! ### Putting twice -/

/-- Of two items that are put at one index the last one stays. -/
theorem putItem_putItem (i : Nat) (v w : Value) (items : List Value) :
    putItem i w (putItem i v items) = putItem i w items := by
  induction i generalizing items with
  | zero => cases items <;> rfl
  | succ i ih =>
      cases items with
      | nil => exact congrArg (missing :: ·) (ih [])
      | cons u us => exact congrArg (u :: ·) (ih us)

/-- Of two values that are put under one key the last one stays. -/
theorem insert_insert (k : String) (v w : Value) (entries : List (Value × Value)) :
    insert k w (insert k v entries) = insert k w entries := by
  induction entries with
  | nil => exact if_pos rfl
  | cons e es ih =>
      obtain ⟨l, u⟩ := e
      cases l with
      | str l =>
          by_cases hl : l = k
          · rw [insert, if_pos hl, insert, if_pos hl, insert, if_pos hl]
          · rw [insert, if_neg hl, insert, if_neg hl, insert, if_neg hl, ih]
      | _ => exact congrArg (_ :: ·) ih

/-- Of two values that are put one step down the last one stays. -/
theorem putChild_putChild (t : Value) (c : Component) (v w : Value) :
    (t.putChild c v).putChild c w = t.putChild c w := by
  cases t with
  | list items =>
      cases c with
      | index i => exact congrArg list (putItem_putItem i v w items)
      | property name => rfl
  | dict entries => exact congrArg dict (insert_insert c.text v w entries)
  | _ => cases c <;> rfl

end Value

namespace Path

variable {path place p : Path} {t t' u v : Value} {fault : EditFault}

/-! ### Where a write fails -/

/-- An obstacle is at the first step, or it is in the way from what is one step down. The definition
is only looked at here. -/
theorem obstacleFrom_cons_iff {c : Component} :
    ObstacleFrom path place (c :: p) t fault ↔
      t.Stops path place c fault ∨
        ∃ u, t.editChild? c = some u ∧ ObstacleFrom path (place ++ [c]) p u fault := by
  constructor
  · rintro ⟨q, d, rest, w, split, reached, stops⟩
    cases q with
    | nil =>
        obtain ⟨rfl, rfl⟩ := List.cons.inj split
        obtain rfl := Option.some.inj reached
        rw [List.append_nil] at stops
        exact .inl stops
    | cons e q =>
        obtain ⟨rfl, rfl⟩ := List.cons.inj split
        rw [reach?] at reached
        cases hu : t.editChild? c with
        | none => rw [hu] at reached; exact absurd reached (by simp)
        | some u =>
            rw [hu] at reached
            refine .inr ⟨u, rfl, q, d, rest, w, rfl, reached, ?_⟩
            rwa [List.append_assoc]
  · rintro (stops | ⟨u, hu, q, d, rest, w, rfl, reached, stops⟩)
    · refine ⟨[], c, p, t, rfl, rfl, ?_⟩
      rwa [List.append_nil]
    · refine ⟨c :: q, d, rest, w, rfl, ?_, ?_⟩
      · rw [reach?, hu]
        exact reached
      · rwa [List.append_assoc] at stops

/-- Nothing is in the way from a vacant value: it has nothing in it that could be. -/
theorem not_obstacleFrom_of_isVacant (h : t.isVacant = true) :
    ¬ObstacleFrom path place p t fault := by
  cases p with
  | nil => rintro ⟨q, c, rest, v, split, -⟩; exact absurd split (by simp)
  | cons c p =>
      rw [obstacleFrom_cons_iff]
      rintro (stops | ⟨u, hu, -⟩)
      · rw [← Value.openFor_eq_error_iff, Value.openFor_vacant h] at stops
        exact absurd stops (by simp)
      · obtain rfl | rfl := Value.isVacant_iff.mp h <;> exact absurd hu (by simp [Value.editChild?])

/-- **A write fails at an obstacle**, and nowhere else. By induction on the path. -/
theorem assignFrom_eq_error_iff :
    assignFrom path place p t v = .error fault ↔ ObstacleFrom path place p t fault := by
  induction p generalizing place t with
  | nil => simp [assignFrom, ObstacleFrom]
  | cons c p ih =>
      rw [obstacleFrom_cons_iff, assignFrom, bind_eq_error_iff, Value.openFor_eq_error_iff]
      refine or_congr_right ⟨?_, ?_⟩
      · rintro ⟨container, hopen, failed⟩
        rcases bind_eq_error_iff.mp failed with failed | ⟨_, -, failed⟩
        · rw [ih] at failed
          cases hu : t.editChild? c with
          | some u =>
              have admitted := Value.admits_of_editChild? hu
              obtain rfl := Except.ok.inj (hopen.symm.trans (Value.openFor_of_admits admitted))
              rw [hu] at failed
              exact ⟨u, rfl, failed⟩
          | none =>
              rw [Value.editChild?_of_openFor hopen hu] at failed
              exact absurd failed (not_obstacleFrom_of_isVacant rfl)
        · exact absurd failed (by simp [pure, Except.pure])
      · rintro ⟨u, hu, obstacle⟩
        have admitted := Value.admits_of_editChild? hu
        refine ⟨t, Value.openFor_of_admits admitted, bind_eq_error_iff.mpr (.inl ?_)⟩
        rw [hu]
        exact ih.mpr obstacle

/-- Nothing is in the way in a new container. -/
theorem exists_assignFrom_emptyFor (path place : Path) (c : Component) (q : Path) (v : Value) :
    ∃ t, assignFrom path place (c :: q) (.emptyFor c) v = .ok t := by
  cases h : assignFrom path place (c :: q) (.emptyFor c) v with
  | ok t => exact ⟨t, rfl⟩
  | error fault =>
      rw [assignFrom_eq_error_iff, obstacleFrom_cons_iff] at h
      rcases h with stops | ⟨u, hu, -⟩
      · rw [← Value.openFor_eq_error_iff, Value.openFor_emptyFor] at stops
        exact absurd stops (by simp)
      · cases c <;> exact absurd hu (by simp [Value.emptyFor, Value.editChild?, Value.lookup])

/-! ### Writes in place -/

/-- What a container has become after a write in place that does nothing unless it succeeds. That a
write in place is like this has to be proved, as it changes containers on its way down. -/
def settle (t : Value) : Except EditFault Value → Option EditFault × Value
  | .ok t' => (none, t')
  | .error fault => (some fault, t)

/-- A write into a vacant value is one into the container that takes its place. -/
theorem assignFrom_of_isVacant {c : Component} (h : t.isVacant = true) :
    assignFrom path place (c :: p) t v = assignFrom path place (c :: p) (.emptyFor c) v := by
  rw [assignFrom, assignFrom, Value.openFor_vacant h, Value.openFor_emptyFor]

/-- **A write in place** gives what a write gives, and leaves the container as it was when it is
stopped. A new container is put in before the write goes on in it, but in a new container nothing
can stop it any more. -/
theorem fill_eq {c : Component} (container : t.isContainer = true) :
    fill path place (c :: p) t v = settle t (assignFrom path place (c :: p) t v) := by
  induction p generalizing place t c with
  | nil =>
      cases admitted : t.admits c with
      | false =>
          rw [assignFrom, Value.openFor_of_not_admits container admitted, fill, admitted]
          rfl
      | true =>
          rw [assignFrom, Value.openFor_of_admits admitted, fill, admitted]
          rfl
  | cons d p ih =>
      cases admitted : t.admits c with
      | false =>
          rw [assignFrom, Value.openFor_of_not_admits container admitted, fill, admitted]
          rfl
      | true =>
          have entered : assignFrom path place (c :: d :: p) t v =
              (assignFrom path (place ++ [c]) (d :: p) ((t.editChild? c).getD .missing) v).map
                (t.putChild c) := by
            rw [assignFrom, Value.openFor_of_admits admitted]
            rfl
          rw [entered, fill, admitted, if_pos rfl]
          generalize hchild : (t.editChild? c).getD .missing = child
          cases vacant : child.isVacant with
          | true =>
              obtain ⟨r, hr⟩ := exists_assignFrom_emptyFor path (place ++ [c]) d p v
              rw [assignFrom_of_isVacant vacant, hr]
              simp only [vacant, if_true, ih (Value.isContainer_emptyFor d), hr, settle,
                Value.putChild_putChild]
              rfl
          | false =>
              cases inner : child.isContainer with
              | false =>
                  rw [assignFrom, Value.openFor_scalar vacant inner]
                  simp only [vacant, inner, Bool.false_eq_true, if_false]
                  cases place <;> rfl
              | true =>
                  have there := Value.editChild?_of_getD hchild vacant
                  simp only [vacant, inner, Bool.false_eq_true, if_false, if_true, ih inner]
                  cases assignFrom path (place ++ [c]) (d :: p) child v with
                  | ok r => rfl
                  | error fault => exact congrArg (some fault, ·) (Value.putChild_self there)

/-- A write in place and a write have one outcome. -/
theorem filled_settle (t : Value) (outcome : Except EditFault Value) :
    filled (settle t outcome) = outcome := by
  cases outcome <;> rfl

/-- **A write in place into a tree** gives what a write gives. The tree that was given has become
the new tree when the write has gone on in it and was not stopped, and else it is as it was. -/
theorem writeInPlace_eq (p : Path) (tree value : Value) :
    p.writeInPlace tree value =
      (p.assign tree value,
        if p.keepsRoot && tree.isContainer then ((p.assign tree value).toOption).getD tree
        else tree) := by
  cases p with
  | nil => rfl
  | cons c p =>
      rw [writeInPlace, assign]
      cases vacant : tree.isVacant with
      | true =>
          have scalar : tree.isContainer = false := by
            obtain rfl | rfl := Value.isVacant_iff.mp vacant <;> rfl
          simp only [if_true, fill_eq (Value.isContainer_emptyFor c), filled_settle,
            assignFrom_of_isVacant vacant, scalar, Bool.and_false, Bool.false_eq_true, if_false]
      | false =>
          cases container : tree.isContainer with
          | false =>
              rw [assignFrom, Value.openFor_scalar vacant container]
              rfl
          | true =>
              simp only [Bool.false_eq_true, if_false, if_true, fill_eq container, filled_settle]
              cases assignFrom (c :: p) root (c :: p) tree value <;> rfl

/-- **A write that fails changes nothing**: a value can be written into a tree unless an obstacle is
in the way, and the fault tells which one. The write edits the tree where it stands, and when it
fails, what has become of the tree is the tree that was given. -/
theorem failed_set_changes_nothing (hv : v.isMissing = false) (p : Path) (tree : Value) :
    (∀ fault, p.set tree v = .error fault ↔ p.Obstacle tree fault) ∧
      (p.writeInPlace tree v).1 = p.set tree v ∧
      ∀ fault, p.set tree v = .error fault → (p.writeInPlace tree v).2 = tree := by
  have written : p.set tree v = p.assign tree v := by
    rw [set, hv]
    exact if_neg Bool.false_ne_true
  rw [written, writeInPlace_eq]
  refine ⟨fun fault => assignFrom_eq_error_iff, rfl, fun fault failed => ?_⟩
  rw [failed]
  exact ite_self tree

/-- An index leads into a dictionary, where a string is in the way; next to it null gives way, and a
list is filled up. -/
theorem failed_set_changes_nothing_numeral :
    let tree : Value := .dict [(.str "a", .list [.null, .dict [(.str "0", .str "b")]])]
    let p : Path := [.property "a", .index 1, .index 0, .property "c"]
    let q : Path := [.property "a", .index 0, .index 1, .property "c"]
    let fault : EditFault := .valueType p [.property "a", .index 1, .index 0] "str"
    let grown : Value := .dict [(.str "a", .list [.list [.missing, .dict [(.str "c", .int 1)]],
      .dict [(.str "0", .str "b")]])]
    (Value.int 1).isMissing = false ∧ p.Obstacle tree fault ∧ p.set tree (.int 1) = .error fault ∧
      p.writeInPlace tree (.int 1) = (.error fault, tree) ∧
      q.set tree (.int 1) = .ok grown ∧ ∀ other, ¬q.Obstacle tree other := by
  intro tree p q fault grown
  have present : (Value.int 1).isMissing = false := rfl
  obtain ⟨obstacles, outcome, unchanged⟩ := failed_set_changes_nothing present p tree
  have failed : p.set tree (.int 1) = .error fault := by cbv
  have written : q.set tree (.int 1) = .ok grown := by cbv
  refine ⟨present, (obstacles fault).mp failed, failed,
    Prod.ext (outcome.trans failed) (unchanged fault failed), written, fun other obstacle => ?_⟩
  have stopped := ((failed_set_changes_nothing present q tree).1 other).mpr obstacle
  rw [written] at stopped
  exact absurd stopped (by simp)

end Path

end TreeDelta
