import Mathlib
import TreeDelta.Proofs.Diff.Changeset
import TreeDelta.Proofs.Diff.Reached
import TreeDelta.Proofs.Forall2

/-!
# What a diff does not see

Two trees look alike to a diff (`Diff.Config.SeesAlike`) when the walk over one goes where the walk
over the other goes: containers that are entered have the same outline, what is left out on one side
is left out on the other, whatever it is, and an atomic value stands where one stood. Below values
that are left out and below atomic ones the trees may differ. Walks over such trees fail alike, or
find leaves with alike contents (`Diff.Config.SeesAlike.walk`), and diffs of such trees fail alike,
or find changes that only differ in the atomic values they report
(`Diff.Config.SeesAlike.changeset`). An atomic value counts for its comparison alone: two of them
may stand for each other when no comparison tells them apart. Where only equal values may, the diffs
are the same (`Diff.changeset_eq_of_seesAlike`).

So the nodes that a walk reaches are all that a diff depends on, and they are all that it asks about
(`Diff.pruning_exact`).

## Main definitions

* `Value.outline`: a container with its values taken out.
* `Diff.Config.SeesAlike`: trees that look alike to a diff.
* `Diff.Content.Alike`, `Diff.Leaf.Alike`, `Change.Alike`: what a diff finds in such trees.

## Main results

* `Diff.Config.SeesAlike.walk`, `Diff.Config.SeesAlike.changeset`: walks and diffs of such trees.
* `Diff.pruning_exact`: what a diff asks, where it fails, and what it does not see.
-/

namespace TreeDelta

/-- A container with its values taken out: the length of a list, or the keys of a dictionary in
their order. Two containers with one outline are walked along the same steps. -/
def Value.outline : Value → Value
  | list items => list (items.map fun _ => missing)
  | dict entries => dict (entries.map fun e => (e.1, missing))
  | v => v

/-- A container and its outline are of one kind. -/
theorem Value.kind?_outline (v : Value) : v.outline.kind? = v.kind? := by
  cases v <;> rfl

/-- Two changes are alike when they are at one path and do the same with values that are. Which
values are alike is a parameter. -/
structure Change.Alike (same : Path → Value → Value → Prop) (c d : Change) : Prop where
  /-- They are at one path. -/
  path : c.path = d.path
  /-- The old values are both absent, or alike. -/
  old? : Option.Rel (same c.path) c.old? d.old?
  /-- The new values are both absent, or alike. -/
  new? : Option.Rel (same c.path) c.new? d.new?
  /-- The values are listed in one order. -/
  newFirst : c.newFirst = d.newFirst

/-- Alike changes are equal where only equal values are alike. -/
theorem Change.Alike.eq {same : Path → Value → Value → Prop} {c d : Change} (h : c.Alike same d)
    (strict : ∀ v w, same c.path v w → v = w) : c = d := by
  have values : ∀ a b, Option.Rel (same c.path) a b → a = b := by
    rintro _ _ (related | _)
    · exact congrArg some (strict _ _ related)
    · rfl
  have olds := values _ _ h.old?
  have news := values _ _ h.new?
  cases c
  cases d
  exact Change.mk.injEq .. ▸ ⟨h.path, olds, news, h.newFirst⟩

namespace Diff

/-! ### Trees that look alike -/

/-- Two values at a path look alike to a diff. `same` says which atomic values may stand for each
other at a path. Below values that are left out or atomic nothing is compared. -/
inductive Config.SeesAlike (cfg : Config) (same : Path → Value → Value → Prop) :
    Path → Value → Value → Prop
  /-- Values that are left out, with everything below them. -/
  | rejected {p : Path} {v w : Value} : cfg.accepts p v = false → cfg.accepts p w = false →
      SeesAlike cfg same p v w
  /-- Atomic values that may stand for each other, with everything below them. -/
  | leaf {p : Path} {v w : Value} : cfg.accepts p v = true → cfg.accepts p w = true →
      cfg.isLeaf p v = true → cfg.isLeaf p w = true → same p v w → SeesAlike cfg same p v w
  /-- Values of one type that stop a walk. -/
  | unsupported {p : Path} {v w : Value} : cfg.accepts p v = true → cfg.accepts p w = true →
      cfg.isLeaf p v = false → cfg.isLeaf p w = false → v.kind? = none → w.kind? = none →
      v.typeName = w.typeName → SeesAlike cfg same p v w
  /-- Containers with one outline that are entered, and values in them that look alike. -/
  | container {p : Path} {v w : Value} : cfg.enters p v = true → cfg.enters p w = true →
      v.outline = w.outline →
      (∀ c x y, (c, x) ∈ v.steps → (c, y) ∈ w.steps → SeesAlike cfg same (p ++ [c]) x y) →
      SeesAlike cfg same p v w

/-- Every tree looks like itself. -/
theorem Config.SeesAlike.refl {cfg : Config} {same : Path → Value → Value → Prop}
    (reflexive : ∀ p v, same p v v) {p : Path} {v : Value} (keyed : v.WellKeyed) :
    cfg.SeesAlike same p v v := by
  induction v using Value.stepInduction generalizing p with
  | step v ih =>
      cases ha : cfg.accepts p v with
      | false => exact .rejected ha ha
      | true =>
          cases hl : cfg.isLeaf p v with
          | true => exact .leaf ha ha hl hl (reflexive p v)
          | false =>
              cases hk : v.kind? with
              | none => exact .unsupported ha ha hl hl hk hk rfl
              | some k =>
                  have container : v.isContainer = true := by rw [Value.isContainer, hk]; rfl
                  have entered := enters_iff.mpr ⟨ha, hl, container⟩
                  refine .container entered entered rfl fun c x y hx hy => ?_
                  obtain rfl := Value.steps_unique keyed.hasUniqueKeys hx hy
                  exact ih c x hx (keyed.step hx)

/-- Two contents are alike when they are atomic values that may stand for each other, or containers
of one kind. -/
inductive Content.Alike (same : Value → Value → Prop) : Content → Content → Prop
  /-- Atomic values. -/
  | atomic {v w : Value} : same v w → Alike same (.atomic v) (.atomic w)
  /-- Containers. -/
  | container (k : Kind) : Alike same (.container k) (.container k)

/-- Two leaves are alike when they are at one path and their contents are. -/
structure Leaf.Alike (same : Path → Value → Value → Prop) (l m : Leaf) : Prop where
  /-- They are at one path. -/
  path : l.path = m.path
  /-- Their contents are alike. -/
  content : l.content.Alike (same l.path) m.content

/-- Two walks are alike when they find alike leaves. The questions in between may differ. -/
def FindAlike (same : Path → Value → Value → Prop) (ss ts : List Step) : Prop :=
  List.Forall₂ (Leaf.Alike same) (ss.filterMap Step.leaf?) (ts.filterMap Step.leaf?)

variable {cfg : Config} {same : Path → Value → Value → Prop} {p : Path} {v w : Value}

/-! ### Walks -/

/-- Walks that are alike go on alike. -/
theorem FindAlike.append {ss ts ss' ts' : List Step} (h : FindAlike same ss ts)
    (h' : FindAlike same ss' ts') : FindAlike same (ss ++ ss') (ts ++ ts') := by
  rw [FindAlike, List.filterMap_append, List.filterMap_append]
  exact List.rel_append h h'

/-- Walks without leaves are alike. -/
theorem findAlike_of_eq_nil {ss ts : List Step} (hs : ss.filterMap Step.leaf? = [])
    (ht : ts.filterMap Step.leaf? = []) : FindAlike same ss ts := by
  rw [FindAlike, hs, ht]
  exact .nil

/-- Walks over the items of two lists of one length are alike, if the walks over the items are, one
by one. -/
theorem related_walkItems {vs ws : List Value} {i : Nat} (length : vs.length = ws.length)
    (h : ∀ c x y, (c, x) ∈ Value.itemSteps i vs → (c, y) ∈ Value.itemSteps i ws →
      Related (FindAlike same) (walk cfg (p ++ [c]) x) (walk cfg (p ++ [c]) y)) :
    Related (FindAlike same) (walkItems cfg p i vs) (walkItems cfg p i ws) := by
  induction vs generalizing ws i with
  | nil =>
      cases ws with
      | nil =>
          rw [walkItems]
          exact .ok .nil
      | cons w ws => exact absurd length (by simp)
  | cons v vs ih =>
      cases ws with
      | nil => exact absurd length (by simp)
      | cons w ws =>
          rw [walkItems, walkItems]
          refine (h _ v w List.mem_cons_self List.mem_cons_self).bind fun ss ts first => ?_
          refine (ih (Nat.succ.inj length) fun c x y hx hy => h c x y (List.mem_cons_of_mem _ hx)
            (List.mem_cons_of_mem _ hy)).bind fun ss' ts' rest => ?_
          exact .ok (first.append rest)

/-- Walks over the entries of two dictionaries with the same keys. -/
theorem related_walkEntries {es fs : List (Value × Value)}
    (keys : es.map Prod.fst = fs.map Prod.fst)
    (h : ∀ c x y, (c, x) ∈ Value.entrySteps es → (c, y) ∈ Value.entrySteps fs →
      Related (FindAlike same) (walk cfg (p ++ [c]) x) (walk cfg (p ++ [c]) y)) :
    Related (FindAlike same) (walkEntries cfg p es) (walkEntries cfg p fs) := by
  induction es generalizing fs with
  | nil =>
      cases fs with
      | nil =>
          rw [walkEntries]
          exact .ok .nil
      | cons f fs => exact absurd keys (by simp)
  | cons e es ih =>
      cases fs with
      | nil => exact absurd keys (by simp)
      | cons f fs =>
          obtain ⟨k, x⟩ := e
          obtain ⟨l, y⟩ := f
          obtain ⟨rfl, later⟩ := List.cons.inj keys
          cases k with
          | str k =>
              rw [walkEntries, walkEntries]
              refine (h _ x y List.mem_cons_self List.mem_cons_self).bind fun ss ts first => ?_
              refine (ih later fun c x y hx hy => h c x y (List.mem_cons_of_mem _ hx)
                (List.mem_cons_of_mem _ hy)).bind fun ss' ts' rest => ?_
              exact .ok (first.append rest)
          | _ =>
              simp only [walkEntries]
              exact .error _

/-- Walks below two containers with one outline are alike, if those over their values are. Lists and
dictionaries are one case from here on. -/
theorem related_walkBelow (container : v.isContainer = true) (outline : v.outline = w.outline)
    (h : ∀ c x y, (c, x) ∈ v.steps → (c, y) ∈ w.steps →
      Related (FindAlike same) (walk cfg (p ++ [c]) x) (walk cfg (p ++ [c]) y)) :
    Related (FindAlike same) (walkBelow cfg p v) (walkBelow cfg p w) := by
  cases v with
  | list vs =>
      obtain ⟨ws, rfl⟩ : ∃ ws, w = .list ws := by
        cases w <;> first | exact ⟨_, rfl⟩ | exact absurd outline (by simp [Value.outline])
      have length := congrArg List.length (Value.list.inj outline)
      rw [List.length_map, List.length_map] at length
      exact related_walkItems length h
  | dict es =>
      obtain ⟨fs, rfl⟩ : ∃ fs, w = .dict fs := by
        cases w <;> first | exact ⟨_, rfl⟩ | exact absurd outline (by simp [Value.outline])
      have keys := congrArg (List.map Prod.fst) (Value.dict.inj outline)
      rw [List.map_map, List.map_map] at keys
      exact related_walkEntries keys h
  | _ => exact absurd container (by simp [Value.isContainer, Value.kind?])

/-- **Walks over trees that look alike** fail alike, or find alike leaves. By induction on how the
trees look alike. -/
theorem Config.SeesAlike.walk (h : cfg.SeesAlike same p v w) :
    Related (FindAlike same) (walk cfg p v) (walk cfg p w) := by
  induction h with
  | rejected hv hw =>
      rw [walk_rejected hv, walk_rejected hw]
      exact .ok .nil
  | @leaf p v w hv hw lv lw related =>
      rw [walk_leaf hv lv, walk_leaf hw lw]
      have asked : FindAlike same (.asked (.accepts p) :: atomicSteps cfg p v)
          (.asked (.accepts p) :: atomicSteps cfg p w) :=
        findAlike_of_eq_nil (filterMap_atomicSteps cfg p v) (filterMap_atomicSteps cfg p w)
      have leaf : FindAlike same [.found ⟨p, .atomic v⟩] [.found ⟨p, .atomic w⟩] :=
        .cons ⟨rfl, .atomic related⟩ .nil
      exact .ok (asked.append leaf)
  | unsupported hv hw lv lw kv kw name =>
      rw [walk_unsupported hv lv kv, walk_unsupported hw lw kw, name]
      exact .error _
  | @container p v w ev ew outline below ih =>
      obtain ⟨hv, lv, container⟩ := enters_iff.mp ev
      obtain ⟨hw, lw, -⟩ := enters_iff.mp ew
      obtain ⟨k, kv⟩ := Option.isSome_iff_exists.mp container
      have kw : w.kind? = some k := by
        rw [← Value.kind?_outline, ← outline, Value.kind?_outline, kv]
      rw [walk_container hv lv kv, walk_container hw lw kw]
      have asked : FindAlike same (.asked (.accepts p) :: (askAtomic cfg p v).1)
          (.asked (.accepts p) :: (askAtomic cfg p w).1) :=
        findAlike_of_eq_nil (filterMap_askAtomic cfg p v) (filterMap_askAtomic cfg p w)
      have own : FindAlike same (containerLeaf cfg p k) (containerLeaf cfg p k) := by
        rw [containerLeaf]
        split
        · exact .cons ⟨rfl, .container k⟩ .nil
        · exact .nil
      exact (related_walkBelow container outline ih).map fun ss ts rest =>
        (asked.append own).append rest

/-- The leaves of trees that look alike are alike. -/
theorem Config.SeesAlike.leaves (h : cfg.SeesAlike same Path.root v w) :
    Related (List.Forall₂ (Leaf.Alike same)) (leaves cfg v) (leaves cfg w) :=
  h.walk.map fun _ _ found => found

/-! ### Changes -/

section Changes

variable (reflexive : ∀ p v, same p v v)
  (compared : ∀ p a b a' b', same p a a' → same p b b' → cfg.equates a b p = cfg.equates a' b' p)
  {x y x' y' : Content} {l m : Leaf} {ls ms ls' ms' : List Leaf}

/-- Alike leaves are at the same paths. -/
theorem map_path_of_alike (h : List.Forall₂ (Leaf.Alike same) ls ms) :
    ls.map Leaf.path = ms.map Leaf.path :=
  (map_eq_of_forall₂ h fun _ _ alike => alike.path.symm).symm

/-- What stands at a path among alike leaves: nothing in both cases, or contents that are alike. -/
theorem leafAt?_of_alike (h : List.Forall₂ (Leaf.Alike same) ls ms) (p : Path) :
    Option.Rel (fun l m : Leaf => l.content.Alike (same p) m.content)
      (leafAt? p ls) (leafAt? p ms) := by
  induction h with
  | nil => exact .none
  | @cons l m ls ms first _ ih =>
      rw [leafAt?, leafAt?, List.find?_cons, List.find?_cons, ← first.path]
      cases here : l.path == p with
      | true => exact .some (beq_iff_eq.mp here ▸ first.content)
      | false => exact ih

include reflexive in
/-- The values that alike contents show. -/
theorem Content.Alike.value (h : x.Alike (same p) y) : same p x.value y.value := by
  cases h with
  | atomic related => exact related
  | container k => exact reflexive p _

include compared in
/-- Alike contents compare alike, as far as strict equality and the predicate of the caller do not
tell them apart. -/
theorem Content.Alike.equal (hx : x.Alike (same p) x') (hy : y.Alike (same p) y') :
    x.equal cfg p y = x'.equal cfg p y' := by
  cases hx with
  | atomic hx =>
      cases hy with
      | atomic hy => exact compared p _ _ _ _ hx hy
      | container k => rfl
  | container k => cases hy <;> rfl

include reflexive compared in
/-- The changes that alike leaves make. -/
theorem changeOf?_of_alike (h : List.Forall₂ (Leaf.Alike same) ls ms) (hl : l.Alike same m) :
    Option.Rel (Change.Alike same) (changeOf? cfg ls l) (changeOf? cfg ms m) := by
  rw [changeOf?, changeOf?, ← hl.path]
  have there := leafAt?_of_alike h l.path
  generalize leafAt? l.path ls = a at there ⊢
  generalize leafAt? l.path ms = b at there ⊢
  cases there with
  | none => exact .some ⟨rfl, .none, .some (hl.content.value reflexive), rfl⟩
  | some found =>
      dsimp only
      rw [found.equal compared hl.content]
      split
      · exact .none
      · exact .some ⟨rfl, .some (found.value reflexive), .some (hl.content.value reflexive), rfl⟩

include reflexive in
/-- The removals that alike leaves make. -/
theorem removalOf?_of_alike (h : List.Forall₂ (Leaf.Alike same) ls ms) (hl : l.Alike same m) :
    Option.Rel (Change.Alike same) (removalOf? ls l) (removalOf? ms m) := by
  rw [removalOf?, removalOf?, ← hl.path]
  have there := leafAt?_of_alike h l.path
  generalize leafAt? l.path ls = a at there ⊢
  generalize leafAt? l.path ms = b at there ⊢
  cases there with
  | none => exact .some ⟨hl.path, .some (hl.content.value reflexive), .none, rfl⟩
  | some _ => exact .none

include reflexive compared in
/-- The changes between alike leaves are alike, one by one and in the same order. -/
theorem changesOf_of_alike (hls : (ls.map Leaf.path).Nodup) (hls' : (ls'.map Leaf.path).Nodup)
    (old : List.Forall₂ (Leaf.Alike same) ls ms) (new : List.Forall₂ (Leaf.Alike same) ls' ms') :
    List.Forall₂ (Change.Alike same) (changesOf cfg ls ls') (changesOf cfg ms ms') := by
  have hms : (ms.map Leaf.path).Nodup := map_path_of_alike old ▸ hls
  have hms' : (ms'.map Leaf.path).Nodup := map_path_of_alike new ▸ hls'
  rw [changesOf_eq cfg hls hls', changesOf_eq cfg hms hms', changesBy, changesBy]
  exact List.rel_append
    (List.rel_filterMap (fun _ _ hl => changeOf?_of_alike reflexive compared old hl) new)
    (List.rel_filterMap (fun _ _ hl => removalOf?_of_alike reflexive new hl) old)

include reflexive compared in
/-- **Diffs of trees that look alike** fail alike, or find alike changes. -/
theorem Config.SeesAlike.changeset {before after before' after' : Value}
    (hb : before.WellKeyed) (ha : after.WellKeyed)
    (old : cfg.SeesAlike same Path.root before before')
    (new : cfg.SeesAlike same Path.root after after') :
    Related (List.Forall₂ (Change.Alike same)) (changeset cfg before after)
      (changeset cfg before' after') := by
  rw [changeset_eq_bind, changeset_eq_bind]
  refine old.leaves.of_eq_ok.bind fun ls ms ⟨hls, olds⟩ => ?_
  refine new.leaves.of_eq_ok.map fun ls' ms' ⟨hls', news⟩ => ?_
  exact changesOf_of_alike reflexive compared (nodup_leaves hls hb) (nodup_leaves hls' ha) olds news

end Changes

/-- **Diffs of trees that only differ in what is left out** are the same, faults included. -/
theorem changeset_eq_of_seesAlike {before after before' after' : Value}
    (hb : before.WellKeyed) (ha : after.WellKeyed)
    (old : cfg.SeesAlike (fun _ => Eq) Path.root before before')
    (new : cfg.SeesAlike (fun _ => Eq) Path.root after after') :
    changeset cfg before after = changeset cfg before' after' := by
  have compared : ∀ p (a b a' b' : Value), a = a' → b = b' →
      cfg.equates a b p = cfg.equates a' b' p := by
    rintro p a b _ _ rfl rfl
    rfl
  refine (old.changeset (fun _ _ => rfl) compared hb ha new).eq fun cs ds alike => ?_
  rw [← List.forall₂_eq_eq_eq]
  exact alike.imp fun c d h => h.eq fun _ _ => id

/-! ### What a diff depends on -/

/-- **Pruning and rejection are exact.** The nodes that a diff reaches are the places of a tree
above which everything is entered, each once and in pre-order. A diff that gives a result has asked
at exactly these nodes whether the value takes part, and at those that take part and are no scalars
whether it is atomic. It fails when it cannot go on at one of them, and only then. What is left out
does not matter, nor does what lies below it, and of an atomic value only its comparison matters:
trees that look alike have the same changes, or changes that report alike values. -/
theorem pruning_exact (cfg : Config) {before after : Value} (hb : before.WellKeyed)
    (ha : after.WellKeyed) :
    (∀ tree ∈ [before, after],
      (cfg.reached Path.root tree).Sublist tree.sites ∧
      ((cfg.reached Path.root tree).map Node.path).Nodup ∧
      ∀ (q : Path) (w : Value), ⟨q, w⟩ ∈ cfg.reached Path.root tree ↔
        q.find? tree = some w ∧
          ∀ r : Path, r <+: q → r ≠ q → ∃ u, r.find? tree = some u ∧ cfg.enters r u = true) ∧
    (∀ changes, changeset cfg before after = .ok changes → ∃ qs, trace cfg before after = .ok qs ∧
      qs.filterMap Question.acceptsPath? =
        (cfg.reached Path.root before ++ cfg.reached Path.root after).map Node.path ∧
      qs.filterMap Question.atomicPath? =
        if cfg.isAtomic?.isSome then
          ((cfg.reached Path.root before ++ cfg.reached Path.root after).filter fun n =>
            cfg.accepts n.path n.value && !n.value.isPrimitive).map Node.path
        else []) ∧
    ((∃ fault, changeset cfg before after = .error fault) ↔
      ∃ n ∈ cfg.reached Path.root before ++ cfg.reached Path.root after,
        cfg.obstructs n.path n.value = true) ∧
    (∀ before' after', cfg.SeesAlike (fun _ => Eq) Path.root before before' →
      cfg.SeesAlike (fun _ => Eq) Path.root after after' →
        changeset cfg before after = changeset cfg before' after') ∧
    ∀ same : Path → Value → Value → Prop, (∀ p v, same p v v) →
      (∀ p a b a' b', same p a a' → same p b b' → cfg.equates a b p = cfg.equates a' b' p) →
      ∀ before' after', cfg.SeesAlike same Path.root before before' →
        cfg.SeesAlike same Path.root after after' →
          Related (List.Forall₂ (Change.Alike same)) (changeset cfg before after)
            (changeset cfg before' after') := by
  refine ⟨fun tree htree => ?_, fun changes h => questions_of_changeset hb ha h,
    changeset_fails_iff hb ha, fun before' after' => changeset_eq_of_seesAlike hb ha,
    fun same reflexive compared before' after' old new =>
      old.changeset reflexive compared hb ha new⟩
  have keyed : tree.WellKeyed := by
    rcases List.mem_pair.mp htree with rfl | rfl
    · exact hb
    · exact ha
  exact ⟨List.filter_sublist, nodup_reached keyed, fun q w => mem_reached_iff keyed⟩

/-- One value is left out, and one that is no scalar is atomic and equal to everything. Neither of
them is looked into, so that both may give way to other values. -/
theorem pruning_exact_replaced :
    let left : Path := [.property "s"]
    let whole : Path := [.property "t"]
    let cfg : Config := { accepts := fun p _ => p != left
                          isAtomic? := some fun _ p => p == whole
                          isEqual? := some fun _ _ p => p == whole }
    let tree (x y : Value) : Value :=
      .dict [(.str "s", x), (.str "t", y), (.str "u", .list [.int 1, .missing])]
    let before := tree (.dict [(.int 0, .null)]) (.list [.tuple []])
    let after : Value := .dict [(.str "u", .list [.int 2]), (.str "t", .set [])]
    let changes : List Change := [⟨[.property "u", .index 0], some (.int 1), some (.int 2), false⟩,
      ⟨[.property "u", .index 1], some .missing, none, false⟩]
    before.WellKeyed ∧ after.WellKeyed ∧ changeset cfg before after = .ok changes ∧
      (cfg.reached Path.root before ++ cfg.reached Path.root after).map Node.path =
        [[], left, whole, [.property "u"], [.property "u", .index 0], [.property "u", .index 1],
          [], [.property "u"], [.property "u", .index 0], whole] ∧
      ∀ x y, changeset cfg (tree x y) after = .ok changes := by
  intro left whole cfg tree before after changes
  have hb : before.WellKeyed := by decide
  have ha : after.WellKeyed := by decide
  have now : changeset cfg before after = .ok changes := by cbv
  obtain ⟨-, asked, -, -, unseen⟩ := pruning_exact cfg hb ha
  refine ⟨hb, ha, now, ?_, fun x y => ?_⟩
  · obtain ⟨qs, traced, paths, -⟩ := asked changes now
    have expected : trace cfg before after =
        .ok [.accepts [], .isAtomic [], .accepts left, .accepts whole, .isAtomic whole,
          .accepts [.property "u"], .isAtomic [.property "u"],
          .accepts [.property "u", .index 0], .accepts [.property "u", .index 1],
          .accepts [], .isAtomic [], .accepts [.property "u"], .isAtomic [.property "u"],
          .accepts [.property "u", .index 0], .isEqual (.int 1) (.int 2) [.property "u", .index 0],
          .accepts whole, .isAtomic whole,
          .isEqual (.list [.tuple []]) (.set []) whole] := by
      cbv
    obtain rfl := Except.ok.inj (traced.symm.trans expected)
    rw [← paths]
    rfl
  · let same (p : Path) (v w : Value) : Prop := v = w ∨ p = whole
    have always : ∀ a b, cfg.equates a b whole = true := fun a b => Bool.or_true _
    have compared : ∀ p a b a' b', same p a a' → same p b b' →
        cfg.equates a b p = cfg.equates a' b' p := by
      rintro p a b a' b' (rfl | hp) (rfl | hp')
      · rfl
      all_goals rw [‹p = whole›, always, always]
    have reflexive : ∀ p v, same p v v := fun _ _ => .inl rfl
    have entered : ∀ x y, cfg.enters Path.root (tree x y) = true := fun _ _ => rfl
    have old : cfg.SeesAlike same Path.root before (tree x y) := by
      refine .container (entered _ _) (entered _ _) rfl fun c v w hv hw => ?_
      simp only [before, tree, Value.steps, Value.entrySteps, List.mem_cons, Prod.mk.injEq,
        List.not_mem_nil, or_false] at hv hw
      rcases hv with ⟨rfl, rfl⟩ | ⟨rfl, rfl⟩ | ⟨rfl, rfl⟩
      · exact .rejected rfl rfl
      · exact .leaf rfl rfl (Bool.or_true _) (Bool.or_true _) (.inr rfl)
      · obtain rfl : w = .list [.int 1, .missing] := by simpa using hw
        exact .refl reflexive (by decide)
    have outcome := unseen same reflexive compared (tree x y) after old (.refl reflexive ha)
    rw [now] at outcome
    cases hr : changeset cfg (tree x y) after with
    | error fault =>
        rw [hr] at outcome
        cases outcome
    | ok changes' =>
        rw [hr] at outcome
        obtain _ | found := outcome
        change List.Forall₂ _ [_, _] _ at found
        obtain _ | ⟨first, _ | ⟨second, _ | _⟩⟩ := found
        rw [← first.eq fun v w h => h.resolve_right (by decide),
          ← second.eq fun v w h => h.resolve_right (by decide)]

end Diff

end TreeDelta
