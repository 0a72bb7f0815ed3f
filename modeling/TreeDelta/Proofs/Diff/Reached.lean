import TreeDelta.Diff.Changeset
import TreeDelta.Proofs.Diff.Leaf

/-!
# What a walk reaches

A walk starts at the root and goes on below a value that takes part, is not atomic, and is a list or
a dictionary (`Diff.Config.enters`). The nodes that it comes to are reached: every value above them
is entered. They are listed in the order of the whole tree, holes included (`Diff.Config.reached`).
A walk that ends has put its questions to exactly these nodes, one after the other: whether the
value takes part, and of a value that does and is no scalar, whether it is atomic
(`Diff.questions_of_walk`). A walk fails when it reaches a value that takes part and is neither
atomic nor a container with string keys, and only then (`Diff.not_exists_walk_iff`).

## Main definitions

* `Diff.Config.enters`, `Diff.Config.reaches`, `Diff.Config.reached`: where a walk goes.
* `Diff.Question.acceptsPath?`, `Diff.Question.atomicPath?`: what a question is about.

## Main results

* `Diff.mem_reached_iff`, `Diff.nodup_reached`: the nodes that are reached.
* `Diff.questions_of_walk`: the questions of one walk.
* `Diff.questions_of_changeset`: the questions of a diff.
* `Diff.changeset_fails_iff`: where a diff fails.
-/

namespace TreeDelta

namespace Diff

variable {cfg : Config} {p q : Path} {v w : Value}

/-! ### Where a walk goes -/

/-- Whether a walk goes on below the value at a path: it takes part, and is a container that is not
atomic. -/
def Config.enters (cfg : Config) (p : Path) (v : Value) : Bool :=
  cfg.accepts p v && !cfg.isLeaf p v && v.isContainer

/-- A walk goes on below containers that take part and are not atomic. -/
theorem enters_iff :
    cfg.enters p v = true ↔
      cfg.accepts p v = true ∧ cfg.isLeaf p v = false ∧ v.isContainer = true := by
  rw [Config.enters, Bool.and_eq_true, Bool.and_eq_true, Bool.not_eq_true', and_assoc]

/-- Whether a walk that comes to the value at `p` also comes to the place `q` below it. It follows
the path, not the walk. -/
def Config.reaches (cfg : Config) (p : Path) (v : Value) : Path → Bool
  | [] => true
  | c :: q => cfg.enters p v && (v.child? c).any fun w => cfg.reaches (p ++ [c]) w q

/-- The nodes of the tree at a path that a walk reaches, in pre-order, holes among them: a walk asks
about these, too. -/
def Config.reached (cfg : Config) (p : Path) (v : Value) : List Node :=
  v.sites.filter fun n => cfg.reaches p v n.path

/-- A place of a tree is reached when everything above it is entered. Whether the place itself is
entered does not matter. -/
theorem reaches_iff {x : Value} (found : q.find? v = some x) :
    cfg.reaches p v q = true ↔
      ∀ r : Path, r <+: q → r ≠ q → ∃ w, r.find? v = some w ∧ cfg.enters (p ++ r) w = true := by
  induction q generalizing p v with
  | nil => exact iff_of_true rfl fun r hr hne => absurd (List.prefix_nil.mp hr) hne
  | cons c q ih =>
      rw [Value.find?_cons, Option.bind_eq_some_iff] at found
      obtain ⟨w, hw, found⟩ := found
      rw [Config.reaches, hw, Option.any_some, Bool.and_eq_true, ih found]
      constructor
      · rintro ⟨entered, below⟩ r hr hne
        cases r with
        | nil => exact ⟨v, rfl, by rwa [List.append_nil]⟩
        | cons d r =>
            obtain ⟨rfl, shorter⟩ := List.cons_prefix_cons.mp hr
            obtain ⟨u, hu, entered⟩ := below r shorter fun he => hne (by rw [he])
            refine ⟨u, ?_, ?_⟩
            · rw [Value.find?_cons, hw]
              exact hu
            · rwa [List.append_assoc] at entered
      · intro above
        constructor
        · obtain ⟨u, hu, entered⟩ := above [] List.nil_prefix (by simp)
          obtain rfl : v = u := Option.some.inj hu
          rwa [List.append_nil] at entered
        · intro r hr hne
          obtain ⟨u, hu, entered⟩ := above (c :: r) (List.cons_prefix_cons.mpr ⟨rfl, hr⟩)
            fun he => hne (List.cons.inj he).2
          rw [Value.find?_cons, hw] at hu
          refine ⟨u, hu, ?_⟩
          rwa [List.append_assoc]

/-- **The nodes that are reached** are the places of the tree above which everything is entered. -/
theorem mem_reached_iff (keyed : v.WellKeyed) :
    ⟨q, w⟩ ∈ cfg.reached p v ↔
      q.find? v = some w ∧
        ∀ r : Path, r <+: q → r ≠ q → ∃ u, r.find? v = some u ∧ cfg.enters (p ++ r) u = true := by
  rw [Config.reached, List.mem_filter, Value.mem_sites_iff keyed]
  exact and_congr_right fun found => reaches_iff found

/-- No two nodes that are reached are at one path. -/
theorem nodup_reached (keyed : v.WellKeyed) : ((cfg.reached p v).map Node.path).Nodup :=
  (List.filter_sublist.map Node.path).nodup (Value.nodup_sites keyed)

/-- The nodes that are reached: the root, and if it is entered, those that are reached below its
steps. -/
theorem reached_eq (keyed : v.WellKeyed) :
    cfg.reached p v = ⟨[], v⟩ ::
      if cfg.enters p v then
        v.steps.flatMap fun s => (cfg.reached (p ++ [s.1]) s.2).map (Node.under s.1)
      else [] := by
  rw [Config.reached, Value.sites_eq, List.filter_cons_of_pos rfl]
  congr 1
  rw [List.filter_flatMap]
  cases entered : cfg.enters p v with
  | false =>
      refine List.flatMap_eq_nil_iff.mpr fun s _ => List.filter_eq_nil_iff.mpr fun n hn => ?_
      obtain ⟨m, -, rfl⟩ := List.mem_map.mp hn
      rw [Node.under, Config.reaches, entered]
      simp
  | true =>
      rw [if_pos rfl]
      refine List.flatMap_congr fun s hs => ?_
      have child := (Value.child?_eq_some_iff keyed.hasUniqueKeys).mpr hs
      rw [List.filter_map]
      refine congrArg (List.map _) (List.filter_congr fun n _ => ?_)
      rw [Function.comp_apply, Node.under, Config.reaches, entered, child]
      rfl

/-! ### The questions of a walk -/

/-- The path that a question is about, if it asks whether a value takes part. -/
def Question.acceptsPath? : Question → Option Path
  | accepts p => some p
  | _ => none

/-- The path that a question is about, if it asks whether a value is atomic. -/
def Question.atomicPath? : Question → Option Path
  | isAtomic p => some p
  | _ => none

/-- The questions about one value: whether it takes part, and if so, whether it is atomic. Nothing
is asked about a value that is not reached. -/
def Config.questionsAt (cfg : Config) (p : Path) (v : Value) : List Question :=
  .accepts p ::
    if cfg.accepts p v then (atomicSteps cfg p v).filterMap Step.question? else []

/-- The leaf of a container itself is no question. -/
theorem question?_containerLeaf (cfg : Config) (p : Path) (k : Kind) :
    (containerLeaf cfg p k).filterMap Step.question? = [] := by
  rw [containerLeaf]
  split <;> rfl

/-- **A walk that ends has put its questions** to the nodes that it reaches, in their order. By
induction over the steps of the tree. -/
theorem questions_of_walk (keyed : v.WellKeyed) {ss : List Step} (h : walk cfg p v = .ok ss) :
    ss.filterMap Step.question? =
      (cfg.reached p v).flatMap fun n => cfg.questionsAt (p ++ n.path) n.value := by
  induction v using Value.stepInduction generalizing p ss with
  | step v ih =>
      rw [reached_eq keyed, List.flatMap_cons, List.append_nil, Config.questionsAt, Config.enters]
      cases ha : cfg.accepts p v with
      | false =>
          obtain rfl := Except.ok.inj ((walk_rejected ha).symm.trans h)
          rfl
      | true =>
          cases hl : cfg.isLeaf p v with
          | true =>
              obtain rfl := Except.ok.inj ((walk_leaf ha hl).symm.trans h)
              simp [Step.question?]
          | false =>
              cases hk : v.kind? with
              | none => exact absurd (h.symm.trans (walk_unsupported ha hl hk)) (by simp)
              | some k =>
                  rw [walk_container ha hl hk] at h
                  obtain ⟨rest, hb, rfl⟩ := map_eq_ok_iff.mp h
                  have container : v.isContainer = true := by rw [Value.isContainer, hk]; rfl
                  have asked : atomicSteps cfg p v = (askAtomic cfg p v).1 := by
                    rw [atomicSteps, if_neg]
                    intro scalar
                    exact absurd (hk.symm.trans (Value.kind?_of_isPrimitive scalar)) (by simp)
                  have below := filterMap_walkBelow
                    (fun c w hs q ss => ih c w hs (keyed.step hs)) hb
                  rw [List.filterMap_append, List.filterMap_append, question?_containerLeaf, below,
                    container, asked, List.append_nil, if_pos rfl]
                  simp only [Bool.not_false, Bool.and_self, if_true, List.flatMap_assoc,
                    List.flatMap_map, Node.under, List.append_assoc]
                  rfl

/-- One question about a value asks whether it takes part. -/
theorem acceptsPath_questionsAt (cfg : Config) (p : Path) (v : Value) :
    (cfg.questionsAt p v).filterMap Question.acceptsPath? = [p] := by
  rw [Config.questionsAt, atomicSteps, askAtomic]
  cases cfg.accepts p v <;> cases v.isPrimitive <;> cases cfg.isAtomic? <;> rfl

/-- A value is asked about whether it is atomic when it takes part and is no scalar, and there is
somebody to ask. -/
theorem atomicPath_questionsAt (cfg : Config) (p : Path) (v : Value) :
    (cfg.questionsAt p v).filterMap Question.atomicPath? =
      if cfg.isAtomic?.isSome && (cfg.accepts p v && !v.isPrimitive) then [p] else [] := by
  rw [Config.questionsAt, atomicSteps, askAtomic]
  cases cfg.accepts p v <;> cases v.isPrimitive <;> cases cfg.isAtomic? <;> rfl

/-! ### The questions of a diff -/

/-- The comparison of leaves adds questions of its own only, so the other questions are those of the
walks. -/
theorem filterMap_stepQuestions {sel : Question → Option Path}
    (other : ∀ a b q, sel (.isEqual a b q) = none) (old : List Leaf) (ss : List Step) :
    (ss.flatMap (stepQuestions cfg old)).filterMap sel =
      (ss.filterMap Step.question?).filterMap sel := by
  induction ss with
  | nil => rfl
  | cons s ss ih =>
      rw [List.flatMap_cons, List.filterMap_append, ih]
      cases s with
      | asked q =>
          rw [List.filterMap_cons_some (f := Step.question?) rfl, stepQuestions,
            List.filterMap_cons, List.filterMap_cons]
          cases sel q <;> rfl
      | found leaf =>
          have nothing : (compareQuestion cfg old leaf).filterMap sel = [] := by
            rw [compareQuestion]
            split
            · split
              · rfl
              · rw [List.filterMap_cons_none (other _ _ _)]
                rfl
            · rfl
          rw [List.filterMap_cons_none (f := Step.question?) rfl, stepQuestions, nothing]
          rfl

/-- Whether a value takes part is asked at all nodes that are reached. -/
theorem acceptsPath_of_walk (keyed : v.WellKeyed) {ss : List Step}
    (h : walk cfg Path.root v = .ok ss) :
    (ss.filterMap Step.question?).filterMap Question.acceptsPath? =
      (cfg.reached Path.root v).map Node.path := by
  rw [questions_of_walk keyed h, List.filterMap_flatMap]
  simp only [acceptsPath_questionsAt]
  exact List.map_eq_flatMap.symm

/-- Listing something for some members is listing it for those that are kept. -/
theorem flatMap_ite_singleton {α β : Type} (c : α → Bool) (f : α → β) (as : List α) :
    (as.flatMap fun a => if c a then [f a] else []) = (as.filter c).map f := by
  induction as with
  | nil => rfl
  | cons a as ih =>
      rw [List.flatMap_cons, ih, List.filter_cons]
      split <;> rfl

/-- Whether a value is atomic is asked at the nodes that are reached, take part and are no
scalars. -/
theorem atomicPath_of_walk (keyed : v.WellKeyed) {ss : List Step}
    (h : walk cfg Path.root v = .ok ss) :
    (ss.filterMap Step.question?).filterMap Question.atomicPath? =
      if cfg.isAtomic?.isSome then
        ((cfg.reached Path.root v).filter fun n =>
          cfg.accepts n.path n.value && !n.value.isPrimitive).map Node.path
      else [] := by
  rw [questions_of_walk keyed h, List.filterMap_flatMap]
  simp only [atomicPath_questionsAt]
  cases cfg.isAtomic?.isSome with
  | false => exact List.flatMap_eq_nil_iff.mpr fun _ _ => rfl
  | true => exact flatMap_ite_singleton _ _ _

/-- **The questions of a diff** that gives a result: whether a value takes part is asked at all
nodes that are reached, those of the old tree first, and whether it is atomic at those of them that
take part and are no scalars. -/
theorem questions_of_changeset {before after : Value} (hb : before.WellKeyed)
    (ha : after.WellKeyed) {changes : List Change}
    (h : changeset cfg before after = .ok changes) :
    ∃ qs, trace cfg before after = .ok qs ∧
      qs.filterMap Question.acceptsPath? =
        (cfg.reached Path.root before ++ cfg.reached Path.root after).map Node.path ∧
      qs.filterMap Question.atomicPath? =
        if cfg.isAtomic?.isSome then
          ((cfg.reached Path.root before ++ cfg.reached Path.root after).filter fun n =>
            cfg.accepts n.path n.value && !n.value.isPrimitive).map Node.path
        else [] := by
  obtain ⟨table, htable, -⟩ := map_eq_ok_iff.mp h
  obtain ⟨old, hold, htable⟩ := bind_eq_ok_iff.mp htable
  obtain ⟨new, hnew, -⟩ := bind_eq_ok_iff.mp htable
  obtain ⟨ss, hss, -⟩ := map_eq_ok_iff.mp hold
  obtain ⟨ts, hts, -⟩ := map_eq_ok_iff.mp hnew
  refine ⟨_, by rw [trace, hss, hts]; rfl, ?_, ?_⟩
  · rw [List.filterMap_append, filterMap_stepQuestions fun _ _ _ => rfl,
      acceptsPath_of_walk hb hss, acceptsPath_of_walk ha hts, List.map_append]
  · rw [List.filterMap_append, filterMap_stepQuestions fun _ _ _ => rfl,
      atomicPath_of_walk hb hss, atomicPath_of_walk ha hts]
    split
    · rw [List.filter_append, List.map_append]
    · rfl

/-! ### Where a diff fails -/

/-- Whether a walk cannot go on at the value at a path: it takes part and is not atomic, and it is
no container or has a key that is no string. What is left out or atomic never obstructs. -/
def Config.obstructs (cfg : Config) (p : Path) (v : Value) : Bool :=
  cfg.accepts p v && !cfg.isLeaf p v && !(v.isContainer && hasStringKeys v)

/-- **A walk fails** when it reaches a value at which it cannot go on, and only then. -/
theorem not_exists_walk_iff (keyed : v.WellKeyed) :
    (¬∃ ss, walk cfg p v = .ok ss) ↔
      ∃ n ∈ cfg.reached p v, cfg.obstructs (p ++ n.path) n.value = true := by
  induction v using Value.stepInduction generalizing p with
  | step v ih =>
      rw [exists_walk_iff, reached_eq keyed, List.exists_mem_cons_iff, List.append_nil,
        Config.enters, Config.obstructs]
      cases ha : cfg.accepts p v with
      | false => simp
      | true =>
          cases hl : cfg.isLeaf p v with
          | true => simp
          | false =>
              cases hc : v.isContainer with
              | false => simp
              | true =>
                  cases hs : hasStringKeys v with
                  | false => simp
                  | true =>
                      -- the root is no obstacle, so one is further down
                      simp only [Bool.true_eq_false, Bool.false_eq_true, false_or, true_and,
                        Bool.and_self, Bool.not_true, Bool.and_false, Bool.not_false, if_true,
                        not_forall]
                      constructor
                      · rintro ⟨c, w, hs, stuck⟩
                        obtain ⟨n, hn, obstacle⟩ := (ih c w hs (keyed.step hs)).mp stuck
                        refine ⟨n.under c, List.mem_flatMap.mpr
                          ⟨(c, w), hs, List.mem_map_of_mem hn⟩, ?_⟩
                        rwa [List.append_assoc] at obstacle
                      · rintro ⟨n, hn, obstacle⟩
                        obtain ⟨⟨c, w⟩, hs, hn⟩ := List.mem_flatMap.mp hn
                        obtain ⟨m, hm, rfl⟩ := List.mem_map.mp hn
                        refine ⟨c, w, hs, (ih c w hs (keyed.step hs)).mpr ⟨m, hm, ?_⟩⟩
                        rwa [List.append_assoc]

/-- The leaves of two trees are found before they are compared. -/
theorem changeset_eq_bind (cfg : Config) (before after : Value) :
    changeset cfg before after =
      leaves cfg before >>= fun old => (leaves cfg after).map (changesOf cfg old) := by
  rw [changeset, changeTable]
  cases leaves cfg before with
  | error fault => rfl
  | ok old => cases leaves cfg after <;> rfl

/-- **A diff fails** when in one of the trees it reaches a value at which it cannot go on. Comparing
leaves never fails. -/
theorem changeset_fails_iff {before after : Value} (hb : before.WellKeyed)
    (ha : after.WellKeyed) :
    (∃ fault, changeset cfg before after = .error fault) ↔
      ∃ n ∈ cfg.reached Path.root before ++ cfg.reached Path.root after,
        cfg.obstructs n.path n.value = true := by
  have stuck : (∃ fault, changeset cfg before after = .error fault) ↔
      (¬∃ ss, walk cfg Path.root before = .ok ss) ∨ ¬∃ ss, walk cfg Path.root after = .ok ss := by
    rw [changeset_eq_bind, leaves, leaves]
    cases walk cfg Path.root before with
    | error fault => exact iff_of_true ⟨fault, rfl⟩ (.inl (by simp))
    | ok ss =>
        cases walk cfg Path.root after with
        | error fault => exact iff_of_true ⟨fault, rfl⟩ (.inr (by simp))
        | ok ts => exact iff_of_false (by simp [bind, Except.bind, Except.map]) (by simp)
  rw [stuck, not_exists_walk_iff hb, not_exists_walk_iff ha]
  simp only [List.mem_append, or_and_right, exists_or]
  rfl

end Diff

end TreeDelta
