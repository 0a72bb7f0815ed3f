import TreeDelta.Proofs.Outcome
import TreeDelta.Version

/-!
# Questions to a version

A version keeps what it has computed, and its old values are collected from the changes that it
keeps. So questions may depend on each other: each leads to an answer and to another version
(`Version.answer`). Without a previous tree only paths are kept, and without a changeset nothing is.
Otherwise a version goes through two phases, with the changes of the diff at first, and with those
that are left after the old values were collected from then on (`Version.Reached`). Only the answer
about the changes can tell the phases apart (`Version.Reached.answer`).

## Main definitions

* `Read`, `Answer`, `Version.answer`, `Version.after`: questions, answers, and the version after
  questions.
* `Version.IsFresh`: a version that nothing was asked.
* `Version.Outcome`: what the first questions lead to.

## Main results

* `Version.Alone.answer`: a version without a previous tree.
* `Version.answer_of_unsupported`: a version without a changeset.
* `Version.Reached.answer`: a version that was compared.
-/

namespace TreeDelta

/-! ### Questions and answers -/

/-- A question to a version. An answer may be computed at the first question and kept for the later
ones, so the order of questions could matter. -/
inductive Read where
  /-- What has changed. -/
  | changes
  /-- The paths of the changes. -/
  | changedPaths
  /-- The paths of the changes, or all paths without a previous tree. -/
  | paths
  /-- The tree of old values. -/
  | oldValues
  /-- Whether one of some patterns touches the version. -/
  | touches (patterns : List Pattern)
  /-- The version as a value. -/
  | toValue

/-- An answer to a question, in the form in which it can be compared to another one. -/
inductive Answer where
  /-- Changes, if there is a previous tree. -/
  | changes (changes? : Option (List Change))
  /-- Paths, if there are any to speak of. -/
  | paths (paths? : Option (List Path))
  /-- A tree of old values, if there is one. -/
  | oldValues (values? : Option Value)
  /-- A truth value. -/
  | truth (b : Bool)
  /-- A value. -/
  | value (v : Value)
  /-- No answer. -/
  | fault (fault : VersionFault)

namespace Version

/-- The answer of a computation that leaves the version as it is when it fails. It is then tried
anew at the next question. -/
def told {α : Type} (v : Version) (answer : α → Answer) :
    Except Diff.Unsupported (α × Version) → Answer × Version
  | .ok (a, w) => (answer a, w)
  | .error fault => (.fault (.diff fault), v)

/-- The answer of a computation that may change the version although it fails: the changes were
found before the old values could not be collected. -/
def toldAnyway {α : Type} (answer : α → Answer) : Except VersionFault α × Version → Answer × Version
  | (.ok a, w) => (answer a, w)
  | (.error fault, w) => (.fault fault, w)

/-- The answer to a question, and the version after it, which may have computed more than the answer
shows. -/
def answer (v : Version) : Read → Answer × Version
  | .changes =>
    if v.hasPrevious then
      v.told (fun ks => .changes (some (ks.map KeptChange.toChange))) v.readChanges
    else (.changes none, v)
  | .changedPaths => v.told .paths v.readChangedPaths
  | .paths => v.told (fun ps => .paths (some ps)) v.readPaths
  | .oldValues => toldAnyway .oldValues v.readOldValues
  | .touches patterns => v.told .truth (v.touches patterns)
  | .toValue => toldAnyway .value v.toValue

/-- The version after some questions, the first of them first. -/
def after (v : Version) (rs : List Read) : Version := rs.foldl (fun w r => (w.answer r).2) v

/-- A version that nothing was computed about, as it is when it was just made. -/
structure IsFresh (v : Version) : Prop where
  /-- The changes were not asked for. -/
  changes : v.changes? = none
  /-- The paths were not asked for. -/
  paths : v.paths? = none
  /-- The old values were not asked for. -/
  oldValues : v.oldValues? = none

/-- What holds of a version and is kept by every question holds after some questions. By induction
on the questions. -/
theorem after_invariant {holds : Version → Prop} {v : Version} (start : holds v)
    (step : ∀ w r, holds w → holds (w.answer r).2) (rs : List Read) : holds (v.after rs) := by
  induction rs generalizing v with
  | nil => exact start
  | cons r rs ih => exact ih (step v r start)

/-! ### Without a previous tree -/

/-- What a version without a previous tree answers. There are no changes to speak of, and its paths
are all paths of the current tree. -/
def answerAlone (v : Version) : Read → Answer
  | .changes => .changes none
  | .changedPaths => .paths none
  | .paths =>
    match Diff.allPaths v.config v.current with
    | .ok ps => .paths (some ps)
    | .error fault => .fault (.diff fault)
  | .oldValues => .oldValues none
  | .touches patterns => .truth (patterns.any fun m => (m.searchFirst? v.current).isSome)
  | .toValue =>
    .value (.ofFields [("current", v.current), ("changed_paths", .null), ("previous", .null)])

/-- A version after some questions, without a previous tree: only the paths may be computed. -/
structure Alone (v w : Version) : Prop where
  /-- The current tree is the same. -/
  current : w.current = v.current
  /-- The options are the same. -/
  config : w.config = v.config
  /-- There is no previous tree. -/
  hasPrevious : w.hasPrevious = false
  /-- The paths that were computed are all paths. -/
  paths : ∀ ps, w.paths? = some ps → Diff.allPaths v.config v.current = .ok ps

/-- **Without a previous tree** the answers do not depend on what was asked before. -/
theorem Alone.answer {v w : Version} (h : Alone v w) (r : Read) :
    (w.answer r).1 = v.answerAlone r ∧ Alone v (w.answer r).2 := by
  have alone : w.readChangedPaths = .ok (none, w) := by
    rw [readChangedPaths, h.hasPrevious]
    rfl
  have no_values : w.readOldValues = (.ok none, w) := by
    rw [readOldValues, h.hasPrevious]
    rfl
  cases r with
  | changes =>
      rw [Version.answer, h.hasPrevious]
      exact ⟨rfl, h⟩
  | changedPaths =>
      rw [Version.answer, alone]
      exact ⟨rfl, h⟩
  | paths =>
      rw [Version.answer, answerAlone]
      cases hp : w.paths? with
      | some ps =>
          have listed : w.readPaths = .ok (ps, w) := by rw [readPaths, hp]
          rw [listed, h.paths ps hp]
          exact ⟨rfl, h⟩
      | none =>
          have listed : w.readPaths = (Diff.allPaths v.config v.current).map
              fun ps => (ps, { w with paths? := some ps }) := by
            rw [readPaths, hp, alone, ← h.config, ← h.current]
            rfl
          rw [listed]
          cases ha : Diff.allPaths v.config v.current with
          | error fault => exact ⟨rfl, h⟩
          | ok ps =>
              have kept : Alone v { w with paths? := some ps } :=
                ⟨h.current, h.config, h.hasPrevious, fun qs hq => by
                  rw [ha, ← Option.some.inj hq]⟩
              exact ⟨rfl, kept⟩
  | oldValues =>
      rw [Version.answer, no_values]
      exact ⟨rfl, h⟩
  | touches patterns =>
      rw [Version.answer, touches, h.hasPrevious, answerAlone, ← h.current]
      exact ⟨rfl, h⟩
  | toValue =>
      rw [Version.answer, toValue, alone]
      simp only [no_values, answerAlone, ← h.current]
      exact ⟨rfl, h⟩

/-! ### Trees that a diff does not support -/

/-- **Without a changeset** no question changes the version. -/
theorem answer_of_unsupported {v : Version} (fresh : v.IsFresh) (hp : v.hasPrevious = true)
    {fault : Diff.Unsupported}
    (h : Diff.changeset v.config v.previous v.current = .error fault) (r : Read) :
    (v.answer r).2 = v := by
  have no_changes : v.readChanges = .error fault := by
    rw [readChanges, fresh.changes, h]
    rfl
  have no_paths : v.readChangedPaths = .error fault := by
    rw [readChangedPaths, hp, no_changes]
    rfl
  cases r with
  | changes =>
      rw [answer, hp, no_changes]
      rfl
  | changedPaths =>
      rw [answer, no_paths]
      rfl
  | paths =>
      rw [answer, readPaths, fresh.paths, no_paths]
      rfl
  | oldValues =>
      rw [answer, readOldValues, fresh.oldValues, no_changes]
      cases !v.hasPrevious || v.oldPatterns.isEmpty <;> rfl
  | touches patterns =>
      rw [answer, touches, hp, no_changes]
      rfl
  | toValue =>
      rw [answer, toValue, no_paths]
      rfl

/-! ### Versions that were compared -/

/-- The changes between the trees, as they are kept at first: with the old values that stand in the
previous tree shared with it. -/
def compare (v : Version) : Except Diff.Unsupported (List KeptChange) :=
  (Diff.changeset v.config v.previous v.current).map
    (List.map (KeptChange.ofChange v.config v.previous v.current))

/-- The paths of the changes whose old values are collected, the root among them. They are in the
order of the changes. -/
def oldPaths (v : Version) (ks : List KeptChange) : List Path :=
  (ks.map KeptChange.path).filter fun p => v.oldPatterns.any fun m => m.accepts p

/-- Old values were not collected yet, and changes that were computed are those of the diff. -/
structure Waiting (v : Version) (ks : List KeptChange) (w : Version) : Prop where
  /-- The previous tree is the same. -/
  previous : w.previous = v.previous
  /-- The old values were not collected. -/
  oldValues : w.oldValues? = none
  /-- The changes are those of the diff. -/
  changes : ∀ l, w.changes? = some l → l = ks

/-- A version after some questions: the changes are `ks` until the old values are collected, and
`ks'` from then on, when there is the tree `values?` of old values. -/
structure Reached (v : Version) (ks ks' : List KeptChange) (values? : Option Value) (w : Version) :
    Prop where
  /-- The current tree is the same. -/
  current : w.current = v.current
  /-- The options are the same. -/
  config : w.config = v.config
  /-- The patterns are the same. -/
  patterns : w.oldPatterns = v.oldPatterns
  /-- There is a previous tree. -/
  hasPrevious : w.hasPrevious = true
  /-- The paths that were computed are those of the changes. -/
  paths : ∀ ps, w.paths? = some ps → ps = ks.map KeptChange.path
  /-- The old values were collected or not. -/
  phase : Waiting v ks w ∨
    w.changes? = some ks' ∧ w.oldValues? = some values? ∧ v.oldPatterns.isEmpty = false

/-- What the first questions for the changes and for the old values of a version lead to. -/
structure Outcome (v : Version) (ks ks' : List KeptChange) (values? : Option Value) : Prop where
  /-- The changes are those of the diff. -/
  compared : v.compare = .ok ks
  /-- Collecting the old values keeps the paths. -/
  paths : ks'.map KeptChange.path = ks.map KeptChange.path
  /-- The old values can be collected, and lead to the changes `ks'`. -/
  collects : ∀ w, Reached v ks ks' values? w → Waiting v ks w →
    ∃ w', w.readOldValues = (.ok values?, w') ∧ Reached v ks ks' values? w' ∧
      ∃ w'', w'.readChanges = .ok (ks', w'')

section Compared

variable {v w : Version} {ks ks' : List KeptChange} {values? : Option Value}

/-- Before the old values are collected, the changes are those of the diff, and computing them keeps
the version where it is. -/
theorem Reached.readChanges_of_waiting (h : Reached v ks ks' values? w) (waiting : Waiting v ks w)
    (compared : v.compare = .ok ks) :
    w.readChanges = .ok (ks, { w with changes? := some ks }) := by
  rw [Version.readChanges]
  cases hc : w.changes? with
  | some l =>
      obtain rfl := waiting.changes l hc
      have same : { w with changes? := some l } = w := by rw [← hc]
      rw [same]
  | none =>
      obtain ⟨changes, hchanges, rfl⟩ := map_eq_ok_iff.mp compared
      rw [h.config, h.current, waiting.previous, hchanges]
      rfl

/-- A version whose changes are computed is waiting as before, since these are the changes of the
diff. -/
theorem Waiting.compare (waiting : Waiting v ks w) :
    Waiting v ks { w with changes? := some ks } :=
  ⟨waiting.previous, waiting.oldValues, fun _ hl => (Option.some.inj hl).symm⟩

/-- Where the patterns match no change, there are no old values. The question is still answered, and
computes the changes. -/
theorem Reached.readOldValues_of_unmatched (h : Reached v ks ks' values? w)
    (waiting : Waiting v ks w) (compared : v.compare = .ok ks)
    (nonempty : v.oldPatterns.isEmpty = false) (unmatched : v.oldPaths ks = []) :
    w.readOldValues = (.ok none, { w with changes? := some ks, oldValues? := some none }) := by
  rw [oldPaths] at unmatched
  rw [Version.readOldValues, h.hasPrevious, h.patterns, nonempty, waiting.oldValues,
    h.readChanges_of_waiting waiting compared]
  simp only [h.patterns, unmatched, List.isEmpty_nil, Bool.not_true, Bool.or_false,
    Bool.false_eq_true, if_false, if_true]

/-- Where the patterns match a change, the old values of the changes that they match are written one
after the other. -/
theorem Reached.readOldValues_of_addAll {c : Collection} (h : Reached v ks ks' values? w)
    (waiting : Waiting v ks w) (compared : v.compare = .ok ks)
    (nonempty : v.oldPatterns.isEmpty = false) (matched : v.oldPaths ks ≠ [])
    (all : Collection.addAll ⟨v.emptyOldValues, ks, v.previous⟩ (v.oldPaths ks) = (c, none)) :
    w.readOldValues = (.ok (some c.values),
      { w with previous := c.previous, changes? := some c.changes,
               oldValues? := some (some c.values) }) := by
  have some_path : ¬(v.oldPaths ks).isEmpty = true := fun he => matched (List.isEmpty_iff.mp he)
  rw [oldPaths] at all some_path
  rw [emptyOldValues] at all
  rw [Version.readOldValues, h.hasPrevious, h.patterns, nonempty, waiting.oldValues,
    h.readChanges_of_waiting waiting compared]
  simp only [emptyOldValues, h.patterns, waiting.previous, Bool.not_true, Bool.or_false,
    Bool.false_eq_true, if_false, if_neg some_path, all]

/-- The changes of a version after some questions, which are always at the same paths. Which of the
two lists they are depends on whether the old values were collected. -/
theorem Reached.readChanges (h : Reached v ks ks' values? w) (o : Outcome v ks ks' values?) :
    ∃ l w', w.readChanges = .ok (l, w') ∧ (l = ks ∨ l = ks') ∧
      l.map KeptChange.path = ks.map KeptChange.path ∧ Reached v ks ks' values? w' := by
  rcases h.phase with waiting | ⟨collected, -, -⟩
  · exact ⟨ks, _, h.readChanges_of_waiting waiting o.compared, .inl rfl, rfl, h.current, h.config,
      h.patterns, h.hasPrevious, h.paths, .inl waiting.compare⟩
  · exact ⟨ks', w, by rw [Version.readChanges, collected], .inr rfl, o.paths, h⟩

/-- The old values of a version after some questions are the same at all times, as they are
collected once. -/
theorem Reached.readOldValues (h : Reached v ks ks' values? w) (o : Outcome v ks ks' values?) :
    ∃ w', w.readOldValues = (.ok values?, w') ∧ Reached v ks ks' values? w' := by
  rcases h.phase with waiting | ⟨-, collected, nonempty⟩
  · obtain ⟨w', hw', reached, -⟩ := o.collects w h waiting
    exact ⟨w', hw', reached⟩
  · refine ⟨w, ?_, h⟩
    rw [Version.readOldValues, h.hasPrevious, h.patterns, nonempty, collected]
    rfl

/-- The changed paths of a version after some questions, which do not depend on what became of the
old values. -/
theorem Reached.readChangedPaths (h : Reached v ks ks' values? w) (o : Outcome v ks ks' values?) :
    ∃ w', w.readChangedPaths = .ok (some (ks.map KeptChange.path), w') ∧
      Reached v ks ks' values? w' := by
  obtain ⟨l, w', read, -, paths, reached⟩ := h.readChanges o
  refine ⟨w', ?_, reached⟩
  rw [Version.readChangedPaths, h.hasPrevious, read, ← paths]
  rfl

/-- What a version that was compared answers, as long as the old values were not collected. All of
it is said in terms of the changes of the diff. -/
def answerCompared (v : Version) (ks : List KeptChange) (values? : Option Value) : Read → Answer
  | .changes => .changes (some (ks.map KeptChange.toChange))
  | .changedPaths => .paths (some (ks.map KeptChange.path))
  | .paths => .paths (some (ks.map KeptChange.path))
  | .oldValues => .oldValues values?
  | .touches patterns =>
    .truth (patterns.any fun m => (ks.map KeptChange.path).any fun p => m.covers p)
  | .toValue =>
    .value (.ofFields [("current", v.current),
      ("changed_paths", .list ((ks.map KeptChange.path).map fun p => .str p.render)),
      ("previous", values?.getD .null)])

/-- **Only the answer about the changes** depends on what was asked before: it lists the changes of
the diff, or those changes after the old values were collected. -/
theorem Reached.answer (h : Reached v ks ks' values? w) (o : Outcome v ks ks' values?) (r : Read) :
    ((w.answer r).1 = v.answerCompared ks values? r ∨
      r = .changes ∧ (w.answer r).1 = .changes (some (ks'.map KeptChange.toChange))) ∧
    Reached v ks ks' values? (w.answer r).2 := by
  cases r with
  | changes =>
      obtain ⟨l, w', read, kept, -, reached⟩ := h.readChanges o
      rw [Version.answer, h.hasPrevious, read]
      refine ⟨?_, reached⟩
      rcases kept with rfl | rfl
      · exact .inl rfl
      · exact .inr ⟨rfl, rfl⟩
  | changedPaths =>
      obtain ⟨w', read, reached⟩ := h.readChangedPaths o
      rw [Version.answer, read]
      exact ⟨.inl rfl, reached⟩
  | paths =>
      rw [Version.answer]
      cases hp : w.paths? with
      | some ps =>
          have listed : w.readPaths = .ok (ps, w) := by rw [readPaths, hp]
          rw [listed, h.paths ps hp]
          exact ⟨.inl rfl, h⟩
      | none =>
          obtain ⟨w', read, reached⟩ := h.readChangedPaths o
          have listed : w.readPaths = .ok (ks.map KeptChange.path,
              { w' with paths? := some (ks.map KeptChange.path) }) := by
            rw [readPaths, hp, read]
            rfl
          have kept : Reached v ks ks' values?
              { w' with paths? := some (ks.map KeptChange.path) } :=
            ⟨reached.current, reached.config, reached.patterns, reached.hasPrevious,
              fun ps hps => (Option.some.inj hps).symm,
              reached.phase.imp_left fun waiting =>
                ⟨waiting.previous, waiting.oldValues, waiting.changes⟩⟩
          rw [listed]
          exact ⟨.inl rfl, kept⟩
  | oldValues =>
      obtain ⟨w', read, reached⟩ := h.readOldValues o
      rw [Version.answer, read]
      exact ⟨.inl rfl, reached⟩
  | touches patterns =>
      obtain ⟨l, w', read, -, paths, reached⟩ := h.readChanges o
      rw [Version.answer, touches, h.hasPrevious, read, answerCompared, ← paths]
      simp only [List.any_map]
      exact ⟨.inl rfl, reached⟩
  | toValue =>
      obtain ⟨w', read, reached⟩ := h.readChangedPaths o
      obtain ⟨w'', values, reached'⟩ := reached.readOldValues o
      have told : w.toValue = (.ok (.ofFields [("current", w''.current),
          ("changed_paths", .list ((ks.map KeptChange.path).map fun p => .str p.render)),
          ("previous", values?.getD .null)]), w'') := by
        rw [toValue, read]
        simp only [values]
        rfl
      rw [Version.answer, told, reached'.current]
      exact ⟨.inl rfl, reached'⟩

/-! ### Versions that nothing was asked -/

/-- A version that nothing was asked waits for its old values, whatever the changes will be. -/
theorem IsFresh.waiting (fresh : v.IsFresh) : Waiting v ks v :=
  ⟨rfl, fresh.oldValues, fun _ hl => absurd (fresh.changes.symm.trans hl) (by simp)⟩

/-- A version that nothing was asked is where questions start. The invariant holds of it because
nothing is computed yet. -/
theorem IsFresh.reached (fresh : v.IsFresh) (hp : v.hasPrevious = true) :
    Reached v ks ks' values? v :=
  ⟨rfl, rfl, rfl, hp, fun _ hps => absurd (fresh.paths.symm.trans hps) (by simp),
    .inl fresh.waiting⟩

/-- The first answers are those of a version that was compared, since no question came before
them. -/
theorem IsFresh.answer (fresh : v.IsFresh) (hp : v.hasPrevious = true)
    (o : Outcome v ks ks' values?) (r : Read) : (v.answer r).1 = v.answerCompared ks values? r := by
  have start : Reached v ks ks' values? v := fresh.reached hp
  rcases (start.answer o r).1 with same | ⟨rfl, -⟩
  · exact same
  · rw [Version.answer, hp, start.readChanges_of_waiting fresh.waiting o.compared]
    rfl

/-- Every question leads on, so the invariant holds after any questions. By induction on them,
through `Reached.answer`. -/
theorem IsFresh.after (fresh : v.IsFresh) (hp : v.hasPrevious = true)
    (o : Outcome v ks ks' values?) (rs : List Read) : Reached v ks ks' values? (v.after rs) :=
  after_invariant (fresh.reached hp) (fun _ r reached => (reached.answer o r).2) rs

/-- The answer about the changes, once the old values were collected, lists the changes that the
collection left. -/
theorem answer_after_oldValues (fresh : v.IsFresh) (hp : v.hasPrevious = true)
    (o : Outcome v ks ks' values?) :
    ((v.after [.oldValues]).answer .changes).1 = .changes (some (ks'.map KeptChange.toChange)) := by
  obtain ⟨w', collected, reached, w'', read⟩ := o.collects v (fresh.reached hp) fresh.waiting
  have next : v.after [.oldValues] = w' := by
    show (v.answer .oldValues).2 = w'
    rw [Version.answer, collected]
    rfl
  rw [next, Version.answer, reached.hasPrevious, read]
  rfl

end Compared

end Version

end TreeDelta
