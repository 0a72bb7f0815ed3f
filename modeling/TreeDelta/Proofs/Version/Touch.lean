import TreeDelta.Proofs.Diff.View
import TreeDelta.Proofs.Pattern.Cover
import TreeDelta.Proofs.Tree.Search
import TreeDelta.Version

/-!
# Patterns that touch a version

A pattern touches a version when it covers a changed path. The changed paths at or below a place are
the differences between the two subtrees there (`Diff.rel_find?_iff`), so this means that the
pattern does not find the same in the previous and in the current tree: under some canonical text it
finds a subtree in one of them only, or subtrees that are not alike (`Version.touches_iff`).

## Main definitions

* `Pattern.foundAt?`: the subtree that a pattern finds under a canonical text.

## Main results

* `Diff.rel_find?_iff`: subtrees at a path are alike when trees look alike at and below it.
* `Version.touches_iff`: a pattern touches a version when what it finds has changed.
-/

namespace TreeDelta

open Diff (sameView)
open Value (Alike missing)

/-! ### What a pattern finds -/

namespace Pattern

/-- The subtree that a pattern finds under the canonical text of a path. As a function of the text
this is the table of what the pattern finds in a tree. -/
def foundAt? (m : Pattern) (v : Value) (text : String) : Option Value :=
  ((m.search v).find? fun n => n.path.render == text).map Node.value

variable {m : Pattern} {v : Value}

/-- What is found under a text is at a path with this text that the pattern accepts, and is what the
path resolves to. -/
theorem exists_path_of_foundAt? {text : String} {x : Value} (hv : v.Plain)
    (h : m.foundAt? v text = some x) :
    ∃ q : Path, q.render = text ∧ m.accepts q = true ∧ q.find? v = some x := by
  obtain ⟨⟨q, y⟩, hn, rfl⟩ := Option.map_eq_some_iff.mp h
  have same := List.find?_some hn
  obtain ⟨hx, -, accepted⟩ :=
    (mem_search_iff hv.present hv.wellKeyed).mp (List.mem_of_find?_eq_some hn)
  exact ⟨q, beq_iff_eq.mp same, accepted, hx⟩

/-- Under the text of a path that the pattern accepts it finds the subtree at the path, or nothing
if the path does not resolve. Other paths have other texts. -/
theorem foundAt?_render (hv : v.Plain) {q : Path} (hq : m.accepts q = true) :
    m.foundAt? v q.render = q.find? v := by
  refine Option.ext fun x => ⟨fun h => ?_, fun h => ?_⟩
  · obtain ⟨r, hr, -, hx⟩ := exists_path_of_foundAt? hv h
    rwa [← Path.render_inj.mp hr]
  · have found : ⟨q, x⟩ ∈ m.search v :=
      (mem_search_iff hv.present hv.wellKeyed).mpr ⟨h, (hv.find? h).present, hq⟩
    have some_found : (m.foundAt? v q.render).isSome = true := by
      rw [foundAt?, Option.isSome_map, List.find?_isSome]
      exact ⟨_, found, beq_self_eq_true _⟩
    obtain ⟨y, hy⟩ := Option.isSome_iff_exists.mp some_found
    obtain ⟨r, hr, -, hx⟩ := exists_path_of_foundAt? hv hy
    rw [Path.render_inj.mp hr] at hx
    rw [hy, ← h, hx]

end Pattern

/-! ### Differences at and below a path -/

namespace Diff

/-- **Subtrees at a path are alike** when the two trees look the same at the path and everywhere
below it. -/
theorem rel_find?_iff {v w : Value} (hv : v.Plain) (hw : w.Plain) (q : Path) :
    Option.Rel Alike (q.find? v) (q.find? w) ↔
      ∀ r : Path, sameView (Path.get (q ++ r) v missing) (Path.get (q ++ r) w missing) = true := by
  have nothing : ∀ {u : Value}, q.find? u = none → q.get u missing = missing := by
    intro u hu
    rw [Path.get, hu]
  simp only [Path.get_append]
  cases hx : q.find? v with
  | none =>
      rw [nothing hx]
      cases hy : q.find? w with
      | none =>
          rw [nothing hy]
          refine iff_of_true .none fun r => ?_
          rw [Path.get_missing]
          rfl
      | some y =>
          refine iff_of_false (by rintro ⟨⟩) fun same => ?_
          have top := same []
          rw [Path.get_of_find? hy, Path.get_root, Path.get_root,
            (sameView_missing (hw.find? hy)).1] at top
          exact absurd top (by simp)
  | some x =>
      rw [Path.get_of_find? hx]
      cases hy : q.find? w with
      | none =>
          refine iff_of_false (by rintro ⟨⟩) fun same => ?_
          have top := same []
          rw [nothing hy, Path.get_root, Path.get_root, (sameView_missing (hv.find? hx)).2] at top
          exact absurd top (by simp)
      | some y =>
          rw [Path.get_of_find? hy, Option.rel_some_some]
          exact alike_iff_sameView (hv.find? hx) (hw.find? hy)

end Diff

/-! ### Touching -/

namespace Version

/-- The first question about patterns computes the changes and looks for a covered path, one at or
below a place that a pattern accepts. -/
theorem touches_eq {v : Version} (hp : v.hasPrevious = true) (fresh : v.changes? = none)
    {changes : List Change} (h : Diff.changeset v.config v.previous v.current = .ok changes)
    (patterns : List Pattern) :
    ∃ after, v.touches patterns =
      .ok (patterns.any fun m => changes.any fun c => m.covers c.path, after) := by
  have read : v.readChanges =
      .ok (changes.map (KeptChange.ofChange v.config v.previous v.current),
        { v with changes? := some (changes.map
          (KeptChange.ofChange v.config v.previous v.current)) }) := by
    rw [readChanges, fresh]
    show Except.map _ (Diff.changeset v.config v.previous v.current) = _
    rw [h]
    rfl
  refine ⟨{ v with changes? := some (changes.map
    (KeptChange.ofChange v.config v.previous v.current)) }, ?_⟩
  rw [touches, if_pos hp, read]
  simp only [Except.map, List.any_map]
  rfl

/-- **A pattern touches a version when what it finds has changed**: as tables of subtrees under
canonical texts, its findings in the previous and in the current tree are not the same. -/
theorem touches_iff (m : Pattern) {current previous : Value} (hp : previous.Plain)
    (hn : previous ≠ .null) (hc : current.Plain) (oldPatterns : List Pattern) :
    ∃ b after, touches ⟨current, previous, { includeContainers := true }, oldPatterns, none, none,
        none⟩ [m] = .ok (b, after) ∧
      (b = true ↔ ¬∀ text, Option.Rel Alike (m.foundAt? previous text)
        (m.foundAt? current text)) := by
  obtain ⟨changes, hchanges, paths⟩ := Diff.exists_changeset hp.wellKeyed hc.wellKeyed
    (Patch.every_isWalkable_of_plain hp) (Patch.every_isWalkable_of_plain hc)
  have compared : hasPrevious ⟨current, previous, { includeContainers := true }, oldPatterns, none,
      none, none⟩ = true := by
    cases previous <;> first | rfl | exact absurd rfl hn
  obtain ⟨after, answer⟩ := touches_eq compared rfl hchanges [m]
  refine ⟨_, after, answer, ?_⟩
  -- a covered change lies at or below a path that the pattern accepts
  have covered : (changes.any fun c => m.covers c.path) = true ↔
      ∃ q r : Path, m.accepts q = true ∧
        sameView (Path.get (q ++ r) previous missing) (Path.get (q ++ r) current missing) =
          false := by
    rw [List.any_eq_true]
    constructor
    · rintro ⟨c, hmem, hcov⟩
      obtain ⟨q, ⟨r, hr⟩, accepted⟩ := Pattern.covers_iff.mp hcov
      refine ⟨q, r, accepted, ?_⟩
      rw [hr]
      exact (paths c.path).mp (List.mem_map_of_mem hmem)
    · rintro ⟨q, r, accepted, differs⟩
      obtain ⟨c, hmem, hpath⟩ := List.mem_map.mp ((paths (q ++ r)).mpr differs)
      refine ⟨c, hmem, Pattern.covers_iff.mpr ⟨q, ?_, accepted⟩⟩
      rw [hpath]
      exact List.prefix_append q r
  have same_findings : ∀ q : Path, m.accepts q = true →
      (Option.Rel Alike (m.foundAt? previous q.render) (m.foundAt? current q.render) ↔
        ∀ r : Path, sameView (Path.get (q ++ r) previous missing)
          (Path.get (q ++ r) current missing) = true) := by
    intro q hq
    rw [Pattern.foundAt?_render hp hq, Pattern.foundAt?_render hc hq]
    exact Diff.rel_find?_iff hp hc q
  rw [List.any_cons, List.any_nil, Bool.or_false, covered]
  constructor
  · rintro ⟨q, r, accepted, differs⟩ same
    have equal := (same_findings q accepted).mp (same q.render) r
    exact absurd (equal.symm.trans differs) (by simp)
  · intro changed
    by_contra none_covered
    refine changed fun text => ?_
    have alike : ∀ q : Path, m.accepts q = true →
        Option.Rel Alike (m.foundAt? previous q.render) (m.foundAt? current q.render) := by
      intro q hq
      refine (same_findings q hq).mpr fun r => ?_
      by_contra differs
      exact none_covered ⟨q, r, hq, by simpa using differs⟩
    -- a text under which nothing is found in either tree makes no difference
    cases hx : m.foundAt? previous text with
    | some x =>
        obtain ⟨q, rfl, accepted, -⟩ := Pattern.exists_path_of_foundAt? hp hx
        rw [← hx]
        exact alike q accepted
    | none =>
        cases hy : m.foundAt? current text with
        | none => exact .none
        | some y =>
            obtain ⟨q, rfl, accepted, -⟩ := Pattern.exists_path_of_foundAt? hc hy
            rw [← hx, ← hy]
            exact alike q accepted

/-- A list gives way to a dictionary with its numeral as a key: an index finds the same number in
both, but under different texts. The order of keys does not matter. -/
theorem touches_iff_numeral :
    let previous : Value := .dict [(.str "a", .list [.int 1]), (.str "b", .int 0)]
    let current : Value := .dict [(.str "b", .int 0), (.str "a", .dict [(.str "0", .int 1)])]
    previous.Plain ∧ previous ≠ .null ∧ current.Plain ∧
      (∃ after, touches ⟨current, previous, { includeContainers := true }, [], none, none, none⟩
        [[.property "a", .index 0]] = .ok (true, after)) ∧
      ∃ after, touches ⟨current, previous, { includeContainers := true }, [], none, none, none⟩
        [[.property "b"]] = .ok (false, after) := by
  intro previous current
  have hp : previous.Plain := by decide
  have hn : previous ≠ .null := by simp [previous]
  have hc : current.Plain := by decide
  refine ⟨hp, hn, hc, ?_, ?_⟩
  · obtain ⟨b, after, answer, changed⟩ := touches_iff [.property "a", .index 0] hp hn hc []
    obtain rfl : b = true := by
      refine changed.mpr fun same => ?_
      have gone : Option.Rel Alike (some (.int 1)) none := same "$.a[0]"
      cases gone
    exact ⟨after, answer⟩
  · obtain ⟨b, after, answer, changed⟩ := touches_iff [.property "b"] hp hn hc []
    have before : Pattern.search [.property "b"] previous = [⟨[.property "b"], .int 0⟩] := rfl
    have now : Pattern.search [.property "b"] current = [⟨[.property "b"], .int 0⟩] := rfl
    have same : ∀ text, Option.Rel Alike (Pattern.foundAt? [.property "b"] previous text)
        (Pattern.foundAt? [.property "b"] current text) := by
      intro text
      rw [Pattern.foundAt?, Pattern.foundAt?, before, now]
      cases hf : List.find? (fun n : Node => n.path.render == text)
          [⟨[.property "b"], .int 0⟩] with
      | none => exact .none
      | some n =>
          obtain rfl := List.mem_singleton.mp (List.mem_of_find?_eq_some hf)
          exact .some (.leaf rfl rfl rfl)
    have unchanged : b = false := by
      rw [Bool.eq_false_iff, Ne, changed]
      exact not_not_intro same
    exact ⟨after, unchanged ▸ answer⟩

end Version

end TreeDelta
