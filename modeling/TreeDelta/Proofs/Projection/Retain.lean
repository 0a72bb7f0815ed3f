import TreeDelta.Proofs.Pattern.Cover
import TreeDelta.Proofs.Projection.Gap
import TreeDelta.Proofs.Tree.Search

/-!
# What a projection retains

A projection copies the included nodes of a tree one after the other into a growing tree, deletes
the excluded ones from it, and removes the gaps. What it retains can be told from the tree alone
(`Projection.retains`): the places that an include takes along and that no exclude covers. After
every phase the tree at hand is the part of the tree at such places, whatever the patterns have in
common, and so the projection is the tree restricted to what it retains
(`Projection.map_eq_restrict`).

Gaps are only removed when some pattern names an item of a list as an item. A property whose name is
a numeral names an item, too, so a projection may leave holes; `Projection.hasHole_map_iff` says
when it does.

## Main definitions

* `Pattern.reaches`: a pattern takes a place of a tree along.
* `Projection.retains`: a projection retains a place of a tree.

## Main results

* `Projection.map_part`: the projection of a container before its gaps are removed.
* `Projection.map_eq_restrict`: projecting is restricting to what is retained.
* `Projection.hasHole_map_iff`: when a projection has holes.
-/

namespace TreeDelta

open Value (Part missing)

/-! ### Places and patterns -/

namespace Pattern

/-- Whether a pattern takes a place of a tree along: it lies at or below a place that the pattern
accepts, or above one that is there. -/
def reaches (m : Pattern) (v : Value) (q : Path) : Bool :=
  m.covers q || v.nodes.any fun n => m.accepts n.path && q.isPrefixOf n.path && q != n.path

/-- A pattern covers a place that is there when it finds a place above it. A place above one that is
there is there, too, so a search comes upon it. -/
theorem covers_iff_search {m : Pattern} {t : Value} (ht : t.Neat) {q : Path}
    (hq : (q.get t .missing).isMissing = false) :
    m.covers q = true ↔ ∃ n ∈ m.search t, n.path <+: q := by
  have present : t.isMissing = false := by
    rw [← Path.get_root t]
    exact Path.isMissing_get_of_isPrefix List.nil_prefix hq
  rw [covers_iff]
  constructor
  · rintro ⟨p, hp, accepted⟩
    obtain ⟨x, hx, there⟩ :=
      Path.isMissing_get_iff.mp (Path.isMissing_get_of_isPrefix hp hq)
    exact ⟨⟨p, x⟩, (mem_search_iff present ht.wellKeyed).mpr ⟨hx, there, accepted⟩, hp⟩
  · rintro ⟨⟨p, x⟩, hn, hp⟩
    exact ⟨p, hp, ((mem_search_iff present ht.wellKeyed).mp hn).2.2⟩

/-- A pattern takes a place that is there along when it finds a place above or below it. This is
what `reaches` is for. -/
theorem reaches_iff_search {m : Pattern} {v : Value} (hv : v.Neat) {q : Path}
    (hq : (q.get v .missing).isMissing = false) :
    m.reaches v q = true ↔ ∃ n ∈ m.search v, q <+: n.path ∨ n.path <+: q := by
  have present : v.isMissing = false := by
    rw [← Path.get_root v]
    exact Path.isMissing_get_of_isPrefix List.nil_prefix hq
  have found : ∀ n, n ∈ m.search v ↔ n ∈ v.nodes ∧ m.accepts n.path = true := by
    intro n
    rw [(search_perm m present hv.wellKeyed).mem_iff, List.mem_filter]
  rw [reaches, Bool.or_eq_true, covers_iff_search hv hq, List.any_eq_true]
  simp only [Bool.and_eq_true, List.isPrefixOf_iff_prefix, bne_iff_ne]
  constructor
  · rintro (⟨n, hn, above⟩ | ⟨n, hn, ⟨accepted, below⟩, -⟩)
    · exact ⟨n, hn, .inr above⟩
    · exact ⟨n, (found n).mpr ⟨hn, accepted⟩, .inl below⟩
  · rintro ⟨n, hn, below | above⟩
    · by_cases same : q = n.path
      · exact .inl ⟨n, hn, same ▸ List.prefix_rfl⟩
      · obtain ⟨hnode, accepted⟩ := (found n).mp hn
        exact .inr ⟨n, hnode, ⟨accepted, below⟩, same⟩
    · exact .inl ⟨n, hn, above⟩

end Pattern

namespace Projection

/-- Whether a projection retains a place of a tree: the place is there, some include takes it along,
unless it is the root or there are no includes, and no exclude covers it. -/
def retains (p : Projection) (v : Value) (q : Path) : Bool :=
  (q.find? v).isSome && (p.includes.isEmpty || q.isEmpty || p.includes.any (·.reaches v q)) &&
    !p.excludes.any (·.covers q)

/-- What a projection retains, with the tests of its definition as a proposition. -/
theorem retains_iff {p : Projection} {v : Value} {q : Path} :
    p.retains v q = true ↔ (∃ x, q.find? v = some x) ∧
      (p.includes = [] ∨ q = [] ∨ ∃ m ∈ p.includes, m.reaches v q = true) ∧
      ∀ m ∈ p.excludes, m.covers q = false := by
  rw [retains, Bool.and_eq_true, Bool.and_eq_true, Bool.or_eq_true, Bool.or_eq_true,
    Option.isSome_iff_exists, List.isEmpty_iff, List.isEmpty_iff, List.any_eq_true,
    Bool.not_eq_true', List.any_eq_false, and_assoc, or_assoc]
  simp only [Bool.not_eq_true]

/-! ### Trees without places below the root -/

/-- No container, or an empty dictionary: a tree with no place below its root, so that patterns find
the root or nothing. -/
def IsBare (t : Value) : Prop := t.kind? = none ∨ t = .dict []

/-- A bare tree has no holes, as a hole is an item of a list. -/
theorem IsBare.hasHole {t : Value} (h : IsBare t) : t.hasHole = false := by
  rcases h with hk | rfl
  · cases t <;> first | rfl | exact absurd hk (by simp [Value.kind?])
  · rfl

/-- A bare tree has no gaps. -/
theorem IsBare.removeGaps {t : Value} (h : IsBare t) : t.removeGaps = t := by
  rcases h with hk | rfl
  · exact Value.removeGaps_of_kind? hk
  · rfl

/-- A pattern finds at most the root of a bare tree, because there is no other place in it. -/
theorem IsBare.eq_root_of_mem_search {t : Value} (h : IsBare t) {m : Pattern} {n : Node}
    (hn : n ∈ m.search t) : n = ⟨[], t⟩ := by
  have bare : t.steps = [] ∧ t.hasUniqueKeys = true := by
    rcases h with hk | rfl
    · refine ⟨Value.steps_eq_nil hk, ?_⟩
      cases t <;> first | rfl | exact absurd hk (by simp [Value.kind?])
    · exact ⟨rfl, rfl⟩
  cases m with
  | nil => exact List.mem_singleton.mp hn
  | cons s m =>
      have nothing : s.select t = [] := by
        have perm := s.select_perm bare.2
        rw [Selector.candidates, bare.1] at perm
        exact perm.eq_nil
      rw [Pattern.search_cons, nothing] at hn
      exact absurd hn (by simp)

/-- Excluding a pattern from a bare tree leaves the tree or nothing. -/
theorem excludePattern_of_isBare {t : Value} (h : IsBare t) (m : Pattern) :
    excludePattern t m = t ∨ excludePattern t m = missing := by
  have deleted : ∀ (ns : List Node) (u : Value), (∀ n ∈ ns, n.path = []) →
      ns.foldl (fun t n => n.path.erase t) u = u ∨
        ns.foldl (fun t n => n.path.erase t) u = missing := by
    intro ns u hns
    induction ns generalizing u with
    | nil => exact .inl rfl
    | cons n ns ih =>
        have rest := ih missing fun n' hn' => hns n' (List.mem_cons_of_mem n hn')
        rw [List.foldl_cons, hns n List.mem_cons_self]
        exact .inr (rest.elim id id)
  refine deleted _ t fun n hn => ?_
  rw [h.eq_root_of_mem_search hn]

/-- Excluding some patterns from a bare tree leaves a bare tree: what is missing is bare, too. -/
theorem excludeAll_of_isBare {t : Value} (h : IsBare t) (excludes : List Pattern) :
    IsBare (excludeAll excludes t) := by
  induction excludes generalizing t with
  | nil => exact h
  | cons m ms ih =>
      refine ih ?_
      rcases excludePattern_of_isBare h m with same | gone
      · rwa [same]
      · exact .inl (by rw [gone]; rfl)

/-- Including a pattern of a bare tree leaves what is there or gives the tree. -/
theorem includePattern_of_isBare {s t t' : Value} (h : IsBare s) {m : Pattern}
    (ht : includePattern s t m = .ok t') : t' = t ∨ t' = s := by
  have written : ∀ (ns : List Node) (u : Value), (∀ n ∈ ns, n = ⟨[], s⟩) →
      ns.foldlM (fun t n => n.path.set t n.value) u = .ok t' → t' = u ∨ t' = s := by
    intro ns u hns hu
    induction ns generalizing u with
    | nil => exact .inl (Except.ok.inj hu).symm
    | cons n ns ih =>
        rw [List.foldlM_cons, hns n List.mem_cons_self] at hu
        obtain ⟨u', hu', rest⟩ := bind_eq_ok_iff.mp hu
        have root : u' = s := by
          cases hm : s.isMissing with
          | true =>
              rw [Value.isMissing_iff.mp hm] at hu' ⊢
              exact (Except.ok.inj hu').symm
          | false => exact Except.ok.inj (hu'.symm.trans (Path.set_root u hm))
        rcases ih u' (fun n' hn' => hns n' (List.mem_cons_of_mem n hn')) rest with rfl | same
        · exact .inr root
        · exact .inr same
  exact written _ t (fun n hn => h.eq_root_of_mem_search hn) ht

/-- Including some patterns of a bare tree leaves what is there or gives the tree. -/
theorem foldlM_includePattern_of_isBare {s t t' : Value} (h : IsBare s) {includes : List Pattern}
    (ht : includes.foldlM (includePattern s) t = .ok t') : t' = t ∨ t' = s := by
  induction includes generalizing t with
  | nil => exact .inl (Except.ok.inj ht).symm
  | cons m ms ih =>
      rw [List.foldlM_cons] at ht
      obtain ⟨u, hu, ht⟩ := bind_eq_ok_iff.mp ht
      rcases ih ht with rfl | same
      · exact includePattern_of_isBare h hu
      · exact .inr same

/-! ### Phases -/

section Phases

variable {keep : Path → Prop} {v t : Value}

/-- **Including a pattern** adds the places that it takes along. No write fails, since the part and
the tree have the same containers. -/
theorem includePattern_part (h : Part keep v t) (hv : v.Json) (m : Pattern) :
    ∃ t', includePattern v t m = .ok t' ∧
      Part (fun q => keep q ∨ m.reaches v q = true) v t' := by
  have found : ∀ n ∈ m.search v, n.path.find? v = some n.value ∧ n.value.isMissing = false := by
    rintro ⟨q, x⟩ hn
    obtain ⟨hx, there, -⟩ := (Pattern.mem_search_iff hv.present hv.neat.wellKeyed).mp hn
    exact ⟨hx, there⟩
  obtain ⟨t', ht', part⟩ := h.foldlM_set hv.neat found
  exact ⟨t', ht', part.congr fun q hq => or_congr_right (m.reaches_iff_search hv.neat hq).symm⟩

/-- Including some patterns adds the places that they take along. By induction on the patterns, as
one of them adds to a part. -/
theorem foldlM_includePattern_part (h : Part keep v t) (hv : v.Json) (includes : List Pattern) :
    ∃ t', includes.foldlM (includePattern v) t = .ok t' ∧
      Part (fun q => keep q ∨ ∃ m ∈ includes, m.reaches v q = true) v t' := by
  induction includes generalizing keep t with
  | nil => exact ⟨t, rfl, h.congr fun q _ => by simp⟩
  | cons m ms ih =>
      obtain ⟨t₁, ht₁, part₁⟩ := includePattern_part h hv m
      obtain ⟨t', ht', part⟩ := ih part₁
      refine ⟨t', ?_, part.congr fun q _ => ?_⟩
      · rw [List.foldlM_cons, ht₁]
        exact ht'
      · rw [List.exists_mem_cons_iff, or_assoc]

/-- **Excluding a pattern** takes away what it covers. Places above a covered one stay. -/
theorem excludePattern_part (h : Part keep v t) (m : Pattern) :
    Part (fun q => keep q ∧ m.covers q = false) v (excludePattern t m) := by
  cases ht : t.isMissing with
  | true =>
      obtain rfl := Value.isMissing_iff.mp ht
      have nothing : excludePattern missing m = missing :=
        (excludePattern_of_isBare (.inl rfl) m).elim id id
      rw [nothing]
      exact h.of_missing fun q hq => hq.1
  | false =>
      have found : ∀ n ∈ m.search t, ∃ x, n.path.find? v = some x := by
        rintro ⟨q, x⟩ hn
        obtain ⟨hx, there, -⟩ := (Pattern.mem_search_iff ht h.neat.wellKeyed).mp hn
        obtain ⟨-, y, hy, -⟩ := h.exists_find? hx there
        exact ⟨y, hy⟩
      refine (h.foldl_erase found).congr fun q hq => and_congr_right fun hkeep => ?_
      rw [← (h.kept q hkeep).isMissing] at hq
      rw [Bool.eq_false_iff, Ne, Pattern.covers_iff_search h.neat hq]
      simp

/-- Excluding some patterns takes away what they cover. By induction on the patterns, so their order
does not matter. -/
theorem excludeAll_part (h : Part keep v t) (excludes : List Pattern) :
    Part (fun q => keep q ∧ ∀ m ∈ excludes, m.covers q = false) v (excludeAll excludes t) := by
  induction excludes generalizing keep t with
  | nil => exact h.congr fun q _ => by simp
  | cons m ms ih =>
      refine (ih (excludePattern_part h m)).congr fun q _ => ?_
      rw [List.forall_mem_cons, and_assoc]

end Phases

/-- A projection copies its source first. So if it succeeds, there is a copy. -/
theorem exists_clone {p : Projection} {v r : Value} (nontrivial : p.isTrivial = false)
    (h : p.map v = .ok r) : ∃ s, v.clone = .ok s := by
  obtain ⟨t, ht, -⟩ := map_eq_ok_iff.mp h
  rw [kept, if_neg (by simp [nontrivial])] at ht
  obtain ⟨s, hs, -⟩ := bind_eq_ok_iff.mp ht
  cases hc : v.clone with
  | ok s => exact ⟨s, rfl⟩
  | error e =>
      rw [hc] at hs
      exact absurd hs (by simp [Except.mapError])

/-- What the excluded nodes are deleted from is the copy, or what is included of it. -/
theorem kept_eq {p : Projection} {v s : Value} (nontrivial : p.isTrivial = false)
    (hs : v.clone = .ok s) :
    p.kept v = if p.includes.isEmpty then .ok s
      else (includeAll p.includes s).mapError .edit := by
  rw [kept, if_neg (by simp [nontrivial]), hs]
  rfl

/-- **Before its gaps are removed**, the projection of a container is the part of it that is
retained. -/
theorem map_part {p : Projection} {v s : Value} (nontrivial : p.isTrivial = false)
    (hs : v.clone = .ok s) (json : s.Json) (container : s.isContainer = true) :
    ∃ t, Part (p.retains s · = true) s t ∧
      p.map v = .ok (if p.allowsGaps then t.removeGaps else t) := by
  obtain ⟨t, part, ht⟩ : ∃ t, Part (fun q => p.includes = [] ∨ q = [] ∨
      ∃ m ∈ p.includes, m.reaches s q = true) s t ∧ p.kept v = .ok t := by
    rw [kept_eq nontrivial hs]
    cases p.includes with
    | nil => exact ⟨s, (Part.refl json.neat).congr fun q _ => by simp, rfl⟩
    | cons m ms =>
        obtain ⟨k, hk⟩ := Option.isSome_iff_exists.mp container
        obtain ⟨t, ht, part⟩ := foldlM_includePattern_part (Part.empty hk) json (m :: ms)
        have filled : includeAll (m :: ms) s = .ok t := by
          rw [includeAll, hk]
          exact ht
        refine ⟨t, part.congr fun q _ => by simp, ?_⟩
        rw [filled]
        rfl
  refine ⟨excludeAll p.excludes t, (excludeAll_part part p.excludes).congr fun q hq => ?_, ?_⟩
  · obtain ⟨x, hx, -⟩ := Path.isMissing_get_iff.mp hq
    rw [retains_iff]
    exact (and_iff_right ⟨x, hx⟩).symm
  · rw [map, ht]
    rfl

/-- The projection of what is no container has no holes. -/
theorem hasHole_map_of_isBare {p : Projection} {v s r : Value} (nontrivial : p.isTrivial = false)
    (hs : v.clone = .ok s) (hk : s.kind? = none) (h : p.map v = .ok r) : r.hasHole = false := by
  obtain ⟨t, ht, rfl⟩ := map_eq_ok_iff.mp h
  have bare : IsBare t := by
    rw [kept_eq nontrivial hs] at ht
    split at ht
    · obtain rfl := Except.ok.inj ht
      exact .inl hk
    · cases hi : includeAll p.includes s with
      | error e =>
          rw [hi] at ht
          exact absurd ht (by simp [Except.mapError])
      | ok u =>
          rw [hi] at ht
          obtain rfl := Except.ok.inj ht
          rw [includeAll, hk] at hi
          rcases foldlM_includePattern_of_isBare (.inl hk) hi with rfl | rfl
          · exact .inr rfl
          · exact .inl hk
  have left := excludeAll_of_isBare bare p.excludes
  split
  · rw [left.removeGaps]
    exact left.hasHole
  · exact left.hasHole

/-! ### Projecting is restricting -/

/-- What a projection retains it keeps: what it says of a path alone agrees with what it does in a
tree. -/
theorem keeps_of_retains {p : Projection} {v : Value} {q : Path} (h : p.retains v q = true) :
    p.keeps q = true := by
  obtain ⟨-, included, excluded⟩ := retains_iff.mp h
  rw [keeps, Bool.and_eq_true, Bool.or_eq_true, List.isEmpty_iff, List.any_eq_true,
    Bool.not_eq_true', List.any_eq_false]
  refine ⟨?_, fun m hm => by simp [excluded m hm]⟩
  rcases included with none_given | rfl | ⟨m, hm, reached⟩
  · exact .inl none_given
  · cases hi : p.includes with
    | nil => exact .inl rfl
    | cons m ms => exact .inr ⟨m, List.mem_cons_self, by cases m <;> rfl⟩
  · refine .inr ⟨m, hm, ?_⟩
    rcases Bool.or_eq_true_iff.mp reached with covered | above
    · exact Pattern.meets_of_covers covered
    · obtain ⟨n, -, hn⟩ := List.any_eq_true.mp above
      simp only [Bool.and_eq_true, List.isPrefixOf_iff_prefix] at hn
      exact Pattern.meets_of_accepts hn.1.2 hn.1.1

/-- **A projection is its tree restricted to what it retains.** -/
theorem map_eq_restrict {p : Projection} {v : Value} (nontrivial : p.isTrivial = false)
    (json : v.Json) (container : v.isContainer = true) :
    ∃ r, p.map v = .ok r ∧
      (p.retains v [] = true →
        r.removeGaps.Reordered (v.restrict (p.retains v)) ∧ r.removeGaps.Json) ∧
      (p.retains v [] = false → r.removeGaps = missing) ∧
      (∀ q, p.retains v q = true → p.keeps q = true) ∧
      ∀ q x, q.find? v = some x → p.keeps q = true →
        (p.includes = [] ∨ ∃ m ∈ p.includes, m.covers q = true) → p.retains v q = true := by
  obtain ⟨t, part, ht⟩ := map_part nontrivial (Value.clone_of_json json) json container
  have without_gaps : (p.retains v [] = true → t.removeGaps.Json) →
      (p.retains v [] = false → t = missing) →
      (if p.allowsGaps then t.removeGaps else t).removeGaps = t.removeGaps := by
    intro there gone
    split
    · cases hr : p.retains v [] with
      | true => exact (there hr).removeGaps
      | false => rw [gone hr]; rfl
    · rfl
  have there : p.retains v [] = true → t.removeGaps.Json := fun hr =>
    part.json_removeGaps json ((part.root hr).isMissing.trans json.present)
  have gone : p.retains v [] = false → t = missing := fun hr =>
    part.eq_missing (by simp [hr])
  refine ⟨_, ht, ?_, ?_, fun q => keeps_of_retains, fun q x hx hkeeps included => ?_⟩
  · rw [without_gaps there gone]
    exact fun hr => ⟨part.reordered_removeGaps json hr, there hr⟩
  · rw [without_gaps there gone]
    intro hr
    rw [gone hr]
    rfl
  · refine retains_iff.mpr ⟨⟨x, hx⟩, ?_, ?_⟩
    · rcases included with none_given | ⟨m, hm, covered⟩
      · exact .inl none_given
      · refine .inr (.inr ⟨m, hm, ?_⟩)
        rw [Pattern.reaches, covered]
        rfl
    · rw [keeps, Bool.and_eq_true, Bool.not_eq_true', List.any_eq_false] at hkeeps
      simpa using hkeeps.2

/-- Includes that select one place twice, an exclude below an include, and an item that moves
together with the others. -/
theorem map_eq_restrict_overlap :
    let p : Projection := ⟨[[.property "a", .anyIndex], [.property "a", .index 2, .property "x"]],
      [[.property "a", .property "0"], [.anyProperty, .anyIndex, .property "y"]]⟩
    let v : Value := .dict [(.str "b", .null),
      (.str "a", .list [.int 1, .int 2, .dict [(.str "x", .int 3), (.str "y", .int 4)]])]
    let kept : Value := .dict [(.str "a", .list [.int 2, .dict [(.str "x", .int 3)]])]
    p.isTrivial = false ∧ v.Json ∧ v.isContainer = true ∧ p.retains v [] = true ∧
      ∃ r, p.map v = .ok r ∧ r.removeGaps.Reordered kept := by
  intro p v kept
  have nontrivial : p.isTrivial = false := rfl
  have json : v.Json := by decide
  have container : v.isContainer = true := rfl
  have root : p.retains v [] = true := rfl
  obtain ⟨r, hr, restricted, -⟩ := map_eq_restrict nontrivial json container
  have same : v.restrict (p.retains v) = kept := rfl
  exact ⟨nontrivial, json, container, root, r, hr, same ▸ (restricted root).1⟩

/-! ### Holes of a projection -/

/-- Without gaps and without numerals in its patterns, a projection that retains an item of a list
retains its neighbours. -/
theorem retains_neighbour {p : Projection} {s : Value} (hg : p.allowsGaps = false)
    (hn : ∀ m ∈ p.includes ++ p.excludes, m.namesNumeral = false) {q : Path} {i j : Nat} {x : Value}
    (hi : (q ++ [Component.index i] : Path).find? s = some x)
    (hj : p.retains s (q ++ [.index j]) = true) : p.retains s (q ++ [.index i]) = true := by
  obtain ⟨-, included, excluded⟩ := retains_iff.mp hj
  have whole : ∀ m ∈ p.includes ++ p.excludes, ∀ k k' : Nat,
      m.covers (q ++ [.index k]) = true → m.covers (q ++ [.index k']) = true := by
    intro m hm k k' covered
    have gapless : m.allowsGaps = false := by
      rw [allowsGaps, List.any_eq_false] at hg
      simpa using hg m hm
    exact Pattern.covers_of_isPrefix (List.prefix_append q _)
      (Pattern.covers_of_covers_item gapless (hn m hm) covered)
  refine retains_iff.mpr ⟨⟨x, hi⟩, ?_, fun m hm => ?_⟩
  · rcases included with none_given | root | ⟨m, hm, reached⟩
    · exact .inl none_given
    · exact absurd root (by simp)
    · refine .inr (.inr ⟨m, hm, ?_⟩)
      have mem := List.mem_append_left p.excludes hm
      rcases Bool.or_eq_true_iff.mp reached with covered | above
      · rw [Pattern.reaches, whole m mem j i covered]
        rfl
      · -- a pattern that accepts a place below an item selects the item
        obtain ⟨n, -, hn'⟩ := List.any_eq_true.mp above
        simp only [Bool.and_eq_true, List.isPrefixOf_iff_prefix] at hn'
        obtain ⟨⟨accepted, rest, below⟩, -⟩ := hn'
        rw [← below, List.append_assoc] at accepted
        rcases Pattern.accepts_index accepted with gaps | numeral
        · rw [allowsGaps, List.any_eq_false] at hg
          exact absurd gaps (hg m mem)
        · exact absurd (numeral.symm.trans (hn m mem)) (by simp)
  · by_contra covered
    have covered' := whole m (List.mem_append_right p.includes hm) i j (by simpa using covered)
    exact absurd (covered'.symm.trans (excluded m hm)) (by simp)

/-- The projection of a container has holes when its gaps are not removed and it retains an item of
a list but not all items before it. -/
theorem hasHole_map_of_isContainer {p : Projection} {v s r : Value}
    (nontrivial : p.isTrivial = false) (hs : v.clone = .ok s) (json : s.Json)
    (container : s.isContainer = true) (h : p.map v = .ok r) :
    r.hasHole = true ↔ p.allowsGaps = false ∧ ∃ (q : Path) (i j : Nat), i < j ∧
      p.retains s (q ++ [.index j]) = true ∧ p.retains s (q ++ [.index i]) = false := by
  obtain ⟨t, part, ht⟩ := map_part nontrivial hs json container
  obtain rfl := Except.ok.inj (h.symm.trans ht)
  cases hg : p.allowsGaps with
  | true =>
      have full : t.removeGaps.hasHole = false := by
        cases hm : t.isMissing with
        | true => rw [Value.isMissing_iff.mp hm]; rfl
        | false => exact (part.json_removeGaps json hm).hasHole
      simp [full]
  | false =>
      rw [if_neg (by simp), part.hasHole_iff json, and_iff_right rfl]
      constructor
      · rintro ⟨q, i, j, hlt, -, hj, hi⟩
        exact ⟨q, i, j, hlt, hj, by simpa using hi⟩
      · rintro ⟨q, i, j, hlt, hj, hi⟩
        exact ⟨q, i, j, hlt, (retains_iff.mp hj).1, hj, by simp [hi]⟩

/-- **A projection has holes** when its gaps are not removed and it retains an item of a list but
not all items before it; no pattern with a numeral as a property means no holes. -/
theorem hasHole_map_iff {p : Projection} {v r : Value} (nontrivial : p.isTrivial = false)
    (h : p.map v = .ok r) :
    ∃ s, v.clone = .ok s ∧
      (r.hasHole = true ↔ p.allowsGaps = false ∧ ∃ (q : Path) (i j : Nat), i < j ∧
        p.retains s (q ++ [.index j]) = true ∧ p.retains s (q ++ [.index i]) = false) ∧
      ((∀ m ∈ p.includes ++ p.excludes, m.namesNumeral = false) → r.hasHole = false) := by
  obtain ⟨s, hs⟩ := exists_clone nontrivial h
  have holes : r.hasHole = true ↔ p.allowsGaps = false ∧ ∃ (q : Path) (i j : Nat), i < j ∧
      p.retains s (q ++ [.index j]) = true ∧ p.retains s (q ++ [.index i]) = false := by
    cases container : s.isContainer with
    | true =>
        have json : s.Json := by
          rcases Value.json_of_clone hs with rfl | json
          · exact absurd container (by simp [Value.isContainer, Value.kind?])
          · exact json
        exact hasHole_map_of_isContainer nontrivial hs json container h
    | false =>
        have bare : s.kind? = none := by simpa [Value.isContainer] using container
        rw [hasHole_map_of_isBare nontrivial hs bare h]
        refine iff_of_false (by simp) ?_
        -- nothing below the root of what is no container is retained
        rintro ⟨-, q, i, j, -, hj, -⟩
        obtain ⟨⟨x, hx⟩, -⟩ := retains_iff.mp hj
        have no_child : ∀ c, s.child? c = none := by
          intro c
          cases s <;> first | rfl | exact absurd bare (by simp [Value.kind?])
        cases q <;> simp [Value.find?_cons, no_child] at hx
  refine ⟨s, hs, holes, fun hn => ?_⟩
  rw [Bool.eq_false_iff, Ne, holes]
  rintro ⟨hg, q, i, j, hlt, hj, hi⟩
  obtain ⟨⟨x, hx⟩, -⟩ := retains_iff.mp hj
  obtain ⟨items, hitems, hjx⟩ := Value.find?_concat_index.mp hx
  obtain ⟨hlen, -⟩ := List.getElem?_eq_some_iff.mp hjx
  have item : items[i]? = some items[i] := List.getElem?_eq_getElem (by omega)
  have retained := retains_neighbour hg hn (Value.find?_concat_index.mpr ⟨items, hitems, item⟩) hj
  exact absurd (retained.symm.trans hi) (by simp)

/-- A union of numerals, as an include, leaves a hole where it does not name the first item. -/
theorem hasHole_map_iff_union :
    let p : Projection := ⟨[[.property "a", .union (.property "1") (.property "2") []]], []⟩
    let v : Value := .dict [(.str "a", .list [.int 1, .int 2, .int 3])]
    let r : Value := .dict [(.str "a", .list [.missing, .int 2, .int 3])]
    p.isTrivial = false ∧ p.map v = .ok r ∧ r.hasHole = true := by
  intro p v r
  have nontrivial : p.isTrivial = false := rfl
  have mapped : p.map v = .ok r := rfl
  obtain ⟨s, hs, holes, -⟩ := hasHole_map_iff nontrivial mapped
  obtain rfl : v = s := Except.ok.inj hs
  have split : p.allowsGaps = false ∧ ∃ (q : Path) (i j : Nat), i < j ∧
      p.retains v (q ++ [.index j]) = true ∧ p.retains v (q ++ [.index i]) = false :=
    ⟨rfl, [.property "a"], 0, 1, by decide, by decide, by decide⟩
  exact ⟨nontrivial, mapped, holes.mpr split⟩

/-- Not every projection is free of holes: a numeral as a property, excluded, leaves a hole at the
item with its index. -/
theorem hasHole_map_numeral :
    ¬∀ (p : Projection) (v r : Value), p.includes ++ p.excludes ≠ [] →
      (∀ m ∈ p.includes ++ p.excludes, m ≠ []) → p.map v = .ok r → r.hasHole = false := by
  intro no_holes
  let p : Projection := ⟨[], [[.property "0"]]⟩
  let r : Value := .list [.missing, .int 2]
  have mapped : p.map (.list [.int 1, .int 2]) = .ok r := rfl
  have hole : r.hasHole = false := no_holes p _ r (by decide) (by decide) mapped
  exact absurd hole (by decide)

end Projection

end TreeDelta
