import Mathlib.Data.List.Perm.Basic
import TreeDelta.Proofs.Text.Numeral
import TreeDelta.Proofs.Tree.Node

/-!
# Search finds the matching nodes

A search steps through a tree by picking steps out of containers, whereas matching looks at the
components of a path alone. Both agree: what a selector picks out of a container are the steps with
a component that it accepts (`Selector.select_perm`), and what a pattern finds in a tree are the
nodes with a path that it accepts (`Pattern.search_exact`).

The one difference is the order. A union lists its picks in the order of its members; without
unions nodes are found in pre-order.

## Main results

* `Component.pick_eq_some_iff`: a literal picks the step with its text.
* `Selector.select_perm`, `Selector.select_eq`: what a selector picks, up to order and in order.
* `Pattern.search_perm`, `Pattern.search_eq`: what a pattern finds, up to order and in order.
* `Pattern.search_exact`: search is exact.
-/

namespace TreeDelta

namespace Component

/-- Two components name the same place when they have one text. -/
theorem same_iff {c d : Component} : c.same d = true ↔ c.text = d.text := by
  rw [same, beq_iff_eq]

/-- A literal picks the step that it resolves to, if a value is there. -/
theorem pick_eq_some_iff_resolve {v w : Value} {c d : Component} :
    c.pick v = some (d, w) ↔
      c.resolve v = some d ∧ v.child? d = some w ∧ w.isMissing = false := by
  simp only [pick, Option.bind_eq_bind, Option.bind_eq_some_iff]
  constructor
  · rintro ⟨e, he, x, hx, hp⟩
    split at hp
    · exact absurd hp (by simp)
    · next hm =>
        obtain ⟨rfl, rfl⟩ := Prod.mk.inj (Option.some.inj hp)
        exact ⟨he, hx, by simpa using hm⟩
  · rintro ⟨he, hx, hm⟩
    exact ⟨d, he, w, hx, by rw [hm]; rfl⟩

/-- A literal resolves to the step with its text: a step of a list is an index and one of a
dictionary a property, so texts tell the steps of a container apart. -/
theorem resolve_eq_some_iff {v w : Value} {c d : Component} (hs : (d, w) ∈ v.steps) :
    c.resolve v = some d ↔ d.text = c.text := by
  cases v with
  | list items =>
      obtain ⟨j, rfl, -⟩ := Value.mem_itemSteps_iff.mp hs
      cases c with
      | index i =>
          rw [index_text_inj, resolve, Option.some.injEq, Component.index.injEq]
          exact eq_comm
      | property name =>
          rw [resolve, Option.map_eq_some_iff]
          constructor
          · rintro ⟨i, hi, he⟩
            obtain rfl := Component.index.inj he
            exact numeral?_eq_some_iff.mp hi
          · exact fun he => ⟨_, numeral?_eq_some_iff.mpr he, rfl⟩
  | dict entries =>
      obtain ⟨k, rfl, -⟩ := Value.mem_entrySteps_iff.mp hs
      rw [resolve, Option.some.injEq, Component.property.injEq]
      exact eq_comm
  | _ => exact absurd hs (by simp [Value.steps])

/-- **A literal picks the step with its text**, if a value is there. An index of a list can also be
named by its numeral and a key of a dictionary also by the index with that numeral. No two steps of
one container have the same text. -/
theorem pick_eq_some_iff {v w : Value} {c d : Component} (h : v.hasUniqueKeys = true) :
    c.pick v = some (d, w) ↔
      (d, w) ∈ v.steps ∧ w.isMissing = false ∧ d.text = c.text := by
  rw [pick_eq_some_iff_resolve, Value.child?_eq_some_iff h]
  constructor
  · rintro ⟨hc, hs, hm⟩
    exact ⟨hs, hm, (resolve_eq_some_iff hs).mp hc⟩
  · rintro ⟨hs, hm, ht⟩
    exact ⟨(resolve_eq_some_iff hs).mpr ht, hs, hm⟩

end Component

namespace Selector

/-! ### Selectors -/

/-- Whether a selector is a union. -/
def isUnion : Selector → Bool
  | union _ _ _ => true
  | _ => false

/-- The steps out of a value that are there and have a component that a selector accepts, in the
order of the container. This is what a selector ought to pick. -/
def candidates (s : Selector) (v : Value) : List (Component × Value) :=
  v.steps.filter fun t => !t.2.isMissing && s.accepts t.1

/-- A candidate is a step with an accepted component and a value that is there. -/
theorem mem_candidates_iff {s : Selector} {v w : Value} {c : Component} :
    (c, w) ∈ s.candidates v ↔ (c, w) ∈ v.steps ∧ w.isMissing = false ∧ s.accepts c = true := by
  simp [candidates]

/-- The candidates of a selector have different components. -/
theorem nodup_candidates {v : Value} (h : v.hasUniqueKeys = true) (s : Selector) :
    (s.candidates v).Nodup :=
  (List.Nodup.of_map _ (Value.nodup_steps h)).filter _

/-- Any index picks the items that are there. -/
theorem items_eq (i : Nat) (vs : List Value) :
    items i vs = (Value.itemSteps i vs).filter fun t => !t.2.isMissing && anyIndex.accepts t.1 := by
  induction vs generalizing i with
  | nil => rfl
  | cons v vs ih =>
      rw [items, ih, Value.itemSteps, List.filter_cons]
      cases v.isMissing <;> rfl

/-- Any property picks the entries that are there. -/
theorem entries_eq (es : List (Value × Value)) :
    entries es =
      (Value.entrySteps es).filter fun t => !t.2.isMissing && anyProperty.accepts t.1 := by
  induction es with
  | nil => rfl
  | cons e es ih =>
      obtain ⟨k, v⟩ := e
      cases k with
      | str k =>
          rw [entries, ih, Value.entrySteps, List.filter_cons]
          cases v.isMissing <;> rfl
      | _ => simpa [entries, Value.entrySteps] using ih

/-- A step is kept when it was not seen and no step before it has its component. Steps with one
component lead to one value, so it does not matter which of them is kept. -/
theorem mem_distinct_iff {seen : List Component} {ts : List (Component × Value)}
    (unique : ∀ c w w', (c, w) ∈ ts → (c, w') ∈ ts → w = w') {c : Component} {w : Value} :
    (c, w) ∈ distinct seen ts ↔ c ∉ seen ∧ (c, w) ∈ ts := by
  induction ts generalizing seen with
  | nil => simp [distinct]
  | cons t ts ih =>
      obtain ⟨d, x⟩ := t
      have rest : ∀ c w w', (c, w) ∈ ts → (c, w') ∈ ts → w = w' := fun c w w' hw hw' =>
        unique c w w' (List.mem_cons_of_mem _ hw) (List.mem_cons_of_mem _ hw')
      rw [distinct]
      split
      · next hd =>
          rw [ih rest, List.mem_cons]
          constructor
          · exact fun hc => ⟨hc.1, .inr hc.2⟩
          · rintro ⟨hc, he | hw⟩
            · obtain ⟨rfl, rfl⟩ := Prod.mk.inj he
              exact absurd (List.contains_iff_mem.mp hd) hc
            · exact ⟨hc, hw⟩
      · next hd =>
          rw [List.mem_cons, ih rest, List.mem_cons, List.mem_cons]
          constructor
          · rintro (he | ⟨hc, hw⟩)
            · obtain ⟨rfl, rfl⟩ := Prod.mk.inj he
              exact ⟨fun hm => hd (List.contains_iff_mem.mpr hm), .inl rfl⟩
            · exact ⟨fun hm => hc (.inr hm), .inr hw⟩
          · rintro ⟨hc, he | hw⟩
            · exact .inl he
            · by_cases hcd : c = d
              · subst hcd
                exact .inl (by rw [unique c w x (by simp [hw]) (by simp)])
              · exact .inr ⟨fun hm => hm.elim hcd hc, hw⟩

/-- No step is kept twice. -/
theorem nodup_distinct (seen : List Component) (ts : List (Component × Value)) :
    (∀ t ∈ distinct seen ts, t.1 ∉ seen) ∧ (distinct seen ts).Nodup := by
  induction ts generalizing seen with
  | nil => simp [distinct]
  | cons t ts ih =>
      rw [distinct]
      split
      · exact ih seen
      · next hd =>
          obtain ⟨fresh, nodup⟩ := ih (t.1 :: seen)
          constructor
          · rintro u hu
            rcases List.mem_cons.mp hu with rfl | hu
            · exact fun hm => hd (List.contains_iff_mem.mpr hm)
            · exact fun hm => fresh u hu (List.mem_cons_of_mem _ hm)
          · exact List.nodup_cons.mpr ⟨fun hm => fresh t hm List.mem_cons_self, nodup⟩

/-- A selector that is no wildcard accepts the components with the text of one of its literals. -/
theorem accepts_iff {s : Selector} (hi : s ≠ anyIndex) (hp : s ≠ anyProperty) {c : Component} :
    s.accepts c = true ↔ ∃ l ∈ s.literals, c.text = l.text := by
  cases s with
  | anyIndex => exact absurd rfl hi
  | anyProperty => exact absurd rfl hp
  | _ => simp only [accepts, List.any_eq_true, Component.same_iff]

/-- A selector that is no wildcard picks what its literals pick, everything once. Single literals
and unions are one case here. -/
theorem select_eq_distinct {s : Selector} (hi : s ≠ anyIndex) (hp : s ≠ anyProperty) (v : Value) :
    s.select v = distinct [] (s.literals.filterMap (Component.pick v)) := by
  cases s with
  | anyIndex => exact absurd rfl hi
  | anyProperty => exact absurd rfl hp
  | _ => rfl

/-- The literals of a selector pick its candidates, perhaps several times and in their own order. -/
theorem mem_picks_iff {s : Selector} (hi : s ≠ anyIndex) (hp : s ≠ anyProperty) {v w : Value}
    {c : Component} (h : v.hasUniqueKeys = true) :
    (c, w) ∈ s.literals.filterMap (Component.pick v) ↔ (c, w) ∈ s.candidates v := by
  rw [List.mem_filterMap, mem_candidates_iff, accepts_iff hi hp]
  constructor
  · rintro ⟨l, hl, hpick⟩
    obtain ⟨hs, hm, ht⟩ := (Component.pick_eq_some_iff h).mp hpick
    exact ⟨hs, hm, l, hl, ht⟩
  · rintro ⟨hs, hm, l, hl, ht⟩
    exact ⟨l, hl, (Component.pick_eq_some_iff h).mpr ⟨hs, hm, ht⟩⟩

/-- A wildcard picks its candidates in the order of the container. -/
theorem select_wildcard {s : Selector} (hs : s = anyIndex ∨ s = anyProperty) (v : Value) :
    s.select v = s.candidates v := by
  rcases hs with rfl | rfl
  · cases v with
    | list vs => exact items_eq 0 vs
    | dict es =>
        refine (List.filter_eq_nil_iff.mpr ?_).symm
        rintro ⟨c, w⟩ hs
        obtain ⟨k, rfl, -⟩ := Value.mem_entrySteps_iff.mp hs
        simp [accepts, Component.isIndex]
    | _ => rfl
  · cases v with
    | list vs =>
        refine (List.filter_eq_nil_iff.mpr ?_).symm
        rintro ⟨c, w⟩ hs
        obtain ⟨j, rfl, -⟩ := Value.mem_itemSteps_iff.mp hs
        simp [accepts, Component.isProperty]
    | dict es => exact entries_eq es
    | _ => rfl

/-- **What a selector picks are its candidates**, up to order: both lists have no duplicates and the
same members. -/
theorem select_perm {v : Value} (h : v.hasUniqueKeys = true) (s : Selector) :
    (s.select v).Perm (s.candidates v) := by
  by_cases hw : s = anyIndex ∨ s = anyProperty
  · rw [select_wildcard hw]
  · obtain ⟨hi, hp⟩ := not_or.mp hw
    rw [select_eq_distinct hi hp]
    refine (List.perm_ext_iff_of_nodup (nodup_distinct _ _).2 (nodup_candidates h s)).mpr ?_
    rintro ⟨c, w⟩
    have unique : ∀ c w w', (c, w) ∈ s.literals.filterMap (Component.pick v) →
        (c, w') ∈ s.literals.filterMap (Component.pick v) → w = w' := by
      intro c w w' hw hw'
      rw [mem_picks_iff hi hp h, mem_candidates_iff] at hw hw'
      exact Value.steps_unique h hw.1 hw'.1
    rw [mem_distinct_iff unique, mem_picks_iff hi hp h]
    simp

/-- **Without a union the candidates are picked in the order of the container.** -/
theorem select_eq {v : Value} (h : v.hasUniqueKeys = true) {s : Selector}
    (hs : s.isUnion = false) : s.select v = s.candidates v := by
  by_cases hw : s = anyIndex ∨ s = anyProperty
  · exact select_wildcard hw v
  · -- one literal picks at most one step, so there is nothing to order
    obtain ⟨hi, hp⟩ := not_or.mp hw
    have few : (s.select v).length ≤ 1 := by
      obtain ⟨l, hl⟩ : ∃ l, s.literals = [l] := by
        cases s with
        | union a b others => exact absurd hs (by simp [isUnion])
        | anyIndex => exact absurd rfl hi
        | anyProperty => exact absurd rfl hp
        | _ => exact ⟨_, rfl⟩
      rw [select_eq_distinct hi hp, hl, List.filterMap_cons]
      split <;> simp [distinct]
    have perm := select_perm h s
    cases hsel : s.select v with
    | nil =>
        rw [hsel] at perm
        exact perm.nil_eq
    | cons t ts =>
        rw [hsel, List.length_cons] at few
        obtain rfl : ts = [] := List.length_eq_zero_iff.mp (by omega)
        rw [hsel] at perm
        exact (List.perm_singleton.mp perm.symm).symm

end Selector

namespace Pattern

/-! ### Patterns -/

/-- A search below a place finds what a search from the root finds, moved to that place. So the
place can be left out of all inductions. -/
theorem searchFrom_eq (m : Pattern) (place : Path) (v : Value) :
    m.searchFrom place v = (m.search v).map fun n => ⟨place ++ n.path, n.value⟩ := by
  induction m generalizing place v with
  | nil => simp [search, searchFrom, Path.root]
  | cons s m ih =>
      simp only [search, searchFrom, List.map_flatMap, Path.root]
      refine List.flatMap_congr fun t _ => ?_
      rw [ih, ih ([] ++ [t.1]), List.map_map]
      simp

/-- A search with a selector in front looks below every step that the selector picks. -/
theorem search_cons (s : Selector) (m : Pattern) (v : Value) :
    search (s :: m) v = (s.select v).flatMap fun t => (m.search t.2).map (Node.under t.1) := by
  rw [search, searchFrom]
  refine List.flatMap_congr fun t _ => ?_
  obtain ⟨c, w⟩ := t
  exact searchFrom_eq m [c] w

/-- The nodes of a tree that a pattern with a selector in front accepts are found below the
candidates of the selector. This is the specification, taken apart in the way in which a search
goes. -/
theorem filter_nodes_cons (s : Selector) (m : Pattern) {v : Value} (h : v.isMissing = false) :
    (v.nodes.filter fun n => accepts (s :: m) n.path) =
      (s.candidates v).flatMap fun t =>
        (t.2.nodes.filter fun n => m.accepts n.path).map (Node.under t.1) := by
  rw [Value.nodes_eq h, List.filter_cons, if_neg (by simp [accepts]), Value.nodesBelow,
    Selector.candidates]
  induction v.steps with
  | nil => rfl
  | cons t ts ih =>
      obtain ⟨c, w⟩ := t
      rw [List.flatMap_cons, List.filter_append, ih, List.filter_cons, List.filter_map]
      have step : ((fun n => accepts (s :: m) n.path) ∘ Node.under c) =
          fun n => s.accepts c && m.accepts n.path := rfl
      rw [step]
      cases hm : w.isMissing with
      | true => simp [Value.isMissing_iff.mp hm]
      | false =>
          cases s.accepts c with
          | true => simp
          | false => simp

/-- Only the root is accepted by the empty pattern. -/
theorem filter_nodes_nil {v : Value} (h : v.isMissing = false) :
    (v.nodes.filter fun n => accepts [] n.path) = [⟨[], v⟩] := by
  rw [Value.nodes_eq h, List.filter_cons, if_pos (by rfl)]
  congr 1
  refine List.filter_eq_nil_iff.mpr ?_
  rintro ⟨p, x⟩ hn
  cases p with
  | nil => exact absurd hn Value.root_notMem_nodesBelow
  | cons c p => simp [accepts]

/-- **What a pattern finds are the nodes with a path that it accepts**, up to order. By induction on
the pattern, with one selector at a time. -/
theorem search_perm (m : Pattern) {v : Value} (h : v.isMissing = false) (hk : v.WellKeyed) :
    (m.search v).Perm (v.nodes.filter fun n => m.accepts n.path) := by
  induction m generalizing v with
  | nil => rw [filter_nodes_nil h]; rfl
  | cons s m ih =>
      rw [search_cons, filter_nodes_cons s m h]
      refine ((s.select_perm hk.hasUniqueKeys).flatMap_right _).trans ?_
      refine List.Perm.flatMap_left _ fun t ht => ?_
      obtain ⟨hs, hm, -⟩ := Selector.mem_candidates_iff.mp ht
      exact (ih hm (hk.step hs)).map _

/-- What a pattern finds are the places that are there and that it accepts. -/
theorem mem_search_iff {m : Pattern} {v : Value} (h : v.isMissing = false) (hk : v.WellKeyed)
    {q : Path} {x : Value} :
    ⟨q, x⟩ ∈ m.search v ↔ q.find? v = some x ∧ x.isMissing = false ∧ m.accepts q = true := by
  rw [(search_perm m h hk).mem_iff, List.mem_filter, Value.mem_nodes_iff hk, and_assoc]

/-- **Without unions the nodes are found in pre-order.** Only unions follow an order of their
own. -/
theorem search_eq {m : Pattern} (hm : ∀ s ∈ m, s.isUnion = false) {v : Value}
    (h : v.isMissing = false) (hk : v.WellKeyed) :
    m.search v = v.nodes.filter fun n => m.accepts n.path := by
  induction m generalizing v with
  | nil => rw [filter_nodes_nil h]; rfl
  | cons s m ih =>
      rw [search_cons, filter_nodes_cons s m h,
        Selector.select_eq hk.hasUniqueKeys (hm s List.mem_cons_self)]
      refine List.flatMap_congr fun t ht => ?_
      obtain ⟨hs, hw, -⟩ := Selector.mem_candidates_iff.mp ht
      rw [ih (fun u hu => hm u (List.mem_cons_of_mem _ hu)) hw (hk.step hs)]

/-- **Search is exact.** Every node is listed once, and the nodes listed are the places that a path
of existing steps leads to, that are not missing, and whose path the pattern accepts. Without
unions they are listed in the pre-order of the tree. -/
theorem search_exact (m : Pattern) {root : Value} (present : root.isMissing = false)
    (keyed : root.WellKeyed) :
    ((m.search root).map Node.path).Nodup ∧
    (∀ q x, ⟨q, x⟩ ∈ m.search root ↔
      q.find? root = some x ∧ x.isMissing = false ∧ m.accepts q = true) ∧
    ((∀ s ∈ m, s.isUnion = false) →
      m.search root = root.nodes.filter fun n => m.accepts n.path) := by
  have perm := search_perm m present keyed
  refine ⟨?_, ?_, fun hm => search_eq hm present keyed⟩
  · rw [(perm.map Node.path).nodup_iff]
    exact (Value.nodup_nodes keyed).sublist (List.filter_sublist.map _)
  · intro q x
    rw [perm.mem_iff, List.mem_filter, Value.mem_nodes_iff keyed, and_assoc]

/-- An index finds the key with its numeral, a union that names one place by its index and by its
numeral finds it once, and a wildcard passes over a hole. These are the cases in which patterns and
strict paths differ most. -/
theorem search_exact_numerals :
    let root : Value := .dict [(.str "0", .list [.missing, .int 7]), (.str "00", .null)]
    let m : Pattern := [.index 0, .union (.property "1") (.index 1) [.property "01"]]
    root.isMissing = false ∧ root.WellKeyed ∧ ((m.search root).map Node.path).Nodup ∧
      ⟨[.property "0", .index 1], .int 7⟩ ∈ m.search root ∧
      Pattern.search [.index 0, .anyIndex] root = [⟨[.property "0", .index 1], .int 7⟩] := by
  intro root m
  have present : root.isMissing = false := rfl
  have keyed : root.WellKeyed := by decide
  obtain ⟨once, found, -⟩ := search_exact m present keyed
  obtain ⟨-, -, ordered⟩ := search_exact [.index 0, .anyIndex] present keyed
  exact ⟨present, keyed, once, (found _ _).mpr ⟨rfl, rfl, by decide⟩, ordered (by decide)⟩

end Pattern

end TreeDelta
