import TreeDelta.Diff.Changeset
import TreeDelta.Proofs.Diff.Leaf
import TreeDelta.Proofs.Expression.Render
import TreeDelta.Proofs.Outcome

/-!
# Changesets are exact

A comparison works on tables under texts, puts one entry after the other and takes partners out.
Canonical texts are as good as the paths themselves (`Path.render_inj`), and no two leaves stand at
one path. So a table of leaves is the list of these leaves under their texts (`Diff.collect_eq`),
and each step of a comparison has a plain meaning: after some of the new leaves were met, the old
leaves that none of them met remain, and every one of them has made the change that it makes
against the whole old tree (`Diff.Comparison.upTo`).

## Main definitions

* `Diff.keyed`: some items under the texts of their paths.
* `Diff.changeOf?`, `Diff.removalOf?`: the change that one leaf makes.
* `Diff.DiffersAt`: two trees show different leaves at a path.

## Main results

* `Diff.render_faithful`: texts of paths can be read back, and tables of leaves lose none.
* `Diff.tableOf_eq`: the comparison of two lists of leaves, leaf by leaf.
* `Diff.changeTable_exact`: the keys, changes and order of a changeset.
-/

namespace TreeDelta.Diff

/-! ### Tables under the texts of paths -/

section Keyed

variable {α : Type} {path : α → Path}

/-- Some items under the canonical texts of their paths. Every table of a comparison has this form,
so that tables can be treated as lists. -/
def keyed (path : α → Path) (as : List α) : Table α := as.map fun a => ((path a).render, a)

/-- The items of a table are the ones that were put under texts. -/
theorem keyed_snd (path : α → Path) (as : List α) : (keyed path as).map Prod.snd = as := by
  rw [keyed, List.map_map]
  exact List.map_id as

/-- The keys of a table are the texts of the paths. -/
theorem keyed_fst (path : α → Path) (as : List α) :
    (keyed path as).map Prod.fst = (as.map path).map Path.render := by
  rw [keyed, List.map_map, List.map_map]
  rfl

/-- An item at a new path comes last, as different paths have different texts. -/
theorem put_keyed {as : List α} {a : α} (h : path a ∉ as.map path) :
    Table.put (path a).render a (keyed path as) = keyed path (as ++ [a]) := by
  induction as with
  | nil => rfl
  | cons b bs ih =>
      rw [List.map_cons, List.mem_cons, not_or] at h
      have hne : ¬(path b).render = (path a).render := fun he => h.1 (Path.render_inj.mp he).symm
      have := ih h.2
      simp only [keyed, List.map_cons, List.cons_append, Table.put, if_neg hne] at this ⊢
      rw [this]

/-- Items at different paths are put one after the other. -/
theorem foldl_put_keyed {as bs : List α} (h : ((as ++ bs).map path).Nodup) :
    bs.foldl (fun t b => Table.put (path b).render b t) (keyed path as) =
      keyed path (as ++ bs) := by
  induction bs generalizing as with
  | nil => rw [List.append_nil]; rfl
  | cons b bs ih =>
      have fresh : path b ∉ as.map path := by
        rw [List.map_append, List.map_cons] at h
        exact fun hb => (List.nodup_append.mp h).2.2 _ hb _ List.mem_cons_self rfl
      rw [List.foldl_cons, put_keyed fresh, ih (by rwa [List.append_assoc]), List.append_assoc]
      rfl

/-- Taking an item out of a table takes the first one at its path, and leaves the others in their
order. -/
theorem pop?_keyed (p : Path) (as : List α) :
    Table.pop? p.render (keyed path as) =
      (as.find? fun a => path a == p).map fun a =>
        (a, keyed path (as.eraseP fun a => path a == p)) := by
  induction as with
  | nil => rfl
  | cons a as ih =>
      rw [keyed] at ih
      rw [keyed, List.map_cons, Table.pop?, List.find?_cons, List.eraseP_cons]
      by_cases ha : path a = p
      · rw [if_pos (by rw [ha]), beq_iff_eq.mpr ha]
        rfl
      · rw [if_neg fun he => ha (Path.render_inj.mp he), ih, beq_eq_false_iff_ne.mpr ha,
          Option.map_map]
        rfl

/-- Where no two items stand at one path, erasing the first one there is erasing all. -/
theorem eraseP_eq_filter {as : List α} (h : (as.map path).Nodup) (p : Path) :
    (as.eraseP fun a => path a == p) = as.filter fun a => decide (path a ≠ p) := by
  induction as with
  | nil => rfl
  | cons a as ih =>
      rw [List.map_cons, List.nodup_cons] at h
      rw [List.eraseP_cons, List.filter_cons]
      by_cases ha : path a = p
      · have rest : ∀ b ∈ as, decide (path b ≠ p) = true := by
          intro b hb
          exact decide_eq_true fun he => h.1 (ha ▸ he ▸ List.mem_map_of_mem hb)
        rw [beq_iff_eq.mpr ha, if_neg (by simp [ha]), List.filter_eq_self.mpr rest]
        rfl
      · rw [beq_eq_false_iff_ne.mpr ha, if_pos (decide_eq_true ha), ih h.2]
        rfl

end Keyed

/-- **A table of leaves at different paths keeps them all**, in their order. No leaf is lost because
its text is that of another one. -/
theorem collect_eq {ls : List Leaf} (h : (ls.map Leaf.path).Nodup) :
    collect ls = keyed Leaf.path ls := by
  rw [← List.nil_append ls] at h
  exact foldl_put_keyed h

/-- **Canonical texts are faithful**: reading the text of a path gives the path back, so that
different paths have different texts, and a table of the leaves of a tree keeps every leaf. Numbers
are read whatever their length. -/
theorem render_faithful :
    (∀ p : Path, Path.parse p.render = .ok p) ∧
      (∀ p q : Path, p ≠ q → p.render ≠ q.render) ∧
      ∀ (cfg : Config) (v : Value) (ls : List Leaf), v.WellKeyed → leaves cfg v = .ok ls →
        collect ls = ls.map fun leaf => (leaf.path.render, leaf) := by
  refine ⟨Path.parse_render, fun p q hne he => hne (Path.render_inj.mp he), ?_⟩
  intro cfg v ls hk hl
  exact collect_eq (nodup_leaves hl hk)

/-- The paths to an index and to the property with its numeral, and a dictionary with a key that is
written in brackets and one that is empty. -/
theorem render_faithful_numeral :
    Path.parse "$[0]" = .ok [.index 0] ∧ Path.parse "$[\"0\"]" = .ok [.property "0"] ∧
      Path.render [.index 0] ≠ Path.render [.property "0"] ∧
      collect [⟨[.property "a.b"], .atomic .null⟩, ⟨[.property ""], .atomic (.int 1)⟩] =
        [("$[\"a.b\"]", ⟨[.property "a.b"], .atomic .null⟩),
          ("$[\"\"]", ⟨[.property ""], .atomic (.int 1)⟩)] :=
  ⟨render_faithful.1 [.index 0], render_faithful.1 [.property "0"],
    render_faithful.2.1 _ _ (by decide),
    render_faithful.2.2 {} (.dict [(.str "a.b", .null), (.str "", .int 1)]) _ (by decide) rfl⟩

/-! ### The change that one leaf makes -/

/-- The change that a leaf of the new tree makes, given the leaves of the old tree. It does not
depend on the other leaves of the new tree. -/
def changeOf? (cfg : Config) (old : List Leaf) (leaf : Leaf) : Option Change :=
  match leafAt? leaf.path old with
  | some before =>
    if before.content.equal cfg leaf.path leaf.content then none
    else some ⟨leaf.path, some before.content.value, some leaf.content.value, false⟩
  | none => some ⟨leaf.path, none, some leaf.content.value, false⟩

/-- The removal of a leaf of the old tree. -/
def removal (leaf : Leaf) : Change := ⟨leaf.path, some leaf.content.value, none, false⟩

/-- The change that a leaf of the old tree makes, given the leaves of the new tree. -/
def removalOf? (new : List Leaf) (leaf : Leaf) : Option Change :=
  match leafAt? leaf.path new with
  | some _ => none
  | none => some (removal leaf)

/-- There is a leaf at a path when one of the leaves has that path. -/
theorem leafAt?_eq_none_iff {p : Path} {ls : List Leaf} :
    leafAt? p ls = none ↔ p ∉ ls.map Leaf.path := by
  rw [leafAt?, List.find?_eq_none, List.mem_map]
  constructor
  · rintro h ⟨leaf, hl, rfl⟩
    exact h leaf hl (beq_self_eq_true _)
  · exact fun h leaf hl he => h ⟨leaf, hl, beq_iff_eq.mp he⟩

/-- The leaf at a path is one of the leaves, where no two stand at one path. -/
theorem leafAt?_eq_some_iff {p : Path} {ls : List Leaf} (h : (ls.map Leaf.path).Nodup)
    {leaf : Leaf} : leafAt? p ls = some leaf ↔ leaf ∈ ls ∧ leaf.path = p := by
  have found : ∀ l, leafAt? p ls = some l → l ∈ ls ∧ l.path = p := by
    intro l hl
    have hp := List.find?_some hl
    exact ⟨List.mem_of_find?_eq_some hl, beq_iff_eq.mp hp⟩
  refine ⟨found leaf, fun ⟨hl, hp⟩ => ?_⟩
  cases hf : leafAt? p ls with
  | none => exact absurd (hp ▸ List.mem_map_of_mem hl) (leafAt?_eq_none_iff.mp hf)
  | some other =>
      obtain ⟨ho, hop⟩ := found other hf
      rw [List.inj_on_of_nodup_map h ho hl (hop.trans hp.symm)]

/-- The change of a leaf is at its path. -/
theorem path_of_changeOf? {cfg : Config} {old : List Leaf} {leaf : Leaf} {c : Change}
    (h : changeOf? cfg old leaf = some c) : c.path = leaf.path := by
  rw [changeOf?] at h
  split at h
  · split at h
    · exact absurd h (by simp)
    · rw [← Option.some.inj h]
  · rw [← Option.some.inj h]

/-- A leaf that is gone is removed. -/
theorem removalOf?_eq_some_iff {new : List Leaf} {leaf : Leaf} {c : Change} :
    removalOf? new leaf = some c ↔ leaf.path ∉ new.map Leaf.path ∧ c = removal leaf := by
  rw [removalOf?, ← leafAt?_eq_none_iff]
  cases leafAt? leaf.path new with
  | none => simp [eq_comm]
  | some _ => simp

/-- Some of the items, each with what it stands for, keep the order of the items. -/
theorem map_filterMap_sublist {α β γ : Type} {f : α → Option β} {g : β → γ} {k : α → γ}
    (h : ∀ a b, f a = some b → g b = k a) (as : List α) :
    ((as.filterMap f).map g).Sublist (as.map k) := by
  induction as with
  | nil => exact List.Sublist.slnil
  | cons a as ih =>
      rw [List.filterMap_cons]
      split
      · exact ih.cons _
      · next b hb =>
          rw [List.map_cons, List.map_cons, h a b hb]
          exact ih.cons_cons _

/-! ### The comparison on the way -/

/-- The leaves of the old tree that none of some leaves has met, in their order. -/
def unmet (old met : List Leaf) : List Leaf :=
  old.filter fun leaf => decide (leaf.path ∉ met.map Leaf.path)

/-- What a comparison has come to once some leaves of the new tree were met. This is the invariant
of the loop over the new leaves: what remains, and what was found. -/
def Comparison.upTo (cfg : Config) (old met : List Leaf) : Comparison :=
  ⟨keyed Leaf.path (unmet old met), keyed Change.path (met.filterMap (changeOf? cfg old))⟩

/-- The old leaf at the path of a new one has not been met before. -/
theorem leafAt?_unmet {old met : List Leaf} {p : Path} (h : p ∉ met.map Leaf.path) :
    leafAt? p (unmet old met) = leafAt? p old := by
  rw [leafAt?, leafAt?, unmet, List.find?_filter]
  congr 1
  funext leaf
  by_cases hp : leaf.path = p
  · simp [hp, h]
  · simp [hp]

/-- Meeting one more leaf takes its partner away. -/
theorem eraseP_unmet {old met : List Leaf} (h : (old.map Leaf.path).Nodup) (leaf : Leaf) :
    (unmet old met).eraseP (fun l => l.path == leaf.path) = unmet old (met ++ [leaf]) := by
  have some_left : ((unmet old met).map Leaf.path).Nodup :=
    h.sublist (List.filter_sublist.map Leaf.path)
  rw [eraseP_eq_filter some_left, unmet, List.filter_filter, unmet]
  refine List.filter_congr fun l _ => ?_
  rw [List.map_append, ← Bool.decide_and, decide_eq_decide, List.mem_append, not_or, and_comm]
  simp

/-- A leaf without a partner takes nothing away. -/
theorem unmet_append_of_notMem {old met : List Leaf} {leaf : Leaf}
    (h : leaf.path ∉ old.map Leaf.path) : unmet old (met ++ [leaf]) = unmet old met := by
  refine List.filter_congr fun l hl => ?_
  have hne : l.path ≠ leaf.path := fun he => h (he ▸ List.mem_map_of_mem hl)
  rw [List.map_append, decide_eq_decide, List.mem_append, not_or]
  simp [hne]

/-- **One step of a comparison**: a new leaf makes the change that it makes against the whole old
tree. The leaves that were taken away before are at other paths. -/
theorem Comparison.meet_upTo {cfg : Config} {old met : List Leaf} {leaf : Leaf}
    (hold : (old.map Leaf.path).Nodup) (hmet : leaf.path ∉ met.map Leaf.path) :
    (upTo cfg old met).meet cfg leaf = upTo cfg old (met ++ [leaf]) := by
  have put : ∀ c : Change, c.path = leaf.path →
      Table.put leaf.path.render c (keyed Change.path (met.filterMap (changeOf? cfg old))) =
        keyed Change.path (met.filterMap (changeOf? cfg old) ++ [c]) := by
    intro c hc
    rw [← hc] at hmet ⊢
    refine put_keyed fun hmem => hmet ?_
    exact (map_filterMap_sublist (fun _ _ => path_of_changeOf?) met).subset hmem
  rw [upTo, meet, pop?_keyed, ← leafAt?, leafAt?_unmet hmet, eraseP_unmet hold, upTo,
    List.filterMap_append, List.filterMap_cons, List.filterMap_nil, changeOf?]
  cases hf : leafAt? leaf.path old with
  | none =>
      rw [unmet_append_of_notMem (leafAt?_eq_none_iff.mp hf)]
      exact congrArg _ (put _ rfl)
  | some before =>
      simp only [Option.map_some]
      split
      · rw [List.append_nil]
      · exact congrArg _ (put _ rfl)

/-- **A run of a comparison** meets the new leaves one by one. By induction on the leaves that are
left, with those that were met as a parameter. -/
theorem Comparison.foldl_meet_upTo {cfg : Config} {old met rest : List Leaf}
    (hold : (old.map Leaf.path).Nodup) (hnew : ((met ++ rest).map Leaf.path).Nodup) :
    rest.foldl (Comparison.meet cfg) (upTo cfg old met) = upTo cfg old (met ++ rest) := by
  induction rest generalizing met with
  | nil => rw [List.append_nil]; rfl
  | cons leaf rest ih =>
      have hmet : leaf.path ∉ met.map Leaf.path := by
        rw [List.map_append, List.map_cons] at hnew
        exact fun hl => (List.nodup_append.mp hnew).2.2 _ hl _ List.mem_cons_self rfl
      rw [List.foldl_cons, meet_upTo hold hmet, ih (by rwa [List.append_assoc]),
        List.append_assoc]
      rfl

/-- The changes that the old leaves make are the removals of those that no new leaf met. -/
theorem filterMap_removalOf? (old new : List Leaf) :
    old.filterMap (removalOf? new) = (unmet old new).map removal := by
  rw [unmet, ← List.filterMap_eq_map, List.filterMap_filter]
  refine List.filterMap_congr fun leaf _ => ?_
  by_cases h : leaf.path ∈ new.map Leaf.path
  · rw [if_neg (by simp [h])]
    exact Option.eq_none_iff_forall_ne_some.mpr fun c hc =>
      (removalOf?_eq_some_iff.mp hc).1 h
  · rw [if_pos (by simp [h])]
    exact removalOf?_eq_some_iff.mpr ⟨h, rfl⟩

/-- The changes between two lists of leaves, leaf by leaf: those of the new leaves, and then the
removals. Each change depends on one leaf and its partner only. -/
def changesBy (cfg : Config) (old new : List Leaf) : List Change :=
  new.filterMap (changeOf? cfg old) ++ old.filterMap (removalOf? new)

/-- No two changes are at one path. -/
theorem nodup_changesBy (cfg : Config) {old new : List Leaf} (hold : (old.map Leaf.path).Nodup)
    (hnew : (new.map Leaf.path).Nodup) : ((changesBy cfg old new).map Change.path).Nodup := by
  have updated := map_filterMap_sublist (f := changeOf? cfg old) (g := Change.path)
    (fun _ _ => path_of_changeOf?) new
  rw [changesBy, List.map_append, filterMap_removalOf?, List.map_map]
  refine (hnew.sublist updated).append (hold.sublist (List.filter_sublist.map Leaf.path)) ?_
  intro p hp hq
  obtain ⟨leaf, hl, rfl⟩ := List.mem_map.mp hq
  exact of_decide_eq_true (List.mem_filter.mp hl).2 (updated.subset hp)

/-- **The comparison of two lists of leaves, leaf by leaf.** With this, tables and loops are left
behind: everything that follows is about `changesBy`. -/
theorem tableOf_eq (cfg : Config) {old new : List Leaf} (hold : (old.map Leaf.path).Nodup)
    (hnew : (new.map Leaf.path).Nodup) :
    tableOf cfg old new = keyed Change.path (changesBy cfg old new) := by
  have start : Comparison.upTo cfg old [] = ⟨collect old, []⟩ := by
    rw [Comparison.upTo, collect_eq hold, unmet, List.filter_eq_self.mpr (by simp)]
    rfl
  have all_met : new.foldl (Comparison.meet cfg) (.upTo cfg old []) = .upTo cfg old new :=
    @Comparison.foldl_meet_upTo cfg old [] new hold hnew
  have nodup := nodup_changesBy cfg hold hnew
  rw [changesBy, filterMap_removalOf?] at nodup
  rw [tableOf, ← start, all_met, Comparison.finish, Comparison.upTo, changesBy,
    filterMap_removalOf?, ← foldl_put_keyed nodup, keyed, List.foldl_map, List.foldl_map]
  rfl

/-- The changes between two lists of leaves. -/
theorem changesOf_eq (cfg : Config) {old new : List Leaf} (hold : (old.map Leaf.path).Nodup)
    (hnew : (new.map Leaf.path).Nodup) : changesOf cfg old new = changesBy cfg old new := by
  rw [changesOf, tableOf_eq cfg hold hnew, keyed_snd]

/-- A changeset keeps the changes between the leaves of two trees under their paths, and both trees
have leaves when there is one. -/
theorem exists_leaves_of_changeTable {cfg : Config} {before after : Value} {table : Table Change}
    (hb : before.WellKeyed) (ha : after.WellKeyed)
    (h : changeTable cfg before after = .ok table) :
    ∃ old new, leaves cfg before = .ok old ∧ leaves cfg after = .ok new ∧
      (old.map Leaf.path).Nodup ∧ (new.map Leaf.path).Nodup ∧
        table = keyed Change.path (changesBy cfg old new) := by
  obtain ⟨old, hold, h⟩ := bind_eq_ok_iff.mp h
  obtain ⟨new, hnew, h⟩ := bind_eq_ok_iff.mp h
  obtain rfl : tableOf cfg old new = table := Except.ok.inj h
  have old_nodup := nodup_leaves hold hb
  have new_nodup := nodup_leaves hnew ha
  exact ⟨old, new, hold, hnew, old_nodup, new_nodup, tableOf_eq cfg old_nodup new_nodup⟩

/-- A changeset lists the changes between the leaves of two trees. -/
theorem exists_leaves_of_changeset {cfg : Config} {before after : Value}
    {changes : List Change} (hb : before.WellKeyed) (ha : after.WellKeyed)
    (h : changeset cfg before after = .ok changes) :
    ∃ old new, leaves cfg before = .ok old ∧ leaves cfg after = .ok new ∧
      changes = changesBy cfg old new := by
  obtain ⟨table, htable, rfl⟩ := map_eq_ok_iff.mp h
  obtain ⟨old, new, hold, hnew, -, -, rfl⟩ := exists_leaves_of_changeTable hb ha htable
  exact ⟨old, new, hold, hnew, keyed_snd _ _⟩

/-! ### Changes location by location -/

/-- What stands at a path among some leaves, whichever leaf it is. -/
def contentAt? (p : Path) (ls : List Leaf) : Option Content := (leafAt? p ls).map Leaf.content

/-- The change between what stands at a path in two trees, where something may be absent on either
side. -/
def changeAt (p : Path) (x? y? : Option Content) : Change :=
  ⟨p, x?.map Content.value, y?.map Content.value, false⟩

/-- Whether what stands at a path in two trees makes a change: something is there, and not the same
twice. It only looks at the two contents and the path. -/
def differ (cfg : Config) (p : Path) : Option Content → Option Content → Bool
  | some x, some y => !x.equal cfg p y
  | none, none => false
  | _, _ => true

/-- Something stands at a path when a leaf does. -/
theorem contentAt?_eq_some_iff {p : Path} {ls : List Leaf} (h : (ls.map Leaf.path).Nodup)
    {x : Content} : contentAt? p ls = some x ↔ ⟨p, x⟩ ∈ ls := by
  rw [contentAt?, Option.map_eq_some_iff]
  constructor
  · rintro ⟨leaf, hl, rfl⟩
    obtain ⟨hmem, rfl⟩ := (leafAt?_eq_some_iff h).mp hl
    exact hmem
  · exact fun hx => ⟨_, (leafAt?_eq_some_iff h).mpr ⟨hx, rfl⟩, rfl⟩

/-- Nothing stands at a path when no leaf does. -/
theorem contentAt?_eq_none_iff {p : Path} {ls : List Leaf} :
    contentAt? p ls = none ↔ p ∉ ls.map Leaf.path := by
  rw [contentAt?, Option.map_eq_none_iff, leafAt?_eq_none_iff]

/-- The change of a new leaf is that between what stands at its path. -/
theorem changeOf?_eq (cfg : Config) (old : List Leaf) (leaf : Leaf) :
    changeOf? cfg old leaf =
      if differ cfg leaf.path (contentAt? leaf.path old) (some leaf.content) then
        some (changeAt leaf.path (contentAt? leaf.path old) (some leaf.content))
      else none := by
  rw [changeOf?, contentAt?]
  cases leafAt? leaf.path old with
  | none => rfl
  | some before =>
      cases hx : before.content.equal cfg leaf.path leaf.content <;> simp [differ, changeAt, hx]

/-- A new leaf makes a change when something else stood at its path. -/
theorem changeOf?_eq_some_iff {cfg : Config} {old : List Leaf} {leaf : Leaf} {c : Change} :
    changeOf? cfg old leaf = some c ↔
      c = changeAt leaf.path (contentAt? leaf.path old) (some leaf.content) ∧
        differ cfg leaf.path (contentAt? leaf.path old) (some leaf.content) = true := by
  rw [changeOf?_eq]
  split
  · next hd => simp [hd, eq_comm]
  · next hd => simp [hd]

/-- The change of a new leaf has its value as the new one. -/
theorem new?_of_changeOf? {cfg : Config} {old : List Leaf} {leaf : Leaf} {c : Change}
    (h : changeOf? cfg old leaf = some c) : c.new? = some leaf.content.value := by
  rw [(changeOf?_eq_some_iff.mp h).1]
  rfl

/-- **The changes are those between what stands at a path**, for every path at which the two trees
differ. New leaves and removals are one case in this. -/
theorem mem_changesBy_iff {cfg : Config} {old new : List Leaf} (hold : (old.map Leaf.path).Nodup)
    (hnew : (new.map Leaf.path).Nodup) {c : Change} :
    c ∈ changesBy cfg old new ↔
      ∃ p, c = changeAt p (contentAt? p old) (contentAt? p new) ∧
        differ cfg p (contentAt? p old) (contentAt? p new) = true := by
  rw [changesBy, List.mem_append, List.mem_filterMap, List.mem_filterMap]
  constructor
  · rintro (⟨⟨p, y⟩, hl, hc⟩ | ⟨⟨p, x⟩, hl, hc⟩)
    · refine ⟨p, ?_⟩
      rw [(contentAt?_eq_some_iff hnew).mpr hl]
      exact changeOf?_eq_some_iff.mp hc
    · obtain ⟨hgone, rfl⟩ := removalOf?_eq_some_iff.mp hc
      refine ⟨p, ?_⟩
      rw [(contentAt?_eq_some_iff hold).mpr hl, contentAt?_eq_none_iff.mpr hgone]
      exact ⟨rfl, rfl⟩
  · rintro ⟨p, rfl, hd⟩
    cases hy : contentAt? p new with
    | some y =>
        rw [hy] at hd
        exact .inl ⟨⟨p, y⟩, (contentAt?_eq_some_iff hnew).mp hy,
          changeOf?_eq_some_iff.mpr ⟨rfl, hd⟩⟩
    | none =>
        cases hx : contentAt? p old with
        | none => rw [hx, hy] at hd; exact absurd hd (by simp [differ])
        | some x =>
            exact .inr ⟨⟨p, x⟩, (contentAt?_eq_some_iff hold).mp hx,
              removalOf?_eq_some_iff.mpr ⟨contentAt?_eq_none_iff.mp hy, rfl⟩⟩

/-! ### Exact changesets -/

/-- Whether two leaves at one path show the same: strictly equal scalars, or containers of one kind.
Predicates of the caller are not asked. -/
def Content.agrees : Content → Content → Bool
  | container k, container l => k == l
  | atomic a, atomic b => a.samePrimitive b
  | _, _ => false

/-- A path is a leaf of one of two trees, and not a leaf of both that shows the same. Neither walks
nor tables are mentioned here: it is what a changeset is measured by. -/
def DiffersAt (b : Bool) (before after : Value) (p : Path) : Prop :=
  ((∃ x, LeafAt b before p x) ∨ ∃ y, LeafAt b after p y) ∧
    ¬∃ x y, LeafAt b before p x ∧ LeafAt b after p y ∧ x.agrees y = true

/-- A change tells what two trees show at a path. -/
structure Tells (b : Bool) (before after : Value) (p : Path) (c : Change) : Prop where
  /-- The change is at the path. -/
  path : c.path = p
  /-- The old value is the one of the leaf of the old tree, if there is one. -/
  old : ∀ v, c.old? = some v ↔ ∃ x, LeafAt b before p x ∧ x.value = v
  /-- The new value is the one of the leaf of the new tree, if there is one. -/
  new : ∀ v, c.new? = some v ↔ ∃ y, LeafAt b after p y ∧ y.value = v

/-- The changes under the texts of their paths are exactly the differences between two trees, each
once, with their values, and in the order of the trees. -/
structure Exact (b : Bool) (before after : Value) (table : Table Change) : Prop where
  /-- No two changes stand under one text. -/
  nodup : (table.map Prod.fst).Nodup
  /-- The texts are those of the paths at which the trees differ. -/
  keys : ∀ k, k ∈ table.map Prod.fst ↔ ∃ p, k = p.render ∧ DiffersAt b before after p
  /-- Under the text of a path stands what the trees show there. -/
  entries : ∀ p c, (p.render, c) ∈ table → Tells b before after p c
  /-- The places with a new value come in the order of the new tree, and then the ones that are
  gone in the order of the old tree. -/
  order : ∃ updated removed, table = updated ++ removed ∧
    (∀ e ∈ updated, e.2.new?.isSome = true) ∧
    (updated.map fun e => e.2.path).Sublist (after.nodes.map Node.path) ∧
    (∀ e ∈ removed, e.2.new? = none) ∧
    (removed.map fun e => e.2.path).Sublist (before.nodes.map Node.path)

section Exact

variable {b : Bool} {before after : Value} {old new : List Leaf}

/-- What stands at a path among the leaves of a tree is what the path shows, with the default
predicates. -/
theorem contentAt?_iff_leafAt (hk : before.WellKeyed)
    (h : leaves { includeContainers := b } before = .ok old) {p : Path} {x : Content} :
    contentAt? p old = some x ↔ LeafAt b before p x := by
  rw [contentAt?_eq_some_iff (nodup_leaves h hk), mem_leaves_iff h hk]

/-- The leaves of a tree come in its pre-order. -/
theorem leaves_sublist (h : leaves { includeContainers := b } before = .ok old) :
    (old.map Leaf.path).Sublist (before.nodes.map Node.path) := by
  rw [leaves_eq h, leavesFrom_default]
  refine map_filterMap_sublist (fun n leaf hl => ?_) _
  obtain ⟨x, -, rfl⟩ := Option.map_eq_some_iff.mp hl
  rfl

/-- With the default predicates leaves are equal when they show the same. -/
theorem equal_default (p : Path) (x y : Content) :
    x.equal { includeContainers := b } p y = x.agrees y := by
  cases x <;> cases y <;> simp [Content.equal, Content.agrees, Config.equates]

/-- Leaves differ where paths show that they do. -/
theorem differ_iff_differsAt (hb : before.WellKeyed) (ha : after.WellKeyed)
    (hold : leaves { includeContainers := b } before = .ok old)
    (hnew : leaves { includeContainers := b } after = .ok new) {p : Path} :
    differ { includeContainers := b } p (contentAt? p old) (contentAt? p new) = true ↔
      DiffersAt b before after p := by
  simp only [DiffersAt, ← contentAt?_iff_leafAt hb hold, ← contentAt?_iff_leafAt ha hnew]
  cases contentAt? p old <;> cases contentAt? p new <;> simp [differ, equal_default]

/-- The change between what stands at a path tells what the trees show there. -/
theorem tells_changeAt (hb : before.WellKeyed) (ha : after.WellKeyed)
    (hold : leaves { includeContainers := b } before = .ok old)
    (hnew : leaves { includeContainers := b } after = .ok new) (p : Path) :
    Tells b before after p (changeAt p (contentAt? p old) (contentAt? p new)) where
  path := rfl
  old v := by simp only [changeAt, Option.map_eq_some_iff, contentAt?_iff_leafAt hb hold]
  new v := by simp only [changeAt, Option.map_eq_some_iff, contentAt?_iff_leafAt ha hnew]

/-- The changes between the leaves of two trees are those at the paths where the trees differ. -/
theorem mem_changesBy_iff_differsAt (hb : before.WellKeyed) (ha : after.WellKeyed)
    (hold : leaves { includeContainers := b } before = .ok old)
    (hnew : leaves { includeContainers := b } after = .ok new) {c : Change} :
    c ∈ changesBy { includeContainers := b } old new ↔
      ∃ p, c = changeAt p (contentAt? p old) (contentAt? p new) ∧ DiffersAt b before after p := by
  rw [mem_changesBy_iff (nodup_leaves hold hb) (nodup_leaves hnew ha)]
  simp only [differ_iff_differsAt hb ha hold hnew]

/-- The paths of the changes with a new value come in the order of the new tree. They are among its
places, and no place comes twice. -/
theorem updated_sublist (old : List Leaf)
    (hnew : leaves { includeContainers := b } after = .ok new) :
    ((new.filterMap (changeOf? { includeContainers := b } old)).map Change.path).Sublist
      (after.nodes.map Node.path) :=
  (map_filterMap_sublist (fun _ _ => path_of_changeOf?) new).trans (leaves_sublist hnew)

/-- The paths of the removals come in the order of the old tree. -/
theorem removed_sublist (new : List Leaf)
    (hold : leaves { includeContainers := b } before = .ok old) :
    ((old.filterMap (removalOf? new)).map Change.path).Sublist (before.nodes.map Node.path) := by
  refine (map_filterMap_sublist (fun leaf c hc => ?_) old).trans (leaves_sublist hold)
  obtain ⟨-, rfl⟩ := removalOf?_eq_some_iff.mp hc
  rfl

end Exact

/-- **A changeset is exact**: with the default predicates its keys are the texts of the paths at
which the two trees differ, every change tells what the trees show at its path, and the changes
come in the order of the new tree, with the removals last, in the order of the old tree. -/
theorem changeTable_exact {b : Bool} {before after : Value} {table : Table Change}
    (hb : before.WellKeyed) (ha : after.WellKeyed)
    (h : changeTable { includeContainers := b } before after = .ok table) :
    Exact b before after table := by
  obtain ⟨old, hold, h⟩ := bind_eq_ok_iff.mp h
  obtain ⟨new, hnew, h⟩ := bind_eq_ok_iff.mp h
  have old_nodup := nodup_leaves hold hb
  have new_nodup := nodup_leaves hnew ha
  rw [tableOf_eq _ old_nodup new_nodup] at h
  obtain rfl := Except.ok.inj h
  constructor
  case nodup =>
    rw [keyed_fst]
    exact (nodup_changesBy _ old_nodup new_nodup).map fun _ _ he => Path.render_inj.mp he
  case keys =>
    intro k
    rw [keyed_fst, List.map_map, List.mem_map]
    constructor
    · rintro ⟨c, hc, rfl⟩
      obtain ⟨p, rfl, hd⟩ := (mem_changesBy_iff_differsAt hb ha hold hnew).mp hc
      exact ⟨p, rfl, hd⟩
    · rintro ⟨p, rfl, hd⟩
      exact ⟨_, (mem_changesBy_iff_differsAt hb ha hold hnew).mpr ⟨p, rfl, hd⟩, rfl⟩
  case entries =>
    intro p c hc
    obtain ⟨c', hc', he⟩ := List.mem_map.mp hc
    obtain ⟨hp, rfl⟩ := Prod.mk.inj he
    obtain ⟨q, rfl, -⟩ := (mem_changesBy_iff_differsAt hb ha hold hnew).mp hc'
    obtain rfl : q = p := Path.render_inj.mp hp
    exact tells_changeAt hb ha hold hnew q
  case order =>
    refine ⟨_, _, List.map_append, fun e he => ?_, ?_, fun e he => ?_, ?_⟩
    · obtain ⟨c, hc, rfl⟩ := List.mem_map.mp he
      obtain ⟨leaf, -, hl⟩ := List.mem_filterMap.mp hc
      rw [new?_of_changeOf? hl]
      rfl
    · rw [List.map_map]
      exact updated_sublist old hnew
    · obtain ⟨c, hc, rfl⟩ := List.mem_map.mp he
      obtain ⟨leaf, -, hl⟩ := List.mem_filterMap.mp hc
      rw [(removalOf?_eq_some_iff.mp hl).2]
      rfl
    · rw [List.map_map]
      exact removed_sublist new hold

/-- A hole is filled, and a list gives way to a dictionary whose key is the numeral of its index, so
that paths to one place stand side by side in the table. -/
theorem changeTable_exact_numeral :
    Exact true
      (.dict [(.str "k", .list [.int 1]), (.str "a", .list [.missing, .int 2])])
      (.dict [(.str "a", .list [.int 1, .int 2]), (.str "k", .dict [(.str "0", .int 1)])])
      [("$.a[0]", ⟨[.property "a", .index 0], none, some (.int 1), false⟩),
        ("$.k", ⟨[.property "k"], some (.list []), some (.dict []), false⟩),
        ("$.k[\"0\"]", ⟨[.property "k", .property "0"], none, some (.int 1), false⟩),
        ("$.k[0]", ⟨[.property "k", .index 0], some (.int 1), none, false⟩)] :=
  changeTable_exact (by decide) (by decide) rfl

end TreeDelta.Diff
