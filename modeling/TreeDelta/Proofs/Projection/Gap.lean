import TreeDelta.Projection.Basic
import TreeDelta.Proofs.Projection.Clone

/-!
# Gaps

A part of a JSON tree has holes where items of a list are not kept, up to the last one that is
(`Value.Part.hasHole_iff`). Without its holes the part is a JSON tree again, and it is the tree
restricted to the kept places: entries and items at other places are dropped, and the items that are
left move together (`Value.Part.reordered_removeGaps`). Only the order of keys may differ, because a
part takes its entries in the order in which they were copied.

## Main definitions

* `Value.hasHole`: a list or a dictionary has a missing value in it, at any depth.
* `Value.restrict`: a tree without what is at places that are not kept.
* `Value.Reordered`: trees that differ in the order of keys alone.

## Main results

* `Value.Part.hasHole_iff`: where a part has holes.
* `Value.Part.json_removeGaps`: a part without its holes is a JSON tree.
* `Value.Part.reordered_removeGaps`: a part without its holes is the restricted tree.
-/

namespace TreeDelta.Value

/-! ### Holes -/

mutual

/-- Whether some list or dictionary in a value, at any depth, has a missing value in it. -/
def hasHole : Value → Bool
  | list items => itemHole items
  | dict entries => entryHole entries
  | _ => false

/-- Whether one of some items is missing or has a hole in it: the recursion of `hasHole` through a
list. -/
def itemHole : List Value → Bool
  | [] => false
  | v :: vs => v.isMissing || hasHole v || itemHole vs

/-- Whether the value of one of some entries is missing or has a hole in it: the recursion of
`hasHole` through a dictionary. -/
def entryHole : List (Value × Value) → Bool
  | [] => false
  | (_, v) :: es => v.isMissing || hasHole v || entryHole es

end

/-- One of some items has a hole in it or is one. In this form the recursion is not seen any
more. -/
theorem itemHole_iff {items : List Value} :
    itemHole items = true ↔ ∃ v ∈ items, v.isMissing = true ∨ v.hasHole = true := by
  induction items with
  | nil => simp [itemHole]
  | cons v vs ih => rw [itemHole, Bool.or_eq_true, Bool.or_eq_true, ih, List.exists_mem_cons_iff]

/-- The value of one of some entries has a hole in it or is one; keys play no part. -/
theorem entryHole_iff {entries : List (Value × Value)} :
    entryHole entries = true ↔ ∃ e ∈ entries, e.2.isMissing = true ∨ e.2.hasHole = true := by
  induction entries with
  | nil => simp [entryHole]
  | cons e es ih => rw [entryHole, Bool.or_eq_true, Bool.or_eq_true, ih, List.exists_mem_cons_iff]

/-- A hole of a tidy value is an item, or it is further down. Dictionaries drop an entry that
becomes missing, and so have no holes of their own. -/
theorem Tidy.hasHole_iff {v : Value} (h : v.Tidy) :
    v.hasHole = true ↔ ∃ c w, (c, w) ∈ v.steps ∧
      ((∃ i, c = .index i) ∧ w = missing ∨ w.hasHole = true) := by
  cases v with
  | list items =>
      rw [hasHole, itemHole_iff]
      constructor
      · rintro ⟨w, hw, hole⟩
        obtain ⟨i, hi⟩ := List.mem_iff_getElem?.mp hw
        refine ⟨.index (0 + i), w, mem_itemSteps_iff.mpr ⟨i, rfl, hi⟩, ?_⟩
        exact hole.imp (fun hm => ⟨⟨_, rfl⟩, isMissing_iff.mp hm⟩) id
      · rintro ⟨c, w, hs, hole⟩
        obtain ⟨i, -, hi⟩ := mem_itemSteps_iff.mp hs
        exact ⟨w, List.mem_of_getElem? hi, hole.imp (fun hm => isMissing_iff.mpr hm.2) id⟩
  | dict entries =>
      rw [hasHole, entryHole_iff]
      constructor
      · rintro ⟨⟨key, w⟩, he, hole⟩
        obtain ⟨⟨k, rfl⟩, present⟩ := h.2 _ he
        refine ⟨.property k, w, mem_entrySteps_iff.mpr ⟨k, rfl, he⟩, .inr ?_⟩
        exact hole.resolve_left (by simp [present])
      · rintro ⟨c, w, hs, hole⟩
        obtain ⟨k, rfl, he⟩ := mem_entrySteps_iff.mp hs
        exact ⟨_, he, hole.imp (fun hm => isMissing_iff.mpr hm.2) id⟩
  | _ => simp [hasHole, steps]

/-- **A neat tree has holes only in its lists**, each at a path of its own. -/
theorem Neat.hasHole_iff {v : Value} (h : v.Neat) :
    v.hasHole = true ↔
      ∃ (q : Path) (i : Nat), (q ++ [Component.index i] : Path).find? v = some missing := by
  induction v using stepInduction with
  | step v ih =>
      have unique := h.tidy.hasUniqueKeys
      have below : ∀ c w, (c, w) ∈ v.steps → (w.hasHole = true ↔
          ∃ (q : Path) (i : Nat), (q ++ [Component.index i] : Path).find? w = some missing) := by
        intro c w hs
        refine ih c w hs ?_
        have neat := h.slot c
        rwa [slot_of_mem_steps unique hs] at neat
      rw [h.tidy.hasHole_iff]
      constructor
      · rintro ⟨c, w, hs, ⟨⟨i, rfl⟩, rfl⟩ | hole⟩
        · refine ⟨[], i, ?_⟩
          rw [List.nil_append, find?_cons, (child?_eq_some_iff unique).mpr hs]
          rfl
        · obtain ⟨q, i, hq⟩ := (below c w hs).mp hole
          refine ⟨c :: q, i, ?_⟩
          rw [List.cons_append, find?_cons, (child?_eq_some_iff unique).mpr hs]
          exact hq
      · rintro ⟨q, i, hq⟩
        cases q with
        | nil =>
            rw [List.nil_append, find?_cons, Option.bind_eq_some_iff] at hq
            obtain ⟨w, hw, hq⟩ := hq
            obtain rfl := Option.some.inj hq
            exact ⟨_, _, (child?_eq_some_iff unique).mp hw, .inl ⟨⟨i, rfl⟩, rfl⟩⟩
        | cons c q =>
            rw [List.cons_append, find?_cons, Option.bind_eq_some_iff] at hq
            obtain ⟨w, hw, hq⟩ := hq
            have hs := (child?_eq_some_iff unique).mp hw
            exact ⟨c, w, hs, .inr ((below c w hs).mpr ⟨q, i, hq⟩)⟩

/-- A JSON tree has no holes, since no item or entry of it is missing. -/
theorem Json.hasHole {v : Value} (h : v.Json) : v.hasHole = false := by
  rw [Bool.eq_false_iff, Ne, h.neat.hasHole_iff]
  rintro ⟨q, i, hq⟩
  exact absurd (h.find? hq).present (by simp [isMissing])

/-- An item of a tree is in a list: a last component that is an index resolves only there. -/
theorem find?_concat_index {q : Path} {i : Nat} {v x : Value} :
    (q ++ [Component.index i] : Path).find? v = some x ↔
      ∃ items, q.find? v = some (list items) ∧ items[i]? = some x := by
  induction q generalizing v with
  | nil =>
      rw [List.nil_append, find?_cons]
      cases v <;> simp [child?, Path.find?]
  | cons c q ih =>
      rw [List.cons_append, find?_cons, find?_cons]
      simp only [Option.bind_eq_some_iff, ih]
      constructor
      · rintro ⟨w, hw, items, hq, hi⟩
        exact ⟨items, ⟨w, hw, hq⟩, hi⟩
      · rintro ⟨items, ⟨w, hw, hq⟩, hi⟩
        exact ⟨w, hw, items, hq, hi⟩

/-- An item before an item of a tree is there, too, though it may be a hole. -/
theorem exists_find?_of_lt {q : Path} {i j : Nat} {v x : Value} (hlt : i < j)
    (hx : (q ++ [Component.index j] : Path).find? v = some x) :
    ∃ y, (q ++ [Component.index i] : Path).find? v = some y := by
  obtain ⟨items, hitems, hj⟩ := find?_concat_index.mp hx
  obtain ⟨hlen, -⟩ := List.getElem?_eq_some_iff.mp hj
  have item : items[i]? = some items[i] := List.getElem?_eq_getElem (by omega)
  exact ⟨_, find?_concat_index.mpr ⟨items, hitems, item⟩⟩

/-- **After a hole** in a list of a neat tree comes an item that is there, as holes at the end of a
list are cut off. -/
theorem Neat.exists_find?_after {v : Value} (h : v.Neat) {q : Path} {i : Nat}
    (hole : (q ++ [Component.index i] : Path).find? v = some missing) :
    ∃ j x, i < j ∧ (q ++ [Component.index j] : Path).find? v = some x ∧ x.isMissing = false := by
  obtain ⟨items, hitems, hi⟩ := find?_concat_index.mp hole
  obtain ⟨hlt, -⟩ := List.getElem?_eq_some_iff.mp hi
  -- the last item of the list is there
  obtain ⟨x, hx⟩ : ∃ x, items[items.length - 1]? = some x :=
    ⟨_, List.getElem?_eq_getElem (by omega)⟩
  have tidy : (list items).Tidy := Path.get_of_find? hitems ▸ h q
  have present : x.isMissing = false := tidy x (by rw [List.getLast?_eq_getElem?, hx])
  refine ⟨items.length - 1, x, ?_, find?_concat_index.mpr ⟨items, hitems, hx⟩, present⟩
  rcases Nat.lt_or_ge i (items.length - 1) with before | after
  · exact before
  · have last : i = items.length - 1 := by omega
    rw [← last, hi] at hx
    obtain rfl := Option.some.inj hx
    exact absurd present (by simp [isMissing])

/-- **A part of a JSON tree has a hole** where an item is not kept and a later item of the same list
is. -/
theorem Part.hasHole_iff {keep : Path → Prop} {v t : Value} (h : Part keep v t) (hv : v.Json) :
    t.hasHole = true ↔ ∃ (q : Path) (i j : Nat), i < j ∧
      (∃ x, (q ++ [Component.index j] : Path).find? v = some x) ∧ keep (q ++ [.index j]) ∧
      ¬keep (q ++ [.index i]) := by
  rw [h.neat.hasHole_iff]
  constructor
  · rintro ⟨q, i, hole⟩
    obtain ⟨j, x, later, there, present⟩ := h.neat.exists_find?_after hole
    obtain ⟨hkeep, y, hy, -⟩ := h.exists_find? there present
    refine ⟨q, i, j, later, ⟨y, hy⟩, hkeep, fun hkept => ?_⟩
    -- an item that is kept shows what the tree shows, which has no holes
    obtain ⟨w, hw⟩ := exists_find?_of_lt later hy
    obtain ⟨z, hz, hm⟩ := h.exists_find?_of_keep hkept hw (hv.find? hw).present
    rw [hole] at hz
    obtain rfl := Option.some.inj hz
    exact absurd hm (by simp [isMissing])
  · rintro ⟨q, i, j, hlt, ⟨x, hx⟩, hkeep, hdrop⟩
    obtain ⟨y, hy, -⟩ := h.exists_find?_of_keep hkeep hx (hv.find? hx).present
    obtain ⟨w, hw⟩ := exists_find?_of_lt hlt hy
    have gone := h.dropped _ hdrop
    rw [Path.get_of_find? hw] at gone
    exact ⟨q, i, gone ▸ hw⟩

/-! ### Removing gaps -/

/-- The items that are left are those that are there, each without the gaps in it. -/
theorem mem_removeItemGaps {items : List Value} {r : Value} :
    r ∈ removeItemGaps items ↔ ∃ v ∈ items, v.isMissing = false ∧ v.removeGaps = r := by
  induction items with
  | nil => simp [removeItemGaps]
  | cons v vs ih =>
      rw [removeItemGaps, List.exists_mem_cons_iff, ← ih]
      cases v.isMissing <;> simp [eq_comm]

/-- All entries are left. Removing gaps drops items of lists only. -/
theorem removeEntryGaps_eq (entries : List (Value × Value)) :
    removeEntryGaps entries = entries.map fun e => (e.1, e.2.removeGaps) := by
  induction entries with
  | nil => rfl
  | cons e es ih => rw [removeEntryGaps, ih]; rfl

/-- The keys stay as they are, and in their order. -/
theorem keys_removeEntryGaps (entries : List (Value × Value)) :
    keys (removeEntryGaps entries) = keys entries := by
  rw [removeEntryGaps_eq, keys, keys, List.filterMap_map]
  refine List.filterMap_congr fun e _ => ?_
  obtain ⟨key, v⟩ := e
  cases key <;> rfl

/-- What was under a key is there without its gaps, and nothing is under any other key. -/
theorem lookup_removeEntryGaps (k : String) (entries : List (Value × Value)) :
    lookup k (removeEntryGaps entries) = (lookup k entries).map removeGaps := by
  induction entries with
  | nil => rfl
  | cons e es ih =>
      obtain ⟨key, v⟩ := e
      cases key with
      | str l =>
          rw [removeEntryGaps, lookup, lookup, ih]
          split <;> rfl
      | _ => exact ih

/-- What is no container has no gaps and is left as it is. -/
theorem removeGaps_of_kind? {v : Value} (h : v.kind? = none) : v.removeGaps = v := by
  cases v <;> first | rfl | exact absurd h (by simp [kind?])

/-- A JSON tree has no gaps, so removing them changes nothing. -/
theorem Json.removeGaps {v : Value} (h : v.Json) : v.removeGaps = v := by
  induction v using stepInduction with
  | step v ih =>
      cases v with
      | list items =>
          have same : ∀ vs : List Value, (∀ w ∈ vs, w.isMissing = false ∧ w.removeGaps = w) →
              removeItemGaps vs = vs := by
            intro vs hvs
            induction vs with
            | nil => rfl
            | cons w ws ihs =>
                obtain ⟨present, hw⟩ := hvs w List.mem_cons_self
                rw [removeItemGaps, present, hw, ihs fun x hx => hvs x (List.mem_cons_of_mem w hx)]
                rfl
          rw [Value.removeGaps, same items fun w hw => ?_]
          have json := json_list_iff.mp h w hw
          obtain ⟨i, hi⟩ := List.mem_iff_getElem?.mp hw
          exact ⟨json.present, ih _ w (mem_itemSteps_iff.mpr ⟨i, rfl, hi⟩) json⟩
      | dict entries =>
          have same : ∀ e ∈ entries, (e.1, e.2.removeGaps) = e := by
            intro e he
            obtain ⟨⟨k, hk⟩, json⟩ := (json_dict_iff.mp h).1 e he
            obtain ⟨key, w⟩ := e
            obtain rfl : key = str k := hk
            rw [ih _ w (mem_entrySteps_iff.mpr ⟨k, rfl, he⟩) json]
          rw [Value.removeGaps, removeEntryGaps_eq, List.map_congr_left same, List.map_id']
      | _ => rfl

/-! ### A part without its holes -/

/-- Nothing is a part of nothing. The items that a list does not have are parts in this sense. -/
theorem Part.eq_missing_of_missing {keep : Path → Prop} {t : Value} (h : Part keep missing t) :
    t = missing := by
  by_cases hk : keep []
  · exact (h.root hk).eq_missing
  · exact h.eq_missing hk

/-- **A part of a JSON tree without its holes is a JSON tree.** -/
theorem Part.json_removeGaps {keep : Path → Prop} {v t : Value} (h : Part keep v t) (hv : v.Json)
    (ht : t.isMissing = false) : t.removeGaps.Json := by
  induction t using stepInduction generalizing v keep with
  | step t ih =>
      have unique := h.neat.tidy.hasUniqueKeys
      have below : ∀ c u, (c, u) ∈ t.steps → u.isMissing = false → u.removeGaps.Json := by
        intro c u hs present
        have part := h.slot c
        rw [slot_of_mem_steps unique hs] at part
        rcases hv.slot c with hm | json
        · rw [hm] at part
          rw [part.eq_missing_of_missing] at present
          exact absurd present (by simp [isMissing])
        · exact ih c u hs part json present
      have same : SameRoot v t := by
        refine h.root ?_
        by_contra hk
        rw [h.eq_missing hk] at ht
        exact absurd ht (by simp [isMissing])
      cases t with
      | list items =>
          rw [Value.removeGaps]
          refine json_list_iff.mpr fun r hr => ?_
          obtain ⟨u, hu, present, rfl⟩ := mem_removeItemGaps.mp hr
          obtain ⟨i, hi⟩ := List.mem_iff_getElem?.mp hu
          exact below _ u (mem_itemSteps_iff.mpr ⟨i, rfl, hi⟩) present
      | dict entries =>
          obtain ⟨nodup, entry⟩ := h.neat.tidy
          rw [Value.removeGaps]
          refine json_dict_iff.mpr ⟨fun r hr => ?_, by rwa [keys_removeEntryGaps]⟩
          rw [removeEntryGaps_eq] at hr
          obtain ⟨⟨key, u⟩, he, rfl⟩ := List.mem_map.mp hr
          obtain ⟨⟨k, rfl⟩, present⟩ := entry _ he
          exact ⟨⟨k, rfl⟩, below _ u (mem_entrySteps_iff.mpr ⟨k, rfl, he⟩) present⟩
      | _ =>
          rw [same.scalar same.kind.symm]
          exact hv.removeGaps.symm ▸ hv

/-! ### Restricted trees -/

mutual

/-- A tree without what is at places that are not kept: items and entries at other places are
dropped, and the items that are left move together. -/
def restrict (keep : Path → Bool) : Value → Value
  | list items => list (restrictItems keep 0 items)
  | dict entries => dict (restrictEntries keep entries)
  | v => v

/-- The items at kept places, with indices from `i` on. The indices are those of the original
list. -/
def restrictItems (keep : Path → Bool) (i : Nat) : List Value → List Value
  | [] => []
  | v :: vs =>
    if keep [.index i] then
      restrict (fun q => keep (.index i :: q)) v :: restrictItems keep (i + 1) vs
    else restrictItems keep (i + 1) vs

/-- The entries under string keys at kept places, in their order. An entry under any other key has
no place, and is dropped. -/
def restrictEntries (keep : Path → Bool) : List (Value × Value) → List (Value × Value)
  | [] => []
  | (str k, v) :: es =>
    if keep [.property k] then
      (str k, restrict (fun q => keep (.property k :: q)) v) :: restrictEntries keep es
    else restrictEntries keep es
  | _ :: es => restrictEntries keep es

end

/-- What is under a key is restricted to the places that are kept below the key. -/
theorem lookup_restrictEntries (keep : Path → Bool) (k : String) (entries : List (Value × Value)) :
    lookup k (restrictEntries keep entries) =
      if keep [.property k] then
        (lookup k entries).map (restrict fun q => keep (.property k :: q))
      else none := by
  induction entries with
  | nil => split <;> rfl
  | cons e es ih =>
      obtain ⟨key, v⟩ := e
      cases key with
      | str l =>
          rw [restrictEntries, lookup]
          by_cases hl : l = k
          · subst hl
            cases hkeep : keep [.property l] with
            | true => simp [lookup]
            | false =>
                rw [hkeep] at ih
                exact ih
          · rw [if_neg hl, ← ih]
            split
            · rw [lookup, if_neg hl]
            · rfl
      | _ => exact ih

/-- A key is one of the keys when it has a value, since both look at string keys only. -/
theorem mem_keys_iff {k : String} {entries : List (Value × Value)} :
    k ∈ keys entries ↔ (lookup k entries).isSome = true := by
  rw [← not_iff_not, ← lookup_eq_none_iff]
  simp

/-- The keys that are left are the kept ones, in their order. -/
theorem keys_restrictEntries (keep : Path → Bool) (entries : List (Value × Value)) :
    keys (restrictEntries keep entries) =
      (keys entries).filter fun k => keep [.property k] := by
  induction entries with
  | nil => rfl
  | cons e es ih =>
      obtain ⟨key, v⟩ := e
      cases key with
      | str k =>
          rw [restrictEntries, keys_cons, List.filter_cons, ← ih]
          split <;> rfl
      | _ => exact ih

/-- Two trees that differ in the order of keys alone. The order of items matters, at every depth. -/
inductive Reordered : Value → Value → Prop
  /-- What is no container is the same. -/
  | leaf {v : Value} : v.kind? = none → Reordered v v
  /-- Items stand in the same order. -/
  | list {vs ws : List Value} : List.Forall₂ Reordered vs ws → Reordered (list vs) (list ws)
  /-- The same keys stand in any order. -/
  | dict {es fs : List (Value × Value)} : (keys es).Perm (keys fs) →
      (∀ k v w, lookup k es = some v → lookup k fs = some w → Reordered v w) →
      Reordered (dict es) (dict fs)

section Restrict

variable {keep : Path → Bool}

/-- Items that are parts of the items of a list are the restricted items once the holes among them
are removed. -/
theorem forall₂_removeItemGaps {vs ts : List Value} {i : Nat}
    (h : ∀ j, Part (fun q => keep (.index (i + j) :: q) = true) (vs[j]?.getD missing)
      (ts[j]?.getD missing))
    (hv : ∀ v ∈ vs, v.Json)
    (ih : ∀ v ∈ vs, ∀ (keep : Path → Bool) t, Part (keep · = true) v t → keep [] = true →
      Reordered t.removeGaps (v.restrict keep)) :
    List.Forall₂ Reordered (removeItemGaps ts) (restrictItems keep i vs) := by
  induction vs generalizing i ts with
  | nil =>
      -- nothing is a part of no item
      have holes : ∀ t ∈ ts, t = missing := by
        intro t ht
        obtain ⟨j, hj⟩ := List.mem_iff_getElem?.mp ht
        have part := h j
        rw [hj] at part
        exact part.eq_missing_of_missing
      have none_left : removeItemGaps ts = [] := by
        refine List.eq_nil_iff_forall_not_mem.mpr fun r hr => ?_
        obtain ⟨t, ht, present, -⟩ := mem_removeItemGaps.mp hr
        rw [holes t ht] at present
        exact absurd present (by simp [isMissing])
      rw [none_left]
      exact .nil
  | cons v vs ihv =>
      have rest : List.Forall₂ Reordered (removeItemGaps ts.tail)
          (restrictItems keep (i + 1) vs) := by
        refine ihv (fun j => ?_) (fun w hw => hv w (List.mem_cons_of_mem v hw))
          fun w hw => ih w (List.mem_cons_of_mem v hw)
        have part := h (j + 1)
        rwa [Nat.add_comm j 1, ← Nat.add_assoc, Nat.add_comm 1 j, List.getElem?_cons_succ,
          ← List.getElem?_tail] at part
      have head := h 0
      rw [Nat.add_zero] at head
      have json := hv v List.mem_cons_self
      cases hk : keep [.index i] with
      | true =>
          have same : SameRoot v (ts[0]?.getD missing) := head.root hk
          cases ts with
          | nil =>
              have gone : v.isMissing = true := same.isMissing.symm
              exact absurd (gone.symm.trans json.present) (by simp)
          | cons t ts =>
              have present : t.isMissing = false := same.isMissing.trans json.present
              have part : Part (fun q => keep (.index i :: q) = true) v t := head
              rw [removeItemGaps, restrictItems, present, hk]
              exact .cons (ih v List.mem_cons_self _ t part hk) rest
      | false =>
          have gone : ts[0]?.getD missing = missing := head.eq_missing (by simp [hk])
          rw [restrictItems, hk]
          cases ts with
          | nil => exact rest
          | cons t ts =>
              obtain rfl : t = missing := gone
              exact rest

/-- A part of a dictionary has an entry where one is kept, and this entry is a part of the entry of
the dictionary. -/
theorem lookup_of_part {es ts : List (Value × Value)}
    (h : Part (keep · = true) (dict es) (dict ts)) (hv : (dict es).Json) (k : String) :
    (lookup k ts = none ∧ (keep [.property k] = false ∨ lookup k es = none)) ∨
      ∃ u w, lookup k ts = some u ∧ lookup k es = some w ∧ keep [.property k] = true ∧
        Part (fun q => keep (.property k :: q) = true) w u := by
  have part := h.slot (.property k)
  rw [slot_dict, slot_dict] at part
  obtain ⟨entry, nodup⟩ := json_dict_iff.mp hv
  cases hu : lookup k ts with
  | none =>
      refine .inl ⟨rfl, ?_⟩
      rw [hu] at part
      cases hw : lookup k es with
      | none => exact .inr rfl
      | some w =>
          rw [hw] at part
          refine .inl (Bool.eq_false_iff.mpr fun kept => ?_)
          have json := (entry _ ((lookup_eq_some_iff nodup).mp hw)).2
          have gone : w.isMissing = true := (part.root kept).isMissing.symm
          exact absurd (gone.symm.trans json.present) (by simp)
  | some u =>
      rw [hu] at part
      have present := (h.neat.tidy.2 _ ((lookup_eq_some_iff h.neat.tidy.1).mp hu)).2
      cases hw : lookup k es with
      | none =>
          rw [hw] at part
          rw [show u = missing from part.eq_missing_of_missing] at present
          exact absurd present (by simp [isMissing])
      | some w =>
          rw [hw] at part
          refine .inr ⟨u, w, rfl, rfl, ?_, part⟩
          by_contra dropped
          rw [show u = missing from part.eq_missing dropped] at present
          exact absurd present (by simp [isMissing])

/-- **A part of a JSON tree without its holes is the tree restricted to the kept places**, up to the
order of keys. -/
theorem Part.reordered_removeGaps {v t : Value} (h : Part (keep · = true) v t) (hv : v.Json)
    (hk : keep [] = true) : Reordered t.removeGaps (v.restrict keep) := by
  induction v using stepInduction generalizing t keep with
  | step v ih =>
      have same := h.root hk
      cases v with
      | list vs =>
          obtain ⟨ts, rfl⟩ : ∃ ts, t = list ts := by
            cases t <;> first | exact ⟨_, rfl⟩ | exact absurd same.kind (by simp [kind?])
          rw [removeGaps, restrict]
          have json := json_list_iff.mp hv
          refine .list (forall₂_removeItemGaps (fun j => ?_) json fun w hw keep' u part hroot => ?_)
          · rw [Nat.zero_add]
            exact h.slot (.index j)
          · obtain ⟨j, hj⟩ := List.mem_iff_getElem?.mp hw
            exact ih _ w (mem_itemSteps_iff.mpr ⟨j, rfl, hj⟩) part (json w hw) hroot
      | dict es =>
          obtain ⟨ts, rfl⟩ : ∃ ts, t = dict ts := by
            cases t <;> first | exact ⟨_, rfl⟩ | exact absurd same.kind (by simp [kind?])
          rw [removeGaps, restrict]
          have entry := lookup_of_part h hv
          obtain ⟨-, nodup⟩ := json_dict_iff.mp hv
          refine .dict ?_ fun k u w hu hw => ?_
          · rw [keys_removeEntryGaps, keys_restrictEntries]
            refine (List.perm_ext_iff_of_nodup h.neat.tidy.1 (nodup.filter _)).mpr fun k => ?_
            rw [List.mem_filter, mem_keys_iff, mem_keys_iff]
            rcases entry k with ⟨gone, dropped⟩ | ⟨u, w, hu, hw, kept, -⟩
            · rw [gone]
              rcases dropped with dropped | dropped <;> simp [dropped]
            · simp [hu, hw, kept]
          · rw [lookup_removeEntryGaps] at hu
            rw [lookup_restrictEntries] at hw
            rcases entry k with ⟨gone, -⟩ | ⟨t, v, ht, hv', kept, part⟩
            · rw [gone] at hu
              exact absurd hu (by simp)
            · rw [ht] at hu
              rw [hv', kept] at hw
              obtain rfl := Option.some.inj hu
              obtain rfl := Option.some.inj hw
              have hs := mem_entrySteps_iff.mpr ⟨k, rfl, (lookup_eq_some_iff nodup).mp hv'⟩
              exact ih _ v hs part (hv.step hs) kept
      | _ =>
          obtain rfl := same.scalar rfl
          exact .leaf rfl

end Restrict

end TreeDelta.Value
