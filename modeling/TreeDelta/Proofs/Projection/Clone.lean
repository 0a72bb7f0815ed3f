import TreeDelta.Projection.Clone
import TreeDelta.Proofs.Tree.Part

/-!
# Pure copies are JSON

A pure copy is a JSON tree or missing altogether (`Value.json_of_clone`), and a JSON tree is its own
pure copy (`Value.clone_of_json`). Missing values never get into a copy, because a missing item
becomes null and a missing entry is left out.

## Main definitions

* `Value.Json`: trees of null, truth values, numbers, strings, lists and dictionaries with different
  string keys.

## Main results

* `Value.clone_of_json`: a JSON tree is its own pure copy.
* `Value.json_of_clone`: what a pure copy can be.
-/

namespace TreeDelta.Value

/-! ### JSON trees -/

/-- Whether a value can stand at a node of a JSON tree, as far as the value itself tells: what is
below it is asked at its own nodes. -/
def isJsonNode : Value → Bool
  | null | bool _ | int _ | float _ | str _ | list _ => true
  | dict entries => entries.all (fun e => e.1.isString) && decide (keys entries).Nodup
  | _ => false

/-- A tree of null, truth values, numbers, strings, lists and dictionaries with different string
keys. -/
def Json (v : Value) : Prop := v.every isJsonNode = true

instance (v : Value) : Decidable v.Json := inferInstanceAs (Decidable (_ = true))

/-- The values one step below a JSON tree are JSON trees, by the definition of `every`. -/
theorem Json.step {v w : Value} {c : Component} (h : v.Json) (hs : (c, w) ∈ v.steps) : w.Json :=
  (every_iff.mp h).2 c w hs

/-- A JSON tree is there: a missing value is no node of one, so a copy that is a JSON tree is not
missing. -/
theorem Json.present {v : Value} (h : v.Json) : v.isMissing = false := by
  have node := (every_iff.mp h).1
  cases v <;> simp_all [isJsonNode, isMissing]

/-- A list is a JSON tree when its items are. There can be no hole among them. -/
theorem json_list_iff {items : List Value} : (list items).Json ↔ ∀ v ∈ items, v.Json := by
  constructor
  · intro h v hv
    obtain ⟨i, hi⟩ := List.mem_iff_getElem?.mp hv
    exact h.step (mem_itemSteps_iff.mpr ⟨i, rfl, hi⟩)
  · intro h
    refine every_iff.mpr ⟨rfl, fun c v hv => ?_⟩
    obtain ⟨i, -, hi⟩ := mem_itemSteps_iff.mp hv
    exact h v (List.mem_of_getElem? hi)

/-- A dictionary is a JSON tree when its keys are different strings and its values are JSON
trees. -/
theorem json_dict_iff {entries : List (Value × Value)} :
    (dict entries).Json ↔
      (∀ e ∈ entries, (∃ k, e.1 = str k) ∧ e.2.Json) ∧ (keys entries).Nodup := by
  constructor
  · intro h
    obtain ⟨strings, nodup⟩ := Bool.and_eq_true_iff.mp (every_iff.mp h).1
    refine ⟨fun ⟨key, v⟩ he => ?_, of_decide_eq_true nodup⟩
    have string := List.all_eq_true.mp strings _ he
    cases key with
    | str k => exact ⟨⟨k, rfl⟩, h.step (mem_entrySteps_iff.mpr ⟨k, rfl, he⟩)⟩
    | _ => exact absurd string (by simp [isString])
  · rintro ⟨entry, nodup⟩
    refine every_iff.mpr ⟨Bool.and_eq_true_iff.mpr ⟨?_, decide_eq_true nodup⟩, fun c v hv => ?_⟩
    · refine List.all_eq_true.mpr fun e he => ?_
      obtain ⟨⟨k, hk⟩, -⟩ := entry e he
      rw [hk]
      rfl
    · obtain ⟨k, -, hmem⟩ := mem_entrySteps_iff.mp hv
      exact (entry _ hmem).2

/-- A JSON tree is tidy, as it has no holes in which a list could end. -/
theorem Json.tidy {v : Value} (h : v.Json) : v.Tidy :=
  tidy_of_steps (fun _ _ hs => (h.step hs).present) fun _ he => (every_iff.mp (he ▸ h)).1

/-- A slot of a JSON tree is missing or a JSON tree, according to whether the component fits and
names something. -/
theorem Json.slot {v : Value} (h : v.Json) (c : Component) :
    v.slot c = missing ∨ (v.slot c).Json :=
  (slot_eq_missing_or_mem_steps h.tidy.hasUniqueKeys c).imp_right h.step

/-- A JSON tree is neat. So what was proved of neat trees holds of every pure copy. -/
theorem Json.neat {v : Value} (h : v.Json) : v.Neat := by
  induction v using stepInduction with
  | step v ih =>
      refine neat_of_slots h.tidy fun c => ?_
      rcases slot_eq_missing_or_mem_steps h.tidy.hasUniqueKeys c with hm | hs
      · rw [hm]
        exact neat_missing
      · exact ih c (v.slot c) hs (h.step hs)

/-- What a path resolves to in a JSON tree is a JSON tree. By induction on the path. -/
theorem Json.find? {v x : Value} {q : Path} (h : v.Json) (hx : q.find? v = some x) : x.Json :=
  every_of_find? h.neat.wellKeyed h hx

/-! ### The copy of a JSON tree -/

/-- Items are resolved one by one. The recursion through the items, stated as a map. -/
theorem resolveItems_eq (items : List Value) : resolveItems items = items.map resolve := by
  induction items with
  | nil => rfl
  | cons v vs ih => rw [resolveItems, ih]; rfl

/-- Entries are resolved one by one, and keep their keys. -/
theorem resolveEntries_eq (entries : List (Value × Value)) :
    resolveEntries entries = entries.map fun e => (e.1, e.2.resolve) := by
  induction entries with
  | nil => rfl
  | cons e es ih => rw [resolveEntries, ih]; rfl

/-- Nothing in a JSON tree converts itself, and there are no paths or patterns in it to be
rendered. -/
theorem Json.resolve {v : Value} (h : v.Json) : v.resolve = v := by
  induction v using stepInduction with
  | step v ih =>
      have node := (every_iff.mp h).1
      cases v with
      | list items =>
          have same : ∀ w ∈ items, w.resolve = w := by
            intro w hw
            obtain ⟨i, hi⟩ := List.mem_iff_getElem?.mp hw
            exact ih _ w (mem_itemSteps_iff.mpr ⟨i, rfl, hi⟩) (json_list_iff.mp h w hw)
          rw [Value.resolve, resolveItems_eq, List.map_congr_left same, List.map_id']
      | dict entries =>
          have same : ∀ e ∈ entries, (e.1, e.2.resolve) = e := by
            intro e he
            obtain ⟨⟨k, hk⟩, json⟩ := (json_dict_iff.mp h).1 e he
            obtain ⟨key, w⟩ := e
            obtain rfl : key = str k := hk
            rw [ih _ w (mem_entrySteps_iff.mpr ⟨k, rfl, he⟩) json]
          rw [Value.resolve, resolveEntries_eq, List.map_congr_left same, List.map_id']
      | hooked label result => exact absurd node (by simp [isJsonNode])
      | path p => exact absurd node (by simp [isJsonNode])
      | pattern m => exact absurd node (by simp [isJsonNode])
      | tuple items => exact absurd node (by simp [isJsonNode])
      | _ => rfl

/-- A new key comes last. Only a key that is there already keeps its place. -/
theorem insert_of_notMem {k : String} {entries : List (Value × Value)} (h : k ∉ keys entries)
    (v : Value) : insert k v entries = entries ++ [(str k, v)] := by
  induction entries with
  | nil => rfl
  | cons e es ih =>
      obtain ⟨l, w⟩ := e
      cases l with
      | str l =>
          rw [keys_cons, List.mem_cons, not_or] at h
          rw [insert, if_neg (Ne.symm h.1), ih h.2]
          rfl
      | _ => exact congrArg (List.cons _) (ih h)

/-- The copies of items that are their own copies are these items; null is put in for none of
them. -/
theorem purifyItems_of_json {items : List Value} (h : ∀ v ∈ items, v.Json)
    (hp : ∀ v ∈ items, purify none v = .ok v) : purifyItems none items = .ok items := by
  induction items with
  | nil => rw [purifyItems]
  | cons v vs ih =>
      have rest := ih (fun w hw => h w (List.mem_cons_of_mem v hw))
        fun w hw => hp w (List.mem_cons_of_mem v hw)
      have there : v.orNull = v := by
        rw [orNull, (h v List.mem_cons_self).present]
        rfl
      rw [purifyItems, hp v List.mem_cons_self, rest]
      show Except.ok (v.orNull :: vs) = _
      rw [there]

/-- Entries with new keys whose values are their own copies are gathered one after the other. -/
theorem gather_of_json {entries done : List (Value × Value)} (h : (dict (done ++ entries)).Json)
    (hp : ∀ e ∈ entries, purify none e.2 = .ok e.2) :
    gather done (purifyEntries none entries) = .ok (done ++ entries) := by
  induction entries generalizing done with
  | nil => rw [purifyEntries, gather, List.append_nil]
  | cons e es ih =>
      obtain ⟨entry, nodup⟩ := json_dict_iff.mp h
      obtain ⟨⟨k, hk⟩, json⟩ := entry e (List.mem_append_right done List.mem_cons_self)
      obtain ⟨key, v⟩ := e
      obtain rfl : key = str k := hk
      have fresh : k ∉ keys done := by
        have apart : keys (done ++ (str k, v) :: es) = keys done ++ k :: keys es :=
          List.filterMap_append
        rw [apart] at nodup
        exact fun hk => (List.nodup_append.mp nodup).2.2 k hk k List.mem_cons_self rfl
      have copy : purify none v = .ok v := hp _ List.mem_cons_self
      have there : v.isMissing = false := json.present
      have step : gather done (purifyEntries none ((str k, v) :: es)) =
          gather (insert k v done) (purifyEntries none es) := by
        rw [purifyEntries, copy, gather]
        simp only [jsonKey?]
        show gather (if v.isMissing then done else insert k v done) _ = _
        rw [there]
        rfl
      rw [step, insert_of_notMem fresh, ih (by rwa [List.append_assoc])
        fun e he => hp e (List.mem_cons_of_mem _ he), List.append_assoc]
      rfl

/-- A JSON tree is converted to itself. By induction on the tree, where the keys of a dictionary are
different and so never overwrite each other. -/
theorem Json.purify {v : Value} (h : v.Json) : purify none v = .ok v := by
  induction v using stepInduction with
  | step v ih =>
      have node := (every_iff.mp h).1
      cases v with
      | list items =>
          have items_json := json_list_iff.mp h
          have copies := purifyItems_of_json items_json fun w hw => by
            obtain ⟨i, hi⟩ := List.mem_iff_getElem?.mp hw
            exact ih _ w (mem_itemSteps_iff.mpr ⟨i, rfl, hi⟩) (items_json w hw)
          rw [Value.purify, copies]
          rfl
      | dict entries =>
          have same : ∀ e ∈ entries, Value.purify none e.2 = .ok e.2 := by
            intro e he
            obtain ⟨⟨k, hk⟩, json⟩ := (json_dict_iff.mp h).1 e he
            obtain ⟨key, w⟩ := e
            obtain rfl : key = str k := hk
            exact ih _ w (mem_entrySteps_iff.mpr ⟨k, rfl, he⟩) json
          have copies : gather [] (purifyEntries none entries) = .ok entries :=
            gather_of_json h same
          rw [Value.purify, selected, copies]
          rfl
      | null | bool _ | int _ | float _ | str _ => rw [Value.purify]
      | _ => exact absurd node (by simp [isJsonNode])

/-- **A JSON tree is its own pure copy.** -/
theorem clone_of_json {v : Value} (h : v.Json) : v.clone = .ok v := by
  rw [clone, h.resolve, h.purify]

/-! ### What copies are -/

/-- A copy that takes the place of an item is a JSON tree, as null takes the place of what is left
out. -/
theorem json_orNull {v : Value} (h : v = missing ∨ v.Json) : v.orNull.Json := by
  rcases h with rfl | h
  · exact rfl
  · rw [orNull, h.present]
    exact h

/-- Copies that are JSON trees or missing are gathered to a JSON tree. What has been gathered before
is one; this is what each entry preserves. -/
theorem json_of_gather {rest : List (Value × Except CloneFault Value)}
    {done es : List (Value × Value)} (hd : (dict done).Json)
    (hr : ∀ e ∈ rest, ∀ s, e.2 = .ok s → s = missing ∨ s.Json)
    (h : gather done rest = .ok es) : (dict es).Json := by
  induction rest generalizing done with
  | nil =>
      rw [gather] at h
      obtain rfl := Except.ok.inj h
      exact hd
  | cons e rest ih =>
      obtain ⟨k, copy⟩ := e
      rw [gather] at h
      cases hk : k.jsonKey? with
      | none => rw [hk] at h; exact absurd h (by simp)
      | some key =>
          rw [hk] at h
          obtain ⟨v, hv, h⟩ := bind_eq_ok_iff.mp h
          refine ih ?_ (fun e he => hr e (List.mem_cons_of_mem _ he)) h
          rcases hr _ List.mem_cons_self v hv with rfl | json
          · exact hd
          · rw [json.present]
            obtain ⟨entry, nodup⟩ := json_dict_iff.mp hd
            refine json_dict_iff.mpr ⟨fun e he => ?_, nodup_keys_insert nodup⟩
            rcases mem_insert he with rfl | he
            · exact ⟨⟨key, rfl⟩, json⟩
            · exact entry e he

/-- The entries that are selected were there, under the keys they had. -/
theorem mem_of_mem_selected {α : Type} {keys? : Option (List String)} {entries : List (Value × α)}
    {e : Value × α} (h : e ∈ selected keys? entries) : e ∈ entries := by
  cases keys? with
  | none => exact h
  | some ks =>
      obtain ⟨k, -, hk⟩ := List.mem_filterMap.mp h
      exact List.mem_of_find?_eq_some hk

mutual

/-- A conversion gives a JSON tree or nothing. This goes by recursion on the value, together with
its items and its entries. -/
theorem json_of_purify {keys? : Option (List String)} :
    ∀ {v s : Value}, purify keys? v = .ok s → s = missing ∨ s.Json
  | .list items, s, h => by
      rw [Value.purify] at h
      obtain ⟨copies, hc, rfl⟩ := map_eq_ok_iff.mp h
      exact .inr (json_list_iff.mpr (json_of_purifyItems hc))
  | .tuple items, s, h => by
      rw [Value.purify] at h
      obtain ⟨copies, hc, rfl⟩ := map_eq_ok_iff.mp h
      exact .inr (json_list_iff.mpr (json_of_purifyItems hc))
  | .dict entries, s, h => by
      rw [Value.purify] at h
      obtain ⟨copies, hc, rfl⟩ := map_eq_ok_iff.mp h
      have start : (dict []).Json := rfl
      refine .inr (json_of_gather start (fun e he s hs => ?_) hc)
      exact json_of_purifyEntries (mem_of_mem_selected he) hs
  | .missing, s, h | .function _, s, h => by
      rw [Value.purify] at h
      exact .inl (Except.ok.inj h).symm
  | .null, s, h | .bool _, s, h | .int _, s, h | .float _, s, h | .str _, s, h => by
      rw [Value.purify] at h
      obtain rfl := Except.ok.inj h
      exact .inr rfl
  | .complex _ _, s, h | .bytes _, s, h | .set _, s, h | .object _ _ _, s, h | .hooked _ _, s, h
  | .path _, s, h | .pattern _, s, h => absurd h (by simp [Value.purify])

/-- The copies of items are JSON trees, null among them for what is left out. -/
theorem json_of_purifyItems {keys? : Option (List String)} :
    ∀ {vs ss : List Value}, purifyItems keys? vs = .ok ss → ∀ s ∈ ss, s.Json
  | [], ss, h => by
      rw [purifyItems] at h
      obtain rfl := Except.ok.inj h
      simp
  | v :: vs, ss, h => by
      rw [purifyItems] at h
      obtain ⟨copy, hcopy, h⟩ := bind_eq_ok_iff.mp h
      obtain ⟨copies, hcopies, h⟩ := bind_eq_ok_iff.mp h
      obtain rfl : copy.orNull :: copies = ss := Except.ok.inj h
      refine List.forall_mem_cons.mpr ⟨json_orNull (json_of_purify hcopy), ?_⟩
      exact json_of_purifyItems hcopies

/-- The copies of the values of a dictionary are JSON trees or missing; those that are missing get
no entry later. -/
theorem json_of_purifyEntries {keys? : Option (List String)} :
    ∀ {es : List (Value × Value)} {e : Value × Except CloneFault Value},
      e ∈ purifyEntries keys? es → ∀ {s}, e.2 = .ok s → s = missing ∨ s.Json
  | [], e, he, s, hs => absurd he (by simp [purifyEntries])
  | (k, v) :: es, e, he, s, hs => by
      rw [purifyEntries, List.mem_cons] at he
      rcases he with rfl | he
      · exact json_of_purify hs
      · exact json_of_purifyEntries he hs

end

/-- **A pure copy is a JSON tree**, or missing altogether. -/
theorem json_of_clone {v s : Value} (h : v.clone = .ok s) : s = missing ∨ s.Json :=
  json_of_purify h

end TreeDelta.Value
