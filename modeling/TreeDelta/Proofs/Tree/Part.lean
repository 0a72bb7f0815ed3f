import Mathlib.Data.List.Infix
import TreeDelta.Proofs.Tree.Edit

/-!
# Parts of a tree

A tree `t` is the part of a tree `v` at some kept places when it shows at every kept place what `v`
shows there, and nothing at any other place (`Value.Part`). Places keep their paths: a list of the
part has holes where items are not kept. A part of a node of `v` that is written to its place takes
the place of what was there (`Value.Part.put`). So copying a node adds its place with everything
above and below it (`Value.Part.set`), and deleting a place takes it away with everything below it
(`Value.Part.erase`). The tree itself decides which of these two edits fit, so that neither their
order nor what the earlier ones did plays a role.

## Main definitions

* `Value.Neat`: a tree that is tidy at every path.
* `Value.SameRoot`: containers of one kind, or one and the same scalar.
* `Value.Part`: the part of a tree at some kept places.

## Main results

* `Value.Part.foldlM_set`: copying some nodes into a part.
* `Value.Part.foldl_erase`: deleting some nodes from a part.
-/

namespace TreeDelta

/-! ### Values at paths -/

namespace Path

/-- The value at the root is the tree. -/
theorem get_root (v : Value) : get [] v .missing = v := by
  rw [get, find?]
  cases v <;> rfl

/-- A path is resolved in the slot of its first component, whether anything is there or not. -/
theorem get_cons (c : Component) (p : Path) (v : Value) {d : Value} :
    get (c :: p) v d = get p (v.slot c) d := by
  rw [get, get, Value.find?_cons, Value.slot]
  cases v.child? c with
  | some w => rfl
  | none => cases p <;> rfl

/-- Nothing is found in a missing tree. -/
theorem get_missing (p : Path) {d : Value} : get p .missing d = d := by
  cases p <;> rfl

/-- A path is resolved one part after the other. -/
theorem get_append (p q : Path) (v : Value) :
    get (p ++ q) v .missing = get q (get p v .missing) .missing := by
  induction p generalizing v with
  | nil => rw [get_root, List.nil_append]
  | cons c p ih => rw [List.cons_append, get_cons, get_cons, ih]

/-- The value that a path resolves to is the value at the path. -/
theorem get_of_find? {p : Path} {v x : Value} (h : p.find? v = some x) : p.get v .missing = x := by
  rw [get, h]
  cases x <;> rfl

/-- Something is at a path when the path resolves to a value that is there. -/
theorem isMissing_get_iff {p : Path} {v : Value} :
    (p.get v .missing).isMissing = false ↔ ∃ x, p.find? v = some x ∧ x.isMissing = false := by
  constructor
  · intro h
    cases hf : p.find? v with
    | none =>
        rw [get, hf] at h
        exact absurd h (by simp [Value.isMissing])
    | some x =>
        rw [get_of_find? hf] at h
        exact ⟨x, rfl, h⟩
  · rintro ⟨x, hx, present⟩
    rw [get_of_find? hx]
    exact present

/-- Something is above a place where something is: only containers that are there have anything
below them. -/
theorem isMissing_get_of_isPrefix {p q : Path} {v : Value} (hpq : p <+: q)
    (h : (q.get v .missing).isMissing = false) : (p.get v .missing).isMissing = false := by
  obtain ⟨r, rfl⟩ := hpq
  rw [get_append] at h
  cases hm : (p.get v .missing).isMissing with
  | false => rfl
  | true =>
      rw [Value.isMissing_iff.mp hm, get_missing] at h
      exact absurd h (by simp [Value.isMissing])

end Path

namespace Value

/-! ### Neat trees -/

/-- Every value of a tree is tidy: no list ends in a hole, and no dictionary has a missing value or
two entries under one key. It is said in terms of paths, so that it passes on to slots at once. -/
def Neat (v : Value) : Prop := ∀ q : Path, (q.get v missing).Tidy

/-- The root of a neat tree is tidy. -/
theorem Neat.tidy {v : Value} (h : v.Neat) : v.Tidy := by
  have root := h []
  rwa [Path.get_root] at root

/-- What is in a slot of a neat tree is neat. -/
theorem Neat.slot {v : Value} (h : v.Neat) (c : Component) : (v.slot c).Neat := by
  intro q
  have below := h (c :: q)
  rwa [Path.get_cons] at below

/-- A missing tree is neat. -/
theorem neat_missing : missing.Neat := by
  intro q
  rw [Path.get_missing]
  trivial

/-- A tree is neat when it is tidy and neat in every slot. This is how neatness is proved from
below. -/
theorem neat_of_slots {v : Value} (ht : v.Tidy) (hs : ∀ c, (v.slot c).Neat) : v.Neat := by
  intro q
  cases q with
  | nil => rwa [Path.get_root]
  | cons c q =>
      rw [Path.get_cons]
      exact hs c q

/-- The keys of a tidy value are different. -/
theorem Tidy.hasUniqueKeys {v : Value} (h : v.Tidy) : v.hasUniqueKeys = true := by
  cases v with
  | dict entries => exact decide_eq_true h.1
  | _ => rfl

/-- The keys in a neat tree are different. -/
theorem Neat.wellKeyed {v : Value} (h : v.Neat) : v.WellKeyed := by
  induction v using stepInduction with
  | step v ih =>
      have unique := h.tidy.hasUniqueKeys
      refine every_iff.mpr ⟨unique, fun c w hs => ih c w hs ?_⟩
      have below := h.slot c
      rwa [slot_of_mem_steps unique hs] at below

/-! ### Parts -/

/-- Two values have the same root: they are containers of one kind, or one and the same value that
is no container. What is in the containers may differ. -/
structure SameRoot (v w : Value) : Prop where
  /-- They are containers of one kind, or none is a container. -/
  kind : w.kind? = v.kind?
  /-- What is no container is the same. -/
  scalar : v.kind? = none → w = v

/-- A value has the same root as itself. -/
theorem SameRoot.refl (v : Value) : SameRoot v v := ⟨rfl, fun _ => rfl⟩

/-- A value with the root of a missing one is missing. -/
theorem SameRoot.eq_missing {w : Value} (h : SameRoot missing w) : w = missing := h.scalar rfl

/-- A value is missing when one with its root is. -/
theorem SameRoot.isMissing {v w : Value} (h : SameRoot v w) : w.isMissing = v.isMissing := by
  cases hk : v.kind? with
  | none => rw [h.scalar hk]
  | some k =>
      have there : ∀ u : Value, u.kind? = some k → u.isMissing = false := by
        intro u hu
        exact isMissing_of_isContainer (by rw [isContainer, hu]; rfl)
      rw [there v hk, there w (h.kind.trans hk)]

/-- Two values with the root of a third one have one root. -/
theorem SameRoot.of_left {u v w : Value} (hv : SameRoot u v) (hw : SameRoot u w) :
    SameRoot v w where
  kind := hw.kind.trans hv.kind.symm
  scalar bare := by
    have scalar := hv.kind.symm.trans bare
    rw [hv.scalar scalar, hw.scalar scalar]

/-- A tree is the part of another one at the kept places: it shows what that one shows there, and
nothing is at the other places. It is an invariant that copying and deleting keep, with the kept
places as a parameter. -/
structure Part (keep : Path → Prop) (v t : Value) : Prop where
  /-- The part is neat. -/
  neat : t.Neat
  /-- A kept place has the same root. -/
  kept : ∀ q, keep q → SameRoot (q.get v missing) (q.get t missing)
  /-- Nothing is at any other place. -/
  dropped : ∀ q, ¬keep q → q.get t missing = missing

namespace Part

variable {keep keep' : Path → Prop} {v t : Value}

/-- What is in a slot of a part is a part of what is in this slot of the tree, at the kept places
below. -/
theorem slot (h : Part keep v t) (c : Component) :
    Part (fun q => keep (c :: q)) (v.slot c) (t.slot c) where
  neat := h.neat.slot c
  kept q hq := by
    rw [← Path.get_cons, ← Path.get_cons]
    exact h.kept (c :: q) hq
  dropped q hq := by
    rw [← Path.get_cons]
    exact h.dropped (c :: q) hq

/-- The root of a part at kept places with the root is the root of the tree. -/
theorem root (h : Part keep v t) (hk : keep []) : SameRoot v t := by
  have root := h.kept [] hk
  rwa [Path.get_root, Path.get_root] at root

/-- Nothing is left where the root is not kept. -/
theorem eq_missing (h : Part keep v t) (hk : ¬keep []) : t = missing := by
  have root := h.dropped [] hk
  rwa [Path.get_root] at root

/-- A tidy container with parts in its slots is a part. This is how parts are proved from below. -/
theorem of_slots (hr : keep []) (hs : SameRoot v t) (ht : t.Tidy)
    (slots : ∀ c, Part (fun q => keep (c :: q)) (v.slot c) (t.slot c)) : Part keep v t where
  neat := neat_of_slots ht fun c => (slots c).neat
  kept q hq := by
    cases q with
    | nil => rwa [Path.get_root, Path.get_root]
    | cons c q =>
        rw [Path.get_cons, Path.get_cons]
        exact (slots c).kept q hq
  dropped q hq := by
    cases q with
    | nil => exact absurd hr hq
    | cons c q =>
        rw [Path.get_cons]
        exact (slots c).dropped q hq

/-- Which places are kept only matters where something is. Two descriptions of the kept places may
differ elsewhere. -/
theorem congr (h : Part keep v t)
    (hk : ∀ q, (q.get v missing).isMissing = false → (keep q ↔ keep' q)) : Part keep' v t := by
  -- where nothing is in the tree, nothing is in the part
  have nothing : ∀ q : Path, (q.get v missing).isMissing = true → q.get t missing = missing := by
    intro q hq
    by_cases hkeep : keep q
    · have same := h.kept q hkeep
      rw [isMissing_iff.mp hq] at same
      exact same.eq_missing
    · exact h.dropped q hkeep
  refine ⟨h.neat, fun q hq => ?_, fun q hq => ?_⟩
  · cases hm : (q.get v missing).isMissing with
    | true =>
        rw [nothing q hm, isMissing_iff.mp hm]
        exact .refl missing
    | false => exact h.kept q ((hk q hm).mpr hq)
  · cases hm : (q.get v missing).isMissing with
    | true => exact nothing q hm
    | false => exact h.dropped q fun hkeep => hq ((hk q hm).mp hkeep)

/-- A missing part stays one when fewer places are kept. -/
theorem of_missing (h : Part keep v missing) (hk : ∀ q, keep' q → keep q) :
    Part keep' v missing where
  neat := neat_missing
  kept q hq := h.kept q (hk q hq)
  dropped q _ := Path.get_missing q

/-- A neat tree is its own part at all places. -/
theorem refl (hv : v.Neat) : Part (fun _ => True) v v where
  neat := hv
  kept _ _ := .refl _
  dropped _ hq := absurd trivial hq

/-- The empty container is the part of a container at its root. -/
theorem empty {k : Kind} (hk : v.kind? = some k) : Part (fun q => q = []) v (empty k) := by
  obtain ⟨kind, tidy⟩ := kind?_empty k
  refine .of_slots rfl ⟨kind.trans hk.symm, fun hn => absurd (hn.symm.trans hk) (by simp)⟩ tidy ?_
  intro c
  rw [slot_empty]
  refine ⟨neat_missing, fun q hq => absurd hq (by simp), fun q _ => Path.get_missing q⟩

/-- A scalar is its own part at its root. -/
theorem scalar (hv : v.kind? = none) : Part (fun q => q = []) v v := by
  have slots : ∀ c, v.slot c = missing := fun c =>
    slot_of_kind?_ne fun h => absurd (hv.symm.trans h) (by simp)
  have tidy : v.Tidy := by cases v <;> trivial
  refine .of_slots rfl (.refl v) tidy fun c => ?_
  rw [slots c]
  exact ⟨neat_missing, fun q hq => absurd hq (by simp), fun q _ => Path.get_missing q⟩

/-- What is at a place of a part is kept, and something is at this place of the tree. So a part has
nothing of its own. -/
theorem exists_find? (h : Part keep v t) {q : Path} {x : Value} (hx : q.find? t = some x)
    (present : x.isMissing = false) :
    keep q ∧ ∃ y, q.find? v = some y ∧ y.isMissing = false := by
  have there := Path.isMissing_get_iff.mpr ⟨x, hx, present⟩
  have hkeep : keep q := by
    by_contra hq
    rw [h.dropped q hq] at there
    exact absurd there (by simp [Value.isMissing])
  rw [(h.kept q hkeep).isMissing] at there
  exact ⟨hkeep, Path.isMissing_get_iff.mp there⟩

/-- What is at a kept place of the tree is at this place of the part. -/
theorem exists_find?_of_keep (h : Part keep v t) {q : Path} {y : Value} (hq : keep q)
    (hy : q.find? v = some y) (present : y.isMissing = false) :
    ∃ x, q.find? t = some x ∧ x.isMissing = false := by
  have there := Path.isMissing_get_iff.mpr ⟨y, hy, present⟩
  rw [← (h.kept q hq).isMissing] at there
  exact Path.isMissing_get_iff.mp there

end Part

/-- A child is in its slot, and its container fits the component. -/
theorem slot_of_child? {v w : Value} {c : Component} (h : v.child? c = some w) :
    v.slot c = w ∧ v.kind? = some c.kind := by
  refine ⟨by rw [slot, h]; rfl, ?_⟩
  cases v <;> cases c <;> simp_all [child?, kind?, Component.kind]

/-- A write below a missing value steps into a new container. -/
theorem set_missing_cons {c : Component} {p : Path} {x : Value} (hx : x.isMissing = false) :
    Path.set (c :: p) missing x = Path.set (c :: p) (Value.empty c.kind) x := by
  rw [Path.set, Path.set, if_neg (by simp [hx]), if_neg (by simp [hx])]
  cases c <;> rfl

namespace Part

variable {keep keep' : Path → Prop} {v t : Value}

/-- A write into a part steps into a container that fits the tree, which is there already or new.
Either way it has the slots of the part, so that the write goes on as in a slot of the tree. -/
theorem exists_opened (h : Part keep v t) {c : Component} (hv : v.kind? = some c.kind) :
    ∃ u, u.kind? = some c.kind ∧ u.Tidy ∧ (∀ d, u.slot d = t.slot d) ∧
      ∀ p x, x.isMissing = false → Path.set (c :: p) t x = Path.set (c :: p) u x := by
  by_cases hk : keep []
  · exact ⟨t, (h.root hk).kind.trans hv, h.neat.tidy, fun _ => rfl, fun _ _ _ => rfl⟩
  · obtain rfl := h.eq_missing hk
    obtain ⟨kind, tidy⟩ := kind?_empty c.kind
    exact ⟨Value.empty c.kind, kind, tidy, slot_empty c.kind, fun p x hx => set_missing_cons hx⟩

/-- **Writing a part of a node into a part** of its tree puts the one in place of what was there.
This is the general form of copying, from which the others follow. -/
theorem put {keepx : Path → Prop} {w x : Value} (h : Part keep v t) {p : Path}
    (hp : p.find? v = some w) (hx : x.isMissing = false) (part : Part keepx w x) :
    ∃ t', p.set t x = .ok t' ∧
      Part (fun q => (keep q ∧ ¬p <+: q) ∨ q <+: p ∨ ∃ r, q = p ++ r ∧ keepx r) v t' := by
  induction p generalizing keep v t with
  | nil =>
      obtain rfl := Option.some.inj hp
      have root : keepx [] := by
        by_contra none_kept
        rw [part.eq_missing none_kept] at hx
        exact absurd hx (by simp [isMissing])
      refine ⟨x, Path.set_root t hx, part.congr fun q _ => ?_⟩
      constructor
      · exact fun hq => .inr (.inr ⟨q, rfl, hq⟩)
      · rintro (⟨-, other⟩ | at_root | ⟨r, rfl, hr⟩)
        · exact absurd List.nil_prefix other
        · rwa [List.prefix_nil.mp at_root]
        · exact hr
  | cons c p ih =>
      rw [find?_cons, Option.bind_eq_some_iff] at hp
      obtain ⟨w', hw', hp⟩ := hp
      obtain ⟨rfl, fits⟩ := slot_of_child? hw'
      obtain ⟨u, kind, tidy, slots, opened⟩ := h.exists_opened fits
      obtain ⟨r, hr, below⟩ := ih (h.slot c) hp
      rw [← slots c] at hr
      obtain ⟨t', ht', swapped⟩ := Path.set_cons kind tidy hr
      refine ⟨t', (opened p x hx).trans ht', .of_slots (.inr (.inl List.nil_prefix)) ?_
        swapped.tidy fun d => ?_⟩
      · refine ⟨(swapped.kind.trans kind).trans fits.symm, fun hn => ?_⟩
        exact absurd (hn.symm.trans fits) (by simp)
      · by_cases hd : d = c
        · subst hd
          rw [swapped.self]
          refine below.congr fun q _ => ?_
          rw [List.cons_prefix_cons, List.cons_prefix_cons]
          simp
        · rw [swapped.others d hd, slots d]
          refine (h.slot d).congr fun q _ => ?_
          rw [List.cons_prefix_cons, List.cons_prefix_cons]
          simp [hd, Ne.symm hd]

/-- **Copying a node into a part** adds its place, with what is above and below it. The places above
come in as empty containers where they were not kept. -/
theorem set (h : Part keep v t) (hv : v.Neat) {p : Path} {x : Value} (hp : p.find? v = some x)
    (hx : x.isMissing = false) :
    ∃ t', p.set t x = .ok t' ∧ Part (fun q => keep q ∨ q <+: p ∨ p <+: q) v t' := by
  have node : x.Neat := by
    have below : ∀ q : Path, ((p ++ q).get v missing).Tidy := fun q => hv (p ++ q)
    intro q
    rw [← Path.get_of_find? hp, ← Path.get_append]
    exact below q
  obtain ⟨t', ht', part⟩ := h.put hp hx (.refl node)
  refine ⟨t', ht', part.congr fun q _ => ?_⟩
  constructor
  · rintro (⟨hq, -⟩ | above | ⟨r, rfl, -⟩)
    · exact .inl hq
    · exact .inr (.inl above)
    · exact .inr (.inr (List.prefix_append p r))
  · rintro (hq | above | ⟨r, rfl⟩)
    · by_cases below : p <+: q
      · obtain ⟨r, rfl⟩ := below
        exact .inr (.inr ⟨r, rfl, trivial⟩)
      · exact .inl ⟨hq, below⟩
    · exact .inr (.inl above)
    · exact .inr (.inr ⟨r, rfl, trivial⟩)

/-- **Deleting a place from a part** takes it away, with what is below it. Places above stay, even
if nothing is left in them. -/
theorem erase (h : Part keep v t) {p : Path} {x : Value} (hp : p.find? v = some x) :
    Part (fun q => keep q ∧ ¬p <+: q) v (p.erase t) := by
  induction p generalizing keep v t with
  | nil =>
      refine ⟨neat_missing, fun q hq => absurd List.nil_prefix hq.2, fun q _ => ?_⟩
      exact Path.get_missing q
  | cons c p ih =>
      rw [find?_cons, Option.bind_eq_some_iff] at hp
      obtain ⟨w, hw, hp⟩ := hp
      obtain ⟨rfl, fits⟩ := slot_of_child? hw
      by_cases hk : keep []
      · have same := h.root hk
        have swapped := Path.erase_cons (q := p) (same.kind.trans fits) h.neat.tidy
        refine .of_slots ⟨hk, by simp⟩ ?_ swapped.tidy fun d => ?_
        · refine ⟨swapped.kind.trans same.kind, fun hn => ?_⟩
          exact absurd (hn.symm.trans fits) (by simp)
        · by_cases hd : d = c
          · subst hd
            rw [swapped.self]
            refine (ih (h.slot d) hp).congr fun q _ => ?_
            rw [List.cons_prefix_cons]
            simp
          · rw [swapped.others d hd]
            refine (h.slot d).congr fun q _ => ?_
            rw [List.cons_prefix_cons]
            simp [Ne.symm hd]
      · -- nothing is there to delete from
        obtain rfl := h.eq_missing hk
        rw [Path.erase_of_kind?_eq_none rfl]
        exact h.of_missing fun q hq => hq.1

/-- **Copying some nodes of a tree into a part** adds their places, with what is above and below
them. -/
theorem foldlM_set (h : Part keep v t) (hv : v.Neat) {ns : List Node}
    (hns : ∀ n ∈ ns, n.path.find? v = some n.value ∧ n.value.isMissing = false) :
    ∃ t', ns.foldlM (fun t n => n.path.set t n.value) t = .ok t' ∧
      Part (fun q => keep q ∨ ∃ n ∈ ns, q <+: n.path ∨ n.path <+: q) v t' := by
  induction ns generalizing keep t with
  | nil => exact ⟨t, rfl, h.congr fun q _ => by simp⟩
  | cons n ns ih =>
      obtain ⟨hn, present⟩ := hns n List.mem_cons_self
      obtain ⟨t₁, ht₁, part₁⟩ := h.set hv hn present
      obtain ⟨t', ht', part⟩ := ih part₁ fun n' hn' => hns n' (List.mem_cons_of_mem n hn')
      refine ⟨t', ?_, part.congr fun q _ => ?_⟩
      · rw [List.foldlM_cons, ht₁]
        exact ht'
      · rw [List.exists_mem_cons_iff, or_assoc]

/-- **Deleting some places of a tree from a part** takes them away, with what is below them. -/
theorem foldl_erase (h : Part keep v t) {ns : List Node}
    (hns : ∀ n ∈ ns, ∃ x, n.path.find? v = some x) :
    Part (fun q => keep q ∧ ∀ n ∈ ns, ¬n.path <+: q) v
      (ns.foldl (fun t n => n.path.erase t) t) := by
  induction ns generalizing keep t with
  | nil => exact h.congr fun q _ => by simp
  | cons n ns ih =>
      obtain ⟨x, hx⟩ := hns n List.mem_cons_self
      have part := ih (h.erase hx) fun n' hn' => hns n' (List.mem_cons_of_mem n hn')
      refine part.congr fun q _ => ?_
      rw [List.forall_mem_cons, and_assoc]

end Part

end Value

end TreeDelta
