import Mathlib.Data.List.Forall2
import TreeDelta.Proofs.Json.Read
import TreeDelta.Proofs.Settings.Merge
import TreeDelta.Settings.Document

/-!
# Settings files that are loaded

Settings files are merged from the least to the most important one. What the files give for an
option of a section is what the most important file that mentions it says, unless that is a null.
After the merge every section has exactly the options that are given
(`Settings.holds_of_foldlM`), whatever else is in the files.

A merge may only fail outside of these sections, where a file has a dictionary at a place at which
the files below it leave something else. Values in merged settings are what the most important file
says about their place (`Settings.Merged.origin`), so files that are stacked can be merged
(`Settings.exists_foldlM`).

A library loads the files, and nothing is known about it but that it gives dictionaries
(`Settings.Loader.GivesDictionaries`).

## Main definitions

* `Settings.Loader.GivesDictionaries`: what is relied on of the library.
* `Settings.Loads`: what documents are loaded as.
* `Settings.mention?`, `Settings.given?`: what files say about an option.
* `Settings.Plain`: files whose sections have no dictionaries in them.
* `Settings.Stacked`: files that can be merged, one over the other.

## Main results

* `Settings.holds_of_foldlM`: the sections of files that are merged.
* `Settings.stacked_of_flat`: files of nothing but sections are stacked.
* `Settings.exists_foldlM`: stacked files can be merged.
* `Settings.holds_of_load`, `Settings.exists_load`: what documents are loaded as, and when they are.
-/

namespace TreeDelta.Settings

open Value (Keyed Nested find? isDict isDict_iff nested_empty find?_eq_lookup)

variable {loader : Loader} {documents : List String} {es ms file : List (Value × Value)}
  {files before lower : List (List (Value × Value))} {s : Section} {o : String} {v : Value}
  {p : List Value}

/-! ### Files -/

/-- What is relied on of the library that loads settings files: what it gives are dictionaries, and
the dictionaries in them are, too, so that no key comes twice in any of them. -/
def Loader.GivesDictionaries (loader : Loader) : Prop :=
  ∀ text file, loader text = .ok file → Nested (.dict file)

/-- Documents are loaded as files, one by one, and none of them is refused. -/
def Loads (loader : Loader) : List String → List (List (Value × Value)) → Prop :=
  List.Forall₂ fun text file => loader text = .ok file

/-- The members of a JSON object are a dictionary. -/
theorem objectLoader_givesDictionaries : objectLoader.GivesDictionaries := by
  intro text file h
  rw [objectLoader] at h
  split at h
  · next es read =>
      obtain rfl := Except.ok.inj h
      exact Json.nested_of_read? read
  · exact absurd h (by simp)
  · exact absurd h (by simp)

/-- What a file says about an option of a section; a null is said, too. A section that is no
dictionary says nothing about its options. -/
def mentionIn? (s : Section) (o : String) (file : List (Value × Value)) : Option Value :=
  match Value.lookup s.name file with
  | some (.dict fields) => Value.lookup o fields
  | _ => none

/-- What the most important file that mentions an option of a section says about it. The most
important file is the last one, so files are asked from the end. -/
def mention? (files : List (List (Value × Value))) (s : Section) (o : String) : Option Value :=
  files.reverse.findSome? (mentionIn? s o)

/-- What files give for an option of a section: what is said about it, but no null. A null of an
important file hides what the others say, and puts nothing in its place. -/
def given? (files : List (List (Value × Value))) (s : Section) (o : String) : Option Value :=
  (mention? files s o).bind kept

/-- **One more file** gives what it mentions, and what was given before if it mentions nothing. -/
theorem given?_append (files : List (List (Value × Value))) (file : List (Value × Value))
    (s : Section) (o : String) :
    given? (files ++ [file]) s o = match mentionIn? s o file with
      | some v => kept v
      | none => given? files s o := by
  rw [given?, mention?, List.reverse_append, List.reverse_singleton, List.singleton_append,
    List.findSome?_cons]
  cases mentionIn? s o file <;> rfl

/-- No null is given, so an option that is given has a value. -/
theorem ne_null_of_given? (h : given? files s o = some v) : v ≠ .null := by
  obtain ⟨w, -, hw⟩ := Option.bind_eq_some_iff.mp h
  exact (kept_eq_some_iff.mp hw).2

/-- The sections of a file are dictionaries without dictionaries in them. What is in a file beside
the sections may have any form. -/
def Plain (file : List (Value × Value)) : Prop :=
  ∀ (s : Section) v, Value.lookup s.name file = some v →
    ∃ fields, v = .dict fields ∧ ∀ e ∈ fields, e.2.isDict = false

/-! ### Sections that are loaded -/

/-- Settings whose sections have the options that files give. -/
structure Holds (files : List (List (Value × Value))) (es : List (Value × Value)) : Prop where
  /-- The keys of the settings are different. -/
  keyed : Keyed es
  /-- A section has what is given, and is left out if that is nothing. -/
  fields : ∀ s : Section, ∃ fields, find? (.str s.name) es = shown fields ∧ Keyed fields ∧
    (∀ e ∈ fields, e.2.isDict = false) ∧ ∀ o, find? (.str o) fields = given? files s o

/-- No settings hold what no files give. This is where a merge of files starts. -/
theorem holds_nil : Holds [] [] :=
  ⟨Value.keyed_nil, fun _ => ⟨[], rfl, Value.keyed_nil, by simp, fun _ => rfl⟩⟩

/-- **Merging one more file** into settings adds what it gives. -/
theorem Holds.merge {settings : Value} (h : Holds files es) (nested : Nested (.dict file))
    (plain : Plain file) (hm : merge false (.dict es) (.dict file) = .ok settings) :
    ∃ ms, settings = .dict ms ∧ Holds (files ++ [file]) ms := by
  obtain ⟨ms, rfl, updates⟩ := updates_of_merge h.keyed nested.keyed hm
  refine ⟨ms, rfl, updates.keyed, fun s => ?_⟩
  obtain ⟨old, hold, keyed, flat, options⟩ := h.fields s
  simp only [given?_append, mentionIn?, ← find?_eq_lookup]
  cases hv : find? (.str s.name) file with
  | none => exact ⟨old, (updates.others _ hv).trans hold, keyed, flat, options⟩
  | some v =>
      obtain ⟨new, rfl, new_flat⟩ := plain s v (by rw [← find?_eq_lookup]; exact hv)
      have new_keyed := (nested.find? hv).keyed
      obtain ⟨fields, hf, fields_keyed, found⟩ := exists_merge_flat keyed new_keyed new_flat
      have start : (find? (.str s.name) es).getD (.dict []) = .dict old := by
        rw [hold, getD_shown]
      have shows := (becomes_dict start hf).symm.trans (updates.given _ _ hv)
      refine ⟨fields, (Except.ok.inj shows).symm, fields_keyed, fun e he => ?_, fun o => ?_⟩
      · have here := found e.1
        rw [fields_keyed.find?_of_mem (k := e.1) (v := e.2) he] at here
        split at here
        · next w hw =>
            obtain ⟨rfl, -⟩ := kept_eq_some_iff.mp here.symm
            exact Value.of_find? (P := (isDict · = false)) new_flat hw
        · exact Value.of_find? (P := (isDict · = false)) flat here.symm
      · have here := found (.str o)
        rw [options] at here
        exact here

/-- **Merging files** into settings, one by one, adds what they give. -/
theorem holds_of_foldlM {settings : Value} (h : Holds before es)
    (nested : ∀ file ∈ files, Nested (.dict file)) (plain : ∀ file ∈ files, Plain file)
    (hm : files.foldlM (fun settings file => merge false settings (.dict file)) (.dict es) =
      .ok settings) :
    ∃ ms, settings = .dict ms ∧ Holds (before ++ files) ms := by
  induction files generalizing before es with
  | nil =>
      obtain rfl := Except.ok.inj hm
      exact ⟨es, rfl, by rwa [List.append_nil]⟩
  | cons file files ih =>
      obtain ⟨hn, nested⟩ := List.forall_mem_cons.mp nested
      obtain ⟨hp, plain⟩ := List.forall_mem_cons.mp plain
      rw [List.foldlM_cons] at hm
      obtain ⟨next, hnext, hm⟩ := bind_eq_ok_iff.mp hm
      obtain ⟨ps, rfl, holds⟩ := h.merge hn hp hnext
      obtain ⟨ms, rfl, all⟩ := ih holds nested plain hm
      exact ⟨ms, rfl, by rwa [List.append_assoc] at all⟩

/-! ### Stacked files -/

/-- What files say about a key path: what the most important file says that says anything. -/
def standing? (files : List (List (Value × Value))) (p : List Value) : Option Value :=
  files.reverse.findSome? fun file => says? p (.dict file)

/-- One more file says what it says, and what was said before if it says nothing. The new file is
the most important one. -/
theorem standing?_append (files : List (List (Value × Value))) (file : List (Value × Value))
    (p : List Value) :
    standing? (files ++ [file]) p = (says? p (.dict file)).or (standing? files p) := by
  rw [standing?, List.reverse_append, List.reverse_singleton, List.singleton_append,
    List.findSome?_cons]
  cases says? p (.dict file) <;> rfl

/-- What files say about a key path is said by one of them, and so has whatever all files ensure of
what they say. -/
theorem exists_of_standing? (h : standing? files p = some v) :
    ∃ file ∈ files, says? p (.dict file) = some v := by
  obtain ⟨file, hfile, hv⟩ := List.exists_of_findSome?_eq_some h
  exact ⟨file, List.mem_reverse.mp hfile, hv⟩

/-- A file can stand over others when, outside of the sections, the others say nothing about a place
where it has a dictionary, or that a dictionary is there, or a null. -/
def StandsOver (file : List (Value × Value)) (lower : List (List (Value × Value))) : Prop :=
  ∀ k p fs, (∀ s : Section, k ≠ .str s.name) → at? (k :: p) (.dict file) = some (.dict fs) →
    ∀ v, standing? lower (k :: p) = some v → v ≠ .null → v.isDict = true

/-- Every file can stand over those that are less important, taken together: the condition under
which no merge of a file fails. -/
def Stacked (files : List (List (Value × Value))) : Prop :=
  ∀ lower file higher, files = lower ++ file :: higher → StandsOver file lower

/-- A dictionary without dictionaries in it is the only one at a key path, as a path into it ends at
another value. -/
theorem eq_nil_of_flat {fields fs : List (Value × Value)} {p : List Value}
    (flat : ∀ e ∈ fields, e.2.isDict = false) (hp : at? p (.dict fields) = some (.dict fs)) :
    p = [] := by
  cases p with
  | nil => rfl
  | cons k p =>
      obtain ⟨x, hx, hp⟩ := Option.bind_eq_some_iff.mp hp
      have bottom : x.isDict = false := Value.of_find? (P := (isDict · = false)) flat hx
      cases p with
      | nil =>
          obtain rfl := Option.some.inj hp
          exact absurd bottom (by simp [isDict])
      | cons l p => exact absurd ((at?_flat bottom l p).symm.trans hp) (by simp)

/-- Files with nothing but dictionaries without dictionaries in them are stacked. These are the
files that consist of sections only, known or not. -/
theorem stacked_of_flat (flat : ∀ file ∈ files, ∀ e ∈ file,
    ∃ fields, e.2 = .dict fields ∧ ∀ f ∈ fields, f.2.isDict = false) : Stacked files := by
  rintro lower file higher rfl k p fs - hp v hv -
  obtain ⟨x, hx, hp⟩ := Option.bind_eq_some_iff.mp hp
  obtain ⟨l, hl, -⟩ := Value.exists_mem_of_find? hx
  obtain ⟨fields, rfl, bottom⟩ := flat file (by simp) _ hl
  obtain rfl := eq_nil_of_flat bottom hp
  obtain ⟨low, hlow, said⟩ := exists_of_standing? hv
  obtain ⟨y, hy, said⟩ := Option.bind_eq_some_iff.mp said
  obtain rfl := Option.some.inj said
  obtain ⟨m, hm, -⟩ := Value.exists_mem_of_find? hy
  obtain ⟨others, rfl, -⟩ := flat low (List.mem_append_left _ hlow) _ hm
  rfl

/-- Plain files that can stand over one another outside of the sections can do so everywhere. -/
theorem StandsOver.everywhere (h : StandsOver file lower) (plain : Plain file)
    (others : ∀ low ∈ lower, Plain low) {fs : List (Value × Value)}
    (hp : at? p (.dict file) = some (.dict fs)) (hv : standing? lower p = some v)
    (set : v ≠ .null) : v.isDict = true := by
  cases p with
  | nil =>
      obtain ⟨low, -, said⟩ := exists_of_standing? hv
      obtain rfl := Option.some.inj said
      rfl
  | cons k p =>
      by_cases other : ∀ s : Section, k ≠ .str s.name
      · exact h k p fs other hp v hv set
      · obtain ⟨s, hs⟩ := not_forall.mp other
        obtain rfl := not_not.mp hs
        obtain ⟨x, hx, hp⟩ := Option.bind_eq_some_iff.mp hp
        rw [find?_eq_lookup] at hx
        obtain ⟨fields, rfl, flat⟩ := plain s x hx
        obtain rfl := eq_nil_of_flat flat hp
        obtain ⟨low, hlow, said⟩ := exists_of_standing? hv
        obtain ⟨y, hy, said⟩ := Option.bind_eq_some_iff.mp said
        obtain rfl := Option.some.inj said
        rw [find?_eq_lookup] at hy
        obtain ⟨old, rfl, -⟩ := others low hlow s y hy
        rfl

/-- Settings that come from files: they are nested, and what is no dictionary in them is what the
files say about its place, and no null. -/
structure Stems (files : List (List (Value × Value))) (es : List (Value × Value)) : Prop where
  /-- The settings are nested. -/
  nested : Nested (.dict es)
  /-- Values are what the files say. -/
  origin : ∀ p v, at? p (.dict es) = some v → v.isDict = false →
    v ≠ .null ∧ standing? files p = some v

/-- No settings come from no files. The empty settings are nested, and there is nothing in them to
be accounted for. -/
theorem stems_nil : Stems [] [] := by
  refine ⟨nested_empty, fun p v hv flat => ?_⟩
  cases p with
  | nil =>
      obtain rfl := Option.some.inj hv
      exact absurd flat (by simp [isDict])
  | cons k p => exact absurd hv (by simp [find?])

/-- **One more file** can be merged when it finds a dictionary, or nothing, wherever it has one. -/
theorem Stems.exists_merge (h : Stems files es) (nested : Nested (.dict file))
    (fits : ∀ p fs, at? p (.dict file) = some (.dict fs) →
      ∀ v, standing? files p = some v → v ≠ .null → v.isDict = true) :
    ∃ ms, merge false (.dict es) (.dict file) = .ok (.dict ms) ∧ Stems (files ++ [file]) ms := by
  have settings_fit : Fits (.dict es) (.dict file) := by
    intro p fs hp v hv
    by_contra other
    obtain ⟨set, said⟩ := h.origin p v hv (Bool.eq_false_iff.mpr other)
    exact other (fits p fs hp v said set)
  obtain ⟨ms, settles⟩ := exists_settles nested h.nested settings_fit
  refine ⟨ms, settles.result, settles.nested, fun p v hv flat => ?_⟩
  rw [standing?_append]
  rcases (merged_of_settles settles).origin rfl hv flat with ⟨said, set⟩ | ⟨nothing, old⟩
  · exact ⟨set, by rw [said]; rfl⟩
  · obtain ⟨set, said⟩ := h.origin p v old flat
    exact ⟨set, by rw [nothing, said]; rfl⟩

/-- **Stacked files can be merged**, one by one. -/
theorem exists_foldlM (h : Stems before es) (nested : ∀ file ∈ files, Nested (.dict file))
    (plain : ∀ file ∈ before ++ files, Plain file) (stacked : Stacked (before ++ files)) :
    ∃ settings,
      files.foldlM (fun settings file => merge false settings (.dict file)) (.dict es) =
        .ok settings := by
  induction files generalizing before es with
  | nil => exact ⟨.dict es, rfl⟩
  | cons file files ih =>
      obtain ⟨hn, nested⟩ := List.forall_mem_cons.mp nested
      have stands : StandsOver file before := stacked before file files rfl
      have others : ∀ low ∈ before, Plain low := fun low hlow =>
        plain low (List.mem_append_left _ hlow)
      obtain ⟨ms, hms, stems⟩ := h.exists_merge hn fun p fs hp v hv set =>
        stands.everywhere (plain file (by simp)) others hp hv set
      rw [List.append_cons] at plain stacked
      obtain ⟨settings, hs⟩ := ih stems nested plain stacked
      exact ⟨settings, by rw [List.foldlM_cons, hms]; exact hs⟩

/-! ### Documents -/

/-- What documents are loaded as is nested, one document at a time. -/
theorem Loader.GivesDictionaries.nested (gives : loader.GivesDictionaries)
    (loads : Loads loader documents files) : ∀ file ∈ files, Nested (.dict file) := by
  induction loads with
  | nil => simp
  | cons first _ ih => exact List.forall_mem_cons.mpr ⟨gives _ _ first, ih⟩

/-- Documents are loaded as their files are merged. Loading and merging take turns, but a load does
not depend on what was merged. -/
theorem foldlM_documents (loads : Loads loader documents files) (settings : Value) :
    documents.foldlM
        (fun settings text => do
          let es ← (loader text).mapError .document
          (merge false settings (.dict es)).mapError .merge)
        settings =
      (files.foldlM (fun settings file => merge false settings (.dict file)) settings).mapError
        Fault.merge := by
  induction loads generalizing settings with
  | nil => rfl
  | cons first _ ih =>
      rw [List.foldlM_cons, List.foldlM_cons, first]
      show (merge false settings _).mapError Fault.merge >>= _ = _
      cases merge false settings _ with
      | error fault => rfl
      | ok next => exact ih next

/-- **What documents are loaded as**: their files, merged. After this equation nothing is said about
documents any more. -/
theorem load_eq (loads : Loads loader documents files) :
    load loader false documents =
      (files.foldlM (fun settings file => merge false settings (.dict file)) (.dict [])).mapError
        Fault.merge :=
  foldlM_documents loads _

/-- **Settings that are loaded** have in their sections what the files give, if the sections of the
files are plain. -/
theorem holds_of_load {settings : Value} (gives : loader.GivesDictionaries)
    (loads : Loads loader documents files) (plain : ∀ file ∈ files, Plain file)
    (h : load loader false documents = .ok settings) :
    ∃ es, settings = .dict es ∧ Holds files es := by
  rw [load_eq loads, mapError_eq_ok_iff] at h
  exact holds_of_foldlM holds_nil (gives.nested loads) plain h

/-- **Stacked files are loaded**, if their sections are plain. -/
theorem exists_load (gives : loader.GivesDictionaries) (loads : Loads loader documents files)
    (plain : ∀ file ∈ files, Plain file) (stacked : Stacked files) :
    ∃ settings, load loader false documents = .ok settings := by
  obtain ⟨settings, hs⟩ := exists_foldlM stems_nil (gives.nested loads) plain stacked
  exact ⟨settings, by rw [load_eq loads, hs]; rfl⟩

end TreeDelta.Settings
