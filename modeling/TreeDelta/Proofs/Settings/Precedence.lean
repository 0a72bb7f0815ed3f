import Mathlib
import TreeDelta.Proofs.Settings.Files

/-!
# Which value an option gets

The options of a command come from the sections it builds on, from the general one to its own. Each
section adds its defaults and then what settings files give (`Settings.exists_addSection`), so an
option gets its value from the most special section that has one for it.

The options are found whenever the files can be merged. Files whose sections are in order can fail
to be merged all the same, because of what stands beside the sections
(`Settings.not_options_by_precedence`), but they cannot when they are stacked.

## Main definitions

* `Settings.ownValue?`: the value that a section has for an option.

## Main results

* `Settings.exists_foldlM_addSection`: the options of some sections.
* `Settings.options_by_precedence`: the options of a command.
* `Settings.not_options_by_precedence`: files in order that no options come from.
-/

namespace TreeDelta.Settings

open Value (Keyed Nested find? isDict find?_eq_lookup)

variable {loader : Loader} {documents : List String} {es os ms : List (Value × Value)}
  {files : List (List (Value × Value))} {s : Section} {o : String} {v : Value}

/-! ### Defaults -/

/-- What stands under the names of fields is looked up among them. Names are strings, which are
equal as keys when they are equal. -/
theorem find?_fields (fields : List (String × Value)) (o : String) :
    find? (.str o) (fields.map fun field => (.str field.1, field.2)) = fields.lookup o := by
  induction fields with
  | nil => rfl
  | cons field fields ih =>
      rw [List.map_cons, find?, ih, Value.same_str, List.lookup_cons, BEq.comm]
      cases h : field.1 == o <;> simp [h]

/-- The defaults of a section are under different names, so as a dictionary they are all there and
in their order. -/
theorem ofFields_defaults (s : Section) :
    Value.ofFields s.defaults = .dict (s.defaults.map fun field => (.str field.1, field.2)) := by
  cases s <;> rfl

/-- The names of options are different keys: no section declares an option twice. -/
theorem keyed_defaults (s : Section) :
    Keyed (s.defaults.map fun field => (.str field.1, field.2)) := by
  refine ⟨fun e he => ?_, ?_⟩
  · obtain ⟨field, -, rfl⟩ := List.mem_map.mp he
    rfl
  · cases s <;> simp [Section.defaults, Section.options, Value.same_str]

/-- No default is a dictionary or a null. So defaults are merged by putting them in place. -/
theorem default_ne (kind : OptionKind) : kind.default.isDict = false ∧ kind.default ≠ .null := by
  cases kind <;> simp [OptionKind.default, isDict]

/-- A section has a default for the options that it declares, and for no others. -/
theorem exists_lookup_defaults_iff :
    (∃ v, s.defaults.lookup o = some v) ↔ o ∈ s.options.map Prod.fst := by
  rw [Section.defaults]
  induction s.options with
  | nil => simp
  | cons option options ih =>
      rw [List.map_cons, List.lookup_cons, List.map_cons, List.mem_cons, ← ih]
      by_cases h : o = option.1
      · simp [h]
      · simp [h, beq_eq_false_iff_ne.mpr h]

/-- A default is the default of some kind of option. -/
theorem exists_kind_of_lookup_defaults (h : s.defaults.lookup o = some v) :
    ∃ kind : OptionKind, v = kind.default := by
  rw [← find?_fields] at h
  obtain ⟨k, hk, -⟩ := Value.exists_mem_of_find? h
  obtain ⟨field, hfield, pair⟩ := List.mem_map.mp hk
  obtain ⟨⟨name, kind⟩, -, rfl⟩ := List.mem_map.mp hfield
  exact ⟨kind, (Prod.mk.inj pair).2.symm⟩

/-! ### Sections, one after the other -/

/-- The value that a section has for an option: the one that files give, or else its default. -/
def ownValue? (files : List (List (Value × Value))) (o : String) (s : Section) : Option Value :=
  (given? files s o).or (s.defaults.lookup o)

/-- A section is added by merging its defaults and what the settings have for it. -/
theorem addSection_eq (es : List (Value × Value)) (options : Value) (s : Section) :
    addSection false (.dict es) options s =
      merge false options (.ofFields s.defaults) >>= fun options =>
        ((Value.lookup s.name es).map (merge false options)).getD (.ok options) := by
  rw [addSection]
  refine congrArg _ (funext fun options => ?_)
  cases h : Value.lookup s.name es <;> simp only [h] <;> rfl

/-- Merging the options of a section that is left out changes nothing, as merging none does. So a
section that no file mentions needs no case of its own. -/
theorem merge_shown (options : Value) (fields : List (Value × Value)) :
    ((shown fields).map (merge false options)).getD (.ok options) =
      merge false options (.dict fields) := by
  cases fields <;> rfl

/-- Defaults take the place of what was there. A special section thus resets an option that it
declares, too. -/
theorem exists_merge_defaults (keyed : Keyed os) (s : Section) :
    ∃ ms, merge false (.dict os) (.ofFields s.defaults) = .ok (.dict ms) ∧ Keyed ms ∧
      ∀ o, find? (.str o) ms = (s.defaults.lookup o).or (find? (.str o) os) := by
  have flat : ∀ e ∈ s.defaults.map (fun field => (Value.str field.1, field.2)),
      e.2.isDict = false := by
    intro e he
    obtain ⟨field, hfield, rfl⟩ := List.mem_map.mp he
    obtain ⟨⟨name, kind⟩, -, rfl⟩ := List.mem_map.mp hfield
    exact (default_ne kind).1
  obtain ⟨ms, hms, ms_keyed, found⟩ := exists_merge_flat keyed (keyed_defaults s) flat
  refine ⟨ms, by rw [ofFields_defaults]; exact hms, ms_keyed, fun o => ?_⟩
  rw [found, find?_fields]
  cases hd : s.defaults.lookup o with
  | none => rfl
  | some v =>
      obtain ⟨kind, rfl⟩ := exists_kind_of_lookup_defaults hd
      exact kept_of_ne_null (default_ne kind).2

/-- **One more section** has values of its own for some options and leaves the others as they
are. -/
theorem exists_addSection (holds : Holds files es) (keyed : Keyed os) (s : Section) :
    ∃ ms, addSection false (.dict es) (.dict os) s = .ok (.dict ms) ∧ Keyed ms ∧
      ∀ o, find? (.str o) ms = (ownValue? files o s).or (find? (.str o) os) := by
  obtain ⟨ps, hps, ps_keyed, defaults⟩ := exists_merge_defaults keyed s
  obtain ⟨fields, hfields, fields_keyed, flat, given⟩ := holds.fields s
  obtain ⟨ms, hms, ms_keyed, found⟩ := exists_merge_flat ps_keyed fields_keyed flat
  refine ⟨ms, ?_, ms_keyed, fun o => ?_⟩
  · rw [find?_eq_lookup] at hfields
    rw [addSection_eq, hps]
    show ((Value.lookup s.name es).map (merge false (.dict ps))).getD (.ok (.dict ps)) = _
    rw [hfields, merge_shown]
    exact hms
  · rw [found, given, defaults, ownValue?, Option.or_assoc]
    cases hg : given? files s o with
    | none => rfl
    | some v => exact kept_of_ne_null (ne_null_of_given? hg)

/-- **The options of some sections**: the last section that has a value for an option decides. -/
theorem exists_foldlM_addSection (holds : Holds files es) (keyed : Keyed os)
    (sections : List Section) :
    ∃ ms, sections.foldlM (addSection false (.dict es)) (.dict os) = .ok (.dict ms) ∧ Keyed ms ∧
      ∀ o, find? (.str o) ms =
        (sections.reverse.findSome? (ownValue? files o)).or (find? (.str o) os) := by
  induction sections generalizing os with
  | nil => exact ⟨os, rfl, keyed, fun _ => rfl⟩
  | cons s sections ih =>
      obtain ⟨ps, hps, ps_keyed, found⟩ := exists_addSection holds keyed s
      obtain ⟨ms, hms, ms_keyed, rest⟩ := ih ps_keyed
      refine ⟨ms, by rw [List.foldlM_cons, hps]; exact hms, ms_keyed, fun o => ?_⟩
      rw [rest, found, List.reverse_cons, List.findSome?_append, Option.or_assoc,
        List.findSome?_singleton]

/-! ### The options of a command -/

/-- Once settings are loaded, the options of a command are found. Nothing that can go wrong with
settings goes wrong after they were loaded. -/
theorem exists_resolve (c : Command) (holds : Holds files es)
    (loaded : load loader false documents = .ok (.dict es)) :
    ∃ ms, resolve loader false documents c = .ok (.dict ms) ∧
      ∀ o, Value.lookup o ms = c.settingsSection.lineage.reverse.findSome? (ownValue? files o) := by
  obtain ⟨ms, hms, -, found⟩ :=
    exists_foldlM_addSection holds Value.keyed_nil c.settingsSection.lineage
  refine ⟨ms, ?_, fun o => ?_⟩
  · rw [resolve, loaded]
    show (c.settingsSection.lineage.foldlM (addSection false (.dict es)) (.dict [])).mapError _ = _
    rw [hms]
    rfl
  · rw [← find?_eq_lookup, found]
    exact Option.or_none

/-- The options of a command are found exactly when the settings are loaded: loading is all that can
fail, as the sections of loaded settings can always be added. -/
theorem exists_resolve_iff (c : Command) (gives : loader.GivesDictionaries)
    (loads : Loads loader documents files) (plain : ∀ file ∈ files, Plain file) :
    (∃ options, resolve loader false documents c = .ok options) ↔
      ∃ settings, load loader false documents = .ok settings := by
  constructor
  · rintro ⟨options, h⟩
    obtain ⟨settings, loaded, -⟩ := bind_eq_ok_iff.mp h
    exact ⟨settings, loaded⟩
  · rintro ⟨settings, loaded⟩
    obtain ⟨es, rfl, holds⟩ := holds_of_load gives loads plain loaded
    obtain ⟨ms, hms, -⟩ := exists_resolve c holds loaded
    exact ⟨_, hms⟩

/-- Some section has a value for an option when some section declares the option or is given it. -/
theorem exists_ownValue?_iff {sections : List Section} :
    (∃ v, sections.reverse.findSome? (ownValue? files o) = some v) ↔
      ∃ s ∈ sections, o ∈ s.options.map Prod.fst ∨ ∃ v, given? files s o = some v := by
  rw [← Option.isSome_iff_exists, List.findSome?_isSome_iff]
  simp only [List.mem_reverse, ownValue?, Option.isSome_or, Bool.or_eq_true,
    Option.isSome_iff_exists, exists_lookup_defaults_iff]
  exact exists_congr fun s => and_congr_right fun _ => or_comm

/-- **The options of a command by precedence.** A library that gives dictionaries loads some
documents as files whose sections have no dictionaries in them. The options are found exactly when
the files can be merged, which they can when they are stacked. Then an option has a value when some
section of the command declares it or is given it, and the value is that of the most special such
section: what the files give, or else the default. -/
theorem options_by_precedence (c : Command) (gives : loader.GivesDictionaries)
    (loads : Loads loader documents files) (plain : ∀ file ∈ files, Plain file) :
    ((∃ options, resolve loader false documents c = .ok options) ↔
        ∃ settings, load loader false documents = .ok settings) ∧
      (Stacked files → ∃ options, resolve loader false documents c = .ok options) ∧
      ∀ options, resolve loader false documents c = .ok options →
        ∃ es, options = .dict es ∧ ∀ o,
          ((∃ v, Value.lookup o es = some v) ↔ ∃ s ∈ c.settingsSection.lineage,
            o ∈ s.options.map Prod.fst ∨ ∃ v, given? files s o = some v) ∧
          Value.lookup o es = c.settingsSection.lineage.reverse.findSome? fun s =>
            (given? files s o).or (s.defaults.lookup o) := by
  have resolved := exists_resolve_iff c gives loads plain
  refine ⟨resolved, fun stacked => resolved.mpr (exists_load gives loads plain stacked),
    fun options h => ?_⟩
  obtain ⟨settings, loaded⟩ := resolved.mp ⟨options, h⟩
  obtain ⟨es, rfl, holds⟩ := holds_of_load gives loads plain loaded
  obtain ⟨ms, hms, found⟩ := exists_resolve c holds loaded
  refine ⟨ms, Except.ok.inj (h.symm.trans hms), fun o => ⟨?_, found o⟩⟩
  rw [found]
  exact exists_ownValue?_iff

/-- A level that the more important file hides in one section, so that the one of a more general
section holds, a default, and an option that no section declares. -/
theorem options_by_precedence_hidden :
    ∃ es, resolve objectLoader false
        ["\x7b\"Global\": \x7b\"log_level\": \"DEBUG\"\x7d, " ++
            "\"Diff\": \x7b\"log_level\": \"ERROR\", \"extra\": 1\x7d\x7d",
          "\x7b\"Diff\": \x7b\"log_level\": null\x7d\x7d"] .diff = .ok (.dict es) ∧
      Value.lookup "log_level" es = some (.str "DEBUG") ∧
      Value.lookup "ignore" es = some (.list []) ∧
      Value.lookup "extra" es = some (.int 1) ∧ Value.lookup "first" es = none := by
  have loads : Loads objectLoader
      ["\x7b\"Global\": \x7b\"log_level\": \"DEBUG\"\x7d, " ++
          "\"Diff\": \x7b\"log_level\": \"ERROR\", \"extra\": 1\x7d\x7d",
        "\x7b\"Diff\": \x7b\"log_level\": null\x7d\x7d"]
      [[(.str "Global", .dict [(.str "log_level", .str "DEBUG")]),
          (.str "Diff", .dict [(.str "log_level", .str "ERROR"), (.str "extra", .int 1)])],
        [(.str "Diff", .dict [(.str "log_level", .null)])]] :=
    .cons (by cbv) (.cons (by cbv) .nil)
  have plain : ∀ file ∈
      [[(.str "Global", .dict [(.str "log_level", .str "DEBUG")]),
          (.str "Diff", .dict [(.str "log_level", .str "ERROR"), (.str "extra", .int 1)])],
        [(.str "Diff", .dict [(.str "log_level", .null)])]], Plain file := by
    refine List.forall_mem_cons.mpr ⟨?_, List.forall_mem_singleton.mpr ?_⟩ <;>
      · intro s v hv
        cases s <;> simp [Value.lookup, Section.name] at hv <;>
          exact ⟨_, hv.symm, by simp [isDict]⟩
  have stacked : Stacked
      [[(.str "Global", .dict [(.str "log_level", .str "DEBUG")]),
          (.str "Diff", .dict [(.str "log_level", .str "ERROR"), (.str "extra", .int 1)])],
        [(.str "Diff", .dict [(.str "log_level", .null)])]] := by
    refine stacked_of_flat (List.forall_mem_cons.mpr
      ⟨List.forall_mem_cons.mpr ⟨⟨_, rfl, ?_⟩, List.forall_mem_singleton.mpr ⟨_, rfl, ?_⟩⟩,
        List.forall_mem_singleton.mpr (List.forall_mem_singleton.mpr ⟨_, rfl, ?_⟩)⟩) <;>
      simp [isDict]
  obtain ⟨-, found, values⟩ :=
    options_by_precedence .diff objectLoader_givesDictionaries loads plain
  obtain ⟨options, ho⟩ := found stacked
  obtain ⟨es, rfl, value⟩ := values options ho
  exact ⟨es, ho, (value _).2.trans (by cbv), (value _).2.trans (by cbv), (value _).2.trans (by cbv),
    (value _).2.trans (by cbv)⟩

/-- **Files in order that no options come from**: beside the sections, of which there are none, the
more important file has an object where the other one has a number. -/
theorem not_options_by_precedence :
    let documents := ["\x7b\"Foo\": 1\x7d", "\x7b\"Foo\": \x7b\"a\": 1\x7d\x7d"]
    objectLoader.GivesDictionaries ∧
      (∃ files, Loads objectLoader documents files ∧ ∀ file ∈ files, Plain file) ∧
      ∀ c, ∃ fault, resolve objectLoader false documents c = .error fault := by
  intro documents
  have loads : Loads objectLoader documents
      [[(.str "Foo", .int 1)], [(.str "Foo", .dict [(.str "a", .int 1)])]] :=
    .cons (by cbv) (.cons (by cbv) .nil)
  have plain : ∀ file ∈ [[(.str "Foo", .int 1)], [(.str "Foo", .dict [(.str "a", .int 1)])]],
      Plain file := by
    refine List.forall_mem_cons.mpr ⟨?_, List.forall_mem_singleton.mpr ?_⟩ <;>
      · intro s v hv
        cases s <;> simp [Value.lookup, Section.name] at hv
  have failed : load objectLoader false documents = .error (.merge .target) := by
    rw [load_eq loads]
    cbv
  refine ⟨objectLoader_givesDictionaries, ⟨_, loads, plain⟩, fun c => ⟨.merge .target, ?_⟩⟩
  rw [resolve, failed]
  rfl

end TreeDelta.Settings
