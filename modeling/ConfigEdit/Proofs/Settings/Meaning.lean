import ConfigEdit.Proofs.Outcome
import ConfigEdit.Settings.Accessors

/-!
# What settings say

Six values of the settings have a meaning.  `Settings.Usable` lists what each of
them can be, and `Settings.Spells` relates merged settings to the options that
they spell.  The check accepts exactly the settings that spell some options
(`Settings.check_eq_ok_iff`) and otherwise names the first value that cannot be
used (`Settings.check_eq_error_iff`).  Looked up one by one, without the check,
the values of accepted settings are the same (`Settings.Spells.printOptions_eq`,
`Settings.Spells.discoverOptions_eq`): no default takes the place of a value
that is there.
-/

namespace ConfigEdit

namespace Json

variable {json : Json} {text : Text} {texts : List Text} {value : Bool}
    {number : Nat}

/-- The value is a natural number. -/
def IsNat (json : Json) (number : Nat) : Prop :=
  ∃ fits, json = .number (.integer number fits)

theorem nat?_eq_some : json.nat? = some number ↔ json.IsNat number := by
  constructor
  · intro read
    cases json with
    | number inner =>
        cases inner with
        | integer value fits =>
            simp only [nat?, Number.toNat?, Option.ite_none_right_eq_some,
              Option.some.injEq] at read
            obtain ⟨natural, rfl⟩ := read
            refine ⟨?_, ?_⟩ <;> simp [Int.toNat_of_nonneg natural, fits]
        | float _ => contradiction
    | _ => contradiction
  · rintro ⟨fits, rfl⟩
    simp [nat?, Number.toNat?]

theorem string?_eq_some : json.string? = some text ↔ json = .string text := by
  cases json <;> simp [string?]

theorem boolean?_eq_some :
    json.boolean? = some value ↔ json = .boolean value := by
  cases json <;> simp [boolean?]

theorem mapM_string?_eq_some {items : List Json} :
    items.mapM string? = some texts ↔ items = texts.map .string := by
  induction items generalizing texts with
  | nil => simp [eq_comm]
  | cons item others induction =>
      rw [List.mapM_cons]
      constructor
      · intro read
        obtain ⟨first, found, read⟩ := Option.bind_eq_some_iff.1 read
        obtain ⟨further, rest, same⟩ := Option.bind_eq_some_iff.1 read
        cases same
        rw [string?_eq_some.1 found, induction.1 rest, List.map_cons]
      · intro same
        cases texts with
        | nil => contradiction
        | cons first further =>
            obtain ⟨rfl, behind⟩ := List.cons.inj same
            rw [induction.2 behind]
            rfl

theorem strings?_eq_some :
    json.strings? = some texts ↔ json = .array (texts.map .string) := by
  cases json with
  | array items => simp [strings?, mapM_string?_eq_some]
  | _ => simp [strings?]

end Json

/-- The name of a style of quotation marks. -/
def QuoteStyle.name : QuoteStyle → Text
  | .single => "single".toList
  | .double => "double".toList

/-- The dotted path of a setting. -/
def InvalidSetting.path : InvalidSetting → String
  | .indent => "print.indent"
  | .quote => "print.quote"
  | .trailingComma => "print.trailing_comma"
  | .maxDepth => "discover.max_depth"
  | .patterns => "discover.patterns"
  | .skipDirs => "discover.skip_dirs"

/-- Every message begins with the path of its setting. -/
theorem InvalidSetting.path_isPrefix_message (setting : InvalidSetting) :
    setting.path.toList <+: setting.message.toList := by
  cases setting <;> decide

namespace Settings

/-- What a setting can be. -/
def Usable (setting : InvalidSetting) (json : Json) : Prop :=
  match setting with
  | .indent => ∃ width, json.IsNat width ∧ width ≤ maxIndent
  | .quote => ∃ style : QuoteStyle, json = .string style.name
  | .trailingComma => ∃ value, json = .boolean value
  | .maxDepth => ∃ depth, json.IsNat depth ∧ 1 ≤ depth ∧ depth ≤ maxSearchDepth
  | .patterns | .skipDirs =>
      ∃ texts : List Text, json = .array (texts.map .string)

/-- The setting is there, is of the right kind and lies in its range. -/
def Provides (value : Json) (setting : InvalidSetting) : Prop :=
  ∃ json, value.dotted? setting.path.toList = some json ∧ Usable setting json

/-- The options are the values that stand at the six paths. -/
structure Spells (value : Json) (options : Checked) : Prop where
  indent : ∃ json number, value.dotted? "print.indent".toList = some json ∧
    json.IsNat number ∧ number ≤ maxIndent ∧
    options.print.indent = List.replicate number ' '
  quote : value.dotted? "print.quote".toList =
    some (.string options.print.quote.name)
  trailingComma :
    value.dotted? "print.trailing_comma".toList =
      some (.boolean options.print.trailingComma)
  patterns :
    value.dotted? "discover.patterns".toList =
      some (.array (options.discover.patterns.map .string))
  maxDepth : ∃ json, value.dotted? "discover.max_depth".toList = some json ∧
    json.IsNat options.discover.maxDepth ∧ 1 ≤ options.discover.maxDepth ∧
      options.discover.maxDepth ≤ maxSearchDepth
  skipDirs :
    value.dotted? "discover.skip_dirs".toList =
      some (.array (options.discover.skipDirs.map .string))

/-- The order in which the settings are checked. -/
def order : List InvalidSetting :=
  [.indent, .quote, .trailingComma, .maxDepth, .patterns, .skipDirs]

/-- The setting is the first one that cannot be used. -/
def Refuses (value : Json) (setting : InvalidSetting) : Prop :=
  ∃ before after, order = before ++ setting :: after ∧
    (∀ earlier ∈ before, Provides value earlier) ∧ ¬ Provides value setting

section Checking

variable {value json : Json} {options : Checked} {setting : InvalidSetting}
    {kind : Type}

theorem natBetween?_eq_some {least most number : Nat} :
    natBetween? least most json = some number ↔
      json.IsNat number ∧ least ≤ number ∧ number ≤ most := by
  simp [natBetween?, Option.filter_eq_some_iff, Json.nat?_eq_some]

theorem quoteStyle?_eq_some {name : Text} {style : QuoteStyle} :
    quoteStyle? name = some style ↔ name = style.name := by
  rw [quoteStyle?]
  by_cases single : name = "single".toList
  · subst single
    cases style <;> decide
  · rw [if_neg single]
    by_cases double : name = "double".toList
    · subst double
      cases style <;> decide
    · rw [if_neg double]
      have named : name ≠ style.name := by
        cases style with
        | single => exact single
        | double => exact double
      simp [named]

theorem require_eq_ok {found : kind} {result : Option kind} :
    require setting result = .ok found ↔ result = some found := by
  cases result <;> simp [require]

theorem provides_iff {read : Json → Option kind}
    (reads : ∀ json, Usable setting json ↔ ∃ found, read json = some found) :
    Provides value setting ↔
      ∃ found, (value.dotted? setting.path.toList).bind read = some found := by
  simp only [Provides, reads, Option.bind_eq_some_iff]
  constructor
  · rintro ⟨json, there, found, same⟩
    exact ⟨found, json, there, same⟩
  · rintro ⟨found, json, there, same⟩
    exact ⟨json, there, found, same⟩

theorem usable_indent :
    Usable .indent json ↔
      ∃ width, natBetween? 0 maxIndent json = some width := by
  simp [Usable, natBetween?_eq_some]

theorem usable_quote :
    Usable .quote json ↔
      ∃ style, json.string?.bind quoteStyle? = some style := by
  simp [Usable, Option.bind_eq_some_iff, Json.string?_eq_some,
    quoteStyle?_eq_some]

theorem usable_trailingComma :
    Usable .trailingComma json ↔ ∃ value, json.boolean? = some value := by
  simp [Usable, Json.boolean?_eq_some]

theorem usable_maxDepth :
    Usable .maxDepth json ↔
      ∃ depth, natBetween? 1 maxSearchDepth json = some depth := by
  simp [Usable, natBetween?_eq_some]

theorem usable_texts (list : setting = .patterns ∨ setting = .skipDirs) :
    Usable setting json ↔ ∃ texts, json.strings? = some texts := by
  rcases list with rfl | rfl <;> simp [Usable, Json.strings?_eq_some]

/-- Settings are accepted as the options that they spell. -/
theorem check_eq_ok_iff : check value = .ok options ↔ Spells value options := by
  simp only [check, bind_eq_ok, require_eq_ok, Option.bind_eq_some_iff,
    natBetween?_eq_some, Json.string?_eq_some, Json.boolean?_eq_some,
    Json.strings?_eq_some, quoteStyle?_eq_some]
  constructor
  · rintro ⟨width, ⟨indent, indentThere, isWidth, -, widthBound⟩,
      style, ⟨name, ⟨quote, quoteThere, rfl⟩, rfl⟩,
      comma, ⟨trailing, trailingThere, rfl⟩,
      depth, ⟨maxDepth, depthThere, isDepth, least, most⟩,
      patterns, ⟨patternList, patternsThere, rfl⟩,
      skipDirs, ⟨skipList, skipThere, rfl⟩, same⟩
    cases same
    exact
      { indent := ⟨indent, width, indentThere, isWidth, widthBound, rfl⟩
        quote := quoteThere
        trailingComma := trailingThere
        patterns := patternsThere
        maxDepth := ⟨maxDepth, depthThere, isDepth, least, most⟩
        skipDirs := skipThere }
  · intro spells
    obtain ⟨indent, width, indentThere, isWidth, widthBound, spaces⟩ :=
      spells.indent
    obtain ⟨maxDepth, depthThere, isDepth, least, most⟩ := spells.maxDepth
    refine ⟨width, ⟨indent, indentThere, isWidth, Nat.zero_le _, widthBound⟩,
      _, ⟨_, ⟨_, spells.quote, rfl⟩, rfl⟩, _, ⟨_, spells.trailingComma, rfl⟩,
      _, ⟨maxDepth, depthThere, isDepth, least, most⟩,
      _, ⟨_, spells.patterns, rfl⟩, _, ⟨_, spells.skipDirs, rfl⟩, ?_⟩
    rw [← spaces]
    rfl

/-- A check that fails does so at the value that is read now, or behind it. -/
theorem refuses_or_goes_on
    {read : Json → Option kind} {step : kind → Except InvalidSetting Checked}
    {reason : InvalidSetting} {before after : List InvalidSetting}
    (provided : ∀ earlier ∈ before, Provides value earlier)
    (split : order = before ++ reason :: after)
    (reads : ∀ json, Usable reason json ↔ ∃ found, read json = some found)
    (failed :
      (require reason ((value.dotted? reason.path.toList).bind read) >>= step) =
        .error setting) :
    Refuses value setting ∨
      (∀ earlier ∈ before ++ [reason], Provides value earlier) ∧
        ∃ found, step found = .error setting := by
  have provides : Provides value reason ↔ _ := provides_iff reads
  cases result : (value.dotted? reason.path.toList).bind read with
  | none =>
      rw [result] at failed provides
      cases failed
      refine .inl ⟨before, after, split, provided, ?_⟩
      simp [provides]
  | some found =>
      rw [result] at failed provides
      have here : Provides value reason := provides.2 ⟨found, rfl⟩
      refine .inr ⟨fun earlier inside => ?_, found, failed⟩
      rcases List.mem_append.1 inside with inside | inside
      · exact provided earlier inside
      · exact List.mem_singleton.1 inside ▸ here

theorem refuses_of_check (failed : check value = .error setting) :
    Refuses value setting := by
  simp only [check, Option.bind_assoc] at failed
  rcases refuses_or_goes_on (List.forall_mem_nil _) rfl
    (fun _ => usable_indent) failed with refuses | ⟨provided, width, failed⟩
  · exact refuses
  rcases refuses_or_goes_on provided rfl (fun _ => usable_quote) failed with
    refuses | ⟨provided, style, failed⟩
  · exact refuses
  rcases refuses_or_goes_on provided rfl (fun _ => usable_trailingComma)
    failed with refuses | ⟨provided, comma, failed⟩
  · exact refuses
  rcases refuses_or_goes_on provided rfl (fun _ => usable_maxDepth) failed with
    refuses | ⟨provided, depth, failed⟩
  · exact refuses
  rcases refuses_or_goes_on provided rfl (fun _ => usable_texts (.inl rfl))
    failed with refuses | ⟨provided, patterns, failed⟩
  · exact refuses
  rcases refuses_or_goes_on provided rfl (fun _ => usable_texts (.inr rfl))
    failed with refuses | ⟨provided, skipDirs, failed⟩
  · exact refuses
  contradiction

theorem Spells.provides
    (spells : Spells value options) (setting : InvalidSetting) :
    Provides value setting := by
  cases setting with
  | indent =>
      obtain ⟨json, width, there, isWidth, bound, -⟩ := spells.indent
      exact ⟨json, there, width, isWidth, bound⟩
  | quote => exact ⟨_, spells.quote, _, rfl⟩
  | trailingComma => exact ⟨_, spells.trailingComma, _, rfl⟩
  | maxDepth =>
      obtain ⟨json, there, isDepth, least, most⟩ := spells.maxDepth
      exact ⟨json, there, _, isDepth, least, most⟩
  | patterns => exact ⟨_, spells.patterns, _, rfl⟩
  | skipDirs => exact ⟨_, spells.skipDirs, _, rfl⟩

/-- Of the settings that cannot be used only one is the first. -/
theorem Refuses.unique
    {other : InvalidSetting} (refuses : Refuses value setting)
    (same : Refuses value other) : setting = other := by
  obtain ⟨before, after, split, provided, missing⟩ := refuses
  obtain ⟨before', after', split', provided', missing'⟩ := same
  rw [split] at split'
  rcases List.append_eq_append_iff.1 split' with
    ⟨between, rfl, rest⟩ | ⟨between, rfl, rest⟩
  · cases between with
    | nil => exact (List.cons.inj rest).1
    | cons first between =>
        cases rest
        exact absurd (provided' _ (by simp)) missing
  · cases between with
    | nil => exact (List.cons.inj rest).1.symm
    | cons first between =>
        cases rest
        exact absurd (provided _ (by simp)) missing'

/-- What cannot be used is refused for the first value that cannot. -/
theorem check_eq_error_iff :
    check value = .error setting ↔ Refuses value setting := by
  refine ⟨refuses_of_check, fun refuses => ?_⟩
  cases checked : check value with
  | error other => rw [refuses.unique (refuses_of_check checked)]
  | ok options =>
      obtain ⟨-, -, -, -, missing⟩ := refuses
      exact absurd ((check_eq_ok_iff.1 checked).provides setting) missing

/-- Something is refused if a setting is missing, of the wrong kind, or out of
range. -/
theorem exists_refuses_iff :
    (∃ setting, Refuses value setting) ↔
      ∃ setting, ¬ Provides value setting := by
  constructor
  · rintro ⟨setting, -, -, -, -, missing⟩
    exact ⟨setting, missing⟩
  · rintro ⟨setting, missing⟩
    cases checked : check value with
    | error other => exact ⟨other, refuses_of_check checked⟩
    | ok options =>
        exact absurd ((check_eq_ok_iff.1 checked).provides setting) missing

end Checking

section Lookups

variable {settings : Settings} {options : Checked}

theorem Spells.printOptions_eq (spells : Spells settings.value options) :
    settings.printOptions = options.print := by
  obtain ⟨json, width, there, isWidth, -, spaces⟩ := spells.indent
  have indent : (settings.get "print.indent").bind Json.nat? = some width :=
    Option.bind_eq_some_iff.2 ⟨json, there, Json.nat?_eq_some.2 isWidth⟩
  have quote : (settings.get "print.quote").bind Json.string? =
      some options.print.quote.name :=
    Option.bind_eq_some_iff.2 ⟨_, spells.quote, rfl⟩
  have comma : (settings.get "print.trailing_comma").bind Json.boolean? =
      some options.print.trailingComma :=
    Option.bind_eq_some_iff.2 ⟨_, spells.trailingComma, rfl⟩
  have style : (if some options.print.quote.name = some "double".toList then
      QuoteStyle.double
      else .single) = options.print.quote := by
    cases options.print.quote <;> decide
  rw [printOptions, indent, quote, comma, style, Option.map_some,
    Option.getD_some, Option.getD_some, ← spaces]

theorem Spells.discoverOptions_eq (spells : Spells settings.value options) :
    settings.discoverOptions = options.discover := by
  obtain ⟨json, there, isDepth, -, -⟩ := spells.maxDepth
  have patterns : (settings.get "discover.patterns").bind Json.strings? =
      some options.discover.patterns :=
    Option.bind_eq_some_iff.2 ⟨_, spells.patterns, Json.strings?_eq_some.2 rfl⟩
  have depth : (settings.get "discover.max_depth").bind Json.nat? =
      some options.discover.maxDepth :=
    Option.bind_eq_some_iff.2 ⟨json, there, Json.nat?_eq_some.2 isDepth⟩
  have skipDirs : (settings.get "discover.skip_dirs").bind Json.strings? =
      some options.discover.skipDirs :=
    Option.bind_eq_some_iff.2 ⟨_, spells.skipDirs, Json.strings?_eq_some.2 rfl⟩
  rw [discoverOptions, patterns, depth, skipDirs]
  rfl

end Lookups

end Settings

end ConfigEdit
