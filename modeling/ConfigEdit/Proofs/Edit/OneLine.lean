import ConfigEdit.Proofs.Document.Reprint
import ConfigEdit.Proofs.Edit.Calls
import ConfigEdit.Proofs.Edit.KeptTexts
import ConfigEdit.Proofs.Edit.Root
import ConfigEdit.Proofs.Text.Crlf

/-!
# Configurations on one line

An update leaves a configuration on its line.  An object literal stands on one
line if no text that it keeps has a line break and it is inside such a literal
or has a member that comes from the text; then everything in it is printed
without line breaks: new members behind a blank, new object literals on the same
line, and strings and keys with their line breaks escaped.
-/

namespace ConfigEdit

/-- The expression is printed on one line wherever it stands. -/
def Expr.OneLine (value : Expr) : Prop :=
  ∀ options lineBreak inline line,
    '\n' ∉ value.printFrom options lineBreak inline line

/-- No text that is kept in the expression has a line break, and no call in it
is printed with one. -/
def Expr.Flat (value : Expr) : Prop :=
  value.EveryText (fun text => '\n' ∉ text) fun call => (Expr.call call).OneLine

/-- No text that is kept in the members has a line break. -/
def Member.AllFlat (members : List Member) : Prop :=
  Member.AllEveryText (fun text => '\n' ∉ text)
    (fun call => (Expr.call call).OneLine) members

/-! ## Calls that are built -/

theorem Text.mem_of_mem_trim
    {text : Text} {character : Char} (inside : character ∈ text.trim) :
    character ∈ text := by
  rw [trim, List.mem_reverse] at inside
  have first := (List.dropWhile_suffix _).subset inside
  exact (List.dropWhile_suffix _).subset (List.mem_reverse.1 first)

theorem Span.mem_of_mem_text {whole : Text} {span : Span whole}
    {character : Char} (inside : character ∈ span.text) : character ∈ whole :=
  span.start.2.subset (List.mem_of_mem_take inside)

theorem newline_notMem_argumentTexts
    {args : List Text} (flat : ∀ arg ∈ args, '\n' ∉ arg) :
    '\n' ∉ argumentTexts args := by
  induction args with
  | nil => simp [argumentTexts, Text.joined]
  | cons arg others induction =>
      obtain ⟨first, rest⟩ := List.forall_mem_cons.1 flat
      cases others with
      | nil => exact first
      | cons next others =>
          rw [argumentTexts_cons]
          simp [first, induction rest]

theorem newline_notMem_of_argumentParts {text inside : Text} {parts : List Text}
    (flat : '\n' ∉ inside) (found : argumentParts text inside = .ok parts) :
    ∀ part ∈ parts, '\n' ∉ part := by
  rw [argumentParts] at found
  split at found
  · contradiction
  · next spans _ =>
      cases found
      intro part among feed
      obtain ⟨span, -, rfl⟩ := List.mem_map.1 among
      exact flat (Span.mem_of_mem_text feed)

mutual

theorem newline_notMem_of_buildCall
    {path : PropertyPath} {marker : Text} {value : Expr} (flat : '\n' ∉ marker)
    (built : buildCall path marker = .ok value) (options : PrintOptions) :
    '\n' ∉ value.print options := by
  obtain ⟨callee, inside, parts, args, found, split, each, rfl⟩ :=
    buildCall_eq_ok_iff.1 built
  have shorter := length_lt_of_argumentParts found split
  have trimmed : '\n' ∉ marker.trim :=
    fun feed => flat (Text.mem_of_mem_trim feed)
  have spelled : ∀ arg ∈ args, Spelled arg := by
    intro arg member
    obtain ⟨part, -, built⟩ := exists_mem_of_forall₂ each arg member
    exact spelled_of_buildArgument built
  have spells := callParts_eq_ok.1 found
  generalize marker.trim = text at trimmed spells
  cases spells with
  | mk =>
      simp only [List.mem_append, List.mem_cons, not_or] at trimmed
      obtain ⟨flatCallee, -, -, flatInside, -⟩ := trimmed
      have printed : '\n' ∉ argumentTexts (args.map (Expr.print options)) := by
        apply newline_notMem_argumentTexts
        intro text among
        obtain ⟨arg, member, rfl⟩ := List.mem_map.1 among
        obtain ⟨part, among, built⟩ := exists_mem_of_forall₂ each arg member
        have := shorter part among
        exact newline_notMem_of_buildArgument
          (newline_notMem_of_argumentParts flatInside split part among) built
          options
      rw [Spelled.print_call spelled, callText]
      simp [flatCallee, printed]
termination_by 2 * marker.length

theorem newline_notMem_of_buildArgument
    {path : PropertyPath} {text : Text} {value : Expr} (flat : '\n' ∉ text)
    (built : buildArgument path text = .ok value) (options : PrintOptions) :
    '\n' ∉ value.print options := by
  have source {read : Expr} (found : Expr.parseFault text = .ok read) :
      read.FromText ∧ '\n' ∉ read.source := by
    obtain ⟨before, behind, split, -, -, reads, -⟩ :=
      Expr.exists_of_parseFault found
    rw [split] at flat
    exact ⟨reads.split.1, by simp_all⟩
  rw [buildArgument] at built
  split at built
  · contradiction
  · next content raw found =>
      cases built
      exact Text.newline_notMem_quote content options.quote
  · next raw found =>
      cases built
      rw [Expr.ofNumberLiteral]
      split
      · next number _ => exact number.newline_notMem_literal
      · exact (source found).2
  · next truth found =>
      cases built
      cases truth <;> simp [Expr.print, Expr.printFrom]
  · exact newline_notMem_of_buildCall flat built options
  · next literal found =>
      cases built
      rw [Expr.print, (source found).1.printFrom_eq]
      exact (source found).2
  · next written found =>
      split at built
      · cases built
        exact (source found).2
      · contradiction
termination_by 2 * text.length + 1

end

theorem Expr.oneLine_of_buildCall
    {path : PropertyPath} {marker : Text} {value : Expr} (flat : '\n' ∉ marker)
    (built : buildCall path marker = .ok value) : value.OneLine := by
  intro options lineBreak inline line
  rw [(spelled_of_buildCall built).1.fixed]
  exact newline_notMem_of_buildCall flat built options

/-- What an edit puts into a tree has no line breaks if the texts of its calls
have none. -/
theorem Expr.Flat.keptByEdits :
    KeptByEdits (fun text => '\n' ∉ text) (fun call => (Expr.call call).OneLine)
      fun marker => '\n' ∉ marker where
  literal := Number.newline_notMem_literal
  separator := by decide
  call := by
    intro path marker expr flat built
    obtain ⟨-, call, rfl⟩ := spelled_of_buildCall built
    exact Expr.oneLine_of_buildCall flat built

/-! ## Trees that come from one line -/

theorem Expr.FromText.oneLine {value : Expr} (fromText : value.FromText)
    (flat : '\n' ∉ value.source) : value.OneLine := by
  intro options lineBreak inline line
  rwa [fromText.printFrom_eq]

mutual

theorem Expr.FromText.flat {value : Expr} (fromText : value.FromText)
    (flat : '\n' ∉ value.source) : value.Flat := by
  match value with
  | .object ⟨members, close, trailingComma⟩ =>
      simp only [Expr.source, List.mem_cons, List.mem_append, not_or] at flat
      obtain ⟨-, first, -, behind, -⟩ := flat
      refine ⟨Member.AllFromText.flat fromText.1 first, ?_⟩
      rintro text ⟨⟩
      exact behind
  | .call call => exact fromText.oneLine flat
  | .number text | .verbatim text => exact flat
  | .string _ raw =>
      rintro text ⟨⟩
      exact flat
  | .boolean _ => trivial

theorem Member.AllFromText.flat {between : Text} {members : List Member}
    (fromText : Member.AllFromText members)
    (flat : '\n' ∉ Member.sources between members) :
    Member.AllFlat members := by
  match members with
  | [] => trivial
  | .property ⟨key, value, layout⟩ :: others =>
      obtain ⟨⟨named, laid, inner⟩, further⟩ := fromText
      obtain ⟨raw, named⟩ := Option.isSome_iff_exists.1 named
      obtain ⟨around, rfl⟩ := Option.isSome_iff_exists.1 laid
      simp only [Member.sources, Member.leading, Member.leading?, Member.body,
        Member.trailing, named, Option.map_some, Option.getD_some,
        List.mem_append, not_or] at flat
      obtain ⟨-, before, ⟨key, separator, source⟩, behind, rest⟩ := flat
      refine ⟨⟨?_, ?_, Expr.FromText.flat inner source⟩,
        Member.AllFromText.flat further rest⟩
      · rintro text found
        cases named.symm.trans found
        exact key
      · rintro texts ⟨⟩
        exact ⟨before, separator, behind⟩
  | .written member :: others =>
      simp only [Member.sources, Member.leading, Member.leading?, Member.body,
        Member.trailing, Option.getD_some, List.mem_append, not_or] at flat
      obtain ⟨-, before, text, behind, rest⟩ := flat
      exact ⟨⟨before, text, behind⟩, Member.AllFromText.flat fromText.2 rest⟩

end

/-! ## Printing on one line -/

section Printing

variable {options : PrintOptions} {lineBreak : LineBreak} {inline : Bool}
    {line : Line} {literal : ObjectLiteral}

/-- An object literal stands on one line if it is inside such a literal or has a
member that comes from the text. -/
theorem ObjectLiteral.isMultiline_eq_false (flat : (Expr.object literal).Flat)
    (single : inline = true ∨ literal.leadings ≠ []) :
    literal.isMultiline inline = false := by
  obtain ⟨members, close⟩ := Expr.everyText_object.1 flat
  have leadings := leadings_of_allEveryText members
  have closing :
      (literal.close.any fun close => close.contains '\n') = false := by
    cases closes : literal.close with
    | none => rfl
    | some text => simpa using close text closes
  have leading :
      (literal.leadings.any fun leading => leading.contains '\n') = false := by
    simpa using leadings
  rw [isMultiline, closing, leading]
  rcases single with rfl | more <;> simp_all

theorem ObjectLiteral.newline_notMem_printedClose
    (close : '\n' ∉ literal.close.getD [])
    (single : literal.isMultiline inline = false) :
    '\n' ∉ literal.printedClose lineBreak inline line := by
  rcases @printedClose_cases literal lineBreak inline line with same | ⟨same, -⟩
  · rw [same, keptClose]
    split
    · intro inside
      rw [← Text.lineComment_append (literal.close.getD [])] at close
      exact close (List.mem_append_right _ inside)
    · exact close
  · simp [same, freshClose, single]

/-- An object literal that stands on one line is printed without line breaks if
its members are. -/
theorem ObjectLiteral.newline_notMem_printFrom
    (flat : (Expr.object literal).Flat)
    (single : literal.isMultiline inline = false)
    (members : ∀ style line,
      '\n' ∉ style.newLeading → '\n' ∉ style.sourceComment →
      '\n' ∉
        Member.printList options lineBreak true style line [] literal.members) :
    '\n' ∉ (Expr.object literal).printFrom options lineBreak inline line := by
  have close : '\n' ∉ literal.close.getD [] := by
    cases closes : literal.close with
    | none => simp
    | some text => exact (Expr.everyText_object.1 flat).2 text closes
  by_cases empty : literal.members = []
  · rw [Expr.printFrom_object_nil empty]
    simp [close]
  · have ending :=
      @newline_notMem_printedClose lineBreak inline line literal close single
    have comma : '\n' ∉ literal.lastComma options inline := by
      rw [lastComma]
      split <;> decide
    have printed := members (literal.memberStyle options lineBreak inline line)
      (line.push '{') (by simp [memberStyle, single])
      (by simp [memberStyle, Text.lineComment_of_flat, close])
    rw [Expr.printFrom_object empty, single]
    simp [printed, comma, ending]

theorem Key.newline_notMem_print {key : Key} (raw : ∀ raw ∈ key.raw, '\n' ∉ raw)
    (options : PrintOptions) : '\n' ∉ key.print options := by
  rw [Key.print]
  cases found : key.raw with
  | some text => exact raw text found
  | none => exact Text.newline_notMem_formatKey key.name options.quote

end Printing

mutual

theorem Expr.Flat.newline_notMem {options : PrintOptions}
    {lineBreak : LineBreak} {line : Line} {value : Expr} (flat : value.Flat) :
    '\n' ∉ value.printFrom options lineBreak true line := by
  match value with
  | .object ⟨members, close, trailingComma⟩ =>
      apply ObjectLiteral.newline_notMem_printFrom flat
      · exact ObjectLiteral.isMultiline_eq_false flat (.inl rfl)
      · intro style line leading comment
        exact Member.AllFlat.newline_notMem flat.1 leading comment
          List.not_mem_nil
  | .call call => exact flat options lineBreak true line
  | .number text | .verbatim text => exact flat
  | .string text none => exact Text.newline_notMem_quote text options.quote
  | .string text (some raw) => exact flat raw rfl
  | .boolean true | .boolean false => simp [Expr.printFrom]
termination_by sizeOf value

theorem Member.AllFlat.newline_notMem
    {options : PrintOptions} {lineBreak : LineBreak}
    {line : Line} {members : List Member} {style : MemberStyle} {between : Text}
    (flat : Member.AllFlat members) (leading : '\n' ∉ style.newLeading)
    (comment : '\n' ∉ style.sourceComment) (front : '\n' ∉ between) :
    '\n' ∉
      Member.printList options lineBreak true style line between members := by
  match members with
  | [] => exact List.not_mem_nil
  | member :: others =>
      rw [Member.AllFlat, ← List.singleton_append, Member.allEveryText_append]
        at flat
      have printed (line : Line) :=
        @Member.Flat.newline_notMem options lineBreak line member style flat.1
          leading
      rw [Member.printList]
      refine List.not_mem_append (List.not_mem_append front (printed _)) ?_
      apply Member.AllFlat.newline_notMem flat.2 leading comment
      split <;> simp [comment]
termination_by sizeOf members

theorem Member.Flat.newline_notMem
    {options : PrintOptions} {lineBreak : LineBreak}
    {line : Line} {member : Member} {style : MemberStyle}
    (flat : Member.AllFlat [member]) (leading : '\n' ∉ style.newLeading) :
    '\n' ∉ Member.printFrom options lineBreak true style line member := by
  match member with
  | .written member =>
      obtain ⟨⟨before, text, after⟩, -⟩ := flat
      exact List.not_mem_append (List.not_mem_append before text) after
  | .property ⟨key, value, layout⟩ =>
      obtain ⟨⟨raw, around, inner⟩, -⟩ := flat
      have name := Key.newline_notMem_print raw options
      have printed (line : Line) :=
        @Expr.Flat.newline_notMem options lineBreak line value inner
      rw [Member.printFrom]
      cases layout with
      | none => simp [leading, name, printed]
      | some layout =>
          obtain ⟨before, separator, after⟩ := around layout rfl
          simp [before, separator, after, name, printed]
termination_by sizeOf member

end

theorem leadings_ne_nil_of_mergeObject {path : PropertyPath}
    {patch : Entries PatchValue} {literal merged : ObjectLiteral}
    (fromText : Member.AllFromText literal.members)
    (more : literal.members ≠ [])
    (found : mergeObject path patch literal = .ok merged) :
    merged.leadings ≠ [] := by
  obtain ⟨kept, appended, keeping, -, rfl⟩ := mergeObject_eq_ok found
  have same : kept.filterMap Member.leading? = literal.leadings := by
    simpa [ObjectLiteral.leadings, List.filterMap_map] using
      congrArg (List.filterMap id) (mergeMembers_shape keeping).2
  have some := literal.leadings_ne_nil fromText more
  rw [← same] at some
  simp_all [ObjectLiteral.leadings, List.filterMap_append]

/-- A configuration that has members and stands on one line stays on one line:
the update has as many line breaks as the text. -/
theorem updateText_oneLine {options : PrintOptions} {patch : Patch}
    {text out : Text} {root : ConfigRoot}
    (updated : updateText options patch false text = .ok out)
    (located : locateText text = .ok root) (more : root.literal.members ≠ [])
    (flat : '\n' ∉ (Expr.object root.literal).source)
    (calls : patch.toValue.EveryCall fun marker => '\n' ∉ marker) :
    out.count '\n' = text.count '\n' := by
  obtain ⟨found, merged, located', merging, rfl⟩ := updateText_eq_ok updated
  obtain rfl : root = found := Except.ok.inj (located.symm.trans located')
  obtain ⟨fromText, split⟩ := ConfigRoot.fromText_of_locateText located
  have members := ((Expr.fromText_object _).1 fromText.literal).1
  have kept : (Expr.object merged).Flat :=
    everyText_of_mergeObject Expr.Flat.keptByEdits calls
      (fromText.literal.flat flat) merging
  have single := @ObjectLiteral.isMultiline_eq_false false merged kept
    (.inr (leadings_ne_nil_of_mergeObject members more merging))
  have printed : '\n' ∉
      (Expr.object merged).printFrom options root.document.lineBreak false
      root.line :=
    ObjectLiteral.newline_notMem_printFrom kept single
        fun style line leading comment =>
      Member.AllFlat.newline_notMem (Expr.everyText_object.1 kept).1 leading
        comment List.not_mem_nil
  rw [fromText.print_replace, split]
  simp only [List.count_append, List.count_eq_zero_of_not_mem printed,
    List.count_eq_zero_of_not_mem flat]

/-- A configuration on one line, with an object literal that has members and an
empty one. -/
def oneLineText : Text :=
  "// c\nexport default f(\x7b a: \x7b b: 1 \x7d, c: \x7b\x7d \x7d);\n".toList

/-- The patch of
`{ a: { d: { e: 'x\ny' } }, c: { 'k\n': true }, g: h({ i: 1 }) }`. -/
def oneLinePatch : Patch :=
  ⟨[(['a'], .object [(['d'], .object [(['e'], .string ['x', '\n', 'y'])])]),
    (['c'], .object [(['k', '\n'], .boolean true)]),
    (['g'], .call "h(\x7b i: 1 \x7d)".toList)]⟩

/-- New object literals inside those that stand on one line. -/
theorem updateText_oneLine_nested :
    ∃ out, updateText .standard oneLinePatch false oneLineText = .ok out ∧
      out =
        ("// c\nexport default f(\x7b a: \x7b b: 1, d: \x7b e: 'x\\ny' \x7d \x7d, ".toList ++
          "c: \x7b 'k\\n': true \x7d, g: h(\x7b i: 1 \x7d) \x7d);\n".toList) ∧
      out.count '\n' = oneLineText.count '\n' := by
  obtain ⟨out, updated, same⟩ : ∃ out,
      updateText .standard oneLinePatch false oneLineText = .ok out ∧
      out =
        ("// c\nexport default f(\x7b a: \x7b b: 1, d: \x7b e: 'x\\ny' \x7d \x7d, ".toList ++
          "c: \x7b 'k\\n': true \x7d, g: h(\x7b i: 1 \x7d) \x7d);\n".toList) :=
    ⟨_, by decide +kernel, rfl⟩
  obtain ⟨root, located⟩ : ∃ root, locateText oneLineText = .ok root :=
    exists_eq_ok (by decide +kernel)
  have shape : (locateText oneLineText).toOption.map (fun root =>
      (root.literal.members.isEmpty,
        (Expr.object root.literal).source.contains '\n')) =
      some (false, false) := by
    decide +kernel
  rw [located] at shape
  obtain ⟨more, flat⟩ := Prod.mk.inj (Option.some.inj shape)
  have calls : oneLinePatch.toValue.EveryCall fun marker => '\n' ∉ marker :=
    ⟨⟨⟨trivial, trivial⟩, trivial⟩, ⟨trivial, trivial⟩,
      show '\n' ∉ "h(\x7b i: 1 \x7d)".toList by decide, trivial⟩
  exact ⟨out, updated, same,
    updateText_oneLine updated located (by simpa using more)
      (by simpa using flat) calls⟩

end ConfigEdit
