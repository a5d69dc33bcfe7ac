import ConfigEdit.Proofs.Document.Reprint
import ConfigEdit.Proofs.Edit.KeptTexts
import ConfigEdit.Proofs.Edit.Replacement
import ConfigEdit.Proofs.Text.Crlf

/-!
# Lines that end alike

In a text with `\r\n` line breaks only, an update writes no others, if one of
them stands outside the exported expression.  The tree of such a text keeps
texts of the same kind, since no cut between two of them goes through a line
break; new members stand behind the line break that the members around them
have, or behind the one of the document.
-/

namespace ConfigEdit

mutual

/-- All texts that are kept in the tree of an expression end their lines with
`\r\n`. -/
def Expr.Crlf : Expr → Prop
  | .object ⟨members, close, _⟩ =>
      Member.AllCrlf members ∧ ∀ text ∈ close, Text.Crlf text
  | .call call => (Expr.call call).FromText ∧ Text.Crlf (Expr.call call).source
  | .number text | .verbatim text => Text.Crlf text
  | .string _ raw => ∀ text ∈ raw, Text.Crlf text
  | .boolean _ => True

/-- All texts that are kept in members end their lines with `\r\n`. -/
def Member.AllCrlf : List Member → Prop
  | [] => True
  | .property ⟨key, value, layout⟩ :: others =>
      ((∀ raw ∈ key.raw, Text.Crlf raw) ∧
        (∀ texts ∈ layout, Text.Crlf texts.leading ∧ Text.Crlf texts.separator ∧
          Text.Crlf texts.trailing) ∧ value.Crlf) ∧ Member.AllCrlf others
  | .written member :: others =>
      (Text.Crlf member.leading ∧ Text.Crlf member.text ∧
        Text.Crlf member.trailing) ∧
        Member.AllCrlf others

end

mutual

/-- Lines that end alike are a property of the texts that are kept. -/
theorem Expr.crlf_iff_everyText {value : Expr} : value.Crlf ↔
    value.EveryText Text.Crlf fun call =>
      (Expr.call call).FromText ∧ Text.Crlf (Expr.call call).source := by
  match value with
  | .object ⟨members, close, trailingComma⟩ =>
      exact and_congr_left' Member.allCrlf_iff_allEveryText
  | .call _ | .number _ | .string _ _ | .boolean _ | .verbatim _ =>
      exact Iff.rfl

theorem Member.allCrlf_iff_allEveryText {members : List Member} :
    Member.AllCrlf members ↔
      Member.AllEveryText Text.Crlf
        (fun call => (Expr.call call).FromText ∧
          Text.Crlf (Expr.call call).source) members := by
  match members with
  | [] => exact Iff.rfl
  | .property ⟨key, value, layout⟩ :: others =>
      exact and_congr
        (and_congr_right' (and_congr_right' Expr.crlf_iff_everyText))
        (@Member.allCrlf_iff_allEveryText others)
  | .written member :: others =>
      exact and_congr_right' (@Member.allCrlf_iff_allEveryText others)

end

theorem Expr.crlf_object {literal : ObjectLiteral} :
    (Expr.object literal).Crlf ↔
      Member.AllCrlf literal.members ∧
      ∀ text ∈ literal.close, Text.Crlf text := by
  cases literal
  exact Iff.rfl

theorem Member.allCrlf_append {left right : List Member} :
    Member.AllCrlf (left ++ right) ↔
      Member.AllCrlf left ∧ Member.AllCrlf right := by
  simp only [Member.allCrlf_iff_allEveryText, Member.allEveryText_append]

theorem Member.allCrlf_withTrailing {member : Member} {trailing : Text}
    (uniform : Member.AllCrlf [member]) (behind : Text.Crlf trailing) :
    Member.AllCrlf [member.withTrailing trailing] := by
  match member with
  | .written member => exact ⟨⟨uniform.1.1, uniform.1.2.1, behind⟩, trivial⟩
  | .property ⟨key, value, layout⟩ =>
      obtain ⟨⟨raw, texts, inner⟩, -⟩ := uniform
      refine ⟨⟨raw, ?_, inner⟩, trivial⟩
      intro kept found
      obtain ⟨old, inside, rfl⟩ := Option.map_eq_some_iff.1 found
      exact ⟨(texts old inside).1, (texts old inside).2.1, behind⟩

section Printing

theorem Key.crlf_print {key : Key} (raw : ∀ raw ∈ key.raw, Text.Crlf raw)
    (options : PrintOptions) : Text.Crlf (key.print options) := by
  rw [Key.print]
  cases found : key.raw with
  | some text => exact raw text found
  | none =>
      exact .of_flat (Text.newline_notMem_formatKey key.name options.quote)

namespace ObjectLiteral

variable {literal : ObjectLiteral} {options : PrintOptions} {inline : Bool}
    {line : Line}

theorem crlf_leadings (uniform : Member.AllCrlf literal.members) :
    ∀ leading ∈ literal.leadings, Text.Crlf leading :=
  leadings_of_allEveryText (Member.allCrlf_iff_allEveryText.1 uniform)

theorem newLine_eq (uniform : (Expr.object literal).Crlf) :
    literal.newLine .crlf = ['\r', '\n'] := by
  rw [Expr.crlf_object] at uniform
  rw [newLine]
  cases found : literal.lineBreak? with
  | none => rfl
  | some lineBreak =>
      obtain ⟨text, inside, ends⟩ := List.exists_of_findSome?_eq_some found
      have whole : Text.Crlf text := by
        rcases List.mem_append.1 inside with leading | close
        · exact crlf_leadings uniform.1 text leading
        · exact uniform.2 text (Option.mem_toList.1 close)
      rw [whole.lineBreak?_eq ends]
      rfl

theorem crlf_newLeading (uniform : (Expr.object literal).Crlf)
    (indent : '\n' ∉ options.indent) (flat : '\n' ∉ line.indent) :
    Text.Crlf (literal.memberStyle options .crlf inline line).newLeading := by
  rw [memberStyle]
  simp only
  split
  · rw [newLine_eq uniform]
    apply Text.Crlf.append (by decide)
    apply Text.Crlf.of_flat
    cases found : literal.memberIndent? with
    | none => simp [flat, indent]
    | some copied =>
        obtain ⟨leading, -, line⟩ := List.exists_of_findSome?_eq_some found
        split at line
        · cases line
          exact Text.newline_notMem_lastLine leading
        · contradiction
  · decide

theorem crlf_printedClose
    (uniform : (Expr.object literal).Crlf) (flat : '\n' ∉ line.indent) :
    Text.Crlf (literal.printedClose .crlf inline line) := by
  have close : Text.Crlf (literal.close.getD []) := by
    cases found : literal.close with
    | none => decide
    | some close => exact (Expr.crlf_object.1 uniform).2 close found
  rcases @printedClose_cases literal .crlf inline line with same | ⟨same, -⟩
  · rw [same, keptClose]
    split
    · exact close.withoutLineComment
    · exact close
  · rw [same, freshClose, newLine_eq uniform]
    split
    · exact .append (by decide) (.of_flat flat)
    · decide

end ObjectLiteral

theorem Line.newline_notMem_after
    {line : Line} (flat : '\n' ∉ line.indent) (text : Text) :
    '\n' ∉ (line.after text).indent := by
  intro inside
  refine @Line.indent_after (· ≠ '\n') (by decide)
    (by decide) line ?_ text _ inside rfl
  rintro character inside rfl
  exact flat inside

mutual

theorem Expr.Crlf.printFrom
    {options : PrintOptions} (indent : '\n' ∉ options.indent)
    {inline : Bool} {line : Line} {value : Expr} (uniform : value.Crlf)
    (flat : '\n' ∉ line.indent) :
    Text.Crlf (value.printFrom options .crlf inline line) := by
  match value with
  | .object ⟨members, close, trailingComma⟩ =>
      have kept : Text.Crlf (close.getD []) := by
        cases close with
        | none => decide
        | some close => exact uniform.2 close rfl
      have brace {text : Text}
          (inner : Text.Crlf text) : Text.Crlf ('{' :: (text ++ ['}'])) :=
        .cons (by decide) (inner.append (by decide))
      by_cases empty : members = []
      · rw [Expr.printFrom_object_nil empty]
        exact brace kept
      · have comma : Text.Crlf
            (ObjectLiteral.lastComma ⟨members, close, trailingComma⟩ options
              inline) := by
          rw [ObjectLiteral.lastComma]
          split <;> decide
        have opened : '\n' ∉ (line.push '{').indent :=
          Line.newline_notMem_after flat ['{']
        have leading :=
          @ObjectLiteral.crlf_newLeading _ _ inline line uniform indent flat
        have printed (inline : Bool) :=
          @Member.AllCrlf.printList options indent inline _ _ []
            members uniform.1 leading kept.lineComment (by decide) opened
        have closing :=
          @ObjectLiteral.crlf_printedClose _ inline line uniform flat
        rw [Expr.printFrom_object empty]
        simpa using brace ((printed _).append (comma.append closing))
  | .call call =>
      rw [uniform.1.printFrom_eq]
      exact uniform.2
  | .number text | .verbatim text => exact uniform
  | .string text none =>
      exact .of_flat (Text.newline_notMem_quote text options.quote)
  | .string text (some raw) => exact uniform raw rfl
  | .boolean true =>
      rw [Expr.printFrom]
      decide
  | .boolean false =>
      rw [Expr.printFrom]
      decide
termination_by sizeOf value

theorem Member.AllCrlf.printList
    {options : PrintOptions} (indent : '\n' ∉ options.indent) {inline : Bool}
    {style : MemberStyle} {line : Line} {between : Text} {members : List Member}
    (uniform : Member.AllCrlf members) (leading : Text.Crlf style.newLeading)
    (comment : Text.Crlf style.sourceComment) (first : Text.Crlf between)
    (flat : '\n' ∉ line.indent) :
    Text.Crlf (Member.printList options .crlf inline style line between
      members) := by
  match members with
  | [] =>
      rw [Member.printList]
      decide
  | member :: others =>
      rw [← List.singleton_append, Member.allCrlf_append] at uniform
      have start := Line.newline_notMem_after flat between
      have printed := @Member.Crlf.printFrom options indent inline style _
        member uniform.1 leading start
      have behind : Text.Crlf (',' :: if member.leading?.isSome &&
          others.all (fun other => other.leading?.isNone) then
          style.sourceComment else []) := by
        apply Text.Crlf.cons (by decide)
        split
        · exact comment
        · decide
      rw [Member.printList]
      apply (first.append printed).append
      apply Member.AllCrlf.printList indent uniform.2 leading comment behind
      exact Line.newline_notMem_after flat _
termination_by sizeOf members

theorem Member.Crlf.printFrom
    {options : PrintOptions} (indent : '\n' ∉ options.indent)
    {inline : Bool} {style : MemberStyle} {line : Line} {member : Member}
    (uniform : Member.AllCrlf [member]) (leading : Text.Crlf style.newLeading)
    (flat : '\n' ∉ line.indent) :
    Text.Crlf (Member.printFrom options .crlf inline style line member) := by
  match member with
  | .written member =>
      obtain ⟨⟨before, text, after⟩, -⟩ := uniform
      exact (before.append text).append after
  | .property ⟨key, value, layout⟩ =>
      obtain ⟨⟨raw, texts, inner⟩, -⟩ := uniform
      have name := Key.crlf_print raw options
      have printed (text : Text) :=
        @Expr.Crlf.printFrom options indent inline (line.after text)
          value inner (Line.newline_notMem_after flat text)
      rw [Member.printFrom]
      cases layout with
      | none =>
          have opening :=
            (leading.append name).append (by decide : Text.Crlf [':', ' '])
          exact (opening.append (printed _)).append (by decide : Text.Crlf [])
      | some layout =>
          obtain ⟨before, separator, after⟩ := texts layout rfl
          have opening := (before.append name).append separator
          exact (opening.append (printed _)).append after
termination_by sizeOf member

end

end Printing

section Reading

theorem ReadsKey.exists_getLast?
    {text rest : Text} {key : Key} (reads : ReadsKey text key rest) :
    ∃ last, (key.raw.getD []).getLast? = some last ∧ isGap last = false := by
  have plain {word : Text} (more : word ≠ [])
      (all : ∀ character ∈ word, isPlain character = true ∧ character ≠ '/') :
      ∃ last, word.getLast? = some last ∧ isGap last = false := by
    refine ⟨word.getLast more, List.getLast?_eq_some_getLast more, ?_⟩
    have stands := (all _ (List.getLast_mem more)).1
    simp only [isPlain, Bool.and_eq_true, Bool.not_eq_true'] at stands
    exact stands.1.1.1.1.1
  cases reads with
  | @quoted mark body rest quotes closes =>
      refine ⟨mark, ?_, ?_⟩
      · rw [Option.getD_some, ← List.cons_append, List.getLast?_concat]
      · rcases mem_of_isQuotationMark quotes with rfl | rfl <;> decide
  | numeric starts all ends =>
      apply plain (List.cons_ne_nil _ _)
      intro character inside
      rcases List.mem_cons.1 inside with rfl | inside
      · exact isPlain_of_class (by decide) starts
      · exact isPlain_of_numeric (List.all_eq_true.1 all _ inside)
  | word starts all ends =>
      apply plain (List.cons_ne_nil _ _)
      intro character inside
      rcases List.mem_cons.1 inside with rfl | inside
      · exact isPlain_of_class (by decide) starts
      · exact isPlain_of_part (List.all_eq_true.1 all _ inside)

theorem ReadsMember.exists_getLast? {leading text rest : Text} {member : Member}
    (reads : ReadsMember leading text member rest) :
    ∃ last, member.body.getLast? = some last ∧ isGap last = false := by
  cases reads with
  | property key before behind begins reads =>
      obtain ⟨last, ends, notGap⟩ := reads.exists_getLast?
      have whole (front separator : Text)
          (value : Expr) : front ++ (separator ++ value.source) =
            (front ++ separator) ++ value.source := by simp
      refine ⟨last, ?_, notGap⟩
      rw [Member.body, whole, List.getLast?_append, ends]
      rfl
  | method key before opens isRun =>
      exact isRun.passes.exists_getLast? isRun.more
  | @shorthand _ raw rest others key delimiter reads skipped ends =>
      obtain ⟨some, split⟩ := reads.split
      obtain ⟨last, ends, notGap⟩ := reads.exists_getLast?
      rw [← List.append_cancel_right split] at ends
      exact ⟨last, ends, notGap⟩
  | modified key before begins scanned modifies isRun =>
      exact isRun.passes.exists_getLast? isRun.more
  | unnamed noKey isRun => exact isRun.passes.exists_getLast? isRun.more

theorem getLast?_ne_return {text : Text}
    (ends : ∃ last, text.getLast? = some last ∧ isGap last = false) :
    text.getLast? ≠ some '\r' := by
  obtain ⟨last, found, notGap⟩ := ends
  rw [found]
  rintro ⟨⟩
  contradiction

theorem BeginsToken.head?_ne_newline {text : Text} (begins : BeginsToken text) :
    text.head? ≠ some '\n' := by
  cases text with
  | nil => simp
  | cons character rest =>
      have notGap := begins.not_gap
      rintro ⟨⟩
      contradiction

mutual

theorem ReadsValue.crlf {strict : Bool} {text rest : Text} {value : Expr}
    (reads : ReadsValue strict text value rest) (uniform : Text.Crlf text) :
    value.Crlf := by
  match reads with
  | .node reads _ => exact ReadsNode.crlf reads uniform
  | .beyond _ _ _ | .verbatim _ _ => exact uniform.of_append_left

theorem ReadsNode.crlf {text rest : Text} {value : Expr}
    (reads : ReadsNode text value rest) (uniform : Text.Crlf text) :
    value.Crlf := by
  obtain ⟨fromText, split⟩ := reads.split
  have source : Text.Crlf value.source := by
    rw [split] at uniform
    exact uniform.of_append_left
  match reads with
  | .object reads =>
      have inner := ReadsMembers.crlf reads (uniform.of_cons (by decide))
      exact ⟨(Expr.crlf_object.1 inner).1, (Expr.crlf_object.1 inner).2⟩
  | .string _ _ =>
      rintro raw ⟨⟩
      exact source
  | .number _ _ => exact source
  | .boolean _ => trivial
  | .call _ _ _ _ _ _ => exact ⟨fromText, source⟩

theorem ReadsMembers.crlf
    {text rest : Text} {afterComma : Bool} {literal : ObjectLiteral}
    (reads : ReadsMembers afterComma text literal rest)
    (uniform : Text.Crlf text) :
    (Expr.object literal).Crlf := by
  match reads with
  | .close _ =>
      refine ⟨trivial, ?_⟩
      rintro close ⟨⟩
      exact uniform.of_append_left
  | @ReadsMembers.last leading text trailing rest _ member _ begins reads _ =>
      have inner :=
        uniform.of_append_right_of_head begins.token.head?_ne_newline
      have members := ReadsMember.crlf reads uniform.of_append_left inner
      obtain ⟨-, -, -, split⟩ := reads.split
      rw [split] at inner
      have behind :=
        inner.of_append_right_of_last (getLast?_ne_return reads.exists_getLast?)
      refine ⟨members, ?_⟩
      rintro close ⟨⟩
      exact behind.of_append_left
  | @ReadsMembers.more leading text trailing others rest _ member literal _
        begins reads _ further =>
      have inner :=
        uniform.of_append_right_of_head begins.token.head?_ne_newline
      have members := ReadsMember.crlf reads uniform.of_append_left inner
      obtain ⟨-, -, -, split⟩ := reads.split
      rw [split] at inner
      have behind :=
        inner.of_append_right_of_last (getLast?_ne_return reads.exists_getLast?)
      have rest :=
        (behind.of_append_right_of_head (by simp)).of_cons (by decide)
      obtain ⟨others, close⟩ :=
        Expr.crlf_object.1 (ReadsMembers.crlf further rest)
      have first := Member.allCrlf_withTrailing members behind.of_append_left
      exact ⟨Member.allCrlf_append.2 ⟨first, others⟩, close⟩

theorem ReadsMember.crlf {leading text rest : Text} {member : Member}
    (reads : ReadsMember leading text member rest) (front : Text.Crlf leading)
    (uniform : Text.Crlf text) : Member.AllCrlf [member] := by
  match reads with
  | @ReadsMember.property _ _ before behind inner _ key value read _ _ begins
        reads =>
      obtain ⟨raw, split⟩ := read.split
      rw [split] at uniform
      have rest := uniform.of_append_right_of_last
        (getLast?_ne_return read.exists_getLast?)
      have whole : before ++ ':' :: (behind ++ inner) =
          (before ++ ':' :: behind) ++ inner := by
        simp
      rw [whole] at rest
      have value := ReadsValue.crlf reads
        (rest.of_append_right_of_head begins.head?_ne_newline)
      refine ⟨⟨?_, ?_, value⟩, trivial⟩
      · intro text found
        rw [found] at uniform
        exact uniform.of_append_left
      · rintro texts ⟨⟩
        exact ⟨front, rest.of_append_left, .nil⟩
  | .method .. | .shorthand .. | .modified .. | .unnamed .. =>
      exact ⟨⟨front, uniform.of_append_left, .nil⟩, trivial⟩

end

end Reading

namespace PatchValue

mutual

/-- No call is in the value. -/
def WithoutCalls : PatchValue → Prop
  | .object entries => AllWithoutCalls entries
  | .call _ => False
  | .number _ | .string _ | .boolean _ => True

/-- No call is in the entries of an object. -/
def AllWithoutCalls : List (Text × PatchValue) → Prop
  | [] => True
  | (_, value) :: others => value.WithoutCalls ∧ AllWithoutCalls others

end

end PatchValue

section Edits

mutual

theorem PatchValue.withoutCalls_iff {value : PatchValue} :
    value.WithoutCalls ↔ value.EveryCall fun _ => False := by
  match value with
  | .object entries =>
      exact @PatchValue.allWithoutCalls_iff_allEveryCall entries
  | .call _ | .number _ | .string _ | .boolean _ => exact Iff.rfl

theorem PatchValue.allWithoutCalls_iff_allEveryCall
    {entries : List (Text × PatchValue)} :
    AllWithoutCalls entries ↔ AllEveryCall (fun _ => False) entries := by
  match entries with
  | [] => exact Iff.rfl
  | (key, value) :: others =>
      exact and_congr PatchValue.withoutCalls_iff
        (@PatchValue.allWithoutCalls_iff_allEveryCall others)

end

/-- Without calls, what is built keeps no line break. -/
theorem Text.Crlf.keptByEdits {calls : Call → Prop} :
    KeptByEdits Text.Crlf calls fun _ => False where
  literal number := .of_flat number.newline_notMem_literal
  separator := by decide
  call := False.elim

theorem allCrlf_of_buildProperties
    {path : PropertyPath} {entries : Entries PatchValue}
    {properties : List Property} (noCalls : PatchValue.AllWithoutCalls entries)
    (built : PatchValue.buildProperties path entries = .ok properties) :
    Member.AllCrlf (properties.map .property) :=
  Member.allCrlf_iff_allEveryText.2
    (allEveryText_of_buildProperties Text.Crlf.keptByEdits
      (PatchValue.allWithoutCalls_iff_allEveryCall.1 noCalls) built)

theorem crlf_of_mergeObject {path : PropertyPath} {patch : Entries PatchValue}
    {literal merged : ObjectLiteral}
    (noCalls : PatchValue.AllWithoutCalls patch)
    (uniform : (Expr.object literal).Crlf)
    (found : mergeObject path patch literal = .ok merged) :
    (Expr.object merged).Crlf :=
  Expr.crlf_iff_everyText.2 (everyText_of_mergeObject Text.Crlf.keptByEdits
    (PatchValue.allWithoutCalls_iff_allEveryCall.1 noCalls)
    (Expr.crlf_iff_everyText.1 uniform) found)

end Edits

/-- The configuration of a text that ends its lines with `\r\n` does so, too,
and the text behind it does not begin in the middle of a line break. -/
theorem crlf_of_locateText {text : Text} {root : ConfigRoot}
    (located : locateText text = .ok root) (uniform : Text.Crlf text) :
    Text.Crlf root.textBefore ∧ (Expr.object root.literal).Crlf ∧
    Text.Crlf root.textAfter := by
  obtain ⟨inner, rest, reads, before, split⟩ :=
    exists_readsNode_of_locateText located
  obtain ⟨fromText, whole⟩ := ConfigRoot.fromText_of_locateText located
  refine ⟨?_, ?_, ?_⟩
  · rw [whole] at uniform
    exact uniform.of_append_left
  · rw [← split] at uniform
    apply reads.crlf
    apply uniform.of_append_right_of_head
    rw [reads.split.2, Expr.source_object]
    simp
  · obtain ⟨last, ends, notGap⟩ := reads.exists_getLast?
    rw [whole, ← List.append_assoc] at uniform
    apply uniform.of_append_right_of_last
    apply getLast?_ne_return
    exact ⟨last, by rw [List.getLast?_append, ends]; rfl, notGap⟩

/-- An update without calls keeps the line breaks of a text alike, if one of
them stands outside the exported expression. -/
theorem updateText_crlf {options : PrintOptions} {patch : Patch}
    {overwrite : Bool} {text out : Text} {root : ConfigRoot}
    (updated : updateText options patch overwrite text = .ok out)
    (located : locateText text = .ok root) (uniform : Text.Crlf text)
    (outside : root.document.lineBreak = .crlf)
    (noCalls : patch.toValue.WithoutCalls)
    (indent : ∀ character ∈ options.indent,
      character = ' ' ∨ character = '\t') :
    Text.Crlf out := by
  obtain ⟨found, literal, located', made, rfl⟩ :=
    exists_literal_of_updateText updated
  obtain rfl : root = found := by
    rw [located] at located'
    exact Except.ok.inj located'
  obtain ⟨before, kept, behind⟩ := crlf_of_locateText located uniform
  have flat : '\n' ∉ options.indent := by
    intro inside
    rcases indent _ inside with same | same <;> contradiction
  have written : (Expr.object literal).Crlf := by
    cases overwrite with
    | true =>
        cases built : PatchValue.buildProperties .root patch.entries with
        | error error => simp [buildObject, built, Except.map] at made
        | ok properties =>
            obtain rfl : .ofProperties properties = literal := by
              simpa [buildObject, built, Except.map] using made
            exact ⟨allCrlf_of_buildProperties noCalls built, by rintro close ⟨⟩⟩
    | false => exact crlf_of_mergeObject noCalls kept (by simpa using made)
  have line : '\n' ∉ root.line.indent :=
    Line.newline_notMem_after (by simp [Line.start]) _
  rw [(ConfigRoot.fromText_of_locateText located).1.print_replace, outside]
  exact before.append ((written.printFrom flat line).append behind)

/-- A configuration behind a comment on a line of its own. -/
def remarkedRoot : ConfigRoot :=
  { before := [.text "// c\r\n".toList], head :=
    "export default ".toList, callee := ['f']
    leading := []
    literal := ⟨[.property ⟨⟨['a'], some ['a']⟩, .number ['1'],
      some ⟨['\r', '\n', ' '], [':', ' '], []⟩⟩], some ['\r', '\n'], some false⟩
    trailing := [], otherArgs := [], close := [], trailingComma := false,
      after := [] }

/-- A new object behind a line break of the document. -/
theorem updateText_crlf_nested :
    updateText .standard ⟨[(['b'], .object [(['c'], .boolean true)])]⟩ false
        "// c\r\nexport default f(\x7b\r\n a: 1\r\n\x7d)".toList =
      .ok ("// c\r\nexport default f(\x7b\r\n a: 1,\r\n b: \x7b\r\n".toList ++
        "   c: true,\r\n \x7d\r\n\x7d)".toList) ∧
    Text.Crlf
      ("// c\r\nexport default f(\x7b\r\n a: 1,\r\n b: \x7b\r\n".toList ++
        "   c: true,\r\n \x7d\r\n\x7d)".toList) := by
  have updated :
      updateText .standard ⟨[(['b'], .object [(['c'], .boolean true)])]⟩ false
        "// c\r\nexport default f(\x7b\r\n a: 1\r\n\x7d)".toList =
        .ok ("// c\r\nexport default f(\x7b\r\n a: 1,\r\n b: \x7b\r\n".toList ++
          "   c: true,\r\n \x7d\r\n\x7d)".toList) := by decide +kernel
  have located :
      locateText "// c\r\nexport default f(\x7b\r\n a: 1\r\n\x7d)".toList =
        .ok remarkedRoot := by with_unfolding_all rfl
  refine ⟨updated,
    updateText_crlf updated located (by decide +kernel) (by decide +kernel) ?_
      (by simp [PrintOptions.standard])⟩
  exact ⟨⟨trivial, trivial⟩, trivial⟩

/-- Without a line break outside the exported expression, the lines of a new
object end with `\n`. -/
theorem updateText_crlf_inside :
    Text.Crlf "export default f(\x7b\r\n  a: 1\r\n\x7d)".toList ∧
      updateText .standard ⟨[(['b'], .object [(['c'], .boolean true)])]⟩ false
          "export default f(\x7b\r\n  a: 1\r\n\x7d)".toList =
        .ok ("export default f(\x7b\r\n  a: 1,\r\n  b: \x7b\n".toList ++
          "    c: true,\n  \x7d\r\n\x7d)".toList) ∧
      ¬ Text.Crlf ("export default f(\x7b\r\n  a: 1,\r\n  b: \x7b\n".toList ++
          "    c: true,\n  \x7d\r\n\x7d)".toList) :=
  ⟨by decide +kernel, by decide +kernel, by decide +kernel⟩

end ConfigEdit
