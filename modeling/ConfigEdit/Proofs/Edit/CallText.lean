import ConfigEdit.Proofs.Document.Arguments
import ConfigEdit.Proofs.Edit.CallParts
import ConfigEdit.Proofs.Scan.Paths

/-!
# The text of a call

`SpellsCall` says of a text that it is a callee with one group behind it, and
`callParts` finds the two.  A call is spelled with blanks and comments anywhere
outside its callee.
-/

namespace ConfigEdit

theorem isBlank_of_trim
    {text rest : Text} {first : Char} (shape : text.trim = first :: rest) :
    isBlank first = false := by
  have suffix :=
    List.dropWhile_suffix isBlank (l := (text.dropWhile isBlank).reverse)
  have inside : (first :: rest) <+: text.dropWhile isBlank := by
    rw [← shape, Text.trim, ← List.reverse_suffix, List.reverse_reverse]
    exact suffix
  obtain ⟨others, whole⟩ := inside
  have head := List.head?_dropWhile_not isBlank text
  rw [← whole] at head
  simpa using head

theorem trim_eq_self
    {text : Text} {first last : Char} (head : text.head? = some first)
    (ends : text.getLast? = some last) (left : isBlank first = false)
    (right : isBlank last = false) : text.trim = text := by
  have before : text.dropWhile isBlank = text := by
    cases text with
    | nil => rfl
    | cons character others =>
        cases head
        rw [List.dropWhile_cons_of_neg (by simp [left])]
  have behind : text.reverse.dropWhile isBlank = text.reverse := by
    cases shape : text.reverse with
    | nil => rfl
    | cons character others =>
        rw [← List.head?_reverse, shape] at ends
        cases ends
        rw [List.dropWhile_cons_of_neg (by simp [right])]
  rw [Text.trim, before, behind, List.reverse_reverse]

theorem skipFunctionName?_eq_some {text : Text} {place : Place text}
    (found : skipFunctionName? text = some place) :
    ∃ first path,
      text = first :: path ++ place.1 ∧ isIdentifierStart first = true ∧
      identifierPathEnd path = [] := by
  rw [skipFunctionName?] at found
  split at found
  · contradiction
  · next word rest named =>
      obtain ⟨further, below, same⟩ := Option.map_eq_some_iff.1 found
      obtain ⟨first, others, rfl, starts, all, -⟩ :=
        scanIdentifier?_eq_some named
      have bound : rest.length < text.length :=
        (scanIdentifier?_suffix named).length_le
      obtain ⟨second, path, split, starts', complete⟩ :=
        skipFunctionName?_eq_some below
      refine ⟨first, others ++ '.' :: second :: path, ?_, starts, ?_⟩
      · have behind : place.1 = further.1 := by rw [← same]
        have whole := (scanIdentifier?_append named).symm
        rw [behind, whole]
        simpa using split
      · rw [identifierPathEnd_parts all, identifierPathEnd, if_neg (by decide),
          if_pos (by simp [starts']), complete]
  · next word rest _ named =>
      cases found
      obtain ⟨first, others, rfl, starts, all, -⟩ :=
        scanIdentifier?_eq_some named
      refine ⟨first, others, (scanIdentifier?_append named).symm, starts, ?_⟩
      have whole := @identifierPathEnd_parts others [] all
      rwa [List.append_nil] at whole
termination_by text.length

theorem exists_skipFunctionName? {first : Char} {path rest : Text}
    (starts : isIdentifierStart first = true)
    (complete : identifierPathEnd path = [])
    (ends : EndsAt
      (fun character => isIdentifierPart character || character = '.') rest) :
    ∃ place : Place (first :: path ++ rest),
      skipFunctionName? (first :: path ++ rest) = some place ∧
      place.1 = rest := by
  obtain ⟨parts, further, split, all, stopped, -⟩ :=
    exists_endsAt isIdentifierPart path
  subst split
  rw [identifierPathEnd_parts all] at complete
  have behind : EndsAt isIdentifierPart (further ++ rest) := by
    cases further with
    | nil =>
        intro character head
        exact (Bool.or_eq_false_iff.1 (ends character head)).1
    | cons character others => exact stopped
  have named : scanIdentifier? (first :: (parts ++ further) ++ rest) =
      some (first :: parts, further ++ rest) := by
    rw [List.cons_append, List.append_assoc, scanIdentifier?, if_pos starts,
      takeWhile_append_of_endsAt all behind,
      dropWhile_append_of_endsAt all behind]
  rw [skipFunctionName?]
  split
  · next failed => cases named.symm.trans failed
  · next word others found =>
      obtain ⟨-, same⟩ := Prod.mk.inj (Option.some.inj (named.symm.trans found))
      cases further with
      | nil =>
          rw [List.nil_append] at same
          have noPoint := ends '.' (by rw [same]; rfl)
          contradiction
      | cons character tail =>
          obtain ⟨next, more, rfl, rfl, starts', complete'⟩ :=
            identifierPathEnd_eq_nil complete (stopped character rfl)
          obtain rfl : next :: more ++ rest = others := (List.cons.inj same).2
          obtain ⟨place, found, same⟩ :=
            exists_skipFunctionName? starts' complete' ends
          exact ⟨_, by rw [found]; rfl, same⟩
  · next word others notPoint found =>
      obtain ⟨-, rfl⟩ := Prod.mk.inj (Option.some.inj (named.symm.trans found))
      refine ⟨_, rfl, ?_⟩
      cases further with
      | nil => rfl
      | cons character tail =>
          obtain ⟨-, -, rfl, -⟩ :=
            identifierPathEnd_eq_nil complete (stopped character rfl)
          exact absurd rfl (notPoint _)
termination_by path.length

/-- A text that is a callee and, in parentheses, the text inside. -/
inductive SpellsCall : Text → Text → Text → Prop where
  | mk {first : Char} {path blank inside behind : Text} :
      isIdentifierStart first = true → identifierPathEnd path = [] →
      Trivia blank →
      ClosesGroup ')' inside → skipTrivia behind = .ok [] →
      SpellsCall (first :: path ++ (blank ++ '(' :: (inside ++ ')' :: behind)))
        (first :: path) inside

/-- Trivia and the parenthesis behind it go on with no function name. -/
theorem Trivia.endsName {blank : Text} (complete : Trivia blank) (rest : Text) :
    EndsAt (fun character => isIdentifierPart character || character = '.')
      (blank ++ '(' :: rest) := by
  intro character head
  cases blank with
  | nil =>
      cases head
      rfl
  | cons first others =>
      obtain ⟨notPart, -, notPoint⟩ :=
        isBoundary_cases (complete.beginsAtBoundary character head)
      simp [notPart, notPoint]

theorem groupInside_append (inside after : Text) :
    groupInside (inside ++ ')' :: after) after = inside := by
  have split : inside ++ ')' :: after = inside ++ [')'] ++ after := by simp
  rw [groupInside, upTo_of_eq_append split, List.dropLast_concat]

theorem callParts_eq_ok {text callee inside : Text} :
    callParts text = .ok (callee, inside) ↔ SpellsCall text callee inside := by
  constructor
  · intro parts
    rw [callParts] at parts
    split at parts
    · contradiction
    · next afterName named =>
        obtain ⟨first, path, split, starts, complete⟩ :=
          skipFunctionName?_eq_some named
        split at parts
        · contradiction
        · next inner found =>
            obtain ⟨blank, between, trivia⟩ :=
              exists_trivia_of_skipTrivia found (List.cons_ne_nil _ _)
            split at parts
            · contradiction
            · next after grouped =>
                obtain ⟨body, rfl, closes⟩ :=
                  exists_closesGroup_of_groupEnd?
                    ((@skipGroup_eq_ok '(' ')' rfl _ _).1 grouped)
                split at parts
                · contradiction
                · contradiction
                · next ended =>
                    obtain ⟨rfl, rfl⟩ := Prod.mk.inj (Except.ok.inj parts)
                    rw [groupInside_append, upTo_of_eq_append split, split,
                      between]
                    exact .mk starts complete trivia closes ended
        · contradiction
  · rintro ⟨starts, complete, trivia, closes, ended⟩
    next first path blank behind =>
      obtain ⟨afterName, named, same⟩ :=
        exists_skipFunctionName? starts complete
          (trivia.endsName (inside ++ ')' :: behind))
      have opened := trivia.skipTrivia_eq
        (@skipTrivia_token '(' (by decide) (by decide)
          (inside ++ ')' :: behind))
      have grouped := (@skipGroup_eq_ok '(' ')' rfl _ _).2 (closes behind)
      rw [callParts, named]
      simp only [same, opened, grouped, ended, upTo_append, groupInside_append]

theorem parseFault_truthWord (value : Bool) :
    Expr.parseFault (truthWord value) = .ok (.boolean value) := by
  have node : ReadsNode (truthWord value ++ []) (.boolean value) [] :=
    .boolean EndsWord.nil
  refine Expr.parseFault_of_readsWhole ?_ (.node node fun _ => .inl rfl)
  cases value <;> exact skipTrivia_token (by decide) (by decide) _

/-- What is read of a run, unless it is angled, is the whole run. -/
theorem IsRun.source_of_parseFault
    {run : Text} {value : Expr} (isRun : IsRun run [])
    (begins : BeginsToken run) (found : Expr.parseFault run = .ok value) :
    ∃ behind, run = value.source ++ behind ∧
      ReadsValue true (value.source ++ behind) value behind ∧
      skipTrivia behind = .ok [] ∧
      (value.angled = false → behind = []) := by
  obtain ⟨behind, split, reads, ended⟩ :=
    Expr.readsValue_of_parseFault found begins
  refine ⟨behind, split, reads, ended, fun plain => ?_⟩
  obtain ⟨-, same⟩ :=
    isRun.unique (reads.isRun_source plain) (by rw [List.append_nil, split])
  exact same.symm

theorem ReadsValue.exists_closesString
    {strict : Bool} {text rest content : Text} {raw : Option Text}
    (reads : ReadsValue strict text (.string content raw) rest) :
    ∃ mark body, isQuotationMark mark = true ∧ ClosesString mark body ∧
      content = body.unescape ∧ raw = some (mark :: (body ++ [mark])) := by
  cases reads with
  | node reads _ =>
      cases reads with
      | string quotes closes => exact ⟨_, _, quotes, closes, rfl, rfl⟩

theorem ReadsValue.isNumeral {strict : Bool} {text rest raw : Text}
    (reads : ReadsValue strict text (.number raw) rest) :
    raw.isNumeral = true := by
  cases reads with
  | node reads _ =>
      cases reads with
      | number numeral _ => exact numeral

theorem not_mem_of_isIdentifierPath
    {text : Text} (isPath : text.isIdentifierPath = true) :
    '<' ∉ text := by
  obtain ⟨first, path, rfl, starts, complete⟩ :=
    identifierPath_of_isIdentifierPath isPath
  intro inside
  rcases List.mem_cons.1 inside with rfl | inside
  · exact absurd starts (by decide)
  · rcases part_or_point_of_path complete _ inside with part | point
    · exact absurd part (by decide)
    · contradiction

/-- The argument that a text spells, of a call at a path. -/
inductive SpellsArgument (path : PropertyPath) : Text → Expr → Prop where
  | string {mark : Char} {body : Text} :
      isQuotationMark mark = true → ClosesString mark body →
      SpellsArgument path (mark :: (body ++ [mark]))
        (.string body.unescape none)
  | number {text : Text} :
      text.isNumeral = true → SpellsArgument path text (.ofNumberLiteral text)
  | truth (value : Bool) :
      SpellsArgument path (truthWord value) (.boolean value)
  | name {text : Text} :
      text.isIdentifierPath = true → (∀ value, text ≠ truthWord value) →
      SpellsArgument path text (.verbatim text)
  | object {literal : ObjectLiteral} {behind : Text} :
      Expr.parseFault ((Expr.object literal).source ++ behind) =
        .ok (.object literal) →
      skipTrivia behind = .ok [] →
      ((Expr.object literal).angled = false → behind = []) →
      SpellsArgument path ((Expr.object literal).source ++ behind)
        (.object literal)
  | call {text : Text} {read : Call} {value : Expr} :
      Expr.parseFault text = .ok (.call read) →
      buildCall path text = .ok value →
      SpellsArgument path text value

theorem spellsArgument_of_buildArgument {path : PropertyPath} {text : Text}
    {value : Expr} (begins : BeginsToken text) (isRun : IsRun text [])
    (built : buildArgument path text = .ok value) :
    SpellsArgument path text value := by
  rw [buildArgument] at built
  split at built
  · contradiction
  · next content raw found =>
      cases built
      obtain ⟨behind, rfl, reads, -, whole⟩ :=
        isRun.source_of_parseFault begins found
      obtain rfl := whole rfl
      obtain ⟨mark, body, quotes, closes, rfl, rfl⟩ := reads.exists_closesString
      simpa [Expr.source] using SpellsArgument.string quotes closes
  · next raw found =>
      cases built
      obtain ⟨behind, rfl, reads, -, whole⟩ :=
        isRun.source_of_parseFault begins found
      obtain rfl := whole rfl
      simpa [Expr.source] using SpellsArgument.number reads.isNumeral
  · next truth found =>
      cases built
      obtain ⟨behind, rfl, -, -, whole⟩ :=
        isRun.source_of_parseFault begins found
      obtain rfl := whole rfl
      cases truth with
      | false => exact .truth false
      | true => exact .truth true
  · next found => exact .call found built
  · next literal found =>
      cases built
      obtain ⟨behind, rfl, -, ended, whole⟩ :=
        isRun.source_of_parseFault begins found
      exact .object found ended whole
  · next written found =>
      split at built
      · next isPath =>
          cases built
          obtain ⟨behind, rfl, -, ended, whole⟩ :=
            isRun.source_of_parseFault begins found
          obtain rfl :=
            whole (by simp [Expr.angled, not_mem_of_isIdentifierPath isPath])
          rw [List.append_nil] at found ⊢
          refine .name isPath fun truth same => ?_
          obtain rfl : written = truthWord truth := same
          cases found.symm.trans (parseFault_truthWord truth)
      · contradiction

theorem buildArgument_of_spellsArgument {path : PropertyPath} {text : Text}
    {value : Expr} (begins : BeginsToken text) (isRun : IsRun text [])
    (spells : SpellsArgument path text value) :
    buildArgument path text = .ok value := by
  cases spells with
  | @string mark body quotes closes =>
      have node : ReadsNode (mark :: (body ++ [mark])) _ [] :=
        .string quotes closes
      have read :=
        Expr.parseFault_of_readsValue begins (.node node fun _ => .inl rfl) rfl
      rw [buildArgument, read]
  | number numeral =>
      have node : ReadsNode (text ++ []) _ [] := .number numeral isRun
      have read :=
        Expr.parseFault_of_readsWhole begins (.node node fun _ => .inl rfl)
      rw [buildArgument, read]
  | truth value => rw [buildArgument, parseFault_truthWord]
  | name isPath noWord =>
      obtain ⟨first, rest, rfl, starts, complete⟩ :=
        identifierPath_of_isIdentifierPath isPath
      have noNode : NoNode (first :: rest ++ []) :=
        .word starts complete EndsWord.nil noWord (.of_stops (.inl rfl))
      have reads : ReadsValue true (first :: rest ++ [])
          (.verbatim (first :: rest)) [] :=
        .verbatim noNode isRun
      rw [buildArgument, Expr.parseFault_of_readsWhole begins reads]
      exact if_pos isPath
  | object found ended whole => rw [buildArgument, found]
  | call found built => rw [buildArgument, found]; exact built

theorem buildArgument_eq_ok {path : PropertyPath} {text : Text} {value : Expr}
    (begins : BeginsToken text) (isRun : IsRun text []) :
    buildArgument path text = .ok value ↔ SpellsArgument path text value :=
  ⟨spellsArgument_of_buildArgument begins isRun,
    buildArgument_of_spellsArgument begins isRun⟩

/-- A call is built exactly of the texts that spell a call, with one argument
for each span between its parentheses. -/
theorem buildCall_eq_ok_iff_spells
    {path : PropertyPath} {marker : Text} {value : Expr} :
    buildCall path marker = .ok value ↔
      ∃ callee inside spans args, SpellsCall marker.trim callee inside ∧
        splitArguments inside = .ok spans ∧
        List.Forall₂ (SpellsArgument path) (spans.map Span.text) args ∧
        value = .call (.ofArguments callee args) := by
  have arguments {inside : Text} {spans : List (Span inside)} {args : List Expr}
      (found : splitArguments inside = .ok spans) :
      List.Forall₂ (fun part arg => buildArgument path part = .ok arg)
        (spans.map Span.text) args ↔
        List.Forall₂ (SpellsArgument path) (spans.map Span.text) args := by
    have runs := (separated_of_splitArguments found).isRun
    constructor
    · intro built
      exact ((List.forall₂_and_left _ _).2 ⟨runs, built⟩).imp
          fun _ _ ⟨⟨begins, isRun⟩, built⟩ =>
        (buildArgument_eq_ok begins isRun).1 built
    · intro spelled
      exact ((List.forall₂_and_left _ _).2 ⟨runs, spelled⟩).imp
          fun _ _ ⟨⟨begins, isRun⟩, spells⟩ =>
        (buildArgument_eq_ok begins isRun).2 spells
  have parts {inside : Text} {texts : List Text} :
      argumentParts marker.trim inside = .ok texts ↔
        ∃ spans,
          splitArguments inside = .ok spans ∧ texts = spans.map Span.text := by
    rw [argumentParts]
    cases splitArguments inside <;> simp [eq_comm]
  simp only [buildCall_eq_ok_iff, callParts_eq_ok, parts]
  constructor
  · rintro ⟨callee, inside, -, args, spells, ⟨spans, found, rfl⟩, built, rfl⟩
    exact ⟨callee, inside, spans, args, spells, found,
      (arguments found).1 built, rfl⟩
  · rintro ⟨callee, inside, spans, args, spells, found, spelled, rfl⟩
    exact ⟨callee, inside, _, args, spells, ⟨spans, found, rfl⟩,
      (arguments found).2 spelled, rfl⟩

end ConfigEdit
