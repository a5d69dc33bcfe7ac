import ConfigEdit.Document.Parse
import ConfigEdit.Scan.Arguments

/-!
# Where faults are reported

Every fault is reported at a place of the text that is read: at the token that
does not fit, at the bracket, mark or comment that is never closed, or at the
end.
-/

namespace ConfigEdit

/-- A fault, if there is one, is reported at a place of the text. -/
def Sited (text : Text) {found : Type} (result : Except Fault found) : Prop :=
  ∀ fault, result = .error fault → fault.site <:+ text

section Passing

variable {text rest : Text} {found other : Type}

theorem Sited.ok (value : found) :
    Sited text (.ok value : Except Fault found) := nofun

theorem Sited.error {fault : Fault} (inside : fault.site <:+ text) :
    Sited text (.error fault : Except Fault found) := by
  rintro _ ⟨⟩
  exact inside

theorem Sited.passed {result : Except Fault found} (sited : Sited text result)
    {fault : Fault} (failed : result = .error fault) :
    Sited text (.error fault : Except Fault other) :=
  .error (sited fault failed)

theorem Sited.widen {result : Except Fault found} (sited : Sited rest result)
    (inside : rest <:+ text) : Sited text result :=
  fun fault failed => (sited fault failed).trans inside

theorem Sited.map {result : Except Fault found} (sited : Sited text result)
    (change : found → other) : Sited text (result.map change) := by
  cases result with
  | error fault => exact sited.passed rfl
  | ok value => exact .ok _

end Passing

/-! ## Tokens -/

private theorem skip_sited :
    (∀ text, Sited text (skipTrivia text)) ∧
    (∀ opener text whole, opener <:+ whole → text <:+ whole →
      Sited whole (skipBlockComment opener text)) ∧
    ∀ text, Sited text (skipLineComment text) := by
  refine @skipTrivia.mutual_induct (fun text => Sited text (skipTrivia text))
    (fun opener text => ∀ whole, opener <:+ whole → text <:+ whole →
      Sited whole (skipBlockComment opener text))
    (fun text => Sited text (skipLineComment text))
    ?ended ?line ?block ?gap ?token ?unclosed ?closed ?inBlock ?lineEnded
    ?lineBreak ?inLine
  case ended | lineEnded => exact .ok _
  case line =>
    intro others sited
    exact sited.widen ⟨['/', '/'], rfl⟩
  case block =>
    intro others sited
    exact sited _ (List.suffix_refl _) ⟨['/', '*'], rfl⟩
  case gap =>
    intro character others _ _ gap sited
    rw [skipTrivia_gap gap]
    exact sited.widen (List.suffix_cons _ _)
  case token =>
    intro character others notLine notBlock notGap
    rw [skipTrivia_stays notLine notBlock notGap]
    exact .ok _
  case unclosed =>
    intro opener whole opens _
    exact .error opens
  case closed =>
    intro opener others sited whole _ inside
    exact sited.widen (.trans ⟨['*', '/'], rfl⟩ inside)
  case inBlock =>
    intro opener character others notEnd sited whole opens inside
    rw [skipBlockComment_other notEnd]
    exact sited whole opens ((List.suffix_cons _ _).trans inside)
  case lineBreak =>
    intro others sited
    exact sited.widen (List.suffix_cons _ _)
  case inLine =>
    intro character others notBreak sited
    rw [skipLineComment_other notBreak]
    exact sited.widen (List.suffix_cons _ _)

theorem skipTrivia_sited (text : Text) : Sited text (skipTrivia text) :=
  skip_sited.1 text

private theorem skipStringBody_sited
    (mark : Char) {whole opener : Text} (opens : opener <:+ whole)
    (rest : Text) : Sited whole (skipStringBody opener mark rest) := by
  fun_induction skipStringBody opener mark rest with
  | case1 => exact .error opens
  | case2 => exact .error opens
  | case3 => exact .error opens
  | case4 _ _ induction => exact induction
  | case5 => exact .ok _
  | case6 _ _ _ _ _ _ induction => exact induction

theorem skipString_sited (text : Text) : Sited text (skipString text) := by
  cases text with
  | nil => exact .error (List.suffix_refl _)
  | cons character rest =>
      rw [skipString]
      split
      · exact skipStringBody_sited character (List.suffix_refl _) rest
      · exact .error (List.suffix_refl _)

/-! ## Expressions -/

mutual

theorem skipTemplateBody_sited
    {text opener whole rest : Text} (opens : opener <:+ text)
    (within : rest <:+ whole) (inside : rest <:+ text) :
    Sited text (skipTemplateBody opener ⟨rest, within⟩) := by
  cases rest with
  | nil =>
      rw [skipTemplateBody]
      exact .error opens
  | cons character rest =>
      have later : rest <:+ text := (List.suffix_cons _ _).trans inside
      have tail : rest.tail <:+ text := (List.tail_suffix rest).trans later
      have shorter : rest.tail.length ≤ rest.length :=
        (List.tail_suffix rest).length_le
      rw [skipTemplateBody]
      simp only
      split
      · exact skipTemplateBody_sited opens _ tail
      split
      · exact .ok _
      split
      case isFalse => exact skipTemplateBody_sited opens _ later
      cases walked : skipGroupBody ⟨'}', rest⟩ (Place.start rest.tail) with
      | error fault =>
          exact (skipGroupBody_sited ⟨'}', rest⟩ later _ tail).passed walked
      | ok after =>
          have : after.1.length ≤ rest.tail.length := after.length_le
          exact skipTemplateBody_sited opens _ (after.2.trans tail)
termination_by 3 * rest.length
decreasing_by all_goals subst_vars; simp only [List.length_cons] at *; omega

theorem skipGroupBody_sited {text : Text} (bracket : OpenBracket)
    {whole rest : Text} (opens : bracket.site <:+ text)
    (within : rest <:+ whole) (inside : rest <:+ text) :
    Sited text (skipGroupBody bracket ⟨rest, within⟩) := by
  rw [skipGroupBody]
  cases ended : expressionEnd [] (Place.start rest) with
  | error fault =>
      exact (expressionEnd_sited [] nofun
        (List.suffix_refl rest) inside).passed ended
  | ok finish =>
      have bound : finish.1.length ≤ rest.length := finish.length_le
      simp only
      split
      · next fault found => exact ((skipTrivia_sited _).widen
          (finish.2.trans inside)).passed found
      · exact .error opens
      · next character others found =>
          have shorter : others.length < finish.1.length :=
            (skipTrivia_suffix found).length_le
          have reached : character :: others <:+ text :=
            (skipTrivia_suffix found).trans (finish.2.trans inside)
          split
          · exact .ok _
          split
          · exact skipGroupBody_sited _ opens _
              ((List.suffix_cons _ _).trans reached)
          · exact .error reached
termination_by 3 * rest.length + 2

theorem expressionEnd_sited
    {text : Text} (stack : List OpenBracket) {whole rest : Text}
    (opens : ∀ bracket ∈ stack, bracket.site <:+ text) (within : rest <:+ whole)
    (inside : rest <:+ text) :
    Sited text (expressionEnd stack ⟨rest, within⟩) := by
  rw [expressionEnd.eq_def]
  simp only
  split
  · next fault found => exact ((skipTrivia_sited _).widen inside).passed found
  · cases stack with
    | nil => exact .ok _
    | cons bracket others => exact .error (opens bracket List.mem_cons_self)
  · next character others found =>
      have shorter : others.length < rest.length :=
        (skipTrivia_suffix found).length_le
      have reached : character :: others <:+ text :=
        (skipTrivia_suffix found).trans inside
      have behind : others <:+ text := (List.suffix_cons _ _).trans reached
      split
      · next closer _ =>
          exact expressionEnd_sited (⟨closer, character :: others⟩ :: stack)
            (List.forall_mem_cons.2 ⟨reached, opens⟩) _ behind
      split
      · cases stack with
        | nil => exact .ok _
        | cons bracket stack =>
            simp only
            split
            · have below := fun other member => opens other (.tail _ member)
              exact expressionEnd_sited _ below _ behind
            · exact .error reached
      split
      · exact .ok _
      split
      · split
        · next fault ended =>
            exact ((skipString_sited _).widen reached).passed ended
        · next after ended =>
            have : after.length ≤ others.length :=
              (skipString_suffix ended).length_le
            exact expressionEnd_sited _ opens _
              ((skipString_suffix ended).trans behind)
      split
      · cases walked :
          skipTemplateBody (character :: others) (Place.start others) with
        | error fault =>
            exact (skipTemplateBody_sited reached
              (List.suffix_refl others) behind).passed walked
        | ok after =>
            have : after.1.length ≤ others.length := after.length_le
            exact expressionEnd_sited _ opens _ (after.2.trans behind)
      · exact expressionEnd_sited _ opens _ behind
termination_by 3 * rest.length + 1

end

theorem skipExpression_sited (text : Text) : Sited text (skipExpression text) :=
  expressionEnd_sited [] nofun _ (List.suffix_refl _)

theorem splitArguments_sited (text : Text) :
    Sited text (splitArguments text) := by
  rw [splitArguments]
  split
  · next fault found => exact (skipTrivia_sited _).passed found
  · exact .ok _
  · next first others found =>
      have start : first :: others <:+ text := skipTrivia_suffix found
      cases walked : skipExpression (first :: others) with
      | error fault =>
          exact ((skipExpression_sited _).widen start).passed walked
      | ok finish =>
          have ended : finish.1 <:+ text := finish.2.trans start
          simp only
          split
          · next fault found =>
              exact ((skipTrivia_sited _).widen ended).passed found
          · exact .ok _
          · next character rest found =>
              have reached : character :: rest <:+ text :=
                (skipTrivia_suffix found).trans ended
              have shorter : rest.length < text.length := reached.length_le
              split
              · split
                · cases further : splitArguments rest with
                  | error fault =>
                      exact ((splitArguments_sited rest).widen
                        ((List.suffix_cons _ _).trans reached)).passed further
                  | ok spans => exact .ok _
                · exact .error start
              · exact .error reached
termination_by text.length

/-! ## Values -/

private theorem skipTypeArguments_sited (depth : Nat) {text whole rest : Text}
    (within : rest <:+ whole) (inside : rest <:+ text) :
    Sited text (skipTypeArguments depth ⟨rest, within⟩) := by
  cases rest with
  | nil =>
      rw [skipTypeArguments]
      exact .ok _
  | cons character rest =>
      have later : rest <:+ text := (List.suffix_cons _ _).trans inside
      rw [skipTypeArguments]
      simp only
      split
      · exact skipTypeArguments_sited _ _ later
      split
      · split
        · exact .ok _
        · exact skipTypeArguments_sited _ _ later
      split
      · split
        · next fault ended =>
            exact ((skipString_sited _).widen inside).passed ended
        · next after ended =>
            have : after.length ≤ rest.length :=
              (skipString_suffix ended).length_le
            exact skipTypeArguments_sited _ _
              ((skipString_suffix ended).trans later)
      split
      · exact .ok _
      · exact skipTypeArguments_sited _ _ later
termination_by rest.length
decreasing_by all_goals subst_vars; simp only [List.length_cons] at *; omega

private theorem atExpressionEnd_sited (text : Text) :
    Sited text (atExpressionEnd text) := by
  rw [atExpressionEnd]
  split
  · next fault found => exact (skipTrivia_sited _).passed found
  · exact .ok _
  · exact .ok _

private theorem parseVerbatim_sited (text : Text) :
    Sited text (parseVerbatim text) := by
  rw [parseVerbatim]
  split
  · next fault found => exact (skipExpression_sited _).passed found
  · split
    · exact .error (List.suffix_refl _)
    · exact .ok _

private theorem parseWrittenMember_sited
    (leading : Text) (name : Option Text) (text : Text) :
    Sited text (parseWrittenMember leading name text) := by
  rw [parseWrittenMember]
  split
  · next fault found => exact (skipExpression_sited _).passed found
  · split
    · exact .error (List.suffix_refl _)
    · exact .ok _

private theorem parseNumber?_sited (text : Text) :
    Sited text (parseNumber? text) := by
  rw [parseNumber?]
  split
  · next fault found => exact (skipExpression_sited _).passed found
  · simp only
    split <;> exact .ok _

private theorem parseString_sited (text : Text) :
    Sited text (parseString text) := by
  cases text with
  | nil => exact .error (List.suffix_refl _)
  | cons mark rest =>
      rw [parseString]
      split
      · next fault ended => exact (skipString_sited _).passed ended
      · exact .ok _

private theorem parseKey?_sited (text : Text) :
    Sited text (parseKey? text) := by
  cases text with
  | nil => exact .ok _
  | cons first rest =>
      rw [parseKey?]
      split
      · split
        · next fault ended => exact (skipString_sited _).passed ended
        · exact .ok _
      · simp only
        split
        · exact .ok _
        · split <;> exact .ok _

mutual

theorem parseValue_sited (strict : Bool) (text : Text) :
    Sited text (parseValue strict text) := by
  rw [parseValue]
  cases read : parseNode? text with
  | error fault => exact (parseNode?_sited text).passed read
  | ok node =>
      cases node with
      | none => exact parseVerbatim_sited text
      | some found =>
          simp only
          split
          · split
            · next fault ended =>
                exact ((atExpressionEnd_sited _).widen found.2.2).passed ended
            · exact .ok _
            · exact parseVerbatim_sited text
          · exact .ok _
termination_by 8 * text.length + 3

theorem parseNode?_sited (text : Text) : Sited text (parseNode? text) := by
  cases text with
  | nil =>
      rw [parseNode?]
      exact .ok _
  | cons first rest =>
      rw [parseNode?]
      split
      · cases read : parseMembers (first :: rest) false rest with
        | error fault =>
            exact (parseMembers_sited (List.suffix_refl _)
              (List.suffix_cons _ _) _).passed read
        | ok literal => exact .ok _
      split
      · exact (parseString_sited _).map _
      split
      · exact parseNumber?_sited _
      split
      · exact parseWord_sited first rest
      · exact .ok _
termination_by 8 * text.length + 2
decreasing_by all_goals subst_vars; simp only [List.length_cons]; omega

theorem parseWord_sited (first : Char) (rest : Text) :
    Sited (first :: rest) (parseWord first rest) := by
  have pathEnd : identifierPathEnd rest <:+ rest :=
    identifierPathEnd_suffix rest
  rw [parseWord]
  simp only
  split
  · exact .ok _
  split
  · exact .ok _
  split
  · next fault began =>
      exact ((skipTrivia_sited _).widen
        (pathEnd.trans (List.suffix_cons _ _))).passed began
  · next typed began =>
      have start : typed <:+ rest := (skipTrivia_suffix began).trans pathEnd
      have begins : typed <:+ first :: rest :=
        start.trans (List.suffix_cons _ _)
      split
      · next fault typing =>
          split at typing
          · exact (skipTypeArguments_sited 0
              (List.suffix_refl typed) begins).passed typing
          · contradiction
      · exact .ok _
      · next behindTypes _ =>
          have reached : behindTypes.1 <:+ first :: rest :=
            behindTypes.2.trans begins
          split
          · next fault found =>
              exact ((skipTrivia_sited _).widen reached).passed found
          · next inner found =>
              have later : '(' :: inner <:+ rest :=
                ((skipTrivia_suffix found).trans behindTypes.2).trans start
              have opens : '(' :: inner <:+ first :: rest :=
                later.trans (List.suffix_cons _ _)
              have : inner.length < rest.length := later.length_le
              split
              · next fault read =>
                  exact (parseArguments_sited opens
                    ((List.suffix_cons _ _).trans opens)
                    _ _).passed read
              · exact .ok _
          · exact .ok _
termination_by 8 * (rest.length + 1) + 1

theorem parseArguments_sited {text opener rest : Text} (opens : opener <:+ text)
    (inside : rest <:+ text) (callee : Text) (afterComma : Bool) :
    Sited text (parseArguments opener callee afterComma rest) := by
  rw [parseArguments]
  split
  · next fault began => exact ((skipTrivia_sited _).widen inside).passed began
  · exact .error opens
  · next first others began =>
      have start : first :: others <:+ rest := skipTrivia_suffix began
      have begins : first :: others <:+ text := start.trans inside
      simp only
      split
      · exact .ok _
      have : others.length + 1 ≤ rest.length := start.length_le
      cases read : parseValue true (first :: others) with
      | error fault => exact ((parseValue_sited true (first :: others)).widen
          begins).passed read
      | ok value =>
          have ended : value.2.1 <:+ text := value.2.2.trans begins
          simp only
          split
          · next fault found =>
              exact ((skipTrivia_sited _).widen ended).passed found
          · exact .error opens
          · next character behind found =>
              have later : character :: behind <:+ rest :=
                ((skipTrivia_suffix found).trans value.2.2).trans start
              have : behind.length < rest.length := later.length_le
              have reached : character :: behind <:+ text := later.trans inside
              split
              · cases further : parseArguments opener callee true behind with
                | error fault =>
                    exact (parseArguments_sited opens
                      ((List.suffix_cons _ _).trans reached)
                      _ _).passed further
                | ok call => exact .ok _
              split
              · exact .ok _
              · exact .error reached
termination_by 8 * rest.length + 5
decreasing_by all_goals subst_vars; simp only [List.length_cons] at *; omega

theorem parseMembers_sited {text opener rest : Text} (opens : opener <:+ text)
    (inside : rest <:+ text) (afterComma : Bool) :
    Sited text (parseMembers opener afterComma rest) := by
  rw [parseMembers]
  split
  · next fault began => exact ((skipTrivia_sited _).widen inside).passed began
  · exact .error opens
  · next first others began =>
      have start : first :: others <:+ rest := skipTrivia_suffix began
      have begins : first :: others <:+ text := start.trans inside
      simp only
      split
      · exact .ok _
      have : others.length + 1 ≤ rest.length := start.length_le
      cases read :
        parseMember (rest.upTo (first :: others)) (first :: others) with
      | error fault => exact ((parseMember_sited _ (first :: others)).widen
          begins).passed read
      | ok member =>
          have ended : member.2.1 <:+ text := member.2.2.trans begins
          simp only
          split
          · next fault found =>
              exact ((skipTrivia_sited _).widen ended).passed found
          · exact .error opens
          · next character behind found =>
              have later : character :: behind <:+ rest :=
                ((skipTrivia_suffix found).trans member.2.2).trans start
              have : behind.length < rest.length := later.length_le
              have reached : character :: behind <:+ text := later.trans inside
              split
              · cases further : parseMembers opener true behind with
                | error fault =>
                    exact (parseMembers_sited opens
                      ((List.suffix_cons _ _).trans reached) _).passed further
                | ok literal => exact .ok _
              split
              · exact .ok _
              · exact .error reached
termination_by 8 * rest.length + 5
decreasing_by all_goals subst_vars; simp only [List.length_cons] at *; omega

theorem parseMember_sited (leading text : Text) :
    Sited text (parseMember leading text) := by
  rw [parseMember]
  split
  · next fault read => exact (parseKey?_sited _).passed read
  · exact parseWrittenMember_sited _ _ _
  · next key keyEnd read =>
      split
      · next fault found =>
          exact ((skipTrivia_sited _).widen keyEnd.2).passed found
      · exact .error List.nil_suffix
      · next character rest found =>
          have later : character :: rest <:+ text :=
            (skipTrivia_suffix found).trans keyEnd.2
          split
          · split
            · next fault began =>
                exact ((skipTrivia_sited _).widen
                  ((List.suffix_cons _ _).trans later)).passed began
            · next start began =>
                have value : start <:+ rest := skipTrivia_suffix began
                have : start.length < text.length :=
                  Nat.lt_of_le_of_lt value.length_le later.length_le
                split
                · next fault read =>
                    exact ((parseValue_sited true start).widen
                      (value.trans ((List.suffix_cons _ _).trans later))).passed
                      read
                · exact .ok _
          split
          · exact parseWrittenMember_sited _ _ _
          split
          · exact .ok _
          split
          · split
            · exact parseWrittenMember_sited _ _ _
            · exact .error later
          · exact .error later
termination_by 8 * text.length + 4

end

/-! ## Texts -/

theorem parseExpression_sited (text : Text) :
    Sited text (Expr.parseFault text) := by
  rw [Expr.parseFault.eq_def]
  split
  · next fault found => exact (skipTrivia_sited _).passed found
  · exact .error (List.suffix_refl _)
  · next start _ found =>
      have inside : start <:+ text := skipTrivia_suffix found
      split
      · next fault read =>
          exact ((parseValue_sited true start).widen inside).passed read
      · next value finish read =>
          have ended : finish.1 <:+ text := finish.2.trans inside
          split
          · next fault found =>
              exact ((skipTrivia_sited _).widen ended).passed found
          · exact .ok _
          · next rest _ found =>
              exact .error ((skipTrivia_suffix found).trans ended)

theorem parseSegments_sited {text start rest : Text} (depth : Nat)
    (afterPoint : Bool) (inside : rest <:+ text) :
    Sited text (parseSegments start depth afterPoint rest) := by
  rw [parseSegments.eq_def]
  split
  · next fault began => exact ((skipTrivia_sited _).widen inside).passed began
  · split
    · exact .ok _
    · exact .error List.nil_suffix
  · next character others began =>
      have reached : character :: others <:+ text :=
        (skipTrivia_suffix began).trans inside
      have behind : others <:+ text := (List.suffix_cons _ _).trans reached
      have shorter : others.length < rest.length :=
        (skipTrivia_suffix began).length_le
      split
      · split
        · next fault ended =>
            exact ((skipString_sited _).widen reached).passed ended
        · next after ended =>
            have : after.length ≤ others.length :=
              (skipString_suffix ended).length_le
            exact parseSegments_sited _ _
              ((skipString_suffix ended).trans behind)
      split
      · split
        · next fault walked =>
            exact (skipTemplateBody_sited reached
              (List.suffix_refl others) behind).passed walked
        · next after walked =>
            have : after.1.length ≤ others.length := after.length_le
            exact parseSegments_sited _ _ (after.2.trans behind)
      split
      · exact parseSegments_sited _ _ behind
      split
      · split
        · exact .error reached
        · exact parseSegments_sited _ _ behind
      split
      case isFalse => exact parseSegments_sited _ _ behind
      have wordEnd : others.dropWhile isIdentifierPart <:+ others :=
        List.dropWhile_suffix _
      have : (others.dropWhile isIdentifierPart).length ≤ others.length :=
        wordEnd.length_le
      have afterWord : others.dropWhile isIdentifierPart <:+ text :=
        wordEnd.trans behind
      simp only
      split
      · exact parseSegments_sited _ _ afterWord
      split
      · next fault second =>
          exact ((skipTrivia_sited _).widen afterWord).passed second
      · next token second =>
          split
          · next afterDefault scanned =>
              have ended : afterDefault <:+ others :=
                ((scanIdentifier?_suffix scanned).trans
                  (skipTrivia_suffix second)).trans wordEnd
              split
              · next fault third =>
                  exact ((skipTrivia_sited _).widen
                    (ended.trans behind)).passed third
              · exact .error List.nil_suffix
              · next first inner third =>
                  have starts : first :: inner <:+ others :=
                    (skipTrivia_suffix third).trans ended
                  split
                  · next fault read =>
                      exact ((parseValue_sited false (first :: inner)).widen
                        (starts.trans behind)).passed read
                  · next value finish read =>
                      have smaller : finish.1.length ≤ others.length :=
                        Nat.le_trans finish.2.length_le starts.length_le
                      split
                      · next fault further =>
                          exact (parseSegments_sited 0 false
                            (finish.2.trans (starts.trans behind))).passed
                            further
                      · exact .ok _
          · exact parseSegments_sited _ _ afterWord
termination_by rest.length

/-- A fault in a document is reported at a place of its text. -/
theorem parseDocument_sited (text : Text) :
    Sited text (Document.parseFault text) := by
  rw [Document.parseFault]
  split
  · next fault read =>
      exact (parseSegments_sited 0 false (List.suffix_refl text)).passed read
  · exact .ok _

end ConfigEdit
