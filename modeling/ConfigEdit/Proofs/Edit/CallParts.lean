import ConfigEdit.Edit.Call
import ConfigEdit.Proofs.Outcome

/-!
# The parts of a call

`callParts` takes a text apart into the callee of a call and the text between
its parentheses, and `buildCall` is what is made of these parts.  A path is
needed for errors only.
-/

namespace ConfigEdit

/-- The callee of the call that a text spells, and the text between its
parentheses. -/
def callParts (text : Text) : Except UnsupportedValue (Text × Text) :=
  match skipFunctionName? text with
  | none => .error (.noFunctionName text)
  | some afterName =>
      match skipTrivia afterName.1 with
      | .error fault => .error (.unreadable text fault.cause)
      | .ok ('(' :: inner) =>
          match skipGroup ('(' :: inner) with
          | .error fault => .error (.unreadable text fault.cause)
          | .ok after =>
              match skipTrivia after with
              | .error fault => .error (.unreadable text fault.cause)
              | .ok (_ :: _) => .error (.textAfterCall text)
              | .ok [] => .ok (text.upTo afterName.1, groupInside inner after)
      | .ok _ => .error (.notACall text)

/-- The arguments of a call as texts. -/
def argumentParts (text inside : Text) : Except UnsupportedValue (List Text) :=
  match splitArguments inside with
  | .error fault => .error (.unreadable text fault.cause)
  | .ok spans => .ok (spans.map Span.text)

theorem length_lt_of_callParts {text callee inside : Text}
    (parts : callParts text = .ok (callee, inside)) :
    inside.length < text.length := by
  rw [callParts] at parts
  split at parts
  · contradiction
  · next afterName named =>
      split at parts
      · contradiction
      · next inner found =>
          split at parts
          · contradiction
          · next after _ =>
              split at parts
              · contradiction
              · contradiction
              · cases parts
                have opened : inner.length + 1 ≤ afterName.1.length :=
                  (skipTrivia_suffix found).length_le
                have start := afterName.length_le
                have cut := length_groupInside_le inner after
                omega
      · contradiction

theorem length_le_of_argumentParts {text inside : Text} {parts : List Text}
    (found : argumentParts text inside = .ok parts) :
    ∀ part ∈ parts, part.length ≤ inside.length := by
  rw [argumentParts] at found
  split at found
  · contradiction
  · next spans _ =>
      cases found
      intro part among
      obtain ⟨span, -, rfl⟩ := List.mem_map.1 among
      exact span.length_text_le

theorem length_lt_of_argumentParts {marker callee inside : Text}
    {parts : List Text} (found : callParts marker.trim = .ok (callee, inside))
    (split : argumentParts marker.trim inside = .ok parts) :
    ∀ part ∈ parts, part.length < marker.length := by
  intro part among
  have inner := length_lt_of_callParts found
  have whole := marker.length_trim_le
  have cut := length_le_of_argumentParts split part among
  omega

theorem buildCall_eq (path : PropertyPath) (marker : Text) :
    buildCall path marker = do
      let (callee,
        inside) ← (callParts marker.trim).mapError (.unsupported path)
      let parts ← (argumentParts marker.trim inside).mapError
        (.unsupported path)
      let args ← parts.mapM (buildArgument path)
      return .call (.ofArguments callee args) := by
  rw [buildCall, callParts]
  cases skipFunctionName? marker.trim with
  | none => rfl
  | some afterName =>
      simp only
      split
      · next found =>
          rw [found]
          rfl
      · next inner found =>
          rw [found]
          simp only
          cases skipGroup ('(' :: inner) with
          | error fault => rfl
          | ok after =>
              simp only
              cases skipTrivia after with
              | error fault => rfl
              | ok rest =>
                  cases rest with
                  | cons character others => rfl
                  | nil =>
                      simp only [argumentParts, Except.mapError, bind,
                        Except.bind]
                      cases splitArguments (groupInside inner after) with
                      | error fault => rfl
                      | ok spans =>
                          simp only [List.mapM_map]
                          rfl
      · next other _ found =>
          rw [found]
          simp only
          rfl

theorem buildCall_eq_ok_iff
    {path : PropertyPath} {marker : Text} {value : Expr} :
    buildCall path marker = .ok value ↔
      ∃ callee inside parts args, callParts marker.trim = .ok (callee, inside) ∧
        argumentParts marker.trim inside = .ok parts ∧
        List.Forall₂ (fun part arg => buildArgument path part = .ok arg)
          parts args ∧
        value = .call (.ofArguments callee args) := by
  rw [buildCall_eq]
  constructor
  · intro built
    obtain ⟨⟨callee, inside⟩, found, built⟩ := bind_eq_ok.1 built
    obtain ⟨parts, split, built⟩ := bind_eq_ok.1 built
    obtain ⟨args, mapped, same⟩ := bind_eq_ok.1 built
    exact ⟨callee, inside, parts, args, mapError_eq_ok.1 found,
      mapError_eq_ok.1 split,
      mapM_eq_ok_iff.1 mapped, (Except.ok.inj same).symm⟩
  · rintro ⟨callee, inside, parts, args, found, split, mapped, rfl⟩
    rw [found]
    simp only [Except.mapError, bind, Except.bind, split,
      mapM_eq_ok_iff.2 mapped]
    rfl

theorem exists_outcome_of_mapM {kind other : Type}
    {step : PropertyPath → kind → Except EditError other} {items : List kind}
    (each : ∀ item ∈ items, ∃ outcome : Except UnsupportedValue other,
      ∀ path, step path item = outcome.mapError (.unsupported path)) :
    ∃ outcome : Except UnsupportedValue (List other),
      ∀ path,
        items.mapM (step path) = outcome.mapError (.unsupported path) := by
  induction items with
  | nil => exact ⟨.ok [], fun _ => rfl⟩
  | cons item others induction =>
      obtain ⟨first, same⟩ := each item List.mem_cons_self
      obtain ⟨further, rest⟩ := induction fun other inside =>
        each other (List.mem_cons_of_mem _ inside)
      refine ⟨first.bind fun value => further.map (value :: ·), fun path => ?_⟩
      rw [List.mapM_cons, same, rest]
      cases first with
      | error reason => rfl
      | ok value => cases further <;> rfl

mutual

/-- What becomes of a call does not depend on its path: it is built, or there is
a reason against it, which is reported with the path. -/
theorem exists_outcome_of_buildCall (marker : Text) :
    ∃ outcome : Except UnsupportedValue Expr,
      ∀ path, buildCall path marker = outcome.mapError (.unsupported path) := by
  cases parts : callParts marker.trim with
  | error reason =>
      exact ⟨.error reason, fun path => by rw [buildCall_eq, parts]; rfl⟩
  | ok pair =>
      obtain ⟨callee, inside⟩ := pair
      cases split : argumentParts marker.trim inside with
      | error reason =>
          refine ⟨.error reason, fun path => ?_⟩
          simp only [buildCall_eq, parts, Except.mapError, bind, Except.bind,
            split]
      | ok texts =>
          obtain ⟨outcome, same⟩ :=
            @exists_outcome_of_mapM _ _ buildArgument texts fun part among =>
              have := length_lt_of_argumentParts parts split part among
              exists_outcome_of_buildArgument part
          refine ⟨outcome.map fun args => .call (.ofArguments callee args),
            fun path => ?_⟩
          simp only [buildCall_eq, parts, Except.mapError, bind, Except.bind,
            split, same]
          cases outcome <;> rfl
termination_by 2 * marker.length

theorem exists_outcome_of_buildArgument (text : Text) :
    ∃ outcome : Except UnsupportedValue Expr,
      ∀ path,
        buildArgument path text = outcome.mapError (.unsupported path) := by
  cases found : Expr.parseFault text with
  | error fault =>
      exact ⟨.error _, fun path => by rw [buildArgument, found]; rfl⟩
  | ok value =>
      cases value with
      | string value _ | number _ | boolean _ | object _ =>
          exact ⟨.ok _, fun path => by rw [buildArgument, found]; rfl⟩
      | call _ =>
          obtain ⟨outcome, same⟩ := exists_outcome_of_buildCall text
          exact ⟨outcome, fun path => by rw [buildArgument, found, ← same]⟩
      | verbatim written =>
          by_cases isPath : written.isIdentifierPath = true
          · exact ⟨.ok _,
              fun path => by rw [buildArgument, found]; simp only [isPath]; rfl⟩
          · exact ⟨.error _,
              fun path => by rw [buildArgument, found]; simp only [isPath]; rfl⟩
termination_by 2 * text.length + 1

end

/-- A call that is not built is reported with its path. -/
theorem unsupported_of_buildCall {path : PropertyPath} {marker : Text}
    {error : EditError} (failed : buildCall path marker = .error error) :
    ∃ reason, error = .unsupported path reason := by
  obtain ⟨outcome, same⟩ := exists_outcome_of_buildCall marker
  rw [same] at failed
  cases outcome with
  | error reason => exact ⟨reason, (Except.error.inj failed).symm⟩
  | ok value => contradiction

end ConfigEdit
