import ConfigEdit.Command.Arguments
import ConfigEdit.Proofs.Outcome

/-!
# How arguments are read

`Reads` states what the arguments at a level say, one kind of argument after the
other, and `readLevel` reads as it states (`reads_of_readLevel`,
`readLevel_eq`). Which option an argument is and which value it has with it does
not depend on what has been said before.
-/

namespace ConfigEdit.Command

section Options

variable {level : Level} {said next : Said} {pending : Option Setting}

/-- No option is short for `-`, and the switch has two names at each level that
has it. -/
theorem switch_names (level : Level) :
    ∀ entry ∈ level.switches,
      entry.2.2 ≠ some '-' ∧
      (entry.1 = .flag .write → entry.2 = ("write", some 'w')) := by
  cases level <;> decide

theorem ofShort?_eq_some {name : Char} {switch : Switch}
    (found : level.ofShort? name = some switch) :
    name ≠ '-' ∧ (switch = .flag .write → name = 'w') := by
  obtain ⟨⟨_, long, short⟩, entry, rfl⟩ := Option.map_eq_some_iff.1 found
  have named : short = some name := by simpa using List.find?_some entry
  subst named
  obtain ⟨dash, write⟩ := switch_names level _ (List.mem_of_find?_eq_some entry)
  constructor
  · rintro rfl
    exact dash rfl
  · intro same
    exact Option.some.inj (congrArg Prod.snd (write same))

theorem ofLong?_write
    {name : Text} (found : level.ofLong? name = some (.flag .write)) :
    name = "write".toList := by
  obtain ⟨⟨_, long, short⟩, entry, rfl⟩ := Option.map_eq_some_iff.1 found
  have named : long.toList = name := by simpa using List.find?_some entry
  have names := (switch_names level _ (List.mem_of_find?_eq_some entry)).2 rfl
  cases names
  exact named.symm

theorem addShort_flag {name : Char} {flag : Flag}
    (found : level.ofShort? name = some (.flag flag))
    (said : Said) (rest : Text) :
    Said.addShort level said (name :: rest) =
      said.addFlag flag >>= fun said => Said.addShort level said rest := by
  rw [Said.addShort.eq_def]
  dsimp only
  rw [found]

theorem addShort_setting {name : Char} {setting : Setting}
    (found : level.ofShort? name = some (.setting setting)) (rest : Text) :
    ∃ value, ∀ said, Said.addShort level said (name :: rest) =
      said.addSwitch (.setting setting) value := by
  rcases rest with _ | ⟨next, behind⟩
  · refine ⟨none, fun said => ?_⟩
    rw [Said.addShort.eq_def]
    dsimp only
    rw [found]
    rfl
  · by_cases joined : next = '='
    · subst joined
      refine ⟨some behind, fun said => ?_⟩
      rw [Said.addShort.eq_def]
      dsimp only
      rw [found]
      rfl
    · refine ⟨some (next :: behind), fun said => ?_⟩
      rw [Said.addShort.eq_def]
      dsimp only
      rw [found]
      dsimp only
      split
      · contradiction
      · next same => exact absurd (List.cons.inj same).1 joined
      · rfl

theorem ofShort?_of_addShort {name : Char} {rest : Text}
    (added : Said.addShort level said (name :: rest) = .ok (next, pending)) :
    ∃ switch, level.ofShort? name = some switch := by
  rw [Said.addShort.eq_def] at added
  dsimp only at added
  cases found : level.ofShort? name with
  | none =>
      rw [found] at added
      contradiction
  | some switch => exact ⟨switch, rfl⟩

theorem addLong_eq (level : Level) (body : Text) :
    ∃ name value,
      (value = none → name = body) ∧ ∀ said, Said.addLong level said body =
      match level.ofLong? name with
      | some switch => said.addSwitch switch value
      | none => .error (Said.unknown ('-' :: '-' :: body)) := by
  cases found : body.splitOnce? '=' with
  | none =>
      refine ⟨body, none, fun _ => rfl, fun said => ?_⟩
      rewrite [Said.addLong, found]
      rfl
  | some parts =>
      obtain ⟨name, value⟩ := parts
      refine ⟨name, some value, nofun, fun said => ?_⟩
      rewrite [Said.addLong, found]
      rfl

theorem exists_of_isOption
    {argument : Text} (option : isOption argument = true) :
    ∃ first rest, argument = '-' :: first :: rest := by
  unfold isOption at option
  split at option
  · next first rest => exact ⟨first, rest, rfl⟩
  · contradiction

end Options

/-- What a level says, argument by argument. -/
inductive Reads (level : Level) :
    Said → List Text → Said → Option (Level × List Text) → Prop where
  | done (said : Said) : Reads level said [] said none
  | files {said next : Said} {rest : List Text}
      (added : rest.foldlM (Said.addFile level) said = .ok next) :
      Reads level said (['-', '-'] :: rest) next none
  | switch {said between next : Said} {argument : Text} {rest : List Text}
      {inner : Option (Level × List Text)} (marked : argument ≠ ['-', '-'])
      (option : isOption argument = true)
      (added : addOption level said argument = .ok (between, none)) :
      Reads level between rest next inner →
      Reads level said (argument :: rest) next inner
  | setting {said between set next : Said} {argument value : Text}
      {rest : List Text}
      {setting : Setting} {inner : Option (Level × List Text)}
      (marked : argument ≠ ['-', '-'])
      (option : isOption argument = true)
      (added : addOption level said argument = .ok (between, some setting))
      (plain : isOption value = false)
      (valued : between.addSetting value setting = .ok set) :
      Reads level set rest next inner →
      Reads level said (argument :: value :: rest) next inner
  | command {said : Said} {argument : Text} {inner : Level} {rest : List Text}
      (top : level = .top) (marked : argument ≠ ['-', '-'])
      (plain : isOption argument = false)
      (named : Level.ofName? argument = some inner) :
      Reads level said (argument :: rest) said (some (inner, rest))
  | file {said between next : Said} {argument : Text} {rest : List Text}
      {inner : Option (Level × List Text)} (below : level ≠ .top)
      (marked : argument ≠ ['-', '-']) (plain : isOption argument = false)
      (added : Said.addFile level said argument = .ok between) :
      Reads level between rest next inner →
      Reads level said (argument :: rest) next inner

theorem reads_of_readLevel {level : Level} {said next : Said}
    {arguments : List Text} {inner : Option (Level × List Text)}
    (read : readLevel level said arguments = .ok (next, inner)) :
    Reads level said arguments next inner := by
  fun_induction readLevel level said arguments with
  | case1 =>
      cases read
      exact .done _
  | case2 =>
      obtain ⟨said, added, same⟩ := map_eq_ok.1 read
      cases same
      exact .files added
  | case4 said argument rest marked option between added induction =>
      exact .switch marked option added (induction read)
  | case8 said argument marked option between setting added value rest plain
        set valued induction =>
      exact .setting marked option added (by simpa using plain) valued
        (induction read)
  | case9 said argument rest marked plain inner named top =>
      cases read
      exact .command top marked (by simpa using plain) named
  | case13 said argument rest marked plain between added named unnamed
        induction =>
      have below : level ≠ .top := by
        intro top
        cases found : Level.ofName? argument with
        | none => exact unnamed top found
        | some inner => exact named inner top found
      rw [added] at read
      exact .file below marked (by simpa using plain) added (induction read)
  | case12 said argument rest marked plain error added =>
      rw [added] at read
      contradiction
  | case3 | case5 | case6 | case7 | case10 | case11 => contradiction

theorem Reads.readLevel_eq {level : Level} {said next : Said}
    {arguments : List Text} {inner : Option (Level × List Text)}
    (reads : Reads level said arguments next inner) :
    readLevel level said arguments = .ok (next, inner) := by
  induction reads with
  | done said => rw [readLevel.eq_def]
  | files added =>
      rw [readLevel.eq_def]
      dsimp only
      rw [if_pos rfl, added]
      rfl
  | switch marked option added _ induction =>
      rw [readLevel.eq_def]
      dsimp only
      rw [if_neg marked, if_pos option, added]
      exact induction
  | setting marked option added plain valued _ induction =>
      rw [readLevel.eq_def]
      dsimp only
      rw [if_neg marked, if_pos option, added]
      dsimp only
      rw [plain, if_neg Bool.false_ne_true, valued]
      exact induction
  | command top marked plain named =>
      rw [readLevel.eq_def]
      dsimp only
      rw [if_neg marked, plain, if_neg Bool.false_ne_true, top, named]
  | file below marked plain added _ induction =>
      rw [readLevel.eq_def]
      dsimp only
      rw [if_neg marked, plain, if_neg Bool.false_ne_true, added]
      split
      · contradiction
      · contradiction
      · exact induction

end ConfigEdit.Command
