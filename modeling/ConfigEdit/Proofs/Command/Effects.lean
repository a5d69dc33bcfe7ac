import ConfigEdit.Command.Run
import ConfigEdit.Proofs.Command.WriteSwitch
import ConfigEdit.Proofs.Files.Storing

/-!
# What a run does to files

A run changes no file unless it is an update or a removal that is to be written
and ends well.  Then it changes the file of the command alone, and the file
holds what the same command prints when it is not to be written.

Paths may lead to places of a file tree in any way: from its root, from a
directory that is worked in, or through links.
-/

namespace ConfigEdit

/-- The disk of a tree whose paths lead to places in a given way. -/
def FileTree.disk (tree : FileTree)
    (leads : Text → Option (List Text)) : Disk :=
  fun path => (leads path).bind tree.get?

/-- The files after an outcome on a disk that takes some texts and refuses
others, and the report.  A text that is refused leaves the files as they are. -/
def Outcome.performOn
    (takes : Text → Text → Bool) (leads : Text → Option (List Text))
    (files : FileTree) : Outcome → FileTree × Report
  | done report => (files, report)
  | save path content =>
      if takes path content then
        match leads path with
        | some names => (.put (.file content.utf8) names files, saved path)
        | none => (files, saved path)
      else (files, notSaved path)

/-- The files after a run are those on a disk that takes every text. -/
theorem Outcome.perform_eq_performOn (files : FileTree) (outcome : Outcome) :
    outcome.perform files =
      outcome.performOn (fun _ _ => true) files.resolve? files := by
  cases outcome with
  | done report => rfl
  | save path content =>
      rw [perform, performOn, if_pos rfl, FileTree.store]
      cases files.resolve? path <;> rfl

namespace Command

/-- The file that a command edits. -/
def edited? : Command → Option Text
  | update file _ _ _ | remove file _ _ => some file
  | display _ | find _ | settings => none

theorem withWrite_of_target?_eq_none
    {command : Command} (reads : command.target? = none) :
    command.withWrite false = command := by
  cases command with
  | update _ _ _ write | remove _ _ write =>
      cases write with
      | true => contradiction
      | false => rfl
  | display _ | find _ | settings => rfl

theorem edited?_of_target? {command : Command} {file : Text}
    (writes : command.target? = some file) :
    command.edited? = some file ∧ command.withWrite true = command := by
  cases command with
  | update _ _ _ write | remove _ _ write =>
      cases write with
      | true => exact ⟨writes, rfl⟩
      | false => contradiction
  | display _ | find _ | settings => contradiction

section Edits

variable {command : Command} {file : Text}

/-- The text of a file goes through a step to be printed or stored, and whether
it is to be stored is not looked at before. -/
theorem withText_emit
    (disk : Disk) (file : Text) (step : Text → Except EditError Text) :
    (∃ message, ∀ write,
      withText disk file step (emit file write) = .failed message) ∨
    ∃ before text, disk.text? file = some before ∧
      ∀ write, withText disk file step (emit file write) =
        emit file write before text := by
  unfold withText
  cases disk.text? file with
  | none => exact .inl ⟨_, fun _ => rfl⟩
  | some before =>
      dsimp only
      cases step before with
      | error error => exact .inl ⟨_, fun _ => rfl⟩
      | ok text => exact .inr ⟨before, text, rfl, fun _ => rfl⟩

/-- A command that edits a file fails, or it has a text to print or to store. -/
theorem run_withWrite (edits : command.edited? = some file) (disk : Disk)
    (effective : Settings) :
    (∃ message, ∀ write,
      (command.withWrite write).run disk effective = .failed message) ∨
    ∃ before text, disk.text? file = some before ∧
      ∀ write, (command.withWrite write).run disk effective =
        emit file write before text := by
  cases command with
  | update _ source overwrite _ =>
      cases edits
      simp only [withWrite, run]
      cases source.assemble disk with
      | error error => exact .inl ⟨_, fun _ => rfl⟩
      | ok patch => exact withText_emit disk file _
  | remove _ paths _ =>
      cases edits
      exact withText_emit disk file _
  | display _ | find _ | settings => contradiction

theorem exists_report
    (reads : command.target? = none) (disk : Disk) (effective : Settings) :
    ∃ report, command.run disk effective = .done report := by
  cases edits : command.edited? with
  | some file =>
      rw [← withWrite_of_target?_eq_none reads]
      rcases run_withWrite edits disk effective with
        ⟨message, failed⟩ | ⟨before, text, -, emitted⟩
      · exact ⟨_, failed false⟩
      · exact ⟨_, emitted false⟩
  | none =>
      cases command with
      | update _ _ _ _ | remove _ _ _ => contradiction
      | display file =>
          rw [run]
          unfold withText
          cases disk.text? file with
          | none => exact ⟨_, rfl⟩
          | some text =>
              dsimp only
              cases readText text <;> exact ⟨_, rfl⟩
      | find directory =>
          rw [run]
          cases discover disk effective.checked.discover
            (directory.getD ['.']) <;>
            exact ⟨_, rfl⟩
      | settings => exact ⟨_, rfl⟩

end Edits

end Command

namespace Invocation

variable {invocation : Invocation} {file : Text}

theorem exists_report (reads : invocation.command.target? = none) (disk : Disk)
    (home : Option Text) :
    ∃ report, invocation.run disk home = .done report := by
  rw [run]
  cases invocation.options.loadSettings disk home with
  | error message => exact ⟨_, rfl⟩
  | ok settings => exact invocation.command.exists_report reads disk settings

/-- An invocation that is to write a file fails as it does otherwise, or has the
text to store that it prints otherwise. -/
theorem run_writing (writes : invocation.command.target? = some file)
    (disk : Disk) (home : Option Text) :
    (∃ message, invocation.run disk home = .failed message ∧
      (invocation.withWrite false).run disk home = .failed message) ∨
    ∃ before text, disk.text? file = some before ∧
      invocation.run disk home = Command.emit file true before text ∧
      (invocation.withWrite false).run disk home = .done (.printed text) := by
  obtain ⟨options, command⟩ := invocation
  obtain ⟨edits, same⟩ := Command.edited?_of_target? writes
  rw [run, run, withWrite]
  cases options.loadSettings disk home with
  | error message => exact .inl ⟨_, rfl, rfl⟩
  | ok settings =>
      rcases Command.run_withWrite edits disk settings with
        ⟨message, failed⟩ | ⟨before, text, held, emitted⟩
      · exact .inl ⟨message, same ▸ failed true, failed false⟩
      · exact .inr ⟨before, text, held, same ▸ emitted true, emitted false⟩

end Invocation

theorem runArguments_eq {arguments : List Text} {invocation : Invocation}
    (spelled : Invocation.ofArguments arguments = .ok invocation) (disk : Disk)
    (home : Option Text) :
    runArguments disk home arguments = invocation.run disk home := by
  rw [runArguments, spelled]

section Effects

variable {files : FileTree} {leads : Text → Option (List Text)}

theorem exists_file_of_text? {path text : Text}
    (held : (files.disk leads).text? path = some text) :
    ∃ names,
      leads path = some names ∧ files.get? names = some (.file text.utf8) := by
  obtain ⟨content, bytes, decoded⟩ := Option.bind_eq_some_iff.1 held
  obtain ⟨tree, inside, shown⟩ := Option.bind_eq_some_iff.1 bytes
  obtain ⟨names, leading, found⟩ := Option.bind_eq_some_iff.1 inside
  refine ⟨names, leading, ?_⟩
  cases tree with
  | file stored =>
      cases shown
      rw [found, Text.utf8_of_ofUtf8? decoded]
  | directory entries => contradiction

theorem exit_performOn {takes : Text → Text → Bool} {outcome : Outcome}
    (failed : (outcome.performOn takes leads files).2.exit ≠ 0) :
    (outcome.performOn takes leads files).1 = files := by
  cases outcome with
  | done report => rfl
  | save path content =>
      rw [Outcome.performOn] at failed ⊢
      split at failed
      · split at failed <;> exact absurd rfl failed
      · next refused => rw [if_neg refused]

theorem emit_performOn
    {file before : Text} {names : List Text} (takes : Text → Text → Bool)
    (text : Text) (leading : leads file = some names)
    (found : files.get? names = some (.file before.utf8)) :
    let done := (Command.emit file true before text).performOn takes leads files
    (done.2.exit = 0 → files.Rewrites names text.utf8 done.1) ∧
      (before = text → done.1 = files) ∧
      (takes file text = true → done.2.exit = 0) := by
  by_cases same : text = before
  · subst same
    have kept : Command.emit file true text text =
        .done (.noted (String.ofList file ++ ": unchanged")) := if_pos rfl
    rw [kept]
    exact ⟨fun _ => .refl found, fun _ => rfl, fun _ => rfl⟩
  · have saved : Command.emit file true before text = .save file text :=
      if_neg same
    rw [saved, Outcome.performOn, leading]
    by_cases taken : takes file text
    · rw [if_pos taken]
      exact ⟨fun _ => FileTree.rewrites_put found text.utf8,
        fun equal => absurd equal.symm same,
        fun _ => rfl⟩
    · rw [if_neg taken]
      refine ⟨?_, fun _ => rfl, fun takes => absurd takes taken⟩
      intro failed
      contradiction

end Effects

/-- A run changes files only if it ends well and its arguments ask for a file to
be written.  The file then holds what the same command prints without the switch
that asks for it, and all other files are as they were. -/
theorem runArguments_effects
    (files : FileTree) (leads : Text → Option (List Text))
    (takes : Text → Text → Bool) (home : Option Text) (arguments : List Text) :
    let done := (runArguments (files.disk leads) home arguments).performOn takes
      leads files
    (done.2.exit ≠ 0 → done.1 = files) ∧
    ((∀ invocation, Invocation.ofArguments arguments = .ok invocation →
        invocation.command.target? = none) → done.1 = files) ∧
    ∀ invocation file, Invocation.ofArguments arguments = .ok invocation →
      invocation.command.target? = some file →
      (∃ printing, Command.DropsWrite arguments printing ∧
        Invocation.ofArguments printing = .ok (invocation.withWrite false)) ∧
      ∀ printing,
        Invocation.ofArguments printing = .ok (invocation.withWrite false) →
        (done.2.exit = 0 → ∃ names text, leads file = some names ∧
          runArguments (files.disk leads) home printing =
            .done (.printed text) ∧
          files.Rewrites names text.utf8 done.1 ∧
          (files.get? names = some (.file text.utf8) → done.1 = files)) ∧
        ∀ text, runArguments (files.disk leads) home printing =
          .done (.printed text) →
          takes file text = true → done.2.exit = 0 := by
  refine ⟨exit_performOn, ?_, ?_⟩
  · intro reads
    rw [runArguments]
    cases spelled : Invocation.ofArguments arguments with
    | error stop => rfl
    | ok invocation =>
        obtain ⟨report, reported⟩ :=
          invocation.exists_report (reads invocation spelled)
            (files.disk leads) home
        dsimp only
        rw [reported]
        rfl
  · intro invocation file spelled writes
    refine ⟨exists_dropsWrite spelled writes, ?_⟩
    intro printing without
    rw [runArguments_eq spelled, runArguments_eq without]
    rcases invocation.run_writing writes (files.disk leads) home with
      ⟨message, failed, printed⟩ | ⟨before, text, held, emitted, printed⟩
    · rw [failed, printed]
      constructor
      · intro exits
        contradiction
      · intro text printed
        cases printed
    · obtain ⟨names, leading, found⟩ := exists_file_of_text? held
      obtain ⟨stores, keeps, exits⟩ := emit_performOn takes text leading found
      rw [emitted]
      constructor
      · intro exit
        refine ⟨names, text, leading, printed, stores exit, ?_⟩
        intro same
        apply keeps
        have stored :=
          FileTree.file.inj (Option.some.inj (found.symm.trans same))
        exact Text.utf8_inj.1 stored
      · intro other again taken
        rw [printed] at again
        cases again
        exact exits taken

/-- The text of `export default f({ a: 1, b: 2 })`. -/
def storedText : Text := "export default f(\x7b a: 1, b: 2 \x7d)".toList

/-- A directory with one file. -/
def storedFiles : FileTree := .directory [(['c'], .file storedText.utf8)]

/-- The arguments of `remove c --path a -w`. -/
def removalArguments : List Text :=
  [['r', 'e', 'm', 'o', 'v', 'e'], ['c'], ['-', '-', 'p', 'a', 't', 'h'], ['a'],
    ['-', 'w']]

/-- The removal that these arguments spell. -/
def storedRemoval : Invocation :=
  ⟨⟨none, none, none, false⟩, .remove ['c'] [['a']] true⟩

/-- What is stored is what is printed when `-w` is left out. -/
theorem runArguments_effects_removal :
    Invocation.ofArguments removalArguments = .ok storedRemoval ∧
      Invocation.ofArguments (removalArguments.take 4) =
        .ok (storedRemoval.withWrite false) ∧
      storedFiles.Rewrites [['c']]
        (Text.utf8 "export default f(\x7b b: 2 \x7d)".toList)
        ((runArguments (storedFiles.disk storedFiles.resolve?) none
          removalArguments).performOn
          (fun _ _ => true) storedFiles.resolve? storedFiles).1 := by
  have spelled :
      Invocation.ofArguments removalArguments = .ok storedRemoval := rfl
  have without : Invocation.ofArguments (removalArguments.take 4) =
      .ok (storedRemoval.withWrite false) := rfl
  have leading : storedFiles.resolve? ['c'] = some [['c']] := rfl
  have held : (storedFiles.disk storedFiles.resolve?).text? ['c'] =
      some storedText := by
    rw [Disk.text?, Disk.bytes?, FileTree.disk, leading]
    exact Text.ofUtf8?_utf8 storedText
  have loaded : ∃ settings, storedRemoval.options.loadSettings
      (storedFiles.disk storedFiles.resolve?) none = .ok settings ∧
      settings.checked.print = .standard := ⟨_, rfl, rfl⟩
  have printed : runArguments (storedFiles.disk storedFiles.resolve?) none
      (removalArguments.take 4) =
      .done (.printed "export default f(\x7b b: 2 \x7d)".toList) := by
    obtain ⟨settings, loaded, standard⟩ := loaded
    have removed : (do
        let paths ← RemovalSet.parse [['a']]
        removeText .standard paths storedText).toOption =
          some "export default f(\x7b b: 2 \x7d)".toList := by decide +kernel
    have found : (storedRemoval.withWrite false).options.loadSettings
        (storedFiles.disk storedFiles.resolve?) none = .ok settings := loaded
    rw [runArguments_eq without, Invocation.run, found]
    dsimp only [storedRemoval, Invocation.withWrite, Command.withWrite,
      Command.run]
    rw [standard, Command.withText, held]
    dsimp only
    split
    · next text result =>
        rw [result] at removed
        cases removed
        rfl
    · next error result =>
        rw [result] at removed
        contradiction
  obtain ⟨-, effects⟩ :=
    (runArguments_effects storedFiles storedFiles.resolve? (fun _ _ => true)
      none removalArguments).2.2 storedRemoval ['c'] spelled rfl
  obtain ⟨stores, exits⟩ := effects _ without
  obtain ⟨names, text, same, again, rewrites, -⟩ := stores (exits _ printed rfl)
  rw [leading] at same
  rw [printed] at again
  cases same
  cases again
  exact ⟨spelled, without, rewrites⟩

end ConfigEdit
