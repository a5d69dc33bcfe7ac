import ConfigEdit.Proofs.Command.Reading

/-!
# The switch that asks for a file to be written

A command line that spells a command which is to write its file also spells the
same command which is not to write it, when the switch is dropped
(`exists_dropsWrite`).  Once the switch has come it cannot come again, and
nothing that comes behind it depends on it.
-/

namespace ConfigEdit

namespace Command

/-- The same command, which is to write its file or not. -/
def withWrite (write : Bool) : Command → Command
  | update file source overwrite _ => update file source overwrite write
  | remove file paths _ => remove file paths write
  | display file => display file
  | find directory => find directory
  | settings => settings

/-- The file that a command is to write. -/
def target? : Command → Option Text
  | update file _ _ true | remove file _ true => some file
  | update _ _ _ false | remove _ _ false | display _ | find _ |
      settings => none

/-- One switch that asks for a file to be written is dropped: it stands alone,
by its long or its short name, or it is one of several short names in an
argument. -/
inductive DropsWrite : List Text → List Text → Prop where
  | long (rest : List Text) : DropsWrite ("--write".toList :: rest) rest
  | short (rest : List Text) : DropsWrite ("-w".toList :: rest) rest
  | among {left right : Text} (rest : List Text) (more : left ++ right ≠ []) :
      DropsWrite (('-' :: (left ++ 'w' :: right)) :: rest)
        (('-' :: (left ++ right)) :: rest)
  | behind {arguments dropped : List Text} (argument : Text) :
      DropsWrite arguments dropped →
      DropsWrite (argument :: arguments) (argument :: dropped)

namespace Said

/-- What has been said, with another word on whether the file is to be
written. -/
def withWrite (write : Bool) (said : Said) : Said :=
  { said with write := write }

variable {level : Level} {said next : Said} {pending : Option Setting}

theorem withWrite_eq_self {write : Bool} (same : said.write = write) :
    said.withWrite write = said := by
  cases same
  rfl

theorem addSetting_withWrite
    (value : Text) (setting : Setting) (write : Bool) (said : Said) :
    (said.withWrite write).addSetting value setting =
      (said.addSetting value setting).map (withWrite write) := by
  obtain ⟨⟨config, indent, quote, verbose⟩, ⟨file, sets, calls⟩, paths,
      overwrite, old, files⟩ :=
    said
  cases setting with
  | set | call | path => rfl
  | config => cases config <;> cases value <;> rfl
  | patch => cases file <;> cases value <;> rfl
  | indent =>
      cases indent with
      | some _ => rfl
      | none =>
          simp only [addSetting, withWrite]
          cases (natOfText? 10 value).filter (· < UInt64.size) <;> rfl
  | quote =>
      cases quote with
      | some _ => rfl
      | none =>
          simp only [addSetting, withWrite]
          cases Settings.quoteStyle? value <;> rfl

theorem addFile_withWrite (file : Text) (write : Bool) (said : Said) :
    addFile level (said.withWrite write) file =
      (addFile level said file).map (withWrite write) := by
  rw [addFile, addFile, apply_ite (Except.map (withWrite write))]
  rfl

theorem addFlag_withWrite
    {flag : Flag} (other : flag ≠ .write) (write : Bool) (said : Said) :
    (said.withWrite write).addFlag flag =
      (said.addFlag flag).map (withWrite write) := by
  obtain ⟨⟨config, indent, quote, verbose⟩, patch, paths, overwrite, old,
    files⟩ := said
  cases flag with
  | help | version => rfl
  | write => contradiction
  | verbose => cases verbose <;> rfl
  | overwrite => cases overwrite <;> rfl

theorem write_of_withWrite (step : Said → Except NoInvocation Said)
    (commutes : ∀ write said,
      step (said.withWrite write) = (step said).map (withWrite write))
    (stepped : step said = .ok next) :
    next.write = said.write ∧
      ∀ write, step (said.withWrite write) = .ok (next.withWrite write) := by
  have all (write : Bool) :
      step (said.withWrite write) = .ok (next.withWrite write) := by
    rw [commutes, stepped]
    rfl
  refine ⟨?_, all⟩
  have same := all said.write
  rw [withWrite_eq_self rfl, stepped] at same
  have equal : next = next.withWrite said.write := Except.ok.inj same
  rw [equal]
  rfl

theorem addFlag_write (added : said.addFlag .write = .ok next) :
    said.write = false ∧ next.write = true ∧ next.withWrite false = said := by
  obtain ⟨options, patch, paths, overwrite, write, files⟩ := said
  cases write with
  | true => contradiction
  | false =>
      cases added
      exact ⟨rfl, rfl, rfl⟩

end Said

section Behind

variable {level : Level} {said next : Said} {pending : Option Setting}

theorem addFlag_kept {flag : Flag} (other : flag ≠ .write)
    (added : said.addFlag flag = .ok next) :
    next.write = said.write ∧
      (said.withWrite false).addFlag flag = .ok (next.withWrite false) := by
  obtain ⟨kept, all⟩ :=
    Said.write_of_withWrite (·.addFlag flag)
      (Said.addFlag_withWrite other) added
  exact ⟨kept, all false⟩

theorem addSetting_kept {value : Text} {setting : Setting}
    (added : said.addSetting value setting = .ok next) :
    next.write = said.write ∧
      (said.withWrite false).addSetting value setting =
        .ok (next.withWrite false) := by
  obtain ⟨kept, all⟩ := Said.write_of_withWrite (·.addSetting value setting)
    (Said.addSetting_withWrite value setting) added
  exact ⟨kept, all false⟩

theorem addFile_kept
    {file : Text} (added : Said.addFile level said file = .ok next) :
    next.write = said.write ∧
      Said.addFile level (said.withWrite false) file =
        .ok (next.withWrite false) := by
  obtain ⟨kept, all⟩ :=
    Said.write_of_withWrite (·.addFile level file)
      (Said.addFile_withWrite file) added
  exact ⟨kept, all false⟩

theorem addFlag_behind {flag : Flag} (written : said.write = true)
    (added : said.addFlag flag = .ok next) :
    next.write = true ∧
    (said.withWrite false).addFlag flag = .ok (next.withWrite false) := by
  by_cases again : flag = .write
  · subst again
    rw [(Said.addFlag_write added).1] at written
    contradiction
  · obtain ⟨kept, clear⟩ := addFlag_kept again added
    exact ⟨kept.trans written, clear⟩

theorem addSwitch_behind
    {switch : Switch} {value : Option Text} (written : said.write = true)
    (added : said.addSwitch switch value = .ok (next, pending)) :
    next.write = true ∧
      (said.withWrite false).addSwitch switch value =
        .ok (next.withWrite false, pending) := by
  cases switch with
  | flag flag =>
      cases value with
      | some value => contradiction
      | none =>
          obtain ⟨flagged, found, same⟩ := map_eq_ok.1 added
          cases same
          obtain ⟨kept, clear⟩ := addFlag_behind written found
          exact ⟨kept, by rw [Said.addSwitch, clear]; rfl⟩
  | setting setting =>
      cases value with
      | none =>
          cases added
          exact ⟨written, rfl⟩
      | some value =>
          obtain ⟨set, found, same⟩ := map_eq_ok.1 added
          cases same
          obtain ⟨kept, clear⟩ := addSetting_kept found
          exact ⟨kept.trans written, by rw [Said.addSwitch, clear]; rfl⟩

theorem addShort_behind {names : Text} (written : said.write = true)
    (added : Said.addShort level said names = .ok (next, pending)) :
    next.write = true ∧
      Said.addShort level (said.withWrite false) names =
        .ok (next.withWrite false, pending) := by
  induction names generalizing said with
  | nil =>
      cases added
      exact ⟨written, rfl⟩
  | cons name rest induction =>
      obtain ⟨switch, found⟩ := ofShort?_of_addShort added
      cases switch with
      | flag flag =>
          rw [addShort_flag found] at added ⊢
          obtain ⟨flagged, first, behind⟩ := bind_eq_ok.1 added
          obtain ⟨kept, clear⟩ := addFlag_behind written first
          obtain ⟨kept, further⟩ := induction kept behind
          exact ⟨kept, bind_eq_ok.2 ⟨_, clear, further⟩⟩
      | setting setting =>
          obtain ⟨value, same⟩ := addShort_setting found rest
          rw [same] at added ⊢
          exact addSwitch_behind written added

theorem addOption_behind {argument : Text} (written : said.write = true)
    (added : addOption level said argument = .ok (next, pending)) :
    next.write = true ∧
      addOption level (said.withWrite false) argument =
        .ok (next.withWrite false, pending) := by
  unfold addOption at added ⊢
  split at added
  · next body =>
      obtain ⟨name, value, -, same⟩ := addLong_eq level body
      rw [same] at added ⊢
      cases found : level.ofLong? name with
      | none =>
          rw [found] at added
          contradiction
      | some switch =>
          rw [found] at added
          exact addSwitch_behind written added
  · exact addShort_behind written added

end Behind

section Dropping

variable {level : Level} {said next : Said} {pending : Option Setting}

theorem addSwitch_write {switch : Switch} {value : Option Text}
    (unsaid : said.write = false) (written : next.write = true)
    (added : said.addSwitch switch value = .ok (next, pending)) :
    switch = .flag .write ∧ value = none ∧ next.withWrite false = said ∧
    pending = none := by
  have other (kept : next.write = said.write) : False := by
    rw [kept, unsaid] at written
    contradiction
  cases switch with
  | flag flag =>
      cases value with
      | some value => contradiction
      | none =>
          obtain ⟨flagged, first, same⟩ := map_eq_ok.1 added
          cases same
          by_cases here : flag = .write
          · subst here
            exact ⟨rfl, rfl, (Said.addFlag_write first).2.2, rfl⟩
          · exact (other (addFlag_kept here first).1).elim
  | setting setting =>
      cases value with
      | none =>
          cases added
          exact (other rfl).elim
      | some value =>
          obtain ⟨set, valued, same⟩ := map_eq_ok.1 added
          cases same
          exact (other (addSetting_kept valued).1).elim

/-- Among short names, the switch can be dropped. -/
theorem addShort_drop
    {names : Text} (unsaid : said.write = false) (written : next.write = true)
    (added : Said.addShort level said names = .ok (next, pending)) :
    ∃ left right, names = left ++ 'w' :: right ∧
      Said.addShort level said (left ++ right) =
        .ok (next.withWrite false, pending) := by
  induction names generalizing said with
  | nil =>
      cases added
      rw [unsaid] at written
      contradiction
  | cons name rest induction =>
      obtain ⟨switch, found⟩ := ofShort?_of_addShort added
      cases switch with
      | flag flag =>
          rw [addShort_flag found] at added
          obtain ⟨flagged, first, behind⟩ := bind_eq_ok.1 added
          by_cases here : flag = .write
          · subst here
            obtain ⟨-, set, same⟩ := Said.addFlag_write first
            have clear := (addShort_behind set behind).2
            rw [same] at clear
            refine ⟨[], rest, ?_, clear⟩
            rw [(ofShort?_eq_some found).2 rfl]
            rfl
          · have kept := (addFlag_kept here first).1
            obtain ⟨left, right, rfl, dropped⟩ :=
              induction (kept.trans unsaid) behind
            refine ⟨name :: left, right, rfl, ?_⟩
            rw [List.cons_append, addShort_flag found]
            exact bind_eq_ok.2 ⟨_, first, dropped⟩
      | setting setting =>
          obtain ⟨value, same⟩ := addShort_setting found rest
          rw [same] at added
          obtain ⟨different, -⟩ := addSwitch_write unsaid written added
          contradiction

/-- The option that sets the switch is the switch alone, or another option is
left when the switch is dropped. -/
theorem addOption_drop {argument : Text} (unsaid : said.write = false)
    (written : next.write = true) (option : isOption argument = true)
    (added : addOption level said argument = .ok (next, pending)) :
    ((argument = "--write".toList ∨ argument = "-w".toList) ∧
      next.withWrite false = said ∧
      pending = none) ∨
      ∃ left right,
        left ++ right ≠ [] ∧ argument = '-' :: (left ++ 'w' :: right) ∧
        '-' :: (left ++ right) ≠ ['-', '-'] ∧
        isOption ('-' :: (left ++ right)) = true ∧
        addOption level said ('-' :: (left ++ right)) =
          .ok (next.withWrite false, pending) := by
  unfold addOption at added
  split at added
  · next body =>
      left
      obtain ⟨name, value, alone, same⟩ := addLong_eq level body
      rw [same] at added
      cases found : level.ofLong? name with
      | none =>
          rw [found] at added
          contradiction
      | some switch =>
          rw [found] at added
          obtain ⟨rfl, rfl, set, rfl⟩ := addSwitch_write unsaid written added
          rw [← alone rfl, ofLong?_write found]
          exact ⟨.inl rfl, set, rfl⟩
  · next other =>
      obtain ⟨left, right, names, dropped⟩ := addShort_drop unsaid written added
      obtain ⟨first, rest, rfl⟩ := exists_of_isOption option
      have whole : '-' :: first :: rest = '-' :: (left ++ 'w' :: right) := by
        rw [← names]
        rfl
      by_cases alone : left ++ right = []
      · obtain ⟨rfl, rfl⟩ := List.append_eq_nil_iff.1 alone
        cases dropped
        exact .inl ⟨.inr whole, rfl, rfl⟩
      · obtain ⟨head, tail, more⟩ := List.exists_cons_of_ne_nil alone
        have plain : head ≠ '-' := by
          rw [more] at dropped
          obtain ⟨switch, found⟩ := ofShort?_of_addShort dropped
          exact (ofShort?_eq_some found).1
        refine .inr ⟨left, right, alone, whole, ?_, ?_, ?_⟩
        · rw [more]
          intro same
          cases same
          exact plain rfl
        · rw [more]
          rfl
        · rw [← dropped, more, addOption]
          · rfl
          · intro body same
            cases same
            exact plain rfl

theorem foldlM_addFile_kept {files : List Text}
    (added : files.foldlM (Said.addFile level) said = .ok next) :
    next.write = said.write ∧
      files.foldlM (Said.addFile level) (said.withWrite false) =
        .ok (next.withWrite false) := by
  induction files generalizing said with
  | nil =>
      cases added
      exact ⟨rfl, rfl⟩
  | cons file others induction =>
      obtain ⟨between, first, behind⟩ := bind_eq_ok.1 added
      obtain ⟨kept, clear⟩ := addFile_kept first
      obtain ⟨further, all⟩ := induction behind
      exact ⟨further.trans kept, bind_eq_ok.2 ⟨_, clear, all⟩⟩

/-- Behind the switch, what the arguments say does not depend on it. -/
theorem Reads.behind {arguments : List Text}
    {inner : Option (Level × List Text)} (written : said.write = true)
    (reads : Reads level said arguments next inner) :
    next.write = true ∧
      Reads level (said.withWrite false) arguments
        (next.withWrite false) inner := by
  induction reads with
  | done said => exact ⟨written, .done _⟩
  | files added =>
      obtain ⟨kept, clear⟩ := foldlM_addFile_kept added
      exact ⟨kept.trans written, .files clear⟩
  | switch marked option added _ induction =>
      obtain ⟨kept, clear⟩ := addOption_behind written added
      obtain ⟨kept, further⟩ := induction kept
      exact ⟨kept, .switch marked option clear further⟩
  | setting marked option added plain valued _ induction =>
      obtain ⟨kept, clear⟩ := addOption_behind written added
      obtain ⟨same, set⟩ := addSetting_kept valued
      obtain ⟨kept, further⟩ := induction (same.trans kept)
      exact ⟨kept, .setting marked option clear plain set further⟩
  | command top marked plain named =>
      exact ⟨written, .command top marked plain named⟩
  | file below marked plain added _ induction =>
      obtain ⟨same, clear⟩ := addFile_kept added
      obtain ⟨kept, further⟩ := induction (same.trans written)
      exact ⟨kept, .file below marked plain clear further⟩

/-- If the arguments set the switch, they say all else without it. -/
theorem Reads.exists_drops
    {arguments : List Text} {inner : Option (Level × List Text)}
    (unsaid : said.write = false) (written : next.write = true)
    (reads : Reads level said arguments next inner) :
    ∃ dropped, DropsWrite arguments dropped ∧
      Reads level said dropped (next.withWrite false) inner := by
  -- An argument either leaves the switch unset, and the arguments behind it set
  -- it, or it sets the switch, and `Reads.behind` goes on with the arguments
  -- behind it.
  induction reads with
  | done said =>
      rw [unsaid] at written
      contradiction
  | files added =>
      rw [(foldlM_addFile_kept added).1, unsaid] at written
      contradiction
  | @switch said between next argument rest inner marked option added reads
        induction =>
      cases set : between.write with
      | false =>
          obtain ⟨dropped, drops, further⟩ := induction set written
          exact ⟨_, .behind _ drops, .switch marked option added further⟩
      | true =>
          have clear := (reads.behind set).2
          rcases addOption_drop unsaid set option added with
            ⟨rfl | rfl, same, -⟩ |
              ⟨left, right, more, rfl, marked, option, added⟩
          · exact ⟨rest, .long rest, same ▸ clear⟩
          · exact ⟨rest, .short rest, same ▸ clear⟩
          · exact ⟨_, .among rest more, .switch marked option added clear⟩
  | @setting said between set next argument value rest setting inner marked
        option added plain valued reads induction =>
      obtain ⟨kept, clear⟩ := addSetting_kept valued
      cases here : between.write with
      | false =>
          obtain ⟨dropped, drops, further⟩ :=
            induction (kept.trans here) written
          exact ⟨_, .behind _ (.behind _ drops),
            .setting marked option added plain valued further⟩
      | true =>
          have further := (reads.behind (kept.trans here)).2
          rcases addOption_drop unsaid here option added with
            ⟨-, -, none⟩ | ⟨left, right, more, rfl, marked, option, added⟩
          · contradiction
          · exact ⟨_, .among _ more,
              .setting marked option added plain clear further⟩
  | command top marked plain named =>
      rw [unsaid] at written
      contradiction
  | file below marked plain added _ induction =>
      obtain ⟨kept, -⟩ := addFile_kept added
      obtain ⟨dropped, drops, further⟩ := induction (kept.trans unsaid) written
      exact ⟨_, .behind _ drops, .file below marked plain added further⟩

/-- What stands before a command does not depend on what stands behind it. -/
theorem Reads.drops_behind {arguments rest dropped : List Text} {inner : Level}
    (reads : Reads .top said arguments next (some (inner, rest)))
    (drops : DropsWrite rest dropped) :
    ∃ all, DropsWrite arguments all ∧
      Reads .top said all next (some (inner, dropped)) := by
  generalize named : some (inner, rest) = command at reads
  induction reads with
  | done said => contradiction
  | files added => contradiction
  | switch marked option added _ induction =>
      obtain ⟨all, drops, further⟩ := induction named
      exact ⟨_, .behind _ drops, .switch marked option added further⟩
  | setting marked option added plain valued _ induction =>
      obtain ⟨all, drops, further⟩ := induction named
      exact ⟨_, .behind _ (.behind _ drops),
        .setting marked option added plain valued further⟩
  | command top marked plain found =>
      cases named
      exact ⟨_, .behind _ drops, .command top marked plain found⟩
  | file below => contradiction

theorem ofSaid_withWrite {command : Command} {file : Text}
    (spelled : ofSaid said level = .ok command)
    (writes : command.target? = some file) :
    said.write = true ∧
      ofSaid (said.withWrite false) level = .ok (command.withWrite false) := by
  obtain ⟨options, patch, paths, overwrite, write, files⟩ := said
  cases level with
  | top => contradiction
  | update =>
      obtain ⟨target, found, same⟩ := bind_eq_ok.1 spelled
      cases same
      cases write with
      | false => contradiction
      | true => exact ⟨rfl, bind_eq_ok.2 ⟨target, found, rfl⟩⟩
  | remove =>
      obtain ⟨target, found, same⟩ := bind_eq_ok.1 spelled
      cases paths with
      | nil => contradiction
      | cons path paths =>
          cases same
          cases write with
          | false => contradiction
          | true => exact ⟨rfl, bind_eq_ok.2 ⟨target, found, rfl⟩⟩
  | display =>
      obtain ⟨target, found, same⟩ := bind_eq_ok.1 spelled
      cases same
      contradiction
  | find | settings =>
      cases spelled
      contradiction

end Dropping

end Command

/-- The same invocation, whose command is to write its file or not. -/
def Invocation.withWrite (write : Bool)
    (invocation : Invocation) : Invocation :=
  { invocation with command := invocation.command.withWrite write }

theorem exists_dropsWrite {arguments : List Text} {invocation : Invocation}
    {file : Text} (spelled : Invocation.ofArguments arguments = .ok invocation)
    (writes : invocation.command.target? = some file) :
    ∃ dropped, Command.DropsWrite arguments dropped ∧
      Invocation.ofArguments dropped = .ok (invocation.withWrite false) := by
  obtain ⟨⟨outer, found⟩, before, behind⟩ := bind_eq_ok.1 spelled
  cases found with
  | none => contradiction
  | some named =>
      obtain ⟨level, rest⟩ := named
      obtain ⟨⟨inner, last⟩, reading, saying⟩ := bind_eq_ok.1 behind
      obtain ⟨command, said, same⟩ := bind_eq_ok.1 saying
      cases same
      obtain ⟨written, without⟩ := Command.ofSaid_withWrite said writes
      obtain ⟨dropped, drops, clear⟩ :=
        (Command.reads_of_readLevel reading).exists_drops rfl written
      obtain ⟨all, drops, further⟩ :=
        (Command.reads_of_readLevel before).drops_behind drops
      refine ⟨all, drops, ?_⟩
      apply bind_eq_ok.2 ⟨_, further.readLevel_eq, ?_⟩
      apply bind_eq_ok.2 ⟨_, clear.readLevel_eq, ?_⟩
      exact bind_eq_ok.2 ⟨_, without, rfl⟩

end ConfigEdit
