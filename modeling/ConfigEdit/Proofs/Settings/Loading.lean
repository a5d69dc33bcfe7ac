import ConfigEdit.Proofs.Settings.Meaning

/-!
# Loading settings

`Settings.Stacked` says which layers there are: the defaults, then each file
that stands at its path, as the text of its bytes spells it, then the values of
the command line.  Loading succeeds exactly if all files can be read and the
merged layers spell some options, and finds fault with the settings exactly if
all files can be read and one of the six values cannot be used.
-/

namespace ConfigEdit

variable {disk : Disk} {origin : SettingsOrigin} {path : Option Text}

/-- The layer of the file at a path, if there is a path and something stands
there. -/
inductive SettingsLayer.Read (disk : Disk) (origin : SettingsOrigin) :
    Option Text → List SettingsLayer → Prop where
  | unnamed : Read disk origin none []
  | absent {path : Text} : disk path = none → Read disk origin (some path) []
  | present {path text : Text} {content : ByteArray} {value : Json} :
      disk path = some (.file content) → Text.ofUtf8? content = some text →
      Toml.toJson? text = some value →
      Read disk origin (some path)
        [⟨⟨origin, some path, some (Sha256.hexDigest content)⟩, value⟩]

namespace SettingsLayer

theorem ofFile_eq_ok {file : FileTree} {name : Text} {layer : SettingsLayer} :
    ofFile origin name file = .ok layer ↔
      ∃ content text value,
        file = .file content ∧ Text.ofUtf8? content = some text ∧
        Toml.toJson? text = some value ∧
        layer =
          ⟨⟨origin, some name, some (Sha256.hexDigest content)⟩, value⟩ := by
  cases file with
  | directory entries => simp [ofFile, FileTree.content?]
  | file content =>
      simp only [ofFile, FileTree.content?]
      cases decoded : Text.ofUtf8? content with
      | none => simp [decoded]
      | some text =>
          cases spelled : Toml.toJson? text with
          | none => simp [decoded, spelled]
          | some value => simp [decoded, spelled, eq_comm]

theorem ofPath_eq_ok {layers : List SettingsLayer} :
    ofPath disk origin path = .ok layers ↔ Read disk origin path layers := by
  constructor
  · intro found
    cases path with
    | none =>
        cases found
        exact .unnamed
    | some name =>
        rw [ofPath] at found
        split at found
        · next nothing =>
            cases found
            exact .absent nothing
        · next file there =>
            obtain ⟨layer, read, rfl⟩ := map_eq_ok.1 found
            obtain ⟨content, text, value, rfl, decoded, spelled, rfl⟩ :=
              ofFile_eq_ok.1 read
            exact .present there decoded spelled
  · intro read
    cases read with
    | unnamed => rfl
    | absent nothing => simp [ofPath, nothing]
    | present there decoded spelled =>
        rw [ofPath, there]
        exact map_eq_ok.2 ⟨_,
          ofFile_eq_ok.2 ⟨_, _, _, rfl, decoded, spelled, rfl⟩, rfl⟩

theorem ofFile_ne_invalid
    (file : FileTree) (name : Text) (reason : InvalidSetting) :
    ofFile origin name file ≠ .error (.invalid reason) := by
  cases file with
  | directory entries => simp [ofFile, FileTree.content?]
  | file content =>
      simp only [ofFile, FileTree.content?]
      cases decoded : Text.ofUtf8? content with
      | none => simp
      | some text => cases spelled : Toml.toJson? text <;> simp [spelled]

theorem ofPath_ne_invalid (reason : InvalidSetting) :
    ofPath disk origin path ≠ .error (.invalid reason) := by
  intro failed
  cases path with
  | none => contradiction
  | some name =>
      cases there : disk name with
      | none => simp [ofPath, there] at failed
      | some file =>
          cases read : ofFile origin name file with
          | ok layer => simp [ofPath, there, read, Except.map] at failed
          | error error =>
              have same : error = .invalid reason := by
                simpa [ofPath, there, read, Except.map] using failed
              exact ofFile_ne_invalid file name reason (same ▸ read)

end SettingsLayer

namespace Settings

variable {user repo : Option Text} {commandLine : Option Json}

/-- The layers of the settings, the weakest first. -/
def Stacked (disk : Disk) (user repo : Option Text) (commandLine : Option Json)
    (layers : List SettingsLayer) : Prop :=
  ∃ ofUser ofRepo, SettingsLayer.Read disk .user user ofUser ∧
    SettingsLayer.Read disk .repo repo ofRepo ∧
    layers = .builtin :: ofUser ++ ofRepo ++
      commandLine.toList.map .ofCommandLine

/-- The layers merged, the last of which counts most. -/
def merged (layers : List SettingsLayer) : Json :=
  Json.mergeLayers (layers.map (·.value))

theorem load_eq_ok {settings : Settings} :
    load disk user repo commandLine = .ok settings ↔
      ∃ layers, Stacked disk user repo commandLine layers ∧
        ofLayers layers = .ok settings := by
  simp only [load, bind_eq_ok, SettingsLayer.ofPath_eq_ok]
  constructor
  · rintro ⟨ofUser, readUser, ofRepo, readRepo, found⟩
    exact ⟨_, ⟨ofUser, ofRepo, readUser, readRepo, rfl⟩, found⟩
  · rintro ⟨_, ⟨ofUser, ofRepo, readUser, readRepo, rfl⟩, found⟩
    exact ⟨ofUser, readUser, ofRepo, readRepo, found⟩

theorem load_eq_invalid {reason : InvalidSetting} :
    load disk user repo commandLine = .error (.invalid reason) ↔
      ∃ layers, Stacked disk user repo commandLine layers ∧
        ofLayers layers = .error (.invalid reason) := by
  constructor
  · intro failed
    rw [load] at failed
    cases readUser : SettingsLayer.ofPath disk .user user with
    | error error =>
        rw [readUser] at failed
        cases failed
        exact absurd readUser (SettingsLayer.ofPath_ne_invalid reason)
    | ok ofUser =>
        cases readRepo : SettingsLayer.ofPath disk .repo repo with
        | error error =>
            rw [readUser, readRepo] at failed
            cases failed
            exact absurd readRepo (SettingsLayer.ofPath_ne_invalid reason)
        | ok ofRepo =>
            rw [readUser, readRepo] at failed
            exact ⟨_, ⟨ofUser, ofRepo, SettingsLayer.ofPath_eq_ok.1 readUser,
              SettingsLayer.ofPath_eq_ok.1 readRepo, rfl⟩, failed⟩
  · rintro ⟨_, ⟨ofUser, ofRepo, readUser, readRepo, rfl⟩, failed⟩
    rw [load, SettingsLayer.ofPath_eq_ok.2 readUser,
      SettingsLayer.ofPath_eq_ok.2 readRepo]
    exact failed

theorem ofLayers_eq (layers : List SettingsLayer) :
    ofLayers layers =
      match check (merged layers) with
      | .ok options => .ok ⟨merged layers, layers.map (·.source), options⟩
      | .error reason => .error (.invalid reason) := rfl

theorem ofLayers_eq_ok {layers : List SettingsLayer} {settings : Settings} :
    ofLayers layers = .ok settings ↔
      settings.value = merged layers ∧
      settings.sources = layers.map (·.source) ∧
      Spells settings.value settings.checked := by
  obtain ⟨value, sources, options⟩ := settings
  rw [ofLayers_eq, ← check_eq_ok_iff]
  cases result : check (merged layers) with
  | error reason =>
      constructor
      · exact nofun
      · rintro ⟨rfl, -, accepted⟩
        rw [result] at accepted
        contradiction
  | ok found =>
      constructor
      · intro same
        cases same
        exact ⟨rfl, rfl, result⟩
      · rintro ⟨rfl, rfl, accepted⟩
        cases result.symm.trans accepted
        rfl

theorem ofLayers_eq_invalid
    {layers : List SettingsLayer} {reason : InvalidSetting} :
    ofLayers layers = .error (.invalid reason) ↔
      Refuses (merged layers) reason := by
  rw [← check_eq_error_iff, ofLayers_eq]
  cases check (merged layers) <;> simp

/-- Settings that are loaded hold the values that stand at the six paths of the
merged layers, also where they are looked up with a default for what is missing.
Loading finds fault with the settings exactly if every file that is there can be
read and one of the six values is missing, of the wrong kind, or out of range;
the first such value is named. -/
theorem load_spells
    (disk : Disk) (user repo : Option Text) (commandLine : Option Json) :
    (∀ settings, load disk user repo commandLine = .ok settings ↔
      ∃ layers, Stacked disk user repo commandLine layers ∧
        settings.value = merged layers ∧
        settings.sources = layers.map (·.source) ∧
        Spells (merged layers)
          ⟨settings.printOptions, settings.discoverOptions⟩ ∧
        settings.checked = ⟨settings.printOptions, settings.discoverOptions⟩) ∧
    ((∃ reason, load disk user repo commandLine = .error (.invalid reason)) ↔
      ∃ layers, Stacked disk user repo commandLine layers ∧
        ∃ setting, ¬ Provides (merged layers) setting) ∧
    ∀ reason, load disk user repo commandLine = .error (.invalid reason) ↔
      ∃ layers, Stacked disk user repo commandLine layers ∧
        Refuses (merged layers) reason := by
  have invalid (reason : InvalidSetting) :
      load disk user repo commandLine = .error (.invalid reason) ↔
        ∃ layers, Stacked disk user repo commandLine layers ∧
          Refuses (merged layers) reason := by
    simp only [load_eq_invalid, ofLayers_eq_invalid]
  refine ⟨fun settings => ?_, ?_, invalid⟩
  · simp only [load_eq_ok, ofLayers_eq_ok]
    constructor
    · rintro ⟨layers, stacked, same, sources, spells⟩
      have lookedUp : settings.checked =
          ⟨settings.printOptions, settings.discoverOptions⟩ := by
        rw [spells.printOptions_eq, spells.discoverOptions_eq]
      exact ⟨layers, stacked, same, sources, lookedUp ▸ same ▸ spells, lookedUp⟩
    · rintro ⟨layers, stacked, same, sources, spells, lookedUp⟩
      exact ⟨layers, stacked, same, sources, same ▸ lookedUp ▸ spells⟩
  · simp only [invalid]
    constructor
    · rintro ⟨reason, layers, stacked, refuses⟩
      exact ⟨layers, stacked, exists_refuses_iff.1 ⟨reason, refuses⟩⟩
    · rintro ⟨layers, stacked, missing⟩
      obtain ⟨reason, refuses⟩ := exists_refuses_iff.2 missing
      exact ⟨reason, layers, stacked, refuses⟩

-- Four spaces are asked for on the command line; the depth is that of the
-- defaults.
example :
    (load (fun _ => none) none none
      (some (SettingsLayer.jsonObject
        [("print", SettingsLayer.jsonObject
          [("indent", SettingsLayer.jsonNat 4)])]))).map (fun settings =>
      (settings.printOptions.indent, settings.discoverOptions.maxDepth)) =
      .ok (List.replicate 4 ' ', 6) := rfl

end Settings

end ConfigEdit
