import ConfigEdit.Proofs.Settings.Loading
import ConfigEdit.Proofs.Toml.Tables

/-!
# Which layer counts

The defaults and what a file of TOML spells have distinct names, so the rule of
merged layers holds for loaded settings: at each path the last layer that has a
say decides (`Settings.load_lastCounts`).
-/

namespace ConfigEdit

open SettingsLayer

variable {disk : Disk} {user repo : Option Text} {commandLine : Option Json}

theorem SettingsLayer.distinct_jsonObject {entries : List (String × Json)}
    (names : (entries.map fun entry => entry.1.toList).Nodup)
    (below : ∀ entry ∈ entries, entry.2.Distinct) :
    (jsonObject entries).Distinct := by
  refine .object (by simpa [Entries.names, Function.comp_def] using names) ?_
  intro entry member
  obtain ⟨⟨key, value⟩, inside, rfl⟩ := List.mem_map.1 member
  exact below (key, value) inside

theorem SettingsLayer.distinct_of_leaves {entries : List (String × Json)}
    (names : (entries.map fun entry => entry.1.toList).Nodup)
    (leaves : ∀ entry ∈ entries, entry.2.isObject = false) :
    (jsonObject entries).Distinct :=
  distinct_jsonObject names fun entry inside => .leaf (leaves entry inside)

theorem SettingsLayer.distinct_defaultValue : defaultValue.Distinct := by
  refine distinct_jsonObject (by decide) (List.forall_mem_cons.2
    ⟨?_, List.forall_mem_singleton.2 ?_⟩)
  · exact distinct_of_leaves (by decide) (by decide)
  · exact distinct_of_leaves (by decide) (by decide)

theorem SettingsLayer.Read.distinct
    {origin : SettingsOrigin} {path : Option Text}
    {layers : List SettingsLayer} (read : Read disk origin path layers) :
    ∀ layer ∈ layers, layer.value.Distinct := by
  cases read with
  | unnamed => exact nofun
  | absent nothing => exact nofun
  | present there decoded spelled =>
      exact List.forall_mem_singleton.2 (Toml.distinct_of_toJson? spelled)

theorem Settings.Stacked.distinct {layers : List SettingsLayer}
    (stacked : Stacked disk user repo commandLine layers)
    (asked : ∀ value ∈ commandLine, value.Distinct) :
    ∀ layer ∈ layers, layer.value.Distinct := by
  obtain ⟨ofUser, ofRepo, readUser, readRepo, rfl⟩ := stacked
  have ofCommandLine :
      ∀ layer ∈ commandLine.toList.map SettingsLayer.ofCommandLine,
      layer.value.Distinct := by
    simpa [SettingsLayer.ofCommandLine] using asked
  refine List.forall_mem_cons.2 ⟨distinct_defaultValue, ?_⟩
  exact List.forall_mem_append.2
    ⟨List.forall_mem_append.2 ⟨readUser.distinct, readRepo.distinct⟩,
      ofCommandLine⟩

/-- At each path the last layer that has a say decides whether a leaf stands
there: the later ones have nothing there and nothing but tables on the way. -/
theorem Settings.Stacked.at?_merged {layers : List SettingsLayer}
    (stacked : Stacked disk user repo commandLine layers)
    (asked : ∀ value ∈ commandLine, value.Distinct) {path : List Text}
    {value : Json} (leaf : value.isObject = false) :
    (merged layers).at? path = some value ↔
      ∃ before layer after, layers = before ++ layer :: after ∧
        layer.value.at? path = some value ∧
        ∀ later ∈ after, later.value.Yields path := by
  have distinct : ∀ value ∈ layers.map (·.value), value.Distinct :=
    List.forall_mem_map.2 (stacked.distinct asked)
  have more : layers.map (·.value) ≠ [] := by
    obtain ⟨ofUser, ofRepo, -, -, rfl⟩ := stacked
    exact List.cons_ne_nil _ _
  rw [merged, Json.at?_mergeLayers more distinct leaf]
  constructor
  · rintro ⟨before, layer, after, split, holds, yield⟩
    obtain ⟨front, rest, rfl, rfl, rests⟩ := List.map_eq_append_iff.1 split
    obtain ⟨first, others, rfl, rfl, rfl⟩ := List.map_eq_cons_iff.1 rests
    exact ⟨front, first, others, rfl, holds, List.forall_mem_map.1 yield⟩
  · rintro ⟨before, layer, after, rfl, holds, yield⟩
    exact ⟨_, _, _, List.map_append.trans (by rw [List.map_cons]), holds,
      List.forall_mem_map.2 yield⟩

/-- Loaded settings hold at a path what the last layer with a say holds
there. -/
theorem Settings.load_lastCounts {settings : Settings}
    (asked : ∀ value ∈ commandLine, value.Distinct)
    (loaded : load disk user repo commandLine = .ok settings) :
    ∃ layers, Stacked disk user repo commandLine layers ∧
      ∀ (path : List Text) (value : Json), value.isObject = false →
        (settings.value.at? path = some value ↔
          ∃ before layer after, layers = before ++ layer :: after ∧
            layer.value.at? path = some value ∧
            ∀ later ∈ after, later.value.Yields path) := by
  obtain ⟨layers, stacked, found⟩ := load_eq_ok.1 loaded
  obtain ⟨same, -, -⟩ := ofLayers_eq_ok.1 found
  refine ⟨layers, stacked, fun path value leaf => ?_⟩
  rw [same]
  exact stacked.at?_merged asked leaf

end ConfigEdit
