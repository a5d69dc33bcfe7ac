import ConfigEdit.Discover.Find
import ConfigEdit.Proofs.Files.Order
import ConfigEdit.Proofs.Files.Storing
import ConfigEdit.Proofs.Outcome
import Mathlib.Data.List.Nodup

/-!
# What a search finds

The walk leaves out a directory as soon as it meets its name, and counts the
levels down.  Both tests are local, and so an entry is reached if they hold at
each directory on the way: `FileTree.mem_filesBelow` follows the names of a file
from the top, one directory at a time.  Names in one directory differ, and so
nothing is listed twice (`FileTree.nodup_filesBelow`).
-/

namespace ConfigEdit

namespace FileTree

/-- In each directory that names lead to, the entries have distinct names, none
of them empty or with a slash in it. -/
def WellNamed (tree : FileTree) : Prop :=
  ∀ names entries, tree.get? names = some (.directory entries) →
    (Entries.names entries).Nodup ∧
    ∀ name ∈ Entries.names entries, FilePath.IsName name

/-- The names lead from a directory down to a file: at most some levels down, of
a name that is looked for, and through directories whose names are not to be
skipped. -/
structure Lists (looksFor skips : Text → Prop) (depth : Nat) (tree : FileTree)
    (names : List Text) : Prop where
  leads : ∃ content, tree.get? names = some (.file content)
  within : names.length ≤ depth
  fits : ∃ name, names.getLast? = some name ∧ looksFor name
  enters : ∀ directory ∈ names.dropLast, ¬ skips directory

section Names

variable {entries : List (Text × FileTree)} {name : Text} {inner : FileTree}

theorem WellNamed.distinct (wellNamed : (directory entries).WellNamed) :
    (Entries.names entries).Nodup :=
  (wellNamed [] entries rfl).1

theorem WellNamed.isName (wellNamed : (directory entries).WellNamed)
    (found : Entries.get? entries name = some inner) : FilePath.IsName name :=
  (wellNamed [] entries rfl).2 name (Entries.mem_names_of_get? found)

theorem WellNamed.below (wellNamed : (directory entries).WellNamed)
    (found : Entries.get? entries name = some inner) : inner.WellNamed := by
  intro names nested inside
  apply wellNamed (name :: names) nested
  rw [get?_cons, FileTree.entries, found]
  exact inside

theorem WellNamed.file (content : ByteArray) : (file content).WellNamed := by
  intro names entries inside
  cases names with
  | nil => cases inside
  | cons name names => contradiction

theorem WellNamed.directory (distinct : (Entries.names entries).Nodup)
    (areNames : ∀ name ∈ Entries.names entries, FilePath.IsName name)
    (below : ∀ entry ∈ entries, entry.2.WellNamed) :
    (directory entries).WellNamed := by
  intro names nested inside
  cases names with
  | nil =>
      cases inside
      exact ⟨distinct, areNames⟩
  | cons name names =>
      rw [get?_cons] at inside
      obtain ⟨inner, found, inside⟩ := Option.bind_eq_some_iff.1 inside
      exact below (name, inner) (Entries.mem_of_get? found) names nested inside

theorem WellNamed.areNames {tree leaf : FileTree} {names : List Text}
    (wellNamed : tree.WellNamed) (found : tree.get? names = some leaf) :
    ∀ name ∈ names, FilePath.IsName name := by
  induction names generalizing tree with
  | nil => simp
  | cons name names induction =>
      rw [get?_cons] at found
      obtain ⟨inner, first, further⟩ := Option.bind_eq_some_iff.1 found
      cases tree with
      | file content => contradiction
      | directory entries =>
          exact List.forall_mem_cons.2
            ⟨wellNamed.isName first, induction (wellNamed.below first) further⟩

end Names

section Walk

variable {accepts skips : Text → Bool} {depth : Nat}
    {entries : List (Text × FileTree)}
    {name : Text} {names : List Text} {tree : FileTree}

/-- What the walk lists for one entry of a directory. -/
def filesAt (accepts skips : Text → Bool) (depth : Nat) :
    Text × FileTree → List (List Text)
  | (name, .file _) => if accepts name then [[name]] else []
  | (name, .directory inner) =>
      if skips name then []
      else (filesBelow accepts skips depth (.directory inner)).map (name :: ·)

theorem filesAmong_eq_flatMap (accepts skips : Text → Bool) (depth : Nat)
    (entries : List (Text × FileTree)) :
    filesAmong accepts skips depth entries =
      entries.flatMap (filesAt accepts skips depth) := by
  induction entries with
  | nil => rfl
  | cons entry others induction =>
      obtain ⟨name, content | inner⟩ := entry
      · rw [filesAmong, List.flatMap_cons, filesAt, induction]
        split <;> rfl
      · rw [filesAmong, List.flatMap_cons, filesAt, induction]

/-- What is listed for an entry is the entry itself, or lies below it. -/
theorem mem_filesAt : names ∈ filesAt accepts skips depth (name, tree) ↔
    ((∃ content, tree = .file content) ∧ accepts name = true ∧ names = [name]) ∨
        (skips name = false ∧
          ∃ below ∈ filesBelow accepts skips depth tree,
            names = name :: below) := by
  cases tree with
  | file content =>
      cases accepted : accepts name <;> simp [filesAt, filesBelow, accepted]
  | directory inner =>
      cases skipped : skips name <;> simp [filesAt, skipped, @eq_comm _ names]

theorem exists_cons_of_mem_filesAt
    (listed : names ∈ filesAt accepts skips depth (name, tree)) :
    ∃ below, names = name :: below := by
  rcases mem_filesAt.1 listed with ⟨-, -, rfl⟩ | ⟨-, below, -, rfl⟩
  · exact ⟨[], rfl⟩
  · exact ⟨below, rfl⟩

theorem cons_mem_filesBelow (distinct : (Entries.names entries).Nodup) :
    name :: names ∈ filesBelow accepts skips (depth + 1) (.directory entries) ↔
      ∃ inner, Entries.get? entries name = some inner ∧
        (((∃ content, inner = .file content) ∧ accepts name = true ∧
          names = []) ∨
          (skips name = false ∧
            names ∈ filesBelow accepts skips depth inner)) := by
  rw [filesBelow, filesAmong_eq_flatMap, List.mem_flatMap]
  constructor
  · rintro ⟨⟨key, inner⟩, member, listed⟩
    obtain ⟨below, same⟩ := exists_cons_of_mem_filesAt listed
    cases same
    refine ⟨inner, Entries.get?_of_mem distinct member, ?_⟩
    simpa [mem_filesAt] using listed
  · rintro ⟨inner, found, shape⟩
    refine ⟨(name, inner), Entries.mem_of_get? found, ?_⟩
    simpa [mem_filesAt] using shape

/-- What leads to a file below a directory begins with the name of an entry. -/
theorem lists_cons {looksFor skipped : Text → Prop} :
    Lists looksFor skipped (depth + 1) (.directory entries) (name :: names) ↔
      ∃ inner, Entries.get? entries name = some inner ∧
        (((∃ content, inner = .file content) ∧ looksFor name ∧ names = []) ∨
          (¬ skipped name ∧ Lists looksFor skipped depth inner names)) := by
  constructor
  · rintro ⟨⟨content, leads⟩, within, ⟨last, ends, fits⟩, enters⟩
    rw [get?_cons] at leads
    obtain ⟨inner, found, leads⟩ := Option.bind_eq_some_iff.1 leads
    refine ⟨inner, found, ?_⟩
    cases names with
    | nil =>
        cases leads
        cases ends
        exact .inl ⟨⟨content, rfl⟩, fits, rfl⟩
    | cons next others =>
        refine .inr ⟨enters name List.mem_cons_self, ⟨content, leads⟩, ?_,
          ⟨last, ends, fits⟩, ?_⟩
        · exact Nat.le_of_succ_le_succ within
        · exact fun directory inside =>
            enters directory (List.mem_cons_of_mem name inside)
  · rintro ⟨inner, found, ⟨⟨content, rfl⟩, fits, rfl⟩ | ⟨entered, lists⟩⟩
    · refine ⟨⟨content, ?_⟩, by simp, ⟨name, rfl, fits⟩, by simp⟩
      rw [get?_cons, FileTree.entries, found]
      rfl
    · obtain ⟨⟨content, leads⟩, within, ⟨last, ends, fits⟩, enters⟩ := lists
      have more : names ≠ [] := by
        rintro rfl
        contradiction
      obtain ⟨next, others, rfl⟩ := List.exists_cons_of_ne_nil more
      refine ⟨⟨content, ?_⟩, Nat.succ_le_succ within, ⟨last, ends, fits⟩, ?_⟩
      · rw [get?_cons, FileTree.entries, found]
        exact leads
      · exact List.forall_mem_cons.2 ⟨entered, enters⟩

/-- The walk lists the files that it looks for, and only these. -/
theorem mem_filesBelow (wellNamed : tree.WellNamed) :
    names ∈ filesBelow accepts skips depth tree ↔
      Lists (accepts · = true) (skips · = true) depth tree names := by
  induction names generalizing tree depth with
  | nil =>
      constructor
      · intro listed
        cases tree with
        | file content => simp [filesBelow] at listed
        | directory entries =>
            cases depth with
            | zero => simp [filesBelow] at listed
            | succ depth =>
                rw [filesBelow, filesAmong_eq_flatMap, List.mem_flatMap]
                  at listed
                obtain ⟨entry, -, listed⟩ := listed
                obtain ⟨below, same⟩ := exists_cons_of_mem_filesAt listed
                contradiction
      · rintro ⟨-, -, ⟨name, ends, -⟩, -⟩
        contradiction
  | cons name names induction =>
      cases tree with
      | file content =>
          constructor
          · simp [filesBelow]
          · rintro ⟨⟨inner, leads⟩, -⟩
            contradiction
      | directory entries =>
          cases depth with
          | zero =>
              constructor
              · simp [filesBelow]
              · rintro ⟨-, within, -⟩
                contradiction
          | succ depth =>
              rw [cons_mem_filesBelow wellNamed.distinct, lists_cons]
              refine exists_congr fun inner =>
                and_congr_right fun found => or_congr_right ?_
              rw [Bool.not_eq_true, induction (wellNamed.below found)]

theorem nodup_filesBelow (wellNamed : tree.WellNamed) :
    (filesBelow accepts skips depth tree).Nodup := by
  induction depth generalizing tree with
  | zero => cases tree <;> exact List.nodup_nil
  | succ depth induction =>
      cases tree with
      | file content => exact List.nodup_nil
      | directory entries =>
          have distinct := wellNamed.distinct
          rw [filesBelow, filesAmong_eq_flatMap, List.nodup_flatMap]
          constructor
          · rintro ⟨name, content | nested⟩ member
            · rw [filesAt]
              split <;> simp
            · rw [filesAt]
              split
              · exact List.nodup_nil
              · have below :=
                  wellNamed.below (Entries.get?_of_mem distinct member)
                exact (induction below).map (List.cons_injective)
          · refine (List.pairwise_map.1 distinct).imp
              fun {left right} different => ?_
            intro names atLeft atRight
            obtain ⟨below, rfl⟩ := exists_cons_of_mem_filesAt atLeft
            obtain ⟨others, same⟩ := exists_cons_of_mem_filesAt atRight
            exact different (List.cons.inj same).1

end Walk

end FileTree

section Search

variable {options : DiscoverOptions}

/-- A name matches one of the patterns of a search. -/
def DiscoverOptions.LooksFor (options : DiscoverOptions) (name : Text) : Prop :=
  ∃ pattern ∈ options.patterns, ∃ tokens,
    Glob.parse pattern = .ok tokens ∧ Glob.isMatch tokens name = true

theorem DiscoverOptions.exists_parse
    (valid :
      ∀ pattern ∈ options.patterns, ∃ tokens, Glob.parse pattern = .ok tokens) :
    ∃ parsed, options.parse = .ok parsed ∧
      ∀ name, parsed.any (Glob.isMatch · name) = true ↔
        options.LooksFor name := by
  obtain ⟨parsed, all⟩ := exists_forall₂ valid
  refine ⟨parsed, mapM_eq_ok_iff.2 (all.imp fun _ _ => mapError_eq_ok.2),
    fun name => ?_⟩
  rw [List.any_eq_true]
  constructor
  · rintro ⟨tokens, member, fits⟩
    obtain ⟨pattern, among, reads⟩ := exists_mem_of_forall₂ all tokens member
    exact ⟨pattern, among, tokens, reads, fits⟩
  · rintro ⟨pattern, among, tokens, reads, fits⟩
    obtain ⟨found, member, same⟩ := exists_mem_of_forall₂ all.flip pattern among
    cases reads.symm.trans same
    exact ⟨tokens, member, fits⟩

/-- A search finds, each of them once and in the order of their paths, the files
below its root that are not too deep, whose names match one of its patterns, and
that no skipped directory contains. -/
theorem discover_finds
    {disk : Disk} {root : Text} {entries : List (Text × FileTree)}
    (isDirectory : disk root = some (.directory entries))
    (wellNamed : (FileTree.directory entries).WellNamed)
    (valid :
      ∀ pattern ∈ options.patterns, ∃ tokens, Glob.parse pattern = .ok tokens) :
    ∃ found, discover disk options root = .ok found ∧
      found.Nodup ∧ found.Pairwise FilePath.Before ∧
      ∀ path, path ∈ found ↔ ∃ names,
        path = names.foldl FilePath.join root ∧
        (FileTree.directory entries).Lists options.LooksFor
          (· ∈ options.skipDirs) options.maxDepth names := by
  obtain ⟨parsed, reads, fits⟩ := options.exists_parse valid
  let walked :=
    FileTree.filesBelow (fun name => parsed.any (Glob.isMatch · name))
      options.skipDirs.contains options.maxDepth (.directory entries)
  let sorted :=
    walked.mergeSort fun left right => !FilePath.pathBefore right left
  have found : discover disk options root =
      .ok (sorted.map fun names => names.foldl FilePath.join root) := by
    rw [discover, isDirectory, reads]
    rfl
  have member (names : List Text) : names ∈ sorted ↔
      (FileTree.directory entries).Lists options.LooksFor (· ∈ options.skipDirs)
        options.maxDepth names := by
    rw [List.mem_mergeSort, FileTree.mem_filesBelow wellNamed]
    simp only [fits, List.contains_iff_mem]
  have areNames {names : List Text} (inside : names ∈ sorted) :
      ∀ name ∈ names, FilePath.IsName name := by
    obtain ⟨content, leads⟩ := ((member names).1 inside).leads
    exact wellNamed.areNames leads
  have ordered :
      (sorted.map fun names => names.foldl FilePath.join root).Pairwise
      FilePath.Before := by
    rw [List.pairwise_map]
    refine (FilePath.pairwise_sorted
      (FileTree.nodup_filesBelow wellNamed)).imp_of_mem ?_
    intro left right atLeft atRight before
    exact FilePath.before_foldl_join (areNames atLeft)
      (areNames atRight) before root
  refine ⟨_, found, ordered.imp FilePath.Before.ne, ordered, fun path => ?_⟩
  rw [List.mem_map]
  exact exists_congr fun names =>
    and_comm.trans (and_congr eq_comm (member names))

/-- The root itself may have a skipped name, and so may a file: of the
directories only the one below the root is left out. -/
theorem discover_finds_below_skipped_name :
    let leaf := FileTree.file ⟨#[]⟩
    let entries : List (Text × FileTree) :=
      [(['m'], .directory [(['a'], leaf)]),
        (['b'], .directory [(['m'], leaf), (['a'], leaf)])]
    let disk : Disk := fun _ => some (.directory entries)
    let options : DiscoverOptions := ⟨[['a', '*'], ['[', 'm', ']']], 2, [['m']]⟩
    ∃ found, discover disk options ['m'] = .ok found ∧
      found.Nodup ∧ found.Pairwise FilePath.Before ∧
      ['m', '/', 'b', '/', 'm'] ∈ found ∧
      ['m', '/', 'm', '/', 'a'] ∉ found := by
  intro leaf entries disk options
  have isLeaf : leaf.WellNamed := .file _
  have wellNamed : (FileTree.directory entries).WellNamed := by
    refine .directory (by decide) (by decide) (List.forall_mem_cons.2 ⟨?_, ?_⟩)
    · exact .directory (by decide) (by decide) (by simpa using isLeaf)
    · exact List.forall_mem_singleton.2
        (.directory (by decide) (by decide) (by simpa using isLeaf))
  have valid :
      ∀ pattern ∈ options.patterns, ∃ tokens, Glob.parse pattern = .ok tokens :=
    List.forall_mem_cons.2 ⟨⟨_, rfl⟩, List.forall_mem_singleton.2 ⟨_, rfl⟩⟩
  have isDirectory : disk ['m'] = some (.directory entries) := rfl
  obtain ⟨found, finds, once, ordered, lists⟩ :=
    discover_finds isDirectory wellNamed valid
  refine ⟨found, finds, once, ordered, ?_, ?_⟩
  · refine (lists _).2 ⟨[['b'], ['m']], rfl, ⟨_, rfl⟩, by decide, ?_, by decide⟩
    exact ⟨['m'], rfl, ['[', 'm', ']'],
      by decide, [.oneOf false [('m', 'm')]], rfl, by decide⟩
  · intro inside
    obtain ⟨names, same, listed⟩ := (lists _).1 inside
    obtain ⟨content, leads⟩ := listed.leads
    have same : [['m'], ['a']].foldl FilePath.join ['m'] =
        names.foldl FilePath.join ['m'] := same
    obtain rfl :=
      FilePath.eq_of_foldl_join (by decide) (wellNamed.areNames leads) same
    exact listed.enters ['m'] (by decide) (by decide)

end Search

end ConfigEdit
