import ConfigEdit.Files.Tree

/-!
# Storing a file

When the file at some names gets other bytes, these names lead to the new bytes,
all other names lead to what they led to, and each path still leads to the names
that it led to.
-/

namespace ConfigEdit.FileTree

/-- What a tree shows at its root: the bytes of a file, or the names in a
directory. -/
def surface : FileTree → ByteArray ⊕ List Text
  | file content => .inl content
  | directory entries => .inr (Entries.names entries)

/-- The names in the directory that names lead to. -/
def listing? (tree : FileTree) (names : List Text) : Option (List Text) :=
  ((tree.get? names).map surface).bind Sum.getRight?

/-- The file at some names has come to hold some bytes, and nothing else has
changed. -/
structure Rewrites (before : FileTree) (names : List Text) (content : ByteArray)
    (after : FileTree) : Prop where
  written : after.get? names = some (.file content)
  others : ∀ other, other ≠ names →
    (after.get? other).map surface = (before.get? other).map surface
  paths : ∀ path, after.resolve? path = before.resolve? path

theorem get?_cons (tree : FileTree) (name : Text) (names : List Text) :
    tree.get? (name :: names) =
      (tree.entries.get? name).bind fun inner => inner.get? names := by
  rw [get?]
  cases tree.entries.get? name <;> rfl

@[simp] theorem get?_put
    (leaf : FileTree) (names : List Text) (tree : FileTree) :
    (put leaf names tree).get? names = some leaf := by
  induction names generalizing tree with
  | nil => rfl
  | cons name names induction =>
      rw [put, get?_cons, entries, Entries.get?_insert_self]
      exact induction _

/-- Other names than those of the file show what they showed. -/
theorem surface_get?_put {tree : FileTree} {names other : List Text}
    {old : ByteArray} (new : ByteArray)
    (found : tree.get? names = some (.file old)) (different : other ≠ names) :
    ((put (.file new) names tree).get? other).map surface =
      (tree.get? other).map surface := by
  induction names generalizing tree other with
  | nil =>
      cases found
      cases other with
      | nil => contradiction
      | cons key others => rfl
  | cons name names induction =>
      rw [get?_cons] at found
      obtain ⟨inner, inside, below⟩ := Option.bind_eq_some_iff.1 found
      cases tree with
      | file content => contradiction
      | directory entries =>
          have inside : Entries.get? entries name = some inner := inside
          rw [put, FileTree.entries, inside, Option.getD_some]
          cases other with
          | nil =>
              have among := Entries.mem_names_of_get? inside
              have same :=
                Entries.names_insert_of_mem (put (.file new) names inner) among
              exact congrArg (fun names => some (Sum.inr names)) same
          | cons key others =>
              rw [get?_cons, get?_cons, FileTree.entries, FileTree.entries]
              by_cases same : name = key
              · subst same
                rw [Entries.get?_insert_self, inside]
                exact induction below fun equal => different (equal ▸ rfl)
              · rw [Entries.get?_insert_of_ne entries _ same]

theorem resolveFrom?_cons (tree : FileTree) (names : List Text)
    (component : Text) (components : List Text) :
    tree.resolveFrom? names (component :: components) =
      (tree.listing? names.reverse).bind fun inside =>
        if component = [] || component = ['.'] then
          tree.resolveFrom? names components
        else if component = ['.', '.'] then
          match names with
          | [] => none
          | _ :: outer => tree.resolveFrom? outer components
        else if inside.contains component then
          tree.resolveFrom? (component :: names) components
        else none := by
  rw [listing?, resolveFrom?.eq_def]
  dsimp only
  cases tree.get? names.reverse with
  | none => rfl
  | some inner =>
      cases inner with
      | file content => rfl
      | directory entries =>
          dsimp only
          rewrite [Entries.has_eq_contains]
          rfl

/-- Where a path leads depends on the names in directories only. -/
theorem resolve?_congr {left right : FileTree}
    (same : ∀ names, left.listing? names = right.listing? names) (path : Text) :
    left.resolve? path = right.resolve? path := by
  have sameFrom (names components : List Text) :
      left.resolveFrom? names components =
        right.resolveFrom? names components := by
    induction components generalizing names with
    | nil => rfl
    | cons component components induction =>
        rw [resolveFrom?_cons, resolveFrom?_cons, same]
        simp only [induction]
  unfold resolve?
  split
  · rfl
  · rfl
  · exact sameFrom _ _

theorem Rewrites.refl {tree : FileTree} {names : List Text}
    {content : ByteArray} (found : tree.get? names = some (.file content)) :
    tree.Rewrites names content tree := by
  constructor
  · exact found
  · intro other _
    rfl
  · intro path
    rfl

theorem rewrites_put {tree : FileTree} {names : List Text} {old : ByteArray}
    (found : tree.get? names = some (.file old)) (new : ByteArray) :
    tree.Rewrites names new (put (.file new) names tree) := by
  constructor
  · exact get?_put _ names tree
  · intro other different
    exact surface_get?_put new found different
  · apply resolve?_congr
    intro other
    by_cases same : other = names
    · subst same
      rw [listing?, listing?, get?_put, found]
      rfl
    · rw [listing?, listing?, surface_get?_put new found same]

end ConfigEdit.FileTree
