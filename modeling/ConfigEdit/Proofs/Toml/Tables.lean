import ConfigEdit.Proofs.Json.Layers
import ConfigEdit.Toml.Read

/-!
# Tables have distinct names

A table of TOML grows by entries that are set under a name, so that no name
comes twice in it (`Toml.Named.insert`).  Every statement of a document keeps
this, and so do the entries of an inline table; what a document spells in JSON
therefore has distinct names in all its objects (`Toml.distinct_of_toJson?`).
-/

namespace ConfigEdit.Toml

/-- In the tables of a value the names are distinct, and no plain value is an
object. -/
inductive Node.Distinct : Node → Prop where
  | plain {value : Json} : value.isObject = false → Distinct (.plain value)
  | datetime {value : Datetime} : Distinct (.datetime value)
  | array {items : List Node} : Distinct (.array items)
  | tables {items : List (List (Text × Node))} : Distinct (.tables items)
  | inlineTable {entries : List (Text × Node)} :
      (Entries.names entries).Nodup → (∀ entry ∈ entries, Distinct entry.2) →
      Distinct (.inlineTable entries)
  | table {origin : Origin} {entries : List (Text × Node)} :
      (Entries.names entries).Nodup → (∀ entry ∈ entries, Distinct entry.2) →
      Distinct (.table origin entries)

/-- Entries with distinct names, also in the tables among them. -/
structure Named (entries : Entries Node) : Prop where
  names : entries.names.Nodup
  inside : ∀ entry ∈ entries, entry.2.Distinct

namespace Named

variable {entries : Entries Node} {name : Text} {node : Node}

theorem nil : Named [] := ⟨List.nodup_nil, nofun⟩

theorem insert (named : Named entries) (distinct : node.Distinct) :
    Named (entries.insert name node) where
  names := Entries.nodup_names_insert named.names name node
  inside entry member := by
    rcases Entries.mem_insert member with same | member
    · exact same ▸ distinct
    · exact named.inside entry member

theorem erase (named : Named entries) : Named (entries.erase name) where
  names := (List.filter_sublist.map Prod.fst).nodup named.names
  inside entry member := named.inside entry (List.mem_of_mem_filter member)

theorem get (named : Named entries) (found : entries.get? name = some node) :
    node.Distinct :=
  named.inside (name, node) (Entries.mem_of_get? found)

theorem table (named : Named entries) (origin : Origin) :
    (Node.table origin entries).Distinct :=
  .table named.names named.inside

theorem below
    {origin : Origin} {inner : List (Text × Node)} (named : Named entries)
    (found : entries.get? name = some (.table origin inner)) : Named inner := by
  cases named.get found with
  | table names inside => exact ⟨names, inside⟩

end Named

section Changes

variable {entries changed : Entries Node}

theorem Named.insertDotted? {leaf : Text} {value : Node}
    (distinct : value.Distinct) {parents : List Text} (named : Named entries)
    (added : Toml.insertDotted? leaf value parents entries = some changed) :
    Named changed := by
  induction parents generalizing entries changed with
  | nil =>
      rw [Toml.insertDotted?] at added
      split at added
      · contradiction
      · cases added
        exact named.insert distinct
  | cons parent parents induction =>
      have set (origin : Origin) {inner : Entries Node} (inside : Named inner)
          (added : (Toml.insertDotted? leaf value parents inner).map
            (fun inner => entries.insert parent (.table origin inner)) =
            some changed) : Named changed := by
        obtain ⟨further, below, rfl⟩ := Option.map_eq_some_iff.1 added
        exact named.insert ((induction inside below).table origin)
      rw [Toml.insertDotted?] at added
      split at added
      · exact set .dottedKey .nil added
      · next found => exact set .dottedKey (named.below found) added
      · next found =>
          split at added
          · contradiction
          · exact set .innerHeader (named.below found) added
      · split at added
        · contradiction
        · obtain ⟨items, -, rfl⟩ := Option.map_eq_some_iff.1 added
          exact named.insert .tables
      · contradiction

theorem Named.changeAt? {change : Entries Node → Option (Entries Node)} (keeps :
    ∀ before after, Named before → change before = some after → Named after)
    {keys : List Text} (named : Named entries)
    (added : Toml.changeAt? change keys entries = some changed) :
    Named changed := by
  induction keys generalizing entries changed with
  | nil => exact keeps entries changed named added
  | cons key keys induction =>
      rw [Toml.changeAt?] at added
      split at added
      · obtain ⟨inner, below, rfl⟩ := Option.map_eq_some_iff.1 added
        exact named.insert ((induction .nil below).table .innerHeader)
      · next origin inner found =>
          obtain ⟨further, below, rfl⟩ := Option.map_eq_some_iff.1 added
          exact named.insert
            ((induction (named.below found) below).table origin)
      · obtain ⟨items, -, rfl⟩ := Option.map_eq_some_iff.1 added
        exact named.insert .tables
      · contradiction

theorem Named.openTable? {name : Text} (named : Named entries)
    (opened : Toml.openTable? name entries = some changed) : Named changed := by
  rw [Toml.openTable?] at opened
  split at opened
  · cases opened
    exact named.insert (Named.nil.table .header)
  · next found =>
      cases opened
      exact named.erase.insert ((named.below found).table .header)
  · contradiction

theorem Named.openListed? {name : Text} (named : Named entries)
    (opened : Toml.openListed? name entries = some changed) :
    Named changed := by
  rw [Toml.openListed?] at opened
  split at opened
  · cases opened
    exact named.insert .tables
  · cases opened
    exact named.insert .tables
  · contradiction

end Changes

section Reading

variable {text rest : Text} {value : Json} {node : Node}

theorem isObject_of_integerOf?
    {number : Int} (spelled : integerOf? number = some value) :
    value.isObject = false := by
  rw [integerOf?] at spelled
  split at spelled
  · obtain ⟨inner, -, rfl⟩ := Option.map_eq_some_iff.1 spelled
    rfl
  · contradiction

theorem isObject_of_floatOf?
    {digits : Text} (spelled : floatOf? digits = some value) :
    value.isObject = false := by
  rw [floatOf?] at spelled
  split at spelled
  · contradiction
  · split at spelled
    · cases spelled
      rfl
    · split at spelled
      · cases spelled
        rfl
      · contradiction

theorem isObject_of_readNumber? (read : readNumber? text = some (value, rest)) :
    value.isObject = false := by
  have based {base : Nat} {isDigit : Char → Bool} {digits : Text}
      (read : readBased? base isDigit digits = some (value, rest)) :
      value.isObject = false := by
    obtain ⟨after, -, read⟩ := Option.bind_eq_some_iff.1 read
    obtain ⟨number, -, read⟩ := Option.bind_eq_some_iff.1 read
    obtain ⟨found, spelled, same⟩ := Option.bind_eq_some_iff.1 read
    cases same
    exact isObject_of_integerOf? spelled
  rw [readNumber?.eq_def] at read
  split at read
  · exact based read
  · exact based read
  · exact based read
  · split at read
    · rw [readSpecial?.eq_def] at read
      split at read
      · cases read
        rfl
      · cases read
        rfl
      · contradiction
    · split at read
      · obtain ⟨found, spelled, same⟩ := Option.map_eq_some_iff.1 read
        cases same
        exact isObject_of_floatOf? spelled
      · obtain ⟨number, -, read⟩ := Option.bind_eq_some_iff.1 read
        obtain ⟨found, spelled, same⟩ := Option.bind_eq_some_iff.1 read
        cases same
        exact isObject_of_integerOf? spelled

theorem isObject_of_readScalar? (read : readScalar? text = some (value, rest)) :
    value.isObject = false := by
  rw [readScalar?.eq_def] at read
  split at read
  · cases read
    rfl
  · cases read
    rfl
  · exact isObject_of_readNumber? read

theorem Named.readInlineEntries? {read : Text → Option (Node × Text)}
    (reads : ∀ text node rest, read text = some (node, rest) → node.Distinct)
    {limit : Nat} {before after : Entries Node} (named : Named before) (found :
      Toml.readInlineEntries? read limit before text = some (after, rest)) :
    Named after := by
  induction limit generalizing before text with
  | zero => contradiction
  | succ limit induction =>
      rw [Toml.readInlineEntries?] at found
      obtain ⟨⟨key, behindKey⟩, -, found⟩ := Option.bind_eq_some_iff.1 found
      obtain ⟨behindMark, -, found⟩ := Option.bind_eq_some_iff.1 found
      obtain ⟨⟨value, behindValue⟩, readsValue, found⟩ :=
        Option.bind_eq_some_iff.1 found
      obtain ⟨between, added, found⟩ := Option.bind_eq_some_iff.1 found
      have named := named.insertDotted? (reads _ _ _ readsValue) added
      split at found
      · exact induction named found
      · cases found
        exact named
      · contradiction

theorem distinct_of_readValue? {depth : Nat} {text rest : Text} {node : Node}
    (read : readValue? depth text = some (node, rest)) : node.Distinct := by
  rw [readValue?.eq_def] at read
  simp only at read
  split at read
  · contradiction
  · obtain ⟨found, -, same⟩ := Option.map_eq_some_iff.1 read
    cases same
    exact .plain rfl
  · obtain ⟨found, -, same⟩ := Option.map_eq_some_iff.1 read
    cases same
    exact .plain rfl
  · split at read
    · contradiction
    · obtain ⟨found, -, same⟩ := Option.map_eq_some_iff.1 read
      cases same
      exact .array
  · split at read
    · contradiction
    · next inner =>
        split at read
        · cases read
          exact .inlineTable List.nodup_nil nofun
        · obtain ⟨⟨entries, behind⟩, found, same⟩ :=
            Option.map_eq_some_iff.1 read
          cases same
          have reads (text : Text) (node : Node) (rest : Text)
              (read : readValue? inner text = some (node, rest)) :
              node.Distinct :=
            distinct_of_readValue? read
          have named := Named.nil.readInlineEntries? reads found
          exact .inlineTable named.names named.inside
  · split at read
    · cases read
      exact .datetime
    · obtain ⟨⟨value, behind⟩, found, same⟩ := Option.map_eq_some_iff.1 read
      cases same
      exact .plain (isObject_of_readScalar? found)
termination_by depth

/-- The value of a statement, if it has one, has distinct names. -/
def Statement.Distinct : Statement → Prop
  | .entry _ value => value.Distinct
  | .table _ | .listed _ => True

theorem distinct_of_readStatement? {statement : Statement}
    (read : readStatement? text = some (statement, rest)) :
    statement.Distinct := by
  rw [readStatement?.eq_def] at read
  split at read
  · obtain ⟨found, -, same⟩ := Option.map_eq_some_iff.1 read
    cases same
    trivial
  · obtain ⟨found, -, same⟩ := Option.map_eq_some_iff.1 read
    cases same
    trivial
  · obtain ⟨⟨key, behindKey⟩, -, read⟩ := Option.bind_eq_some_iff.1 read
    obtain ⟨behindMark, -, read⟩ := Option.bind_eq_some_iff.1 read
    obtain ⟨⟨value, behindValue⟩, found, same⟩ := Option.bind_eq_some_iff.1 read
    cases same
    exact distinct_of_readValue? found

theorem distinct_of_readStatements? {limit : Nat} {statements : List Statement}
    (read : readStatements? limit text = some statements) :
    ∀ statement ∈ statements, statement.Distinct := by
  induction limit generalizing text statements with
  | zero => contradiction
  | succ limit induction =>
      rw [readStatements?.eq_def] at read
      simp only at read
      split at read
      · cases read
        exact nofun
      · split at read
        · exact induction read
        · obtain ⟨⟨statement, behind⟩, found, read⟩ :=
            Option.bind_eq_some_iff.1 read
          obtain ⟨after, -, read⟩ := Option.bind_eq_some_iff.1 read
          obtain ⟨others, further, same⟩ := Option.bind_eq_some_iff.1 read
          cases same
          exact List.forall_mem_cons.2 ⟨distinct_of_readStatement? found,
            induction further⟩

/-- One statement keeps the names in the tables of a document distinct. -/
theorem Named.add? {before after : Progress} {statement : Statement}
    (distinct : statement.Distinct) (named : Named before.entries)
    (added : before.add? statement = some after) : Named after.entries := by
  cases statement with
  | entry key value =>
      obtain ⟨entries, changed, rfl⟩ := Option.map_eq_some_iff.1 added
      exact named.changeAt? (fun _ _ named => named.insertDotted? distinct)
        changed
  | table key =>
      obtain ⟨entries, changed, rfl⟩ := Option.map_eq_some_iff.1 added
      exact named.changeAt? (fun _ _ named => named.openTable?) changed
  | listed key =>
      obtain ⟨entries, changed, rfl⟩ := Option.map_eq_some_iff.1 added
      exact named.changeAt? (fun _ _ named => named.openListed?) changed

theorem Named.foldlM_add?
    {statements : List Statement} {before after : Progress}
    (distinct : ∀ statement ∈ statements, statement.Distinct)
    (named : Named before.entries)
    (added : statements.foldlM Progress.add? before = some after) :
    Named after.entries := by
  induction statements generalizing before with
  | nil =>
      cases added
      exact named
  | cons statement statements induction =>
      obtain ⟨first, others⟩ := List.forall_mem_cons.1 distinct
      rw [List.foldlM_cons] at added
      obtain ⟨between, step, further⟩ := Option.bind_eq_some_iff.1 added
      exact induction others (named.add? first step) further

end Reading

mutual

theorem distinct_of_node {value : Json} : (node : Node) → node.Distinct →
    node.toJson? = some value → value.Distinct
  | .plain _, distinct, spelled => by
      cases spelled
      cases distinct with
      | plain leaf => exact .leaf leaf
  | .datetime _, _, spelled => by
      cases spelled
      exact .leaf rfl
  | .array _, _, spelled => by
      obtain ⟨items, -, rfl⟩ := Option.map_eq_some_iff.1 spelled
      exact .leaf rfl
  | .tables _, _, spelled => by
      obtain ⟨items, -, rfl⟩ := Option.map_eq_some_iff.1 spelled
      exact .leaf rfl
  | .inlineTable entries, distinct, spelled => by
      cases distinct with
      | inlineTable names inside =>
          exact distinct_of_table entries ⟨names, inside⟩ spelled
  | .table _ entries, distinct, spelled => by
      cases distinct with
      | table names inside =>
          exact distinct_of_table entries ⟨names, inside⟩ spelled

theorem distinct_of_table {value : Json} :
    (entries : List (Text × Node)) → Named entries →
    Node.tableToJson? entries = some value → value.Distinct
  | [], _, spelled => by
      cases spelled
      exact .object List.nodup_nil nofun
  | (key, node) :: others, named, spelled => by
      rw [Node.tableToJson?] at spelled
      split at spelled
      · obtain ⟨datetime, -, rfl⟩ := Option.map_eq_some_iff.1 spelled
        exact .leaf rfl
      · split at spelled
        · next first values ofNode ofOthers =>
            cases spelled
            obtain ⟨head, inside⟩ := List.forall_mem_cons.1 named.inside
            obtain ⟨names, below⟩ := distinct_of_entries others inside ofOthers
            refine .object ?_ (List.forall_mem_cons.2
              ⟨distinct_of_node node head ofNode, below⟩)
            rw [Entries.names, List.map_cons, ← Entries.names, names]
            exact named.names
        · contradiction

theorem distinct_of_entries {values : List (Text × Json)} :
    (entries : List (Text × Node)) →
    (∀ entry ∈ entries, entry.2.Distinct) →
    Node.entriesToJson? entries = some values →
    Entries.names values = Entries.names entries ∧
    ∀ entry ∈ values, entry.2.Distinct
  | [], _, spelled => by
      cases spelled
      exact ⟨rfl, nofun⟩
  | (key, node) :: others, inside, spelled => by
      rw [Node.entriesToJson?] at spelled
      split at spelled
      · next first values ofNode ofOthers =>
          cases spelled
          obtain ⟨head, inside⟩ := List.forall_mem_cons.1 inside
          obtain ⟨names, below⟩ := distinct_of_entries others inside ofOthers
          exact ⟨congrArg (key :: ·) names,
            List.forall_mem_cons.2 ⟨distinct_of_node node head ofNode, below⟩⟩
      · contradiction

end

/-- What a document spells has distinct names in all its objects. -/
theorem distinct_of_toJson? {text : Text} {value : Json}
    (spelled : toJson? text = some value) :
    value.Distinct := by
  rw [toJson?.eq_def] at spelled
  simp only at spelled
  split at spelled
  · next statements read =>
      obtain ⟨entries, carriedOut, spelled⟩ := Option.bind_eq_some_iff.1 spelled
      obtain ⟨finished, added, rfl⟩ := Option.map_eq_some_iff.1 carriedOut
      have named :=
        Named.nil.foldlM_add? (distinct_of_readStatements? read) added
      exact distinct_of_table finished.entries named spelled
  · contradiction

end ConfigEdit.Toml
