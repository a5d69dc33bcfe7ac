import ConfigEdit.Json.Value
import ConfigEdit.Toml.Datetime

/-!
# Values and tables of TOML

A table can be written out, be made by the header of a table inside it, or be
made by a dotted key.  What made a table decides what may be added to it: a
header can name a table that only headers of inner tables have made, and a
dotted key can go on in tables that dotted keys have made.  A table that its
own header names again stands behind its neighbours.

In JSON dates and times are strings.  A table whose first key is `datetimeKey`
stands for the date or time that the string under the key spells.
-/

namespace ConfigEdit.Toml

/-- What made a table. -/
inductive Origin where
  /-- Its own header. -/
  | header
  /-- The header of a table inside it. -/
  | innerHeader
  /-- A key with points. -/
  | dottedKey
deriving DecidableEq, Repr

/-- Values.  Nothing can be added to a value that is no table and no list of
tables. -/
inductive Node where
  /-- A string, number or truth value. -/
  | plain (value : Json)
  | datetime (value : Datetime)
  | array (items : List Node)
  | inlineTable (entries : List (Text × Node))
  | table (origin : Origin) (entries : List (Text × Node))
  /-- Tables that were listed one after the other. -/
  | tables (items : List (List (Text × Node)))

/-- The key that makes a table a date or time, if it comes first. -/
def datetimeKey : Text := "$__toml_private_datetime".toList

/-- The date or time that a string spells. -/
def Node.spelled? : Node → Option Datetime
  | .plain (.string text) => Datetime.ofText? text
  | _ => none

mutual

/-- A value in JSON. -/
def Node.toJson? : Node → Option Json
  | .plain value => some value
  | .datetime value => some (.string value.text)
  | .array items => (Node.itemsToJson? items).map .array
  | .inlineTable entries => Node.tableToJson? entries
  | .table _ entries => Node.tableToJson? entries
  | .tables items => (Node.tablesToJson? items).map .array

/-- A table in JSON.  Of a table that stands for a date or time the other
entries do not matter. -/
def Node.tableToJson? : List (Text × Node) → Option Json
  | [] => some (.object [])
  | (key, node) :: others =>
      if key = datetimeKey then
        node.spelled?.map fun value => .string value.text
      else
        match node.toJson?, Node.entriesToJson? others with
        | some value, some values => some (.object ((key, value) :: values))
        | _, _ => none

/-- Entries of a table in JSON. -/
def Node.entriesToJson? : List (Text × Node) → Option (List (Text × Json))
  | [] => some []
  | (key, node) :: others =>
      match node.toJson?, Node.entriesToJson? others with
      | some value, some values => some ((key, value) :: values)
      | _, _ => none

/-- Items of an array in JSON. -/
def Node.itemsToJson? : List Node → Option (List Json)
  | [] => some []
  | node :: others =>
      match node.toJson?, Node.itemsToJson? others with
      | some value, some values => some (value :: values)
      | _, _ => none

/-- Listed tables in JSON. -/
def Node.tablesToJson? : List (List (Text × Node)) → Option (List Json)
  | [] => some []
  | entries :: others =>
      match Node.tableToJson? entries, Node.tablesToJson? others with
      | some value, some values => some (value :: values)
      | _, _ => none

end

/-- The last of the listed tables changed. -/
def changeLast? (change : Entries Node → Option (Entries Node)) :
    List (Entries Node) → Option (List (Entries Node))
  | [] => none
  | [last] => (change last).map fun changed => [changed]
  | first :: others => (changeLast? change others).map (first :: ·)

/-- Entries with a value under a dotted key. -/
def insertDotted? (leaf : Text) (value : Node) :
    (parents : List Text) → Entries Node → Option (Entries Node)
  | [], entries =>
      if entries.has leaf then none else some (entries.insert leaf value)
  | parent :: parents, entries =>
      let insertBelow := insertDotted? leaf value parents
      match entries.get? parent with
      | none =>
          (insertBelow []).map
            fun inner => entries.insert parent (.table .dottedKey inner)
      | some (.table .dottedKey inner) =>
          (insertBelow inner).map
            fun inner => entries.insert parent (.table .dottedKey inner)
      | some (.table .innerHeader inner) =>
          if parents.isEmpty then none
          else
            (insertBelow inner).map fun inner =>
              entries.insert parent (.table .innerHeader inner)
      | some (.tables items) =>
          if parents.isEmpty then none
          else
            (changeLast? insertBelow items).map fun items =>
              entries.insert parent (.tables items)
      | some _ => none

/-- Entries changed inside the table that the keys of a header lead to. -/
def changeAt? (change : Entries Node → Option (Entries Node)) :
    (keys : List Text) → Entries Node → Option (Entries Node)
  | [], entries => change entries
  | key :: keys, entries =>
      let changeBelow := changeAt? change keys
      match entries.get? key with
      | none =>
          (changeBelow []).map
            fun inner => entries.insert key (.table .innerHeader inner)
      | some (.table origin inner) =>
          (changeBelow inner).map
            fun inner => entries.insert key (.table origin inner)
      | some (.tables items) =>
          (changeLast? changeBelow items).map
            fun items => entries.insert key (.tables items)
      | some _ => none

/-- Entries with the table that a header names. -/
def openTable? (name : Text) (entries : Entries Node) : Option (Entries Node) :=
  match entries.get? name with
  | none => some (entries.insert name (.table .header []))
  | some (.table .innerHeader inner) =>
      some ((entries.erase name).insert name (.table .header inner))
  | some _ => none

/-- Entries with one more table in the list that a header names. -/
def openListed? (name : Text)
    (entries : Entries Node) : Option (Entries Node) :=
  match entries.get? name with
  | none => some (entries.insert name (.tables [[]]))
  | some (.tables items) => some (entries.insert name (.tables (items ++ [[]])))
  | some _ => none

end ConfigEdit.Toml
