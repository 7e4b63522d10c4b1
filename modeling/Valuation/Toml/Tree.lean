import Valuation.Document.Basic

/-!
# Tables of TOML

A TOML text builds a tree of tables. A header names a table, the lines below it fill that table, and
a key of several names reaches into the tables below. A table is opened by a header only once, and a
key reaches only into tables that were made by such keys; so each table remembers how it was made.
-/
namespace Valuation.Toml

/-- How a table came to be. -/
inductive Origin where
  /-- It has a header of its own. -/
  | header
  /-- Only tables below it have headers. -/
  | above
  /-- Keys of several names reach into it. -/
  | key
deriving DecidableEq

/-- What stands under a name. -/
inductive Entry where
  | value (d : Document)
  | table (origin : Origin) (entries : List (String × Entry))
  /-- The elements of a list of tables; the last one is being filled. -/
  | tables (done : List (List (String × Entry))) (last : List (String × Entry))

/-- The entries of a table, in order, no name twice. -/
abbrev Entries := List (String × Entry)

namespace Entries

/-- Puts a new entry in the place of the one under its name, or at the end. -/
def put (entries : Entries) (name : String) (e : Entry) : Entries :=
  if (entries.lookup name).isSome then
    entries.map fun f => if f.1 = name then (name, e) else f
  else entries ++ [(name, e)]

/-- Changes the table that the names of a header lead to; tables that are missing on the way are
made. -/
def change? (f : Entries → Option Entries) : List String → Entries → Option Entries
  | [], entries => f entries
  | name :: names, entries =>
    match entries.lookup name with
    | none => (change? f names []).map fun inner => entries.put name (.table .above inner)
    | some (.table origin inner) =>
      (change? f names inner).map fun inner => entries.put name (.table origin inner)
    | some (.tables done last) =>
      (change? f names last).map fun last => entries.put name (.tables done last)
    | some (.value _) => none

/-- Opens a table by its header; it must not have been opened before, nor been made by keys. -/
def openTable? (header : List String) (entries : Entries) : Option Entries := do
  let name ← header.getLast?
  entries.change? (fun es =>
    match es.lookup name with
    | none => some (es.put name (.table .header []))
    | some (.table .above inner) => some (es.put name (.table .header inner))
    | some _ => none) header.dropLast

/-- Begins a new element of a list of tables. -/
def openElement? (header : List String) (entries : Entries) : Option Entries := do
  let name ← header.getLast?
  entries.change? (fun es =>
    match es.lookup name with
    | none => some (es.put name (.tables [] []))
    | some (.tables done last) => some (es.put name (.tables (done ++ [last]) []))
    | some _ => none) header.dropLast

/-- Sets a key to a value. The table that the last name goes to must have been made by keys, if it is
not the first table; those on the way must have no header of their own. -/
def set? (d : Document) : List String → Entries → Option Entries
  | [], _ => none
  | [name], entries =>
    match entries.lookup name with
    | none => some (entries ++ [(name, .value d)])
    | some _ => none
  | name :: names, entries =>
    match entries.lookup name with
    | none => (set? d names []).map fun inner => entries.put name (.table .key inner)
    | some (.table origin inner) =>
      if origin = .key ∨ (origin = .above ∧ 1 < names.length) then
        (set? d names inner).map fun inner => entries.put name (.table origin inner)
      else none
    | some (.tables done last) =>
      if 1 < names.length then
        (set? d names last).map fun last => entries.put name (.tables done last)
      else none
    | some (.value _) => none

end Entries

/-! ## The document of a tree -/

mutual

def Entry.toDocument : Entry → Document
  | .value d => d
  | .table _ entries => .record (Entries.toFields entries)
  | .tables done last => .list (Entries.toRecords done ++ [.record (Entries.toFields last)])

def Entries.toFields : List (String × Entry) → List (String × Document)
  | [] => []
  | (name, e) :: rest => (name, e.toDocument) :: Entries.toFields rest

def Entries.toRecords : List (List (String × Entry)) → List Document
  | [] => []
  | entries :: rest => .record (Entries.toFields entries) :: Entries.toRecords rest

end

end Valuation.Toml
