import Valuation.Document.Fields

/-!
# Looking things up in documents

Reading of records that were written by hand: a field that is null counts as left out, and what is
left out has a default.
-/
namespace Valuation
namespace Document

/-- A field of a record, null or not; of a repeated name the last one. -/
def member? (d : Document) (name : String) : Option Document :=
  match d with
  | .record fs => (fs.reverse.find? fun f => f.1 = name).map (·.2)
  | _ => none

/-- A field that says something. -/
def field? (d : Document) (name : String) : Option Document :=
  match d.member? name with
  | some .null => none
  | r => r

def textField? (d : Document) (name : String) : Option String := (d.field? name).bind text?

def wordField? (d : Document) (name : String) : Option Nat := (d.field? name).bind word?

def textOr (d : Document) (name default : String) : String := (d.textField? name).getD default

def wordOr (d : Document) (name : String) (default : Nat) : Nat := (d.wordField? name).getD default

def flagOr (d : Document) (name : String) (default : Bool) : Bool :=
  ((d.field? name).bind bool?).getD default

/-- Decodes a field that must be there. -/
def read? {α : Type} (d : Document) (name : String) (decode : Document → Option α) : Option α :=
  (d.field? name).bind decode

/-- Decodes a field if it is there. -/
def readIf? {α : Type} (d : Document) (name : String) (decode : Document → Option α) :
    Option (Option α) :=
  match d.field? name with
  | some x => (decode x).map some
  | none => some none

/-- Decodes the items of a field, none if it is left out. -/
def readEach? {α : Type} (d : Document) (name : String) (decode : Document → Option α) :
    Option (List α) :=
  match d.field? name with
  | some x => x.items? decode
  | none => some []

end Document
end Valuation
