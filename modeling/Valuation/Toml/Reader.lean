import Valuation.Toml.Number
import Valuation.Toml.Text
import Valuation.Toml.Tree

/-!
# Reading TOML

`Document.ofTomlText?` reads a TOML text, version 1.0, as a record. Lists and inline tables may be
nested at most 79 deep.
-/
namespace Valuation
namespace Toml

/-! ## Values -/

/-- Removes a word from the front of a text. -/
def word? (word : String) (cs : List Char) : Option (List Char) :=
  if word.toList.isPrefixOf cs then some (cs.drop word.length) else none

/-- How deep lists and inline tables may be nested. -/
def maxDepth : Nat := 79

mutual

/-- A value at the start of a text. Every call uses up fuel; twice the length of the text is
enough. -/
def value? : (fuel depth : Nat) → List Char → Option (Document × List Char)
  | 0, _, _ => none
  | fuel + 1, depth, cs =>
    match cs with
    | [] => none
    | '[' :: r =>
      if maxDepth ≤ depth then none
      else (items? fuel (depth + 1) r).map fun (ds, r) => (.list ds, r)
    | '\x7b' :: r =>
      if maxDepth ≤ depth then none
      else
        match skipSpaces r with
        | '\x7d' :: r => some (.record [], r)
        | r => (fields? fuel (depth + 1) [] r).map fun (es, r) => (.record (Entries.toFields es), r)
    | 't' :: _ => (word? "true" cs).map fun r => (.bool true, r)
    | 'f' :: _ => (word? "false" cs).map fun r => (.bool false, r)
    | c :: _ =>
      if c = '"' ∨ c = '\x27' then (string? cs).map fun (s, r) => (.text s, r)
      else
        match moment? cs with
        | some m => some m
        | none => number? cs

/-- The items of a list up to its closing bracket; a comma may stand after the last one. -/
def items? : (fuel depth : Nat) → List Char → Option (List Document × List Char)
  | 0, _, _ => none
  | fuel + 1, depth, cs =>
    match skipLines false cs with
    | ']' :: r => some ([], r)
    | cs =>
      match value? fuel depth cs with
      | none => none
      | some (d, r) =>
        match skipLines false r with
        | ',' :: r => (items? fuel depth r).map fun (ds, r) => (d :: ds, r)
        | ']' :: r => some ([d], r)
        | _ => none

/-- The entries of an inline table up to its closing brace, all on one line but for what lists and
strings hold; no comma after the last one. -/
def fields? : (fuel depth : Nat) → Entries → List Char → Option (Entries × List Char)
  | 0, _, _, _ => none
  | fuel + 1, depth, entries, cs =>
    match key? cs with
    | some (names, '=' :: r) =>
      match value? fuel depth (skipSpaces r) with
      | none => none
      | some (d, r) =>
        match entries.set? d names with
        | none => none
        | some entries =>
          match skipSpaces r with
          | ',' :: r => fields? fuel depth entries r
          | '\x7d' :: r => some (entries, r)
          | _ => none
    | _ => none

end

/-! ## Lines -/

/-- The header of a line after its opening bracket or brackets. -/
def header? (close : String) (cs : List Char) : Option (List String × List Char) := do
  let (names, r) ← key? cs
  return (names, ← endLine? (← word? close r))

/-- A key, its value and the end of the line. -/
def setting? (cs : List Char) : Option (List String × Document × List Char) := do
  let (names, r) ← key? cs
  let (d, r) ← value? (2 * r.length + 2) 0 (skipSpaces (← mark? '=' r))
  return (names, d, ← endLine? r)

/-- Adds the lines of a text to a tree; `header` leads to the table that is being filled. -/
def lines? : (fuel : Nat) → (header : List String) → Entries → List Char → Option Entries
  | 0, _, _, _ => none
  | fuel + 1, header, tree, cs =>
    match skipBlankLines cs with
    | [] => some tree
    | '#' :: r => do lines? fuel header tree (← endLine? ('#' :: r))
    | '[' :: '[' :: r => do
      let (names, r) ← header? "]]" r
      lines? fuel names (← tree.openElement? names) r
    | '[' :: r => do
      let (names, r) ← header? "]" r
      lines? fuel names (← tree.openTable? names) r
    | cs => do
      let (names, d, r) ← setting? cs
      lines? fuel header (← tree.change? (Entries.set? d names) header) r

end Toml

/-- The document of a TOML text; a byte order mark in front does not count. -/
def Document.ofTomlText? (text : String) : Option Document :=
  let cs := match text.toList with
    | '\ufeff' :: r => r
    | cs => cs
  (Toml.lines? (cs.length + 1) [] [] cs).map fun tree => .record (Toml.Entries.toFields tree)

end Valuation
