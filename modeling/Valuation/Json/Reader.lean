import Valuation.Document.Basic
import Valuation.Binary64.Reader

/-!
# Reading JSON

`Document.ofJsonText?` reads one JSON value with blanks around it. Three things are well formed but
have no value: a number beyond every float, a string with half of a surrogate pair, and a list or
record that is nested more than 127 deep.
-/
namespace Valuation
namespace Json.Reader

def skipSpace (cs : List Char) : List Char :=
  cs.dropWhile fun c => c = ' ' || c = '\n' || c = '\t' || c = '\r'

/-! ## Strings -/

/-- The character of a backslash and a letter. -/
def simpleEscape? (c : Char) : Option Char :=
  if c = '"' ∨ c = '\\' ∨ c = '/' then some c
  else if c = 'b' then some '\x08'
  else if c = 'f' then some '\x0c'
  else if c = 'n' then some '\n'
  else if c = 'r' then some '\r'
  else if c = 't' then some '\t'
  else none

/-- The characters up to the closing quote, in reverse, and what follows it. Half of a surrogate pair
leaves no text (`ok` turns false). -/
def stringBody : (fuel : Nat) → (ok : Bool) → (done : List Char) → List Char →
    Option (Option String × List Char)
  | 0, _, _, _ => none
  | fuel + 1, ok, done, cs =>
    match cs with
    | [] => none
    | '"' :: r => some (if ok then some (String.ofList done.reverse) else none, r)
    | '\\' :: 'u' :: a :: b :: c :: d :: r =>
      match hexNumber? [a, b, c, d] with
      | none => none
      | some n =>
        if 0xD800 ≤ n ∧ n < 0xDC00 then
          match r with
          | '\\' :: 'u' :: e :: f :: g :: h :: r' =>
            match hexNumber? [e, f, g, h] with
            | none => none
            | some m =>
              if 0xDC00 ≤ m ∧ m < 0xE000 then
                let ch := Char.ofNat (0x10000 + (n - 0xD800) * 0x400 + (m - 0xDC00))
                stringBody fuel ok (ch :: done) r'
              else stringBody fuel false done r
          | r => stringBody fuel false done r
        else if 0xDC00 ≤ n ∧ n < 0xE000 then stringBody fuel false done r
        else stringBody fuel ok (Char.ofNat n :: done) r
    | '\\' :: e :: r =>
      match simpleEscape? e with
      | some c => stringBody fuel ok (c :: done) r
      | none => none
    | c :: r => if c.toNat < 0x20 then none else stringBody fuel ok (c :: done) r

/-- A string after its opening quote. -/
def string? (cs : List Char) : Option (Option String × List Char) :=
  stringBody (cs.length + 1) true [] cs

/-! ## Numbers -/

/-- Digits appended to a number while it stays below `2 ^ 64`, and how many are left over. -/
def appendDigits (n : Nat) : List Char → Nat × Nat
  | [] => (n, 0)
  | c :: cs =>
    let next := 10 * n + (c.toNat - '0'.toNat)
    if next < Nat.pow 2 64 then appendDigits next cs else (n, cs.length + 1)

/-- A number written as a fraction or with an exponent. -/
def floatDocument (negative : Bool) (significand : Nat) (exponent : Int) : Document :=
  match Binary64.ofSignificand negative significand exponent with
  | some x => .float x
  | none => .invalid

/-- A number without point and exponent: whole if it fits 64 bits, else a float. Minus zero is a
float. -/
def wholeDocument (negative : Bool) (significand leftOver : Nat) : Document :=
  if leftOver ≠ 0 then floatDocument negative significand leftOver
  else if !negative then .int significand
  else if significand = 0 ∨ Nat.pow 2 63 < significand then .float (-(Binary64.ofNat significand))
  else .int (-(significand : Int))

/-- An exponent of ten, once its letter has been read: applied to a number, and the rest. An exponent
of 2^31 and more makes every number zero or too large. -/
def exponent? (negative : Bool) (significand : Nat) (start : Int) (cs : List Char) :
    Option (Document × List Char) :=
  let (down, r) := Binary64.splitSign cs
  let ds := r.takeWhile Char.isDigit
  let rest := r.dropWhile Char.isDigit
  if ds.isEmpty then none
  else
    let n := Binary64.digitsValue 0 ds
    if n < Nat.pow 2 31 then
      some (floatDocument negative significand (if down then start - n else start + n), rest)
    else if significand ≠ 0 ∧ !down then some (.invalid, rest)
    else some (.float (Binary64.ofBits negative 0), rest)

/-- A number after its sign. A leading zero stands alone. -/
def number? (negative : Bool) (cs : List Char) : Option (Document × List Char) :=
  let whole := cs.takeWhile Char.isDigit
  let rest := cs.dropWhile Char.isDigit
  if whole.isEmpty ∨ (1 < whole.length ∧ whole.head? = some '0') then none
  else
    let (n, leftOver) := appendDigits 0 whole
    match rest with
    | '.' :: r =>
      let ds := r.takeWhile Char.isDigit
      let rest := r.dropWhile Char.isDigit
      if ds.isEmpty then none
      else
        let (m, unused) := appendDigits n ds
        let start : Int := (leftOver : Int) - (ds.length - unused : Nat)
        match rest with
        | c :: r => if c = 'e' ∨ c = 'E' then exponent? negative m start r
          else some (floatDocument negative m start, c :: r)
        | [] => some (floatDocument negative m start, [])
    | c :: r => if c = 'e' ∨ c = 'E' then exponent? negative n leftOver r
      else some (wholeDocument negative n leftOver, c :: r)
    | [] => some (wholeDocument negative n leftOver, [])

/-! ## Values -/

/-- Removes a word from the front of a text. -/
def word? (word : List Char) (cs : List Char) : Option (List Char) :=
  if word.isPrefixOf cs then some (cs.drop word.length) else none

/-- How deep lists and records may be nested. -/
def maxDepth : Nat := 127

mutual

/-- A value at the start of a text that does not begin with a blank. Every call uses up fuel; twice
the length of the text is enough. -/
def value? : (fuel depth : Nat) → List Char → Option (Document × List Char)
  | 0, _, _ => none
  | fuel + 1, depth, cs =>
    match cs with
    | 'n' :: _ => (word? ['n', 'u', 'l', 'l'] cs).map fun r => (.null, r)
    | 't' :: _ => (word? ['t', 'r', 'u', 'e'] cs).map fun r => (.bool true, r)
    | 'f' :: _ => (word? ['f', 'a', 'l', 's', 'e'] cs).map fun r => (.bool false, r)
    | '"' :: r =>
      match string? r with
      | some (some s, r) => some (.text s, r)
      | some (none, r) => some (.invalid, r)
      | none => none
    | '[' :: r =>
      let inner := depth + 1
      match skipSpace r with
      | ']' :: r => some (if maxDepth < inner then .invalid else .list [], r)
      | r =>
        match items? fuel inner r with
        | some (ds, r) => some (if maxDepth < inner then .invalid else .list ds, r)
        | none => none
    | '\x7b' :: r =>
      let inner := depth + 1
      match skipSpace r with
      | '\x7d' :: r => some (if maxDepth < inner then .invalid else .record [], r)
      | r =>
        match fields? fuel inner r with
        | some (some fs, r) => some (if maxDepth < inner then .invalid else .record fs, r)
        | some (none, r) => some (.invalid, r)
        | none => none
    | '-' :: r => number? true r
    | cs => number? false cs

/-- The items of a list up to its closing bracket. -/
def items? : (fuel depth : Nat) → List Char → Option (List Document × List Char)
  | 0, _, _ => none
  | fuel + 1, depth, cs =>
    match value? fuel depth (skipSpace cs) with
    | none => none
    | some (d, r) =>
      match skipSpace r with
      | ',' :: r => (items? fuel depth r).map fun (ds, r) => (d :: ds, r)
      | ']' :: r => some ([d], r)
      | _ => none

/-- The fields of a record up to its closing brace; none of them count if a name has no text. -/
def fields? : (fuel depth : Nat) → List Char → Option (Option (List (String × Document)) × List Char)
  | 0, _, _ => none
  | fuel + 1, depth, cs =>
    match skipSpace cs with
    | '"' :: r =>
      match string? r with
      | none => none
      | some (name, r) =>
        match skipSpace r with
        | ':' :: r =>
          match value? fuel depth (skipSpace r) with
          | none => none
          | some (d, r) =>
            match skipSpace r with
            | ',' :: r =>
              (fields? fuel depth r).map fun (fs, r) =>
                ((do let k ← name; let fs ← fs; return (k, d) :: fs), r)
            | '\x7d' :: r => some (name.map fun k => [(k, d)], r)
            | _ => none
        | _ => none
    | _ => none

end

end Json.Reader

/-- The document of a JSON text: one value with blanks around it. -/
def Document.ofJsonText? (text : String) : Option Document :=
  let cs := text.toList
  match Json.Reader.value? (2 * cs.length + 2) 0 (Json.Reader.skipSpace cs) with
  | some (d, r) => if (Json.Reader.skipSpace r).isEmpty then some d else none
  | none => none

end Valuation
