import Valuation.Binary64.Reader
import Valuation.Document.Basic
import Valuation.Text.Hexadecimal
import Valuation.Time.Instant

/-!
# Numbers and times of TOML

Whole numbers have 64 bits with sign and are written in base 2, 8, 10 or 16; an underscore may stand
between two digits. A time has a document of its own shape, a record with one field.
-/
namespace Valuation.Toml

/-! ## Numbers -/

/-- Digits, with single underscores between them: the digits alone, and what follows. -/
def digits? (isDigit : Char → Bool) : List Char → Option (List Char × List Char)
  | [] => none
  | [c] => if isDigit c then some ([c], []) else none
  | c :: d :: r =>
    if !isDigit c then none
    else if d = '_' then (digits? isDigit r).map fun (ds, rest) => (c :: ds, rest)
    else if isDigit d then (digits? isDigit (d :: r)).map fun (ds, rest) => (c :: ds, rest)
    else some ([c], d :: r)

/-- A whole number if it fits 64 bits. -/
def wholeDocument? (n : Int) : Option Document :=
  if -(Nat.pow 2 63 : Int) ≤ n ∧ n < Nat.pow 2 63 then some (.int n) else none

/-- A whole number of a base up to 16, after the mark of the base. -/
def based? (base : Nat) (cs : List Char) : Option (Document × List Char) := do
  let value (c : Char) : Option Nat := (hexValue? c).filter (· < base)
  let (ds, rest) ← digits? (fun c => (value c).isSome) cs
  let n := (ds.filterMap value).foldl (fun n d => base * n + d) 0
  return (← wholeDocument? n, rest)

/-- The exponent of ten after its letter, zero if there is none. -/
def exponent? : List Char → Option (Int × List Char)
  | [] => some (0, [])
  | c :: r =>
    if c = 'e' ∨ c = 'E' then do
      let (down, r) := Binary64.splitSign r
      let (ds, rest) ← digits? Char.isDigit r
      let n : Int := Binary64.digitsValue 0 ds
      return (if down then -n else n, rest)
    else some (0, c :: r)

/-- A number in base ten after its sign. A leading zero stands alone. With a point or an exponent it
is the nearest float, which may be minus infinity but not plus infinity. -/
def decimal? (negative : Bool) (cs : List Char) : Option (Document × List Char) := do
  let (whole, r) ← digits? Char.isDigit cs
  if 1 < whole.length ∧ whole.head? = some '0' then none
  let (fraction, r) ← match r with
    | '.' :: r => digits? Char.isDigit r
    | r => some ([], r)
  let (exponent, rest) ← exponent? r
  let n := Binary64.digitsValue (Binary64.digitsValue 0 whole) fraction
  if fraction.isEmpty ∧ rest.length = r.length then
    return (← wholeDocument? (if negative then -(n : Int) else n), rest)
  let x := Binary64.ofDecimal negative n (exponent - fraction.length)
  if x.isInf ∧ !negative then none else some (.float x, rest)

/-- A number. -/
def number? (cs : List Char) : Option (Document × List Char) :=
  match cs with
  | '0' :: 'x' :: r => based? 16 r
  | '0' :: 'o' :: r => based? 8 r
  | '0' :: 'b' :: r => based? 2 r
  | cs =>
    let (negative, r) := Binary64.splitSign cs
    match r with
    | 'i' :: 'n' :: 'f' :: r => some (.float (Binary64.infinity negative), r)
    | 'n' :: 'a' :: 'n' :: r => some (.float (0 / 0), r)
    | r => decimal? negative r

/-! ## Times -/

/-- Two digits within bounds. -/
def within? (least most : Nat) (cs : List Char) : Option (Nat × List Char) :=
  (Instant.twoDigits cs).filter fun (n, _) => least ≤ n ∧ n ≤ most

def mark? (c : Char) : List Char → Option (List Char)
  | d :: r => if d = c then some r else none
  | [] => none

/-- What follows a date. -/
def afterDate? (cs : List Char) : Option (List Char) := do
  let (century, r) ← Instant.twoDigits cs
  let (year, r) ← Instant.twoDigits r
  let (month, r) ← within? 1 12 (← mark? '-' r)
  let (_, r) ← within? 1 (Date.daysInMonth (100 * century + year : Nat) month) (← mark? '-' r)
  return r

/-- What follows a time of day. -/
def afterTime? (cs : List Char) : Option (List Char) := do
  let (_, r) ← within? 0 23 cs
  let (_, r) ← within? 0 59 (← mark? ':' r)
  let (_, r) ← within? 0 60 (← mark? ':' r)
  match r with
  | '.' :: d :: r => return if d.isDigit then r.dropWhile Char.isDigit else '.' :: d :: r
  | r => return r

/-- What follows an offset from universal time, if there is one. -/
def afterOffset? : List Char → Option (List Char)
  | [] => some []
  | c :: r =>
    if c = 'Z' ∨ c = 'z' then some r
    else if c = '+' ∨ c = '-' then do
      let (_, r) ← within? 0 23 r
      let (_, r) ← within? 0 59 (← mark? ':' r)
      return r
    else some (c :: r)

/-- What follows a date, a time of day, or both, in which case an offset may stand at the end. -/
def afterMoment? (cs : List Char) : Option (List Char) :=
  match afterDate? cs with
  | none => afterTime? cs
  | some r =>
    match r with
    | c :: t =>
      if c = 'T' ∨ c = 't' ∨ c = ' ' then
        match afterTime? t with
        | some t => afterOffset? t
        | none => some r
      else some r
    | [] => some r

/-- A time, as the text that writes it. -/
def moment? (cs : List Char) : Option (Document × List Char) :=
  (afterMoment? cs).map fun r =>
    (.record [("moment", .text (String.ofList (cs.take (cs.length - r.length))))], r)

end Valuation.Toml
