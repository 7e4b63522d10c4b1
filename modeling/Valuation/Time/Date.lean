import Valuation.Text.Blank

/-!
# Dates

A date of the Gregorian calendar, extended to both sides, counted in days. Its text is
`year-month-day`; a year outside 0 to 9999 has a sign.
-/
namespace Valuation

/-- The date that lies `days` after 1970-01-01. -/
structure Date where
  days : Int
deriving DecidableEq, Ord, Inhabited

namespace Date

def isLeapYear (year : Int) : Bool := year % 4 == 0 && (year % 100 != 0 || year % 400 == 0)

def daysInMonth (year : Int) (month : Nat) : Nat :=
  if month = 2 then if isLeapYear year then 29 else 28
  else if month = 4 ∨ month = 6 ∨ month = 9 ∨ month = 11 then 30
  else 31

/-- The days from 1970-01-01. Years are counted from March, in cycles of 400. -/
def daysOfCivil (year : Int) (month day : Nat) : Int :=
  let y := if month ≤ 2 then year - 1 else year
  let cycle := Int.fdiv y 400
  let yearOfCycle := y - cycle * 400
  let monthFromMarch : Int := if 2 < month then (month : Int) - 3 else month + 9
  let dayOfYear := (153 * monthFromMarch + 2) / 5 + day - 1
  let dayOfCycle := yearOfCycle * 365 + yearOfCycle / 4 - yearOfCycle / 100 + dayOfYear
  cycle * 146097 + dayOfCycle - 719468

/-- The years of supported dates. -/
def firstYear : Int := -262143

def lastYear : Int := 262142

/-- Whether a date lies in a supported year. -/
def isSupported (d : Date) : Bool :=
  daysOfCivil firstYear 1 1 ≤ d.days && d.days ≤ daysOfCivil lastYear 12 31

/-- The date of a year, month and day, if there is one and its year is supported. -/
def ofCivil? (year : Int) (month day : Nat) : Option Date :=
  if firstYear ≤ year ∧ year ≤ lastYear ∧ 1 ≤ month ∧ month ≤ 12 ∧ 1 ≤ day ∧ day ≤ daysInMonth year month then
    some ⟨daysOfCivil year month day⟩
  else none

/-- Year, month and day of a date. -/
def toCivil (d : Date) : Int × Nat × Nat :=
  let z := d.days + 719468
  let cycle := Int.fdiv z 146097
  let dayOfCycle := z - cycle * 146097
  let yearOfCycle := (dayOfCycle - dayOfCycle / 1460 + dayOfCycle / 36524 - dayOfCycle / 146096) / 365
  let dayOfYear := dayOfCycle - (365 * yearOfCycle + yearOfCycle / 4 - yearOfCycle / 100)
  let monthFromMarch := (5 * dayOfYear + 2) / 153
  let day := dayOfYear - (153 * monthFromMarch + 2) / 5 + 1
  let month := if monthFromMarch < 10 then monthFromMarch + 3 else monthFromMarch - 9
  let year := yearOfCycle + cycle * 400
  (if month ≤ 2 then year + 1 else year, month.toNat, day.toNat)

/-! ## Text -/

/-- A number with zeros in front up to a width. -/
def padded (width n : Nat) : String :=
  let s := toString n
  String.ofList (List.replicate (width - s.length) '0') ++ s

def yearText (year : Int) : String :=
  if 0 ≤ year ∧ year ≤ 9999 then padded 4 year.natAbs
  else (if year < 0 then "-" else "+") ++ padded 4 year.natAbs

def display (d : Date) : String :=
  let (year, month, day) := d.toCivil
  yearText year ++ "-" ++ padded 2 month ++ "-" ++ padded 2 day

/-- At least one digit and at most `most`, after blanks: the number and what follows it. -/
def number? (most : Nat) (cs : List Char) : Option (Nat × List Char) :=
  let cs := skipBlanks cs
  let ds := (cs.take most).takeWhile Char.isDigit
  if ds.isEmpty then none
  else some (ds.foldl (fun n c => 10 * n + (c.toNat - '0'.toNat)) 0, cs.drop ds.length)

/-- Four digits at most, or a sign and any number of digits. -/
def year? (cs : List Char) : Option (Int × List Char) :=
  match skipBlanks cs with
  | '-' :: r => match r with
    | c :: _ => if c.isDigit then (number? r.length r).map fun (n, r) => (-(n : Int), r) else none
    | [] => none
  | '+' :: r => match r with
    | c :: _ => if c.isDigit then (number? r.length r).map fun (n, r) => ((n : Int), r) else none
    | [] => none
  | r => (number? 4 r).map fun (n, r) => ((n : Int), r)

/-- A given character after blanks. -/
def mark? (c : Char) (cs : List Char) : Option (List Char) :=
  match skipBlanks cs with
  | d :: r => if d = c then some r else none
  | [] => none

/-- A date at the start of a text, and what follows it. -/
def read? (cs : List Char) : Option (Date × List Char) := do
  let (year, cs) ← year? cs
  let cs ← mark? '-' cs
  let (month, cs) ← number? 2 cs
  let cs ← mark? '-' cs
  let (day, cs) ← number? 2 cs
  let date ← ofCivil? year month day
  return (date, cs)

/-- A date and nothing else; blanks may stand between its parts. -/
def ofText? (text : String) : Option Date := do
  let (date, rest) ← read? text.toList
  if (skipBlanks rest).isEmpty then some date else none

end Date
end Valuation
