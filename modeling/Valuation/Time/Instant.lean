import Valuation.Time.Date

/-!
# Instants

A moment in universal time. Its text is a date, `T`, a time of day with as few of 0, 3, 6 or 9
decimals as suffice, and the offset, `+00:00` (`display`) or `Z` (`zulu`). Texts with any offset are
read. During a leap second the second is 59 and the nanoseconds run on beyond a thousand million.
-/
namespace Valuation

structure Instant where
  /-- Seconds since the start of 1970. -/
  seconds : Int
  nanos : Nat
deriving DecidableEq, Inhabited

/-- A length of time. -/
structure Duration where
  seconds : Nat
  nanos : Nat
deriving DecidableEq, Inhabited

def Duration.toNanos (d : Duration) : Nat := d.seconds * 1000000000 + d.nanos

def Duration.ofMillis (n : Nat) : Duration := ⟨n / 1000, n % 1000 * 1000000⟩

namespace Instant

def second : Nat := 1000000000

/-- The time from an earlier instant to a later one. -/
def since (later earlier : Instant) : Duration :=
  let total := (later.seconds - earlier.seconds) * second + later.nanos - earlier.nanos
  ⟨total.toNat / second, total.toNat % second⟩

/-- The time so many nanoseconds later. -/
def plusNanos (t : Instant) (nanos : Nat) : Instant :=
  let total := t.nanos + nanos
  ⟨t.seconds + total / second, total % second⟩

def date (t : Instant) : Date := ⟨Int.fdiv t.seconds 86400⟩

/-! ## Text -/

/-- As few of 0, 3, 6 or 9 decimals as suffice. -/
def fraction (nanos : Nat) : String :=
  if nanos = 0 then ""
  else if nanos % 1000000 = 0 then "." ++ Date.padded 3 (nanos / 1000000)
  else if nanos % 1000 = 0 then "." ++ Date.padded 6 (nanos / 1000)
  else "." ++ Date.padded 9 nanos

/-- Date and time of day without an offset. -/
def wallText (t : Instant) : String :=
  let ofDay := (Int.fmod t.seconds 86400).toNat
  let leap := if second ≤ t.nanos then 1 else 0
  t.date.display ++ "T" ++ Date.padded 2 (ofDay / 3600) ++ ":" ++ Date.padded 2 (ofDay / 60 % 60) ++ ":"
    ++ Date.padded 2 (ofDay % 60 + leap) ++ fraction (t.nanos - leap * second)

def display (t : Instant) : String := t.wallText ++ "+00:00"

def zulu (t : Instant) : String := t.wallText ++ "Z"

/-! ## Reading -/

/-- Up to nine decimals count as nanoseconds, further ones are skipped. -/
def readFraction (cs : List Char) : Option (Nat × List Char) :=
  match cs with
  | '.' :: r =>
    let ds := (r.take 9).takeWhile Char.isDigit
    if ds.isEmpty then none
    else
      let n := ds.foldl (fun n c => 10 * n + (c.toNat - '0'.toNat)) 0
      some (n * Nat.pow 10 (9 - ds.length), (r.drop ds.length).dropWhile Char.isDigit)
  | r => some (0, r)

/-- Seconds of the day and nanoseconds; the second 60 is a leap second. -/
def readTime (cs : List Char) : Option (Nat × Nat × List Char) := do
  let (hour, cs) ← Date.number? 2 cs
  let cs ← Date.mark? ':' cs
  let (minute, cs) ← Date.number? 2 cs
  let cs ← Date.mark? ':' cs
  let (sec, cs) ← Date.number? 2 cs
  let (nanos, cs) ← readFraction cs
  if 24 ≤ hour ∨ 60 ≤ minute ∨ 60 < sec then none
  else if sec = 60 then some (hour * 3600 + minute * 60 + 59, second + nanos, cs)
  else some (hour * 3600 + minute * 60 + sec, nanos, cs)

/-- Two digits. -/
def twoDigits : List Char → Option (Nat × List Char)
  | a :: b :: r =>
    if a.isDigit && b.isDigit then
      some ((a.toNat - '0'.toNat) * 10 + (b.toNat - '0'.toNat), r)
    else none
  | _ => none

/-- Hours and minutes of an offset in seconds, with colons or blanks between them. -/
def readHoursMinutes (cs : List Char) : Option (Nat × List Char) := do
  let (hours, cs) ← twoDigits cs
  let (minutes, cs) ← twoDigits (cs.dropWhile fun c => c = ':' || isBlank c)
  if 60 ≤ minutes then none
  else if 24 ≤ hours then none
  else some (hours * 3600 + minutes * 60, cs)

/-- The offset from universal time: `Z`, `UTC` in any case, or a sign with hours and minutes. -/
def readOffset (cs : List Char) : Option (Int × List Char) :=
  match skipBlanks cs with
  | u :: t :: c :: r =>
    if String.ofList [u.toUpper, t.toUpper, c.toUpper] = "UTC" then some (0, r) else sign (u :: t :: c :: r)
  | r => sign r
where
  sign : List Char → Option (Int × List Char)
    | c :: r =>
      if c = 'Z' ∨ c = 'z' then some (0, r)
      else if c = '+' then (readHoursMinutes r).map fun (n, r) => ((n : Int), r)
      else if c = '-' ∨ c = '\u2212' then (readHoursMinutes r).map fun (n, r) => (-(n : Int), r)
      else none
    | [] => none

/-- A date, `T` or a space, a time of day and an offset; blanks may stand between the parts. Both the
date written and the date in universal time have to be supported. -/
def ofText? (text : String) : Option Instant := do
  let (date, cs) ← Date.read? text.toList
  let cs ← match cs with
    | c :: r => if c = 'T' ∨ c = 't' ∨ c = ' ' then some r else none
    | [] => none
  let (ofDay, nanos, cs) ← readTime cs
  let (offset, cs) ← readOffset cs
  let t : Instant := ⟨date.days * 86400 + ofDay - offset, nanos⟩
  if (skipBlanks cs).isEmpty && t.date.isSupported then some t else none

end Instant
end Valuation
