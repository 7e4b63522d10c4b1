import Valuation.Text.Hexadecimal

/-!
# Lines and strings of TOML

What the lines of a TOML text are made of: blanks, comments, line ends, and strings. A string stands
between single or double quotes, one on each side for a string on one line and three for one that
runs over several. Only strings in double quotes have escapes.
-/
namespace Valuation.Toml

/-! ## Between the words -/

def isSpace (c : Char) : Bool := c = ' ' || c = '\t'

/-- Tabs and all characters but controls; comments and strings are made of these. -/
def isPrintable (c : Char) : Bool := c = '\t' || (0x20 ≤ c.toNat && c.toNat != 0x7f)

def skipSpaces (cs : List Char) : List Char := cs.dropWhile isSpace

/-- Removes the end of a line. -/
def newline? : List Char → Option (List Char)
  | '\n' :: r => some r
  | '\r' :: '\n' :: r => some r
  | _ => none

def skipComment : List Char → List Char
  | '#' :: r => r.dropWhile isPrintable
  | cs => cs

/-- Removes what may follow the last word of a line: spaces, a comment and the end of the line or of
the text. -/
def endLine? (cs : List Char) : Option (List Char) :=
  match skipComment (skipSpaces cs) with
  | [] => some []
  | cs => newline? cs

/-- Removes spaces, comments and line ends. -/
def skipLines (inComment : Bool) : List Char → List Char
  | [] => []
  | '\n' :: r => skipLines false r
  | '\r' :: '\n' :: r => skipLines false r
  | c :: r =>
    if inComment then if isPrintable c then skipLines true r else c :: r
    else if isSpace c then skipLines false r
    else if c = '#' then skipLines true r
    else c :: r

/-- Removes spaces and line ends. -/
def skipBlankLines : List Char → List Char
  | [] => []
  | '\r' :: '\n' :: r => skipBlankLines r
  | c :: r => if c = '\n' ∨ isSpace c then skipBlankLines r else c :: r

/-! ## Escapes -/

/-- The character with a code point of so many hexadecimal digits. -/
def codePoint? (digits : Nat) (cs : List Char) : Option (Char × List Char) := do
  if cs.length < digits then none
  let n ← hexNumber? (cs.take digits)
  if n.isValidChar then some (Char.ofNat n, cs.drop digits) else none

/-- The character of an escape, after its backslash. -/
def escape? : List Char → Option (Char × List Char)
  | [] => none
  | c :: r =>
    if c = 'u' then codePoint? 4 r
    else if c = 'U' then codePoint? 8 r
    else if c = '"' ∨ c = '\\' then some (c, r)
    else if c = 'b' then some ('\x08', r)
    else if c = 't' then some ('\t', r)
    else if c = 'n' then some ('\n', r)
    else if c = 'f' then some ('\x0c', r)
    else if c = 'r' then some ('\r', r)
    else none

/-- A backslash at the end of a line removes the end of the line and all blanks after it. -/
def joinLines? (cs : List Char) : Option (List Char) := (newline? (skipSpaces cs)).map skipBlankLines

/-! ## Strings -/

/-- How a string is written. -/
structure Quoting where
  mark : Char
  escapes : Bool
  /-- Whether three marks stand on each side and lines may end inside. -/
  lines : Bool

/-- The end of a string that begins with so many marks, the first being read already: the marks that
still belong to the string, and what follows it. Of five marks the last three end a string of
several lines. -/
def Quoting.close? (q : Quoting) (cs : List Char) : Option (List Char × List Char) :=
  if !q.lines then some ([], cs)
  else
    let marks := (cs.take 4).takeWhile (· = q.mark)
    if marks.length < 2 then none else some (marks.drop 2, cs.drop marks.length)

/-- The string of the characters already read, in reverse, and of those up to the end. -/
def Quoting.body? (q : Quoting) : (fuel : Nat) → (done : List Char) → List Char →
    Option (String × List Char)
  | 0, _, _ => none
  | fuel + 1, done, cs =>
    match cs with
    | [] => none
    | c :: r =>
      if c = q.mark then
        match q.close? r with
        | some (marks, r) => some (String.ofList (done.reverse ++ marks), r)
        | none => q.body? fuel (c :: done) r
      else if q.escapes ∧ c = '\\' then
        match if q.lines then joinLines? r else none with
        | some r => q.body? fuel done r
        | none =>
          match escape? r with
          | some (c, r) => q.body? fuel (c :: done) r
          | none => none
      else
        match if q.lines then newline? (c :: r) else none with
        | some r => q.body? fuel ('\n' :: done) r
        | none => if isPrintable c then q.body? fuel (c :: done) r else none

/-- A string on one line. -/
def lineString? : List Char → Option (String × List Char)
  | c :: r =>
    if c = '"' ∨ c = '\x27' then Quoting.body? ⟨c, c = '"', false⟩ (r.length + 1) [] r else none
  | [] => none

/-- A string on one line or several; a line end right after the opening marks does not count. -/
def string? (cs : List Char) : Option (String × List Char) :=
  match cs with
  | a :: b :: c :: r =>
    if a = b ∧ b = c ∧ (a = '"' ∨ a = '\x27') then
      let r := (newline? r).getD r
      Quoting.body? ⟨a, a = '"', true⟩ (r.length + 1) [] r
    else lineString? cs
  | cs => lineString? cs

/-! ## Keys -/

def isBare (c : Char) : Bool := c.isAlphanum || c = '-' || c = '_'

/-- One name of a key, bare or as a string. -/
def name? (cs : List Char) : Option (String × List Char) :=
  match cs.takeWhile isBare with
  | [] => lineString? cs
  | name => some (String.ofList name, cs.dropWhile isBare)

/-- Names with points between them. -/
def names? : (fuel : Nat) → List Char → Option (List String × List Char)
  | 0, _ => none
  | fuel + 1, cs => do
    let (name, r) ← name? (skipSpaces cs)
    match skipSpaces r with
    | '.' :: r =>
      let (names, r) ← names? fuel r
      return (name :: names, r)
    | r => return ([name], r)

/-- A key must have fewer names than this. -/
def maxNames : Nat := 80

/-- The names of a key, with spaces around them. -/
def key? (cs : List Char) : Option (List String × List Char) := do
  let (names, r) ← names? (cs.length + 1) cs
  if names.length < maxNames then some (names, r) else none

end Valuation.Toml
