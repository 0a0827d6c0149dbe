/-!
# Scanning TOML

A scan takes characters off the front of the text or fails; a failed scan takes nothing. Next to it stand
the character classes of TOML: no control character but the tab may appear anywhere, and a line ends with
a line feed that a carriage return may precede.
-/

namespace Surmise.Toml

abbrev Scan := StateT (List Char) Option

namespace Scan

def fail {α : Type} : Scan α := fun _ => none

def peek : Scan (Option Char) := return (← get).head?

def next : Scan Char := fun
  | c :: rest => some (c, rest)
  | [] => none

/-- What the scan gives, or nothing where it fails. -/
def attempt {α : Type} (scan : Scan α) : Scan (Option α) := fun text =>
  match scan text with
  | some (a, rest) => some (some a, rest)
  | none => some (none, text)

/-- Takes these characters if the text starts with them. -/
def accept (start : String) : Scan Bool := fun text =>
  if start.toList.isPrefixOf text then some (true, text.drop start.toList.length) else some (false, text)

/-- Takes the first of these that the text starts with. -/
def acceptAny : List String → Scan Bool
  | [] => return false
  | start :: others => do
    if ← accept start then return true
    acceptAny others

def expect (start : String) : Scan Unit := do
  unless ← accept start do fail

def takeWhile (p : Char → Bool) : Scan (List Char) := fun text =>
  some (text.takeWhile p, text.dropWhile p)

/-- The results of a scan until it has none; `fuel` bounds their number. -/
def collectWithin {α : Type} (scan : Scan (Option α)) : Nat → Scan (List α)
  | 0 => fail
  | fuel + 1 => do
    match ← scan with
    | some a => return a :: (← collectWithin scan fuel)
    | none => return []

/-- The results of a scan until it has none. Each must take at least one character. -/
def collect {α : Type} (scan : Scan (Option α)) : Scan (List α) := fun text =>
  collectWithin scan (text.length + 1) text

end Scan

/-! ## Character classes -/

def isBlankChar (c : Char) : Bool := c == ' ' || c == '\t'

/-- What may stand in a comment and in a literal string. -/
def isPlain (c : Char) : Bool := c == '\t' || (' ' ≤ c && c != '\x7f')

def isDecimal (c : Char) : Bool := '0' ≤ c && c ≤ '9'

def isBareKey (c : Char) : Bool := c.isAlphanum || c == '_' || c == '-'

/-! ## Blanks, comments and line ends -/

def blanks : Scan Unit := do
  discard (Scan.takeWhile isBlankChar)

def newline : Scan Bool := Scan.acceptAny ["\n", "\r\n"]

def comment : Scan Unit := do
  if ← Scan.accept "#" then discard (Scan.takeWhile isPlain)

/-- The end of a line, with the blanks and the comment in front of it. -/
def lineEnd : Scan Unit := do
  blanks
  comment
  unless ← newline do
    if (← Scan.peek).isSome then Scan.fail

/-- Blanks, comments and line ends between the items of an array. -/
def gap : Scan Unit := do
  discard <| Scan.collect do
    let some c ← Scan.peek | return none
    if isBlankChar c then
      blanks
      return some ()
    if c == '#' || c == '\n' || c == '\r' then
      comment
      unless ← newline do Scan.fail
      return some ()
    return none

end Surmise.Toml
