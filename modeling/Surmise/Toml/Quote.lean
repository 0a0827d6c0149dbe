import Surmise.Toml.Scan

/-!
# Strings of TOML

A basic string has escapes, a literal string has none, and either may span lines between tripled quotes.
In a string over several lines the line end behind the opening quotes is dropped, every other one counts
as a line feed, and up to two quotes may stand in front of the closing ones.
-/

namespace Surmise.Toml

def hexValue? (c : Char) : Option Nat :=
  if isDecimal c then some (c.toNat - '0'.toNat)
  else if 'a' ≤ c && c ≤ 'f' then some (c.toNat - 'a'.toNat + 10)
  else if 'A' ≤ c && c ≤ 'F' then some (c.toNat - 'A'.toNat + 10)
  else none

/-- The number that this many hexadecimal digits write. -/
def hexNumber : Nat → Nat → Scan Nat
  | 0, value => return value
  | digits + 1, value => do
    match hexValue? (← Scan.next) with
    | some digit => hexNumber digits (value * 16 + digit)
    | none => Scan.fail

def numberedChar (digits : Nat) : Scan Char := do
  let code ← hexNumber digits 0
  if code.isValidChar then return Char.ofNat code else Scan.fail

/-- The character of an escape, behind its backslash. -/
def escaped : Scan Char := do
  match ← Scan.next with
  | 'b' => return '\x08'
  | 't' => return '\t'
  | 'n' => return '\n'
  | 'f' => return '\x0c'
  | 'r' => return '\r'
  | '"' => return '"'
  | '\\' => return '\\'
  | 'u' => numberedChar 4
  | 'U' => numberedChar 8
  | _ => Scan.fail

/-- A string on one line, behind its opening quote. -/
def lineString (quote : Char) : Scan String := do
  let chars ← Scan.collect do
    let c ← Scan.next
    if c == quote then return none
    if c == '\\' && quote == '"' then return some (← escaped)
    if isPlain c then return some c
    Scan.fail
  return String.ofList chars

/-- A line end that a backslash takes out of the string, with the blanks and line ends around it. -/
def foldedLine : Scan Bool := do
  let found ← Scan.attempt do
    blanks
    unless ← newline do Scan.fail
    discard <| Scan.collect do
      let some c ← Scan.peek | return none
      if isBlankChar c then
        blanks
        return some ()
      return if ← newline then some () else none
  return found.isSome

/-- A piece of a string over several lines, as the characters it stands for. -/
def blockPiece (quote : Char) : Scan (Option (List Char)) := do
  let quotes := (← get).takeWhile (· == quote)
  if 3 ≤ quotes.length then return none
  if !quotes.isEmpty then
    discard (Scan.takeWhile (· == quote))
    return some quotes
  if ← newline then return some ['\n']
  let c ← Scan.next
  if c == '\\' && quote == '"' then
    if ← foldedLine then return some []
    return some [← escaped]
  if isPlain c then return some [c]
  Scan.fail

/-- A string over several lines, behind its opening quotes. -/
def blockString (quote : Char) : Scan String := do
  discard newline
  let pieces ← Scan.collect (blockPiece quote)
  let closing ← Scan.takeWhile (· == quote)
  if 5 < closing.length then Scan.fail
  return String.ofList (pieces.flatten ++ closing.drop 3)

/-- A string that may span lines, if the text starts with a quote. -/
def quoted? : Scan (Option String) := do
  if ← Scan.accept "\"\"\"" then return some (← blockString '"')
  if ← Scan.accept "'''" then return some (← blockString '\'')
  if ← Scan.accept "\"" then return some (← lineString '"')
  if ← Scan.accept "'" then return some (← lineString '\'')
  return none

/-! ## Keys -/

/-- How many parts a key may have, and how deep values may be nested. -/
def maxDepth : Nat := 79

def simpleKey : Scan String := do
  if ← Scan.accept "\"" then return ← lineString '"'
  if ← Scan.accept "'" then return ← lineString '\''
  match ← Scan.takeWhile isBareKey with
  | [] => Scan.fail
  | chars => return String.ofList chars

def spacedKey : Scan String := do
  blanks
  let key ← simpleKey
  blanks
  return key

/-- A key whose parts are divided by points: the tables it leads through, and its last part. -/
def dottedKey : Scan (List String × String) := do
  let first ← spacedKey
  let rest ← Scan.collect do
    if ← Scan.accept "." then return some (← spacedKey)
    return none
  let parts := first :: rest
  if maxDepth < parts.length then Scan.fail
  return (parts.dropLast, parts.getLast (List.cons_ne_nil first rest))

end Surmise.Toml
