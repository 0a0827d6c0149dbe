import Surmise.Surface.Basic
import Surmise.Surface.Token

/-!
# Reading tokens

A reader walks over a text with one token in sight. It either goes on or reports where it could not.
-/

namespace Surmise

/-- The offset at which no rule of the grammar applies. -/
structure Unreadable where
  offset : Nat
  deriving DecidableEq, Repr

/-- Where a reader is: the token in sight and the text behind it. -/
structure Cursor where
  token : Token
  rest : Place
  /-- Where the last token that was taken ended. -/
  lastEnd : Nat
  /-- A bound on the number of tokens of the whole text. -/
  size : Nat

abbrev Parse := StateT Cursor (Except Unreadable)

/-- Whether the end of the line ends what is being read. -/
inductive Layout where
  | line
  | free
  deriving DecidableEq, Inhabited

/-- The token stands on a later line than what is being read may reach. -/
def Layout.endsBefore : Layout → Token → Bool
  | .line, token => token.newline
  | .free, _ => false

namespace Cursor

def start (text : String) : Cursor :=
  let (token, rest) := Token.read (.ofText text)
  ⟨token, rest, 0, text.length + 2⟩

def moveTo (cursor : Cursor) (place : Place) : Cursor :=
  let (token, rest) := Token.read place
  { cursor with token, rest, lastEnd := place.offset }

end Cursor

namespace Parse

variable {α β : Type}

def peek : Parse Token := return (← get).token

def advance : Parse Unit := modify fun cursor => cursor.moveTo cursor.rest

def resume (place : Place) : Parse Unit := modify fun cursor => cursor.moveTo place

def behind : Parse Place := return (← get).rest

def fail : Parse α := do throw ⟨(← get).token.place.offset⟩

/-- Reads with `p`; if that fails, nothing has been read. -/
def attempt (p : Parse α) : Parse (Option α) := fun cursor =>
  match p cursor with
  | .ok (a, next) => .ok (some a, next)
  | .error _ => .ok (none, cursor)

/-- Whether `p` can read here; nothing has been read afterwards. -/
def sees (p : Parse α) : Parse Bool := fun cursor =>
  match p cursor with
  | .ok _ => .ok (true, cursor)
  | .error _ => .ok (false, cursor)

/-- Repeats a step, at most `fuel` times, until it gives nothing. -/
def loopFor : Nat → (α → Parse (Option α)) → α → Parse α
  | 0, _, a => pure a
  | fuel + 1, step, a => do
    match ← step a with
    | some next => loopFor fuel step next
    | none => pure a

/-- Repeats a step that takes a token each time until it gives nothing. -/
def loop (step : α → Parse (Option α)) (a : α) : Parse α := do
  loopFor (← get).size step a

/-- Collects what a step gives until it gives nothing. -/
def many (step : Parse (Option α)) : Parse (List α) := do
  let found ← loop (fun acc => return (← step).map (· :: acc)) []
  return found.reverse

def isMark (text : String) : Parse Bool := return (← peek).lexeme == .mark text

def isWord (text : String) : Parse Bool := return (← peek).lexeme == .word text

/-- Takes the token if it is this one. -/
def accept (lexeme : Lexeme) : Parse Bool := do
  if (← peek).lexeme == lexeme then
    advance
    return true
  else return false

/-- Takes the token if it is this one and the condition holds. -/
def acceptIf (condition : Bool) (lexeme : Lexeme) : Parse Bool :=
  if condition then accept lexeme else return false

/-- Takes the token if it is this one and not on a line that is out of reach. -/
def acceptIn (layout : Layout) (lexeme : Lexeme) : Parse Bool := do
  acceptIf (!layout.endsBefore (← peek)) lexeme

def acceptMark (text : String) : Parse Bool := accept (.mark text)

def acceptWord (text : String) : Parse Bool := accept (.word text)

def expectMark (text : String) : Parse Unit := do
  unless ← acceptMark text do fail

def expectWord (text : String) : Parse Unit := do
  unless ← acceptWord text do fail

/-- Takes a word where only a name can stand; no word is reserved there. -/
def nameWord : Parse String := do
  match (← peek).lexeme with
  | .word text =>
    advance
    return text
  | _ => fail

/-- The text from a place to the end of the last token that was taken. -/
def textFrom (start : Place) : Parse (List Char) := do
  return start.chars.take ((← get).lastEnd - start.offset)

/--
The items up to the closing mark, with commas between them and perhaps after the last. The opening
mark has been taken; the closing one is taken too.
-/
def commaList (close : String) (item : Parse α) : Parse (List α) := do
  let items ← many do
    if ← isMark close then return none
    let a ← item
    unless ← isMark close do expectMark ","
    return some a
  expectMark close
  return items

end Parse

end Surmise
