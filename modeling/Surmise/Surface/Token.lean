import Surmise.Surface.Numeral

/-!
# Tokens

The words, numbers, quotes and marks of a source text. A token remembers what stands before it: a line
break with the indentation of its own line, and a comment or a joined line. Which words are reserved
and which line breaks count is decided where a token is used, so nothing of it is decided here.
-/

namespace Surmise

/-- A position in a text: what is left of it, and the character and the line (from one) it is at. -/
structure Place where
  chars : List Char
  offset : Nat
  line : Nat

def Place.ofText (text : String) : Place :=
  ⟨text.toList, 0, 1⟩

def Place.skip : Nat → Place → Place
  | 0, place => place
  | n + 1, ⟨c :: rest, offset, line⟩ =>
    Place.skip n ⟨rest, offset + 1, if c = '\n' then line + 1 else line⟩
  | _ + 1, place => place

inductive Lexeme where
  | word (text : String)
  | number (value : Literal)
  /-- The opening of a string, with the letters before it. -/
  | quote (flags : List Char) (mark : Char) (triple : Bool)
  | mark (text : String)
  | done
  deriving DecidableEq, Inhabited

structure Token where
  lexeme : Lexeme
  /-- Where the token starts. -/
  place : Place
  /-- A line break stands before the token. -/
  newline : Bool
  /-- The indentation of its line, if a line break stands before it. -/
  indent : Nat
  /-- A comment or a joined line stands before the token. -/
  gap : Bool

/-- The characters without width that may stand anywhere between tokens. -/
def isFiller (c : Char) : Bool :=
  c == '\x0b' || c == '\ufeff' || c == '\u2060' || c == '\u200b'

def isWordStart (c : Char) : Bool :=
  c.isAlpha || c == '_' || (128 ≤ c.toNat && !isFiller c)

def isWordPart (c : Char) : Bool :=
  isWordStart c || c.isDigit

/-- What stands between two tokens. -/
structure Spacing where
  /-- How many characters it takes. -/
  size : Nat := 0
  newline : Bool := false
  indent : Nat := 0
  gap : Bool := false

/--
Reads the space before a token. A tab is eight columns wide; carriage return and form feed start a
column count again. The end of the text ends the last line, back at the margin.
-/
def Spacing.read (comment : Bool) (s : Spacing) : List Char → Spacing
  | [] => { s with newline := true, indent := 0 }
  | c :: rest =>
    if c == '\n' then Spacing.read false { s with size := s.size + 1, newline := true, indent := 0 } rest
    else if comment then Spacing.read true { s with size := s.size + 1 } rest
    else match c with
      | ' ' => Spacing.read false { s with size := s.size + 1, indent := s.indent + 1 } rest
      | '\t' => Spacing.read false { s with size := s.size + 1, indent := s.indent + 8 } rest
      | '\r' | '\x0c' => Spacing.read false { s with size := s.size + 1, indent := 0 } rest
      | '#' => Spacing.read true { s with size := s.size + 1, gap := true } rest
      | '\\' =>
        match rest with
        | [] => { s with size := s.size + 1, newline := true, indent := 0, gap := true }
        | '\n' :: more => Spacing.read false { s with size := s.size + 2, gap := true } more
        | '\r' :: '\n' :: more => Spacing.read false { s with size := s.size + 3, gap := true } more
        | _ => s
      | c =>
        if isFiller c then Spacing.read false { s with size := s.size + 1 } rest else s

/-- The marks of more than one character; a longer mark comes before its beginnings. -/
def longMarks : List String :=
  ["**=", "//=", ">>=", "<<=", "**", "//", ">>", "<<", "<=", ">=", "==", "!=", "<>", "->", ":=",
    "+=", "-=", "*=", "/=", "%=", "@=", "&=", "|=", "^="]

/-- The opening of a string at the start of a text. -/
def openingQuote? (flags text : List Char) : Option Lexeme :=
  match text with
  | '\'' :: '\'' :: '\'' :: _ => some (.quote flags '\'' true)
  | '"' :: '"' :: '"' :: _ => some (.quote flags '"' true)
  | '\'' :: _ => some (.quote flags '\'' false)
  | '"' :: _ => some (.quote flags '"' false)
  | '\x60' :: _ => some (.quote flags '\x60' false)
  | _ => none

def isFlag (c : Char) : Bool :=
  "fFrRbBuU".toList.contains c

/-- The lexeme at the start of a text without leading space, and how many characters it takes. -/
def Lexeme.read (text : List Char) : Lexeme × Nat :=
  match text with
  | [] => (.done, 0)
  | c :: _ =>
    let flags := text.takeWhile isFlag
    match openingQuote? flags (text.drop flags.length) with
    | some (.quote flags q triple) => (.quote flags q triple, flags.length + if triple then 3 else 1)
    | _ =>
      if isWordStart c then
        let word := text.takeWhile isWordPart
        (.word (String.ofList word), word.length)
      else
        let (size, literal) := Numeral.scan text
        if size ≠ 0 then (.number literal, size)
        else match longMarks.find? fun long => long.toList.isPrefixOf text with
          | some long => (.mark long, long.length)
          | none => (.mark (String.singleton c), 1)

/-- The next token at a place, and the place after it. -/
def Token.read (place : Place) : Token × Place :=
  let spacing := Spacing.read false {} place.chars
  let start := place.skip spacing.size
  let (lexeme, size) := Lexeme.read start.chars
  (⟨lexeme, start, spacing.newline, spacing.indent, spacing.gap⟩, start.skip size)

end Surmise
