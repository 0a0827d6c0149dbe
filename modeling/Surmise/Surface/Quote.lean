import Surmise.Surface.Parse

/-!
# The text of string literals

How far the text of a string reaches from its opening quote. Formatted strings stop also at the brace
of an interpolation.
-/

namespace Surmise

/-- The opening of a string: its letters, its quotation mark, and whether the mark is tripled. -/
structure Quote where
  flags : List Char
  mark : Char
  triple : Bool

namespace Quote

def hasFlag (q : Quote) (lower upper : Char) : Bool :=
  q.flags.contains lower || q.flags.contains upper

def isFormatted (q : Quote) : Bool := q.hasFlag 'f' 'F'

def isRaw (q : Quote) : Bool := q.hasFlag 'r' 'R'

def isBytes (q : Quote) : Bool := q.hasFlag 'b' 'B'

/-- What ends a stretch of string text. -/
inductive Stop where
  | closing
  | brace
  | nothing
  deriving DecidableEq, Inhabited

/-- A stretch of string text, and what ends it. -/
structure Stretch where
  text : List Char
  stop : Stop

def Stretch.cons (c : Char) (s : Stretch) : Stretch := { s with text := c :: s.text }

/-- The characters that a backslash takes with it, so that they end nothing. -/
def covered (q : Quote) (rest : List Char) : Nat :=
  match rest with
  | [] => 0
  | c :: more =>
    if q.isRaw then
      if c == q.mark || c == '\\' then 1 else 0
    else if q.isBytes && (c == 'N' || c == 'u' || c == 'U') then 1
    else if c == '\'' || c == '"' || c == '\\' then 1
    else if c == 'N' then
      match more with
      | '\x7b' :: name =>
        let body := name.takeWhile (· ≠ '\x7d')
        if body.isEmpty || body.length = name.length then 1 else body.length + 3
      | _ => 1
    else 0

def closesAt (q : Quote) (text : List Char) : Bool :=
  if q.triple then [q.mark, q.mark, q.mark].isPrefixOf text else [q.mark].isPrefixOf text

/--
The stretch of text at the start of `chars`; `skip` characters of it cannot end it. In a formatted
string a doubled brace is text.
-/
def stretch (q : Quote) (skip : Nat) : List Char → Stretch
  | [] => ⟨[], .nothing⟩
  | c :: rest =>
    match skip with
    | skip + 1 => (stretch q skip rest).cons c
    | 0 =>
      if c == '\\' then (stretch q (q.covered rest) rest).cons c
      else if q.closesAt (c :: rest) then ⟨[], .closing⟩
      else if q.isFormatted && (c == '\x7b' || c == '\x7d') then
        if rest.head? == some c then (stretch q 1 rest).cons c
        else if c == '\x7b' then ⟨[], .brace⟩
        else (stretch q 0 rest).cons c
      else (stretch q 0 rest).cons c

/--
The text of a raw string that is kept. Backslashes with what they cover right before the closing mark,
and with nothing but them behind the opening or an inner quotation mark, belong to the closing mark:
`r'\\\\'` is empty. `pending` is what was read since such a mark, and `solid` whether more than
backslashes is in it.
-/
def rawText (q : Quote) (pending : List Char) (solid : Bool) : List Char → List Char
  | [] => if solid then pending.reverse else []
  | '\\' :: c :: '\n' :: rest =>
    if c == q.mark || c == '\\' || c == '\r' then
      rawText q ('\n' :: c :: '\\' :: pending) solid rest
    else rawText q ('\\' :: pending) solid (c :: '\n' :: rest)
  | '\\' :: c :: rest =>
    if c == q.mark || c == '\\' || c == '\r' || c == '\n' then
      rawText q (c :: '\\' :: pending) solid rest
    else rawText q ('\\' :: pending) solid (c :: rest)
  | c :: rest =>
    if c == q.mark then pending.reverse ++ c :: rawText q [] false rest
    else rawText q (c :: pending) (c != '\\' || solid) rest
termination_by text => text.length

/-- How many characters the closing mark takes. -/
def width (q : Quote) : Nat := if q.triple then 3 else 1

end Quote

end Surmise
