import Surmise.Surface.Parse

/-!
# Rules of the grammar

The readers of the grammar refer to each other in a circle. Each of them is written against a `Rules`
record that holds the ones it may come back to; `Surmise.Surface.Read` closes the circle.

Operators are ordered by a number, their power: an operand that is read with some least power takes in
the operators of that power and above.
-/

namespace Surmise

structure Rules where
  /-- An expression whose operators have at least this power. -/
  expression : Layout → Nat → Parse Surface
  /-- An operand with what stands behind it, and no operators. -/
  primary : Layout → Parse Surface
  /-- What a `for` clause of a comprehension runs over. -/
  iterable : Parse Surface
  /-- The statements of a block with this indentation. -/
  block : Nat → Parse (List Surface)

namespace Power

def least : Nat := 0
def conditional : Nat := 2
/-- The value of a named expression takes an alias but no conditional. -/
def named : Nat := 3
def aliased : Nat := 4
def or : Nat := 6
def and : Nat := 8
def not : Nat := 10
def compare : Nat := 12
def bitOr : Nat := 14
def bitAnd : Nat := 16
def bitXor : Nat := 18
def shift : Nat := 20
def sum : Nat := 22
def product : Nat := 24
def unary : Nat := 26
def power : Nat := 28

end Power

/-- An operator between two operands: its power, and the least power of its right operand. -/
structure BinaryRule where
  op : BinaryOp
  power : Nat
  right : Nat

def leftward (op : BinaryOp) (power : Nat) : BinaryRule := ⟨op, power, power + 1⟩

def markBinary? : String → Option BinaryRule
  | "|" => some (leftward .bitOr Power.bitOr)
  | "&" => some (leftward .bitAnd Power.bitAnd)
  | "^" => some (leftward .bitXor Power.bitXor)
  | "<<" => some (leftward .leftShift Power.shift)
  | ">>" => some (leftward .rightShift Power.shift)
  | "+" => some (leftward .add Power.sum)
  | "-" => some (leftward .sub Power.sum)
  | "*" => some (leftward .mult Power.product)
  | "@" => some (leftward .matMult Power.product)
  | "/" => some (leftward .div Power.product)
  | "%" => some (leftward .mod Power.product)
  | "//" => some (leftward .floorDiv Power.product)
  | "**" => some ⟨.pow, Power.power, Power.power⟩
  | _ => none

def wordBinary? : String → Option BinaryRule
  | "or" => some (leftward .or Power.or)
  | "and" => some (leftward .and Power.and)
  | _ => none

def augmentedOp? : String → Option BinaryOp
  | "+=" => some .add
  | "-=" => some .sub
  | "*=" => some .mult
  | "/=" => some .div
  | "@=" => some .matMult
  | "//=" => some .floorDiv
  | "%=" => some .mod
  | "**=" => some .pow
  | ">>=" => some .rightShift
  | "<<=" => some .leftShift
  | "&=" => some .bitAnd
  | "^=" => some .bitXor
  | "|=" => some .bitOr
  | _ => none

def markCompare? : String → Option CompareOp
  | "<" => some .lt
  | "<=" => some .ltE
  | "==" => some .eq
  | "!=" | "<>" => some .notEq
  | ">=" => some .gtE
  | ">" => some .gt
  | _ => none

/-- The words that stand behind an operand and never start one. -/
def isOperatorWord (word : String) : Bool :=
  ["and", "or", "in", "is", "if", "else", "as", "for", "from", "import"].contains word

/-- Three points without space between them. -/
def Token.isEllipsis (token : Token) : Bool :=
  ['.', '.', '.'].isPrefixOf token.place.chars

/-- An operand can start here. -/
def Layout.startsOperand (layout : Layout) (token : Token) : Bool :=
  !layout.endsBefore token &&
    match token.lexeme with
    | .word text => !isOperatorWord text
    | .number _ | .quote .. => true
    | .mark text => ["(", "[", "\x7b", "-", "+", "~", "*"].contains text || token.isEllipsis
    | .done => false

namespace Rules

open Parse

variable (rules : Rules)

def free : Parse Surface := rules.expression .free Power.least

/-- Expressions with commas between them, and whether a comma follows the last. -/
def several (layout : Layout) : Parse (List Surface × Bool) := do
  let first ← rules.expression layout Power.least
  let (items, comma) ← loop (fun (items, _) => do
    let token ← peek
    if !layout.endsBefore token && token.lexeme == .mark "," then
      advance
      if layout.startsOperand (← peek) then
        let next ← rules.expression layout Power.least
        return some (next :: items, false)
      else return some (items, true)
    else return none) ([first], false)
  return (items.reverse, comma)

def expressions (layout : Layout) : Parse Surface := do
  match ← rules.several layout with
  | ([one], false) => return one
  | (items, _) => return .tuple items

/-- The operand of `yield`, after that word. -/
def yieldOperand (layout : Layout) : Parse Surface := do
  if ← acceptIn layout (.word "from") then
    return .yield (some (← rules.expression layout Power.least)) true
  else if layout.startsOperand (← peek) then
    return .yield (some (← rules.expressions layout)) false
  else return .yield none false

end Rules

end Surmise
