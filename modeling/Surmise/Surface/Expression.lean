import Surmise.Surface.Atom

/-!
# Expressions

Operands and the operators between them, by power. A line break ends an expression of a simple
statement only where an operator could stand: an operand that is due is looked for on the next line.
-/

namespace Surmise.Rules

open Parse

variable (rules : Rules)

def wordOperand : String → Surface
  | "None" => .literal .null
  | "True" => .literal (.bool true)
  | "False" => .literal (.bool false)
  | text => .ident text

/-- An operand without anything behind it. -/
def atom (layout : Layout) : Parse Surface := do
  let token ← peek
  match token.lexeme with
  | .word text =>
    advance
    return wordOperand text
  | .number value =>
    advance
    return .literal value
  | .quote .. => rules.strings layout
  | .mark "(" =>
    advance
    rules.parenthesis
  | .mark "[" =>
    advance
    rules.bracket
  | .mark "\x7b" =>
    advance
    rules.brace
  | .mark "*" =>
    advance
    let gap := (← peek).gap
    return .starred (.afterGap gap (.ident (← nameWord)))
  | .mark "." =>
    if token.isEllipsis then
      resume (token.place.skip 3)
      return .literal .ellipsis
    else fail
  | _ => fail

/-- The members, calls and subscripts behind an operand. -/
def trailers (layout : Layout) (operand : Surface) : Parse Surface :=
  loop (fun operand => do
    if layout.endsBefore (← peek) then return none
    if ← acceptMark "." then
      return some (.member operand (← nameWord))
    if ← acceptMark "(" then
      return some (← rules.callOf operand)
    if ← acceptMark "[" then
      return some (← rules.subscriptOf operand)
    return none) operand

def primaryExpression (layout : Layout) : Parse Surface := do
  rules.trailers layout (← rules.atom layout)

def lambda (body : Parse Surface) : Parse Surface := do
  let params ← rules.parameters false ":"
  expectMark ":"
  return .lambda params (← body)

/-- What a comprehension runs over: it takes no conditional, also not as the body of a lambda. -/
def iterableExpression : Parse Surface := do
  if ← acceptWord "lambda" then rules.lambda rules.iterable
  else rules.expression .free Power.named

/-- The word `await` is an operator if an operand follows, and a name otherwise. -/
def awaits (layout : Layout) (token : Token) : Bool :=
  match token.lexeme with
  | .word "not" | .mark "*" => false
  | _ => layout.startsOperand token

def operand (layout : Layout) : Parse Surface := do
  let token ← peek
  match token.lexeme with
  | .word "not" =>
    advance
    return .unary .not (← rules.expression layout Power.not)
  | .word "lambda" =>
    advance
    rules.lambda (rules.expression layout Power.least)
  | .word text =>
    advance
    let next ← peek
    if text == "await" && awaits layout next then
      return .await (← rules.expression layout Power.unary)
    if next.lexeme == .mark ":=" && !layout.endsBefore next then
      advance
      return .named text (← rules.expression layout Power.named)
    rules.trailers layout (wordOperand text)
  | .mark "-" =>
    advance
    return .unary .minus (← rules.expression layout Power.unary)
  | .mark "+" =>
    advance
    return .unary .plus (← rules.expression layout Power.unary)
  | .mark "~" =>
    advance
    return .unary .invert (← rules.expression layout Power.unary)
  | _ => rules.primaryExpression layout

/-- A comparison operator, if one stands here. -/
def compareOp (layout : Layout) : Parse (Option CompareOp) := do
  let token ← peek
  if layout.endsBefore token then return none
  match token.lexeme with
  | .mark text =>
    match markCompare? text with
    | some op =>
      advance
      return some op
    | none => return none
  | .word "in" =>
    advance
    return some .in
  | .word "not" =>
    advance
    expectWord "in"
    return some .notIn
  | .word "is" =>
    advance
    if ← acceptWord "not" then return some .isNot
    return some .is
  | _ => return none

def comparison (layout : Layout) (left : Surface) : Parse (Option Surface) := do
  let pairs ← many do
    match ← compareOp layout with
    | some op => return some (op, ← rules.expression layout (Power.compare + 1))
    | none => return none
  if pairs.isEmpty then return none
  return some (.compare left (pairs.map Prod.fst) (pairs.map Prod.snd))

/-- One operator of at least this power behind an operand, with its right side. -/
def operator (layout : Layout) (least : Nat) (left : Surface) : Parse (Option Surface) := do
  let token ← peek
  if layout.endsBefore token then return none
  let binary? := match token.lexeme with
    | .mark text => markBinary? text
    | .word text => wordBinary? text
    | _ => none
  match binary? with
  | some rule =>
    if rule.power < least then return none
    advance
    return some (.binary left rule.op (← rules.expression layout rule.right))
  | none =>
    match token.lexeme with
    | .word "if" =>
      if Power.conditional < least then return none
      advance
      let test ← rules.expression .free Power.least
      expectWord "else"
      return some (.conditional test left (← rules.expression layout Power.conditional))
    | .word "as" =>
      if Power.aliased < least then return none
      advance
      return some (.asPattern left (← rules.expression layout (Power.aliased + 1)))
    | _ => if Power.compare < least then return none else rules.comparison layout left

def expressionOf (layout : Layout) (least : Nat) : Parse Surface := do
  loop (rules.operator layout least) (← rules.operand layout)

end Surmise.Rules
