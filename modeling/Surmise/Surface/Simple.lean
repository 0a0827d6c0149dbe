import Surmise.Surface.CasePattern
import Surmise.Text.Blank

/-!
# Simple statements

The statements that take one line, and lines of several of them. The words `print`, `exec` and `type`
start a statement only if the line cannot be read as an expression, or, for `type`, if it has the form
of an alias.
-/

namespace Surmise.Rules

open Parse

variable (rules : Rules)

/-- A simple statement may end here. -/
def atEnd : Parse Bool := do
  let token ← peek
  return token.newline || token.lexeme == .mark ";"

/-- Reads with `p` if a simple statement ends behind it. -/
def whole {α : Type} (p : Parse α) : Parse (Option α) :=
  attempt do
    let a ← p
    unless ← atEnd do fail
    return a

/-- Items with commas between them on one line; a comma after the last is taken too. -/
def lineList {α : Type} (item : Parse α) : Parse (List α) := do
  let first ← item
  let rest ← many do
    unless ← acceptIn .line (.mark ",") do return none
    if ← atEnd then return none
    return some (← item)
  return first :: rest

/-! ## Assignments -/

/-- The right side of an assignment, with a reader for what follows a target. -/
def rightSide (tail : Surface → Parse (Option Surface)) : Parse Surface := do
  if ← acceptWord "yield" then return ← rules.yieldOperand .line
  let value ← rules.expressions .line
  match ← tail value with
  | some nested => return nested
  | none => return value

/--
The rest of an assignment to `target`, if one follows. The targets of a chain are collected in one
assignment; `fuel` bounds the length of the chain.
-/
def assignmentTail : Nat → Surface → Parse (Option Surface)
  | 0, _ => fail
  | fuel + 1, target => do
    let token ← peek
    if token.newline then return none
    let right := rules.rightSide (assignmentTail fuel)
    match token.lexeme with
    | .mark "=" =>
      advance
      match ← right with
      | .assign targets value => return some (.assign (asTarget target :: targets) value)
      | value => return some (.assign [asTarget target] value)
    | .mark ":" =>
      advance
      let hint ← rules.hint .line .declared
      let value ← do
        if ← acceptIn .line (.mark "=") then pure (some (← right)) else pure none
      return some (.annotated (asTarget target) hint value)
    | .mark text =>
      match augmentedOp? text with
      | some op =>
        advance
        return some (.augmented (asTarget target) op (← right))
      | none => return none
    | _ => return none

def expressionStatement : Parse Surface := do
  if ← acceptWord "yield" then return .statement [← rules.yieldOperand .line]
  let (items, comma) ← rules.several .line
  let target := match items, comma with
    | [one], false => one
    | _, _ => .tuple items
  match ← rules.assignmentTail (← get).size target with
  | some assignment => return .statement [assignment]
  | none => return .statement items

/-! ## Imports -/

/-- A dotted name as the list of its parts. Space inside it belongs to the parts. -/
def dottedPath (layout : Layout) : Parse (List String) := do
  let start := (← peek).place
  let _ ← nameWord
  let _ ← many do
    if ← acceptIn layout (.mark ".") then
      return some (← nameWord)
    else return none
  let parts := (Text.splitBy (· == '.') (← textFrom start)).map Text.trim
  return (parts.filter fun part => !part.isEmpty).map String.ofList

def importAlias (layout : Layout) : Parse ImportAlias := do
  let path ← dottedPath layout
  if ← acceptIn layout (.word "as") then
    return ⟨path, some (← nameWord)⟩
  return ⟨path, none⟩

def importStatement : Parse Surface := do
  advance
  return .importStmt (← lineList (importAlias .line))

/-- The imported names, perhaps in parentheses. -/
def importNames : Parse (List ImportAlias) := do
  if ← acceptMark "(" then commaList ")" (importAlias .free)
  else lineList (importAlias .line)

def fromStatement : Parse Surface := do
  advance
  if ← acceptWord "__future__" then
    expectWord "import"
    let _ ← importNames
    return .passStmt
  let dots ← many do
    if ← acceptMark "." then return some () else return none
  let source ← do
    if !dots.isEmpty && (← isWord "import") then pure [] else dottedPath .free
  expectWord "import"
  if ← acceptMark "*" then return .importFrom dots.length source [] true
  return .importFrom dots.length source (← importNames) false

/-! ## Statements of a single word and an operand -/

def returnStatement : Parse Surface := do
  advance
  if Layout.line.startsOperand (← peek) then
    return .returnStmt (some (← rules.expressions .line))
  return .returnStmt none

def raiseStatement : Parse Surface := do
  advance
  let token ← peek
  let gap := token.gap && !token.newline
  let exception ← do
    if Layout.line.startsOperand token then
      pure (some (Surface.afterGap gap (← rules.expressions .line)))
    else if gap && token.lexeme == .word "from" then pure (some Surface.blank)
    else pure none
  let cause ← do
    if ← acceptIn .line (.word "from") then
      pure (some (← rules.expression .line Power.least))
    else pure none
  return .raiseStmt exception cause

def assertStatement : Parse Surface := do
  advance
  match ← lineList (rules.expression .line Power.least) with
  | [] => fail
  | test :: rest => return .assertStmt test rest.head?

/-! ## Statements of older and newer forms -/

def printStatement : Parse Surface := do
  let redirected ← sees do
    advance
    if (← peek).newline then fail
    expectMark ">>"
  if redirected then
    advance
    advance
    match ← lineList (rules.expression .line Power.least) with
    | [] => fail
    | stream :: args => return .approximate (.approximate [stream] :: args)
  match ← whole rules.expressionStatement with
  | some statement => return statement
  | none =>
    advance
    return .approximate (← lineList (rules.expression .line Power.least))

/-- `exec` as a statement, on a string or a name. -/
def execStatement : Parse Surface := do
  let statement ← whole do
    advance
    let token ← peek
    if token.newline then fail
    let code ← do
      match token.lexeme with
      | .quote flags mark triple => rules.stringLiteral ⟨flags, mark, triple⟩
      | .word text =>
        if isOperatorWord text || text == "not" then fail
        advance
        pure (Surface.ident text)
      | _ => fail
    if ← acceptIn .line (.word "in") then
      return Surface.approximate (code :: (← lineList (rules.expression .line Power.least)))
    return Surface.approximate [code]
  match statement with
  | some statement => return statement
  | none => rules.expressionStatement

def typeStatement : Parse Surface := do
  let statement ← whole do
    advance
    if (← peek).newline then fail
    let left ← rules.hint .line .declared
    if (← peek).newline then fail
    expectMark "="
    return Surface.approximate [left, ← rules.hint .line .declared]
  match statement with
  | some statement => return statement
  | none => rules.expressionStatement

/-! ## Lines -/

def simpleStatement : Parse Surface := do
  match (← peek).lexeme with
  | .word "import" => importStatement
  | .word "from" => fromStatement
  | .word "print" => rules.printStatement
  | .word "assert" => rules.assertStatement
  | .word "return" => rules.returnStatement
  | .word "del" =>
    advance
    return .deleteStmt (← rules.expressions .line)
  | .word "raise" => rules.raiseStatement
  | .word "pass" =>
    advance
    return .passStmt
  | .word "break" =>
    advance
    return .breakStmt
  | .word "continue" =>
    advance
    return .continueStmt
  | .word "global" =>
    advance
    return .globalStmt (← lineList nameWord)
  | .word "nonlocal" =>
    advance
    return .nonlocalStmt (← lineList nameWord)
  | .word "exec" => rules.execStatement
  | .word "type" => rules.typeStatement
  | _ => rules.expressionStatement

/-- The statements of a line, with semicolons between them and perhaps after the last. -/
def simpleLine : Parse (List Surface) := do
  let first ← rules.simpleStatement
  let rest ← many do
    unless ← acceptIn .line (.mark ";") do return none
    if (← peek).newline then return none
    return some (← rules.simpleStatement)
  unless (← peek).newline do fail
  return first :: rest

end Surmise.Rules
