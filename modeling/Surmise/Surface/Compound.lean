import Surmise.Surface.Simple

/-!
# Compound statements and blocks

A block is a line of simple statements, or what is indented deeper than the block around it. It ends
where a line stands further left than its first one; lines further right belong to it. A clause such as
`else` belongs to the innermost statement whose own block is not further right.
-/

namespace Surmise.Rules

open Parse

variable (rules : Rules)

/-- The block behind a colon, inside a block of this indentation. -/
def suite (indent : Nat) : Parse (List Surface) := do
  expectMark ":"
  let token ← peek
  if token.newline then
    if indent < token.indent then rules.block token.indent else return []
  else rules.simpleLine

/-- A clause with this word follows in a block of this indentation; the word is taken. -/
def acceptClause (indent : Nat) (word : String) : Parse Bool := do
  let token ← peek
  acceptIf (token.newline && indent ≤ token.indent) (.word word)

def elseClause (indent : Nat) : Parse (List Surface) := do
  if ← acceptClause indent "else" then rules.suite indent else return []

def branch (indent : Nat) : Parse (Branch Surface) := do
  let test ← rules.free
  return ⟨test, ← rules.suite indent⟩

def ifStatement (indent : Nat) : Parse Surface := do
  advance
  let first ← rules.branch indent
  let rest ← many do
    if ← acceptClause indent "elif" then return some (← rules.branch indent) else return none
  return .ifStmt (first :: rest) (← rules.elseClause indent)

def forStatement (indent : Nat) : Parse Surface := do
  advance
  let target ← rules.forTargets
  let iter ← rules.expressions .free
  let body ← rules.suite indent
  return .forStmt target iter body (← rules.elseClause indent)

def whileStatement (indent : Nat) : Parse Surface := do
  advance
  let test ← rules.free
  let body ← rules.suite indent
  return .whileStmt test body (← rules.elseClause indent)

/-! ## Handlers -/

/-- The exception of a handler, and the name it is bound to. -/
def handlerParts : Surface → List Surface
  | .asPattern value target => [value, target]
  | other => [other]

def handler (indent : Nat) : Parse (Handler Surface) := do
  let token ← peek
  let _ ← acceptIf (token.place.offset == (← get).lastEnd) (.mark "*")
  let parts ← do
    if ← isMark ":" then pure []
    else
      let first ← rules.free
      let second ← do
        if ← acceptMark "," then pure (handlerParts (← rules.free)) else pure []
      pure (handlerParts first ++ second)
  let body ← rules.suite indent
  return ⟨parts[0]?, parts[1]?, body⟩

def tryStatement (indent : Nat) : Parse Surface := do
  advance
  let body ← rules.suite indent
  let handlers ← many do
    if ← acceptClause indent "except" then return some (← rules.handler indent) else return none
  let otherwise ← rules.elseClause indent
  let final ← do
    if ← acceptClause indent "finally" then rules.suite indent else pure []
  return .tryStmt body handlers otherwise final

/-! ## Contexts -/

def withItem : Surface → WithItem Surface
  | .asPattern value target => ⟨value, some target⟩
  | other => ⟨other, none⟩

/-- The items of a `with`: two or more may share a pair of parentheses. -/
def withItems : Parse (List (WithItem Surface)) := do
  let enclosed ← attempt do
    expectMark "("
    let items ← commaList ")" rules.free
    unless 2 ≤ items.length && (← isMark ":") do fail
    return items
  match enclosed with
  | some items => return items.map withItem
  | none =>
    let (items, _) ← rules.several .free
    return items.map withItem

def withStatement (indent : Nat) : Parse Surface := do
  advance
  let items ← rules.withItems
  return .withStmt items (← rules.suite indent)

/-! ## Definitions -/

/-- The type parameters of a definition, which leave nothing. -/
def skipTypeParameters : Parse Unit := do
  if ← acceptMark "[" then
    let _ ← commaList "]" (rules.hint .free .declared)

def functionDefinition (indent : Nat) (decorators : List Surface) (isAsync : Bool) (line : Nat) :
    Parse Surface := do
  advance
  let name ← nameWord
  rules.skipTypeParameters
  expectMark "("
  let params ← rules.parameters true ")"
  expectMark ")"
  let returns ← do
    if ← acceptMark "->" then pure (some (← rules.hint .free .returned)) else pure none
  return .functionDef name params (← rules.suite indent) decorators returns isAsync line

def classDefinition (indent : Nat) (decorators : List Surface) (line : Nat) : Parse Surface := do
  advance
  let name ← nameWord
  rules.skipTypeParameters
  let a ← do
    if ← acceptMark "(" then rules.arguments else pure {}
  return .classDef name a.args a.keywords (← rules.suite indent) decorators line

def definition (indent : Nat) (decorators : List Surface) : Parse Surface := do
  let token ← peek
  match token.lexeme with
  | .word "class" => rules.classDefinition indent decorators token.place.line
  | .word "def" => rules.functionDefinition indent decorators false token.place.line
  | .word "async" =>
    advance
    unless ← isWord "def" do fail
    rules.functionDefinition indent decorators true token.place.line
  | _ => fail

def decorated (indent : Nat) : Parse Surface := do
  let decorators ← many do
    if ← acceptMark "@" then
      let gap := (← peek).gap
      let decorator ← rules.expression .line Power.least
      unless (← peek).newline do fail
      return some (Surface.afterGap gap decorator)
    else return none
  rules.definition indent decorators

/-! ## Matches -/

def caseClause (indent : Nat) : Parse Surface := do
  let first ← rules.casePattern
  let rest ← many do
    unless ← acceptMark "," do return none
    if (← isMark ":") || (← isWord "if") then return none
    return some (← rules.casePattern)
  let guarded ← do
    if ← acceptWord "if" then pure [Surface.approximate [← rules.free]] else pure []
  let body ← rules.suite indent
  return .approximate (first :: rest ++ guarded ++ [.approximate body])

/-- The subjects of a `match` statement, with the colon and the line break behind them. -/
def matchHead : Parse (List Surface) := do
  advance
  if (← peek).newline then fail
  let (subjects, _) ← rules.several .free
  expectMark ":"
  unless (← peek).newline do fail
  return subjects

def matchStatement (indent : Nat) : Parse (Option Surface) := do
  match ← attempt rules.matchHead with
  | none => return none
  | some subjects =>
    let token ← peek
    let cases ← do
      if indent < token.indent then
        many do
          if ← acceptClause token.indent "case" then
            return some (← rules.caseClause token.indent)
          else return none
      else pure []
    return some (.approximate (subjects ++ [.approximate cases]))

/-! ## Blocks -/

/-- The compound statement that starts here, if one does. -/
def compoundStatement (indent : Nat) : Parse (Option Surface) := do
  match (← peek).lexeme with
  | .word "if" => some <$> rules.ifStatement indent
  | .word "for" => some <$> rules.forStatement indent
  | .word "while" => some <$> rules.whileStatement indent
  | .word "try" => some <$> rules.tryStatement indent
  | .word "with" => some <$> rules.withStatement indent
  | .word "def" | .word "class" => some <$> rules.definition indent []
  | .mark "@" => some <$> rules.decorated indent
  | .word "match" => rules.matchStatement indent
  | .word "async" =>
    if ← sees do advance; expectWord "def" then some <$> rules.definition indent []
    else if ← sees do advance; expectWord "for" then
      advance
      some <$> rules.forStatement indent
    else if ← sees do advance; expectWord "with" then
      advance
      some <$> rules.withStatement indent
    else return none
  | _ => return none

def blockOf (indent : Nat) : Parse (List Surface) := do
  let lines ← many do
    let token ← peek
    if token.lexeme == .done || (token.newline && token.indent < indent) then return none
    match ← rules.compoundStatement indent with
    | some statement => return some [statement]
    | none => return some (← rules.simpleLine)
  return lines.flatten

end Surmise.Rules
