import Surmise.Surface.Expression

/-!
# Case patterns

The patterns of a `match` statement. They have no form of their own in a tree, so each is approximated
by the expressions and names in it; a wildcard and a sign leave nothing.
-/

namespace Surmise.Rules

open Parse

variable (rules : Rules)

def patternNumber : Parse Surface := do
  match (← peek).lexeme with
  | .number value =>
    advance
    return .literal value
  | _ => fail

/-- A signed number, or the sum of a real and an imaginary one. -/
def numberPattern : Parse (List Surface) := do
  let _ ← acceptMark "-"
  let first ← patternNumber
  if (← isMark "+") || (← isMark "-") then
    advance
    return [.approximate [first, ← patternNumber]]
  else return [first]

def dottedIdents : Parse (List Surface) := do
  let first ← nameWord
  let rest ← many do
    if ← acceptMark "." then return some (Surface.ident (← nameWord)) else return none
  return .ident first :: rest

/-- A starred name; the wildcard leaves nothing. -/
def splatPattern : Parse (List Surface) := do
  advance
  let name ← nameWord
  return [.approximate (if name == "_" then [] else [.ident name])]

/-- A pattern without alternatives, with a reader for the patterns inside it. -/
def closedPattern (pattern : Parse Surface) (simple : Parse (List Surface)) :
    Parse (List Surface) := do
  let token ← peek
  match token.lexeme with
  | .number _ | .mark "-" => numberPattern
  | .quote .. => return [← rules.strings .free]
  | .mark "*" | .mark "**" => splatPattern
  | .mark "[" =>
    advance
    return [.list (← commaList "]" pattern)]
  | .mark "(" =>
    advance
    return [.tuple (← commaList ")" pattern)]
  | .mark "\x7b" =>
    advance
    let entries ← commaList "\x7d" do
      if (← isMark "*") || (← isMark "**") then splatPattern
      else
        let key ← simple
        expectMark ":"
        return key ++ [← pattern]
    return [.approximate entries.flatten]
  | .word "_" =>
    advance
    return []
  | .word text =>
    if ["None", "True", "False"].contains text then
      advance
      return [wordOperand text]
    let names ← dottedIdents
    if ← acceptMark "(" then
      return [.approximate (.approximate names :: (← commaList ")" pattern))]
    return [.approximate names]
  | _ => fail

/-- One or several alternatives. -/
def simplePattern (closed : Parse (List Surface)) : Parse (List Surface) := do
  let first ← closed
  let more ← many do
    if ← acceptMark "|" then return some (← closed) else return none
  if more.isEmpty then return first
  return [.approximate (first ++ more.flatten)]

/-- A pattern with its aliases; `fuel` bounds how deep patterns are nested. -/
def patternWithin : Nat → Parse Surface
  | 0 => fail
  | fuel + 1 => do
    let simple := simpleWithin fuel
    let keyword ← attempt do
      let name ← nameWord
      expectMark "="
      return name
    let first ← do
      match keyword with
      | some name => pure (Surface.approximate (.ident name :: (← simple)))
      | none => pure (Surface.approximate (← simple))
    let first := match keyword with
      | some _ => Surface.approximate [first]
      | none => first
    loop (fun inner => do
      if ← acceptWord "as" then
        let _ ← nameWord
        return some (.approximate [.group inner])
      else return none) first
where
  /-- The alternatives of a pattern. -/
  simpleWithin : Nat → Parse (List Surface)
    | 0 => fail
    | fuel + 1 => simplePattern (rules.closedPattern (patternWithin fuel) (simpleWithin fuel))

def casePattern : Parse Surface := do
  rules.patternWithin (2 * (← get).size)

end Surmise.Rules
