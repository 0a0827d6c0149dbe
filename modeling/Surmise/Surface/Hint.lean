import Surmise.Surface.Rules

/-!
# Type hints

Hints have a grammar of their own around the expressions: a name with brackets is a generic type with
its parameters, and generic types can be joined, qualified and constrained. All of these forms are
approximated by their parts.
-/

namespace Surmise.Rules

open Parse

variable (rules : Rules)

/-- The place a hint stands in, which decides whether a colon behind it belongs to it. -/
inductive HintPlace where
  | declared
  | returned
  deriving DecidableEq

/-- The token can continue an expression, so that a name before it is not a hint by itself. -/
def continuesHint (layout : Layout) (token : Token) : Bool :=
  !layout.endsBefore token &&
    match token.lexeme with
    | .mark text => ["[", "(", "."].contains text || (markBinary? text).isSome ||
        (markCompare? text).isSome
    | .word text => ["and", "or", "in", "is", "not", "if"].contains text
    | _ => false

/-- A starred name: `*Ts` or `**P`. -/
def starredHint (layout : Layout) : Parse (Option Surface) := do
  let token ← peek
  if token.lexeme == .mark "*" || token.lexeme == .mark "**" then
    attempt do
      advance
      let text ← nameWord
      if continuesHint layout (← peek) then fail
      return .approximate [.ident text]
  else return none

/-- A name with type parameters in brackets. -/
def genericHint (hint : Layout → HintPlace → Parse Surface) (layout : Layout) :
    Parse (Option Surface) := do
  match (← peek).lexeme with
  | .word text =>
    attempt do
      advance
      if layout.endsBefore (← peek) then fail
      expectMark "["
      let params ← commaList "]" (hint .free .declared)
      let next ← peek
      if params.isEmpty then fail
      if continuesHint layout next && next.lexeme != .mark "." && next.lexeme != .mark "|" then fail
      return .approximate [.ident text, .approximate params]
  | _ => return none

/-- A starred name, a generic type or any expression. -/
def plainHint (hint : Layout → HintPlace → Parse Surface) (layout : Layout) : Parse Surface := do
  match ← starredHint layout with
  | some starred => return starred
  | none =>
    match ← genericHint hint layout with
    | some generic => return generic
    | none => rules.expression layout Power.least

/-- A hint whose parameters are read by `fuel` rounds at most. -/
def hintWithin : Nat → Layout → HintPlace → Parse Surface
  | 0, _, _ => fail
  | fuel + 1, layout, place => do
    let hint := hintWithin fuel
    let first ← rules.plainHint hint layout
    let core ← loop (fun left => do
      if layout.endsBefore (← peek) then return none
      if ← acceptMark "|" then
        return some (.approximate [.group left, .group (← rules.plainHint hint layout)])
      if ← acceptMark "." then
        return some (.approximate [.group left, .ident (← nameWord)])
      return none) first
    if ← acceptIf (place == .declared && !layout.endsBefore (← peek)) (.mark ":") then
      return .group (.approximate [.group core, ← hint layout place])
    return .group core

def hint (layout : Layout) (place : HintPlace) : Parse Surface := do
  rules.hintWithin (← get).size layout place

end Surmise.Rules
