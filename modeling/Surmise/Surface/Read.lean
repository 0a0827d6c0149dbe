import Surmise.Surface.Compound

/-!
# Reading a source text

The circle of the grammar rules, closed. Each round through it takes at least a character of the text,
so as many rounds as the text is long, several times over, are enough.
-/

namespace Surmise

namespace Rules

/-- The rules that read nothing. -/
def none : Rules where
  expression _ _ := Parse.fail
  primary _ := Parse.fail
  iterable := Parse.fail
  block _ := Parse.fail

/-- One more round through the circle. -/
def round (rules : Rules) : Rules where
  expression := rules.expressionOf
  primary := rules.primaryExpression
  iterable := rules.iterableExpression
  block := rules.blockOf

/-- The rules with this many rounds through the circle. -/
def within (rounds : Nat) : Rules :=
  Nat.repeat round rounds none

end Rules

def Surface.read (text : String) : Except Unreadable Surface := do
  let cursor := Cursor.start text
  let (body, rest) ← (Rules.within (4 * cursor.size)).block 0 cursor
  if rest.token.lexeme == .done then return .module body
  else throw ⟨rest.token.place.offset⟩

end Surmise
