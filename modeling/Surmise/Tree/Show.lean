import Surmise.Text.Quoted
import Surmise.Tree.Basic

/-!
# Trees as text

A compact form close to the source, for traces. It keeps the outline of an expression and leaves out
what would make it long.
-/

namespace Surmise

def BinaryOp.label : BinaryOp → String
  | .add => "Add"
  | .sub => "Sub"
  | .mult => "Mult"
  | .matMult => "MatMult"
  | .div => "Div"
  | .floorDiv => "FloorDiv"
  | .mod => "Mod"
  | .pow => "Pow"
  | .leftShift => "LeftShift"
  | .rightShift => "RightShift"
  | .bitOr => "BitOr"
  | .bitXor => "BitXor"
  | .bitAnd => "BitAnd"
  | .and => "And"
  | .or => "Or"

def UnaryOp.label : UnaryOp → String
  | .not => "Not"
  | .invert => "Invert"
  | .plus => "Plus"
  | .minus => "Minus"

def CompareOp.label : CompareOp → String
  | .eq => "Eq"
  | .notEq => "NotEq"
  | .lt => "Lt"
  | .ltE => "LtE"
  | .gt => "Gt"
  | .gtE => "GtE"
  | .is => "Is"
  | .isNot => "IsNot"
  | .in => "In"
  | .notIn => "NotIn"

def Literal.show : Literal → String
  | .int (some n) => toString n
  | .int none => "<int>"
  | .float => "<float>"
  | .complex => "<complex>"
  | .str text => Text.quoted text
  | .bytes => "b\"..\""
  | .bool true => "True"
  | .bool false => "False"
  | .null => "None"
  | .ellipsis => "..."

mutual

def Node.show : Node → String
  | .ident text => text
  | .literal value => value.show
  | .member object name => object.show ++ "." ++ name
  | .call function args .. => function.show ++ "(" ++ ", ".intercalate (Node.showAll args) ++ ")"
  | .subscript value index => value.show ++ "[" ++ index.show ++ "]"
  | .tuple elements => "(" ++ ", ".intercalate (Node.showAll elements) ++ ")"
  | .starred value => "*" ++ value.show
  | .functionDef _ name .. => "def " ++ name
  | .classDef _ name .. => "class " ++ name
  | .lambda .. => "lambda"
  | .listComp .. => "[...comprehension]"
  | .setComp .. | .dictComp .. => "\x7b...comprehension\x7d"
  | .generatorExp .. => "(...generator)"
  | .list .. => "[...]"
  | .set .. | .dict .. => "\x7b...\x7d"
  | .binary left op right => left.show ++ " " ++ op.label ++ " " ++ right.show
  | .unary op operand => op.label ++ " " ++ operand.show
  | other => "<" ++ other.kind ++ ">"

def Node.showAll : List Node → List String
  | [] => []
  | node :: rest => node.show :: Node.showAll rest

end

end Surmise
