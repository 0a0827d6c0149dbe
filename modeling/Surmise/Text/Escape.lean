/-!
# Backslash escapes

What the text between the quotes of a string literal stands for.
-/

namespace Surmise.Text

/-- The character that a backslash and this letter stand for. -/
def escaped? : Char → Option Char
  | 'n' => some '\n'
  | 't' => some '\t'
  | 'r' => some '\r'
  | '0' => some '\x00'
  | '\\' => some '\\'
  | '\'' => some '\''
  | '"' => some '"'
  | _ => none

/--
Resolves the two-character escapes. A backslash before a line break joins the lines; a backslash
before any other character, or at the end, stands for itself.
-/
def unescape : List Char → List Char
  | [] => []
  | '\\' :: [] => ['\\']
  | '\\' :: '\n' :: rest => unescape rest
  | '\\' :: c :: rest =>
    match escaped? c with
    | some d => d :: unescape rest
    | none => '\\' :: c :: unescape rest
  | c :: rest => c :: unescape rest

end Surmise.Text
