import Surmise.Text.GraphemeExtend
import Surmise.Text.Unprintable

/-!
# Quoted text

The form in which a text is shown inside a message: between double quotes, with the characters that
would not show (or would run into the one before) written by their code point in hexadecimal.
-/

namespace Surmise.Text

/-- The code point has the property whose runs these are: it lies in the second one of a pair. -/
def inRuns : List Nat → Nat → Bool
  | without :: within :: rest, code =>
    without ≤ code && (code - without < within || inRuns rest (code - without - within))
  | _, _ => false

/-- The character can stand for itself in quoted text. -/
def isPlain (c : Char) : Bool :=
  if c.toNat < 128 then 32 ≤ c.toNat && c.toNat < 127
  else !inRuns graphemeExtendRuns c.toNat && !inRuns unprintableRuns c.toNat

/-- A character as it stands between the quotes. -/
def quotedChar (c : Char) : List Char :=
  match c with
  | '\x00' => ['\\', '0']
  | '\t' => ['\\', 't']
  | '\r' => ['\\', 'r']
  | '\n' => ['\\', 'n']
  | '\\' => ['\\', '\\']
  | '"' => ['\\', '"']
  | c => if isPlain c then [c] else "\\u\x7b".toList ++ Nat.toDigits 16 c.toNat ++ ['\x7d']

def quoted (text : String) : String :=
  String.ofList ('"' :: text.toList.flatMap quotedChar ++ ['"'])

end Surmise.Text
