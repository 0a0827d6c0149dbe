import Surmise.Json.Basic

/-!
# Printing JSON

Two forms of a document: on one line without spaces, and with one item a line, indented by two spaces
a level, where empty arrays and objects stay closed.
-/

namespace Surmise.Json

/-- A character inside a string: only quotes, backslashes and control characters are escaped. -/
def printChar (c : Char) : List Char :=
  match c with
  | '"' => ['\\', '"']
  | '\\' => ['\\', '\\']
  | '\x08' => ['\\', 'b']
  | '\x0c' => ['\\', 'f']
  | '\n' => ['\\', 'n']
  | '\r' => ['\\', 'r']
  | '\t' => ['\\', 't']
  | c =>
    if c.toNat < 32 then
      "\\u00".toList ++ [Nat.digitChar (c.toNat / 16), Nat.digitChar (c.toNat % 16)]
    else [c]

def printText (text : String) : String :=
  String.ofList ('"' :: text.toList.flatMap printChar ++ ['"'])

def printOptionalText (text : Option String) : String :=
  printText (text.getD "")

mutual

def compact : Json → String
  | .null => "null"
  | .bool true => "true"
  | .bool false => "false"
  | .number digits => digits
  | .string text => printOptionalText text
  | .array items => "[" ++ ",".intercalate (compactItems items) ++ "]"
  | .object fields => "\x7b" ++ ",".intercalate (compactFields fields) ++ "\x7d"

def compactItems : List Json → List String
  | [] => []
  | item :: rest => item.compact :: compactItems rest

def compactFields : List (Option String × Json) → List String
  | [] => []
  | (name, value) :: rest => (printOptionalText name ++ ":" ++ value.compact) :: compactFields rest

end

/-- A line break and the indentation of a level. -/
def newLine (level : Nat) : String :=
  "\n" ++ String.ofList (List.replicate (2 * level) ' ')

def enclosed (opening closing : String) (level : Nat) (items : List String) : String :=
  if items.isEmpty then opening ++ closing
  else
    opening ++ newLine (level + 1) ++ ("," ++ newLine (level + 1)).intercalate items ++
      newLine level ++ closing

mutual

/-- The indented form, at some level of it. -/
def prettyAt (level : Nat) : Json → String
  | .null => "null"
  | .bool true => "true"
  | .bool false => "false"
  | .number digits => digits
  | .string text => printOptionalText text
  | .array items => enclosed "[" "]" level (prettyItems (level + 1) items)
  | .object fields => enclosed "\x7b" "\x7d" level (prettyFields (level + 1) fields)

def prettyItems (level : Nat) : List Json → List String
  | [] => []
  | item :: rest => prettyAt level item :: prettyItems level rest

def prettyFields (level : Nat) : List (Option String × Json) → List String
  | [] => []
  | (name, value) :: rest =>
    (printOptionalText name ++ ": " ++ prettyAt level value) :: prettyFields level rest

end

def pretty (json : Json) : String := prettyAt 0 json

end Surmise.Json
