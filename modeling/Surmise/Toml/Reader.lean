import Surmise.Toml.Number
import Surmise.Toml.Quote
import Surmise.Toml.Table

/-!
# Reading TOML

A document is a sequence of lines, each a header, a key with its value, or empty. What is refused is no
TOML document: anything behind a value on its line, a key that has a value already, a table that is
defined twice.
-/

namespace Surmise.Toml

/-! ## Values -/

/-- The items of an array, behind its bracket. A comma may stand behind the last one. -/
def arrayItems (item : Scan Toml) : Scan (List Toml) := do
  gap
  if ← Scan.accept "]" then return []
  let first ← item
  gap
  let rest ← Scan.collect do
    if ← Scan.accept "]" then return none
    Scan.expect ","
    gap
    if ← Scan.accept "]" then return none
    let next ← item
    gap
    return some next
  return first :: rest

/-- The entries of a table on one line, behind its brace. -/
def inlineEntries (item : Scan Toml) : Scan Entries := do
  let pair : Scan ((List String × String) × Toml) := do
    let key ← dottedKey
    Scan.expect "="
    blanks
    let value ← item
    blanks
    return (key, value)
  blanks
  if ← Scan.accept "\x7d" then return []
  let first ← pair
  let rest ← Scan.collect do
    if ← Scan.accept "\x7d" then return none
    Scan.expect ","
    return some (← pair)
  match (first :: rest).foldlM (fun entries (key, value) => Entries.insertAt key.2 value key.1 entries) [] with
  | some entries => return entries
  | none => Scan.fail

/-- A value in which arrays and tables are nested at most so deep. -/
def valueWithin : Nat → Scan Toml
  | 0 => scalar
  | depth + 1 => do
    if ← Scan.accept "[" then return .array (← arrayItems (valueWithin depth))
    if ← Scan.accept "\x7b" then return .table (entriesOf (← inlineEntries (valueWithin depth)))
    scalar
where
  scalar : Scan Toml := do
    if let some characters ← quoted? then return .text characters
    if ← Scan.accept "true" then return .boolean true
    if ← Scan.accept "false" then return .boolean false
    if let some time ← moment? then return time
    number

/-! ## Documents -/

/-- A line of a document that says something. -/
inductive Line where
  | header (path : List String) (key : String)
  | doubled (path : List String) (key : String)
  | entry (path : List String) (key : String) (value : Toml)

def line : Scan Line := do
  if ← Scan.accept "[[" then
    let (path, key) ← dottedKey
    Scan.expect "]]"
    lineEnd
    return .doubled path key
  if ← Scan.accept "[" then
    let (path, key) ← dottedKey
    Scan.expect "]"
    lineEnd
    return .header path key
  let (path, key) ← dottedKey
  Scan.expect "="
  blanks
  let value ← valueWithin maxDepth
  lineEnd
  return .entry path key value

/-- The next line of the document, which may say nothing. -/
def nextLine : Scan (Option (Option Line)) := do
  blanks
  match ← Scan.peek with
  | none => return none
  | some c =>
    if c == '#' || c == '\n' || c == '\r' then
      lineEnd
      return some none
    return some (some (← line))

/-- A document under construction: its root table, and the table that keys now go into. -/
structure Draft where
  root : Entries
  current : List String

def Draft.add (draft : Draft) : Line → Option Draft
  | .header path key => do
    return ⟨← draft.root.within (Entries.define key) path, path ++ [key]⟩
  | .doubled path key => do
    return ⟨← draft.root.within (Entries.extend key) path, path ++ [key]⟩
  | .entry path key value => do
    return { draft with root := ← draft.root.within (Entries.insertAt key value path) draft.current }

/-- The document that a text writes. A byte order mark may open the text. -/
def read? (text : String) : Option Toml := do
  let chars := match text.toList with
    | '\ufeff' :: rest => rest
    | chars => chars
  let (lines, _) ← Scan.collect nextLine chars
  let draft ← (lines.filterMap id).foldlM Draft.add ⟨[], []⟩
  return .table (entriesOf draft.root)

end Surmise.Toml
