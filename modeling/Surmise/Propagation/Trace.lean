import Surmise.Store.Show

/-!
# The trace of a run

A text that tells step by step what an analysis does. It is written piece by piece; a trace with a limit
takes no piece once it holds that many lines, and the first piece that it refuses closes it.
-/

namespace Surmise

structure Trace where
  /-- What has been written, the last piece first. -/
  written : List String
  /-- The number of line ends among it. -/
  lines : Nat
  limit : Option Nat
  isOpen : Bool
  deriving Inhabited

namespace Trace

def off : Trace := ⟨[], 0, none, false⟩

def on (limit : Option Nat) : Trace := ⟨[], 0, limit, true⟩

def isFull (t : Trace) : Bool :=
  match t.limit with
  | some limit => limit ≤ t.lines
  | none => false

def piece (t : Trace) (text : String) : Trace :=
  if !t.isOpen then t
  else if t.isFull then { t with isOpen := false }
  else { t with written := text :: t.written, lines := t.lines + text.toList.count '\n' }

def line (t : Trace) (pieces : List String) : Trace :=
  (pieces.foldl piece t).piece "\n"

def text (t : Trace) : String := String.join t.written.reverse

/-- The same trace, to be written from the start. -/
def cleared (t : Trace) : Trace := { t with written := [] }

end Trace

def Address.pieces (a : Address) : List String :=
  if a.path.isEmpty then [a.file.text]
  else if a.file.text.isEmpty then [a.path]
  else [a.file.text, ":", a.path]

namespace Store

variable (s : Store)

mutual

/-- The text of a value in pieces; a string constant is a piece of its own. -/
def pieces : Value → List String
  | .str (some text) => ["str('", text, "')"]
  | .list e => "list[" :: pieces e ++ ["]"]
  | .set e => "set[" :: pieces e ++ ["]"]
  | .dict k v => "dict[" :: pieces k ++ ", " :: pieces v ++ ["]"]
  | .tuple _ items => "tuple(" :: piecesBetween ", " items ++ [")"]
  | .generator e => "generator[" :: pieces e ++ ["]"]
  | .method _ receiver name => "method " :: pieces receiver ++ [".", name]
  | .union [] => ["?"]
  | .union alternatives => piecesBetween " | " alternatives
  | other => [s.showValue other]

def piecesBetween (separator : String) : List Value → List String
  | [] => []
  | [v] => pieces v
  | v :: rest => pieces v ++ separator :: piecesBetween separator rest

end

end Store

end Surmise
