import Surmise.Path

/-!
# Logs

How a log is set up, where it is written, and the lines of one.
-/

namespace Surmise

inductive LogFormat where
  | text
  | json
  deriving DecidableEq, Repr

def LogFormat.name : LogFormat → String
  | .text => "Text"
  | .json => "Json"

structure LogSetup where
  directory : Path
  fileName : String
  format : LogFormat
  /-- Write to the standard error stream as well. -/
  toStderr : Bool
  /-- Which messages count, in the language of the logger. -/
  filter : Option String

namespace LogSetup

def standard : LogSetup := ⟨⟨"logs"⟩, "lantern.log", .text, false, none⟩

def path (setup : LogSetup) : Path := setup.directory.join setup.fileName

end LogSetup

/-- The lines of a log, the characters of the current one in front. A line ends with a line feed, which
takes a carriage return in front of it along; behind the last one there is no further line. -/
def logLinesFrom (current : List Char) : List Char → List String
  | [] => if current.isEmpty then [] else [String.ofList current.reverse]
  | '\n' :: rest =>
    let line := if current.head? == some '\r' then current.tail else current
    String.ofList line.reverse :: logLinesFrom [] rest
  | c :: rest => logLinesFrom (c :: current) rest

def logLines (content : String) : List String := logLinesFrom [] content.toList

end Surmise
