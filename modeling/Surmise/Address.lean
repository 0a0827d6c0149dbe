import Surmise.Path

/-!
# Addresses

Where a symbol is defined: a file and a dotted path inside it, such as `/src/app.py` and
`Model.save.self`.
-/

namespace Surmise

structure Address where
  file : Path
  path : String
  deriving Repr, Inhabited

namespace Address

instance : BEq Address := ⟨fun a b => a.path == b.path && a.file == b.file⟩

/-- The address of a whole file or directory. -/
def ofFile (file : Path) : Address := ⟨file, ""⟩

def child (a : Address) (name : String) : Address :=
  ⟨a.file, if a.path.isEmpty then name else a.path ++ "." ++ name⟩

/-- The last part of the dotted path. -/
def tail (a : Address) : String :=
  String.ofList (a.path.toList.reverse.takeWhile (· ≠ '.')).reverse

end Address

def Address.show (a : Address) : String :=
  if a.path.isEmpty then a.file.text
  else if a.file.text.isEmpty then a.path
  else a.file.text ++ ":" ++ a.path

end Surmise
