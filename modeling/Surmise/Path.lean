/-!
# File paths

A path keeps the text it was written with, and stands for its components: separators may be repeated,
and a `.` counts only at the start of a relative path. Two paths are equal if their components are.
-/

namespace Surmise

structure Path where
  text : String
  deriving Repr, Inhabited

namespace Path

/-- A component with the number of characters of the text up to its end. -/
structure Part where
  text : List Char
  stop : Nat
  deriving Repr

/-- The stretches between separators; `start` is the offset of the rest of the text. -/
def stretches (start : Nat) (current : List Char) : List Char → List Part
  | [] => [⟨current.reverse, start⟩]
  | '/' :: rest => ⟨current.reverse, start⟩ :: stretches (start + 1) [] rest
  | c :: rest => stretches (start + 1) (c :: current) rest

def isAbsolute (p : Path) : Bool :=
  p.text.toList.head? == some '/'

/-- The components behind the root. -/
def parts (p : Path) : List Part :=
  match stretches 0 [] p.text.toList with
  | [] => []
  | first :: rest =>
    let counts (part : Part) := !part.text.isEmpty && part.text != ['.']
    if first.text.isEmpty then rest.filter counts else first :: rest.filter counts

/-- What a path stands for. -/
structure Components where
  absolute : Bool
  names : List (List Char)
  deriving DecidableEq, Repr

def components (p : Path) : Components :=
  ⟨p.isAbsolute, p.parts.map Part.text⟩

instance : BEq Path := ⟨fun p q => p.components == q.components⟩

def empty : Path := ⟨""⟩

/-- The path without its last component. The root and the empty path have none. -/
def parent? (p : Path) : Option Path :=
  match p.parts.reverse with
  | [] => none
  | [_] => some ⟨if p.isAbsolute then "/" else ""⟩
  | _ :: last :: _ => some ⟨String.ofList (p.text.toList.take last.stop)⟩

/-- The path and the ones above it; `fuel` bounds their number. -/
def ancestorsWithin : Nat → Path → List Path
  | 0, p => [p]
  | fuel + 1, p =>
    match p.parent? with
    | some parent => p :: ancestorsWithin fuel parent
    | none => [p]

/-- The path and the ones above it, from the inside out. -/
def ancestors (p : Path) : List Path :=
  ancestorsWithin p.parts.length p

/-- The path some levels up. -/
def up? : Path → Nat → Option Path
  | p, 0 => some p
  | p, levels + 1 => p.parent?.bind fun parent => parent.up? levels

/-- The last component, unless that is a step up or the current directory. -/
def fileName? (p : Path) : Option String :=
  match p.parts.getLast? with
  | some part =>
    if part.text = ['.', '.'] || part.text = ['.'] then none else some (String.ofList part.text)
  | none => none

/-- The file name without its extension. A name that starts with its only point has none. -/
def fileStem? (p : Path) : Option String :=
  p.fileName?.map fun name =>
    match name.toList.reverse.dropWhile (· ≠ '.') with
    | [] => name
    | _ :: stem => if stem.isEmpty then name else String.ofList stem.reverse

/-- A path relative to this one; an absolute path stands for itself. -/
def join (p : Path) (other : String) : Path :=
  if other.toList.head? == some '/' then ⟨other⟩
  else if p.text.isEmpty || p.text.toList.getLast? == some '/' then ⟨p.text ++ other⟩
  else ⟨p.text ++ "/" ++ other⟩

/-- The name of the module that a file holds; an `__init__` file takes the name of its directory. -/
def moduleName (p : Path) : String :=
  let stem := p.fileStem?.getD ""
  if stem = "__init__" then ((p.parent?.bind fileName?).getD stem) else stem

end Path

end Surmise
