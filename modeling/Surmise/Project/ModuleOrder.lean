import Surmise.Path
import Surmise.Tree.Imports

/-!
# The order of modules

Files are analysed after the files they import, so that most names have a value when they are read
first. Imports are resolved among the analysed files only. A cycle is cut where a depth-first walk comes
to a file that it has entered before.
-/

namespace Surmise

namespace ModuleOrder

/-- What imports are resolved in. -/
structure Layout where
  files : List Path
  /-- The directories around the files, and the roots. -/
  dirs : List Path
  /-- Directories that are searched after the ones around a file. -/
  roots : List Path

/-- A path is among others, by its components. -/
def isAmong (p : Path) (paths : List Path) : Bool := paths.any (· == p)

/--
The deepest file that the names lead to below a directory: a module file ends the search, a package
counts with its `__init__` file.
-/
def deepestFrom (l : Layout) : (best : Option Path) → Path → List String → Option Path
  | best, _, [] => best
  | best, dir, name :: rest =>
    let module := dir.join (name ++ ".py")
    let package := dir.join name
    let init := package.join "__init__.py"
    if isAmong module l.files then some module
    else if !isAmong package l.dirs then best
    else deepestFrom l (if isAmong init l.files then some init else best) package rest

/-- The file that the names lead to below a directory; no names at all mean the directory itself. -/
def deepestMatch (l : Layout) (dir : Path) (names : List String) : Option Path :=
  match names with
  | [] =>
    let init := dir.join "__init__.py"
    if isAmong init l.files then some init else none
  | names => deepestFrom l none dir names

def resolve (l : Layout) (decl : ImportDecl) : Option Path := do
  let names := decl.path ++ decl.name.toList
  let start ← Path.parent? ⟨decl.origin⟩
  if decl.isRelative then deepestMatch l (← start.up? (decl.dots - 1)) names
  else
    let searched := (start.ancestors ++ l.roots).filter fun dir => isAmong dir l.dirs
    searched.findSome? fun dir => deepestMatch l dir names

/-- The files that a file imports, each once, without itself. -/
def dependencies (l : Layout) (file : Path) (imports : List ImportDecl) : List Path :=
  (imports.filterMap (resolve l)).foldl
    (fun found dep => if dep == file || isAmong dep found then found else found ++ [dep]) []

/-- What a walk has entered, and what it has left, in this order. -/
structure Walk where
  entered : List Path
  left : List Path

/--
Enters a file unless it has been entered, walks from its links in turn, and leaves it. At most `fuel`
files are entered inside each other.
-/
def walk (links : Path → List Path) : (fuel : Nat) → Walk → Path → Walk
  | 0, w, _ => w
  | fuel + 1, w, file =>
    if isAmong file w.entered then w
    else
      let w := (links file).foldl (walk links fuel) { w with entered := w.entered ++ [file] }
      { w with left := w.left ++ [file] }

def layout (files : List (Path × List ImportDecl)) (roots : List Path) : Layout :=
  let paths := files.map Prod.fst
  ⟨paths, paths.flatMap (fun p => p.ancestors.drop 1) ++ roots, roots⟩

/-- The files that a file imports by all declarations that are given for it. -/
def links (files : List (Path × List ImportDecl)) (roots : List Path) (file : Path) : List Path :=
  dependencies (layout files roots) file ((files.filter fun entry => entry.1 == file).flatMap Prod.snd)

end ModuleOrder

/-- The order in which files are analysed: each once, after what it imports where cycles allow it. -/
def moduleOrder (files : List (Path × List ImportDecl)) (roots : List Path) : List Path :=
  let walk := ModuleOrder.walk (ModuleOrder.links files roots) (files.length + 1)
  ((files.map Prod.fst).foldl walk ⟨[], []⟩).left

end Surmise
