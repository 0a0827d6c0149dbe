import Surmise.Store.Objects

/-!
# The tree of source files

The modules of the analysed files and the packages of their directories. Every directory is a package
whose entries are the modules and directories in it; an `__init__` file is no entry but the module of its
package.

Paths are looked up by their components, and kept in the order and the spelling in which they came
first.
-/

namespace Surmise

structure SourceTree where
  files : List (Path × ModuleId)
  dirs : List (Path × PackageId)
  deriving Inhabited

namespace SourceTree

def empty : SourceTree := ⟨[], []⟩

variable (t : SourceTree)

def file? (path : Path) : Option ModuleId :=
  (t.files.find? fun entry => entry.1 == path).map Prod.snd

def dir? (path : Path) : Option PackageId :=
  (t.dirs.find? fun entry => entry.1 == path).map Prod.snd

def contains (path : Path) : Bool := (t.file? path).isSome

/-- Writes the module of a file, at its place or at the end. -/
def putFile (path : Path) (m : ModuleId) : List (Path × ModuleId) → List (Path × ModuleId)
  | [] => [(path, m)]
  | (key, old) :: rest => if key == path then (key, m) :: rest else (key, old) :: putFile path m rest

/-! ## Growing -/

/--
The package of a directory. It is made if it is missing, and so are the ones around it, of which there
are at most `above`; each becomes an entry of the one around it.
-/
def addDirWithin : (above : Nat) → SourceTree → Path → StoreM (SourceTree × PackageId)
  | above, t, dir => do
    match t.dir? dir with
    | some p => return (t, p)
    | none =>
      let p ← StoreM.newPackage dir
      let t := { t with dirs := t.dirs ++ [(dir, p)] }
      match above, dir.parent?, dir.fileName? with
      | above + 1, some parent, some name =>
        let (t, around) ← addDirWithin above t parent
        StoreM.produceIn ((← get).package around).entries name (.packageRef p)
        return (t, p)
      | _, _, _ => return (t, p)

/-- The package of a directory, made with the ones around it if it is missing. -/
def addDir (dir : Path) : StoreM (SourceTree × PackageId) :=
  addDirWithin dir.parts.length t dir

def addFile (path : Path) (m : ModuleId) : StoreM SourceTree := do
  let (t, package) ← t.addDir (path.parent?.getD .empty)
  if path.fileName? = some "__init__.py" then
    StoreM.setInit package (some m)
  else
    StoreM.produceIn ((← get).package package).entries path.moduleName (.moduleRef m)
  return { t with files := putFile path m t.files }

/-! ## Looking up -/

def entry? (s : Store) (dir : Path) (name : String) : Option SymbolId :=
  (t.dir? dir).bind fun p => s.get? (s.package p).entries name

/-- The entry with this name in the nearest directory around a file that has one. -/
def importAbsolute (s : Store) (origin : Path) (name : String) : Option SymbolId :=
  origin.parent?.bind fun start => start.ancestors.findSome? fun dir => t.entry? s dir name

/-- The package as many levels up from a file as there are dots; one dot is the file's directory. -/
def importRelative (origin : Path) (dots : Nat) : Option PackageId :=
  (origin.parent?.bind fun dir => dir.up? (dots - 1)).bind t.dir?

end SourceTree

end Surmise
