import Surmise.Project.Options
import Surmise.Toml.Reader

/-!
# Where options are set

A project sets options in a file of its own, or in a section of the project file that its other tools
share. What a file does not set keeps its default, and a key that names no option is ignored.
-/

namespace Surmise

namespace Options

def keys : List String :=
  ["passes", "use_capabilities", "private_imports", "python_paths", "max_eval_len"]

/-- The value of an option: what is set for it, if that is of the right sort, or else its default. -/
def setting {α : Type} (settings : List (String × Toml)) (key : String) (sort : Toml → Option α)
    (default : α) : Option α :=
  match settings.lookup key with
  | some value => sort value
  | none => some default

/-- The options of these settings. `directory` says which values name a directory. -/
def ofSettings? (directory : Toml → Option String) (settings : List (String × Toml)) : Option Options := do
  let passes ← setting settings "passes" Toml.natural? standard.passes
  let useCapabilities ← setting settings "use_capabilities" Toml.boolean? standard.useCapabilities
  let privateImports ← setting settings "private_imports" Toml.boolean? standard.privateImports
  let paths (value : Toml) : Option (List Path) :=
    value.items?.bind fun items => items.mapM fun item => (directory item).map Path.mk
  let searchPaths ← setting settings "python_paths" paths standard.searchPaths
  let maxEvalLength ← setting settings "max_eval_len" Toml.natural? standard.maxEvalLength
  return ⟨passes, useCapabilities, privateImports, searchPaths, maxEvalLength⟩

/-- Refuses settings of the wrong sort before it looks at their values. -/
def accept : Option Options → Except OptionsError Options
  | some options => options.validate
  | none => .error .malformed

def ofText (text : String) : Except OptionsError Options :=
  accept <| match Toml.read? text with
    | some (.table settings) => ofSettings? Toml.text? settings
    | _ => none

/-- The options of a section. It is a table, or an array of values in the order of the options; a
directory may look like a date. -/
def ofSection? : Toml → Option Options
  | .table settings => ofSettings? Toml.written? settings
  | .array values =>
    if values.length ≤ keys.length then ofSettings? Toml.written? (keys.zip values) else none
  | _ => none

/-- The options that the file of the project sets, which may have no section for them. -/
def ofProjectText (text : String) : Except OptionsError Options :=
  match Toml.read? text with
  | none => .error .malformed
  | some document =>
    match (document.get? "tool").bind (Toml.get? "lantern") with
    | some settings => accept (ofSection? settings)
    | none => .ok standard

end Options

/-- A directory: every name in it with the text of its file, or nothing for a directory. -/
structure Folder where
  entries : List (String × Option String)

namespace Folder

def contains (folder : Folder) (name : String) : Bool :=
  folder.entries.any fun entry => entry.1 = name

def text (folder : Folder) (name : String) : Except OptionsError String :=
  match folder.entries.lookup name with
  | some (some text) => .ok text
  | _ => .error .unreadable

def load (folder : Folder) (name : String) : Except OptionsError Options :=
  folder.text name >>= Options.ofText

/-- The options of a project in this directory. The file of their own comes before the file of the
project. -/
def discover (folder : Folder) : Except OptionsError Options :=
  if folder.contains "lantern.toml" then folder.load "lantern.toml"
  else if folder.contains "pyproject.toml" then folder.text "pyproject.toml" >>= Options.ofProjectText
  else .ok .standard

end Folder

end Surmise
