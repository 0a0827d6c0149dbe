import Mathlib.Data.List.Basic
import Surmise.Project.ModuleOrder

/-!
# The file that names lead to

Names lead from a directory down through its subdirectories. At each level there may be a file: a module file, or else
that of a package. The search stops at the first module file on its way down. So it finds the deepest file only where
no file lies below a module file.

* `ModuleOrder.levels`: the levels that names lead to.
* `ModuleOrder.module_hides_deeper_files`: what the search finds.
-/

namespace Surmise

namespace ModuleOrder

/-- Where the file of a prefix of names may lie. -/
structure Level where
  module : Path
  /-- The directory that all names of the prefix lead to. -/
  dir : Path

def Level.package (v : Level) : Path := v.dir.join "__init__.py"

/-- The levels of all prefixes of names that are not empty, that of the shortest one first. -/
def levels (base : Path) : List String → List Level
  | [] => []
  | name :: rest => ⟨base.join (name ++ ".py"), base.join name⟩ :: levels (base.join name) rest

/-- The path, if it is that of a file. -/
def known? (l : Layout) (p : Path) : Option Path := if isAmong p l.files then some p else none

/-- The file of the deepest level that has one: the module file, or else that of the package. -/
def deepest? (l : Layout) : List Level → Option Path
  | [] => none
  | v :: below => (deepest? l below).or ((known? l v.module).or (known? l v.package))

/-- The module file of the first level that has one. -/
def firstModule? (l : Layout) : List Level → Option Path
  | [] => none
  | v :: below => (known? l v.module).or (firstModule? l below)

/-- The package file of the deepest level that has one. -/
def lastPackage? (l : Layout) : List Level → Option Path
  | [] => none
  | v :: below => (lastPackage? l below).or (known? l v.package)

def Layout.hasFile (l : Layout) (v : Level) : Bool := isAmong v.module l.files || isAmong v.package l.files

/-- The directories around the files of all levels are known. -/
structure Layout.Encloses (l : Layout) (vs : List Level) : Prop where
  packages : ∀ v ∈ vs, isAmong v.package l.files = true → isAmong v.dir l.dirs = true
  deeper : vs.Pairwise fun v w => l.hasFile w = true → isAmong v.dir l.dirs = true

/-- No level below a module file has a file. -/
def Layout.Clear (l : Layout) (vs : List Level) : Prop :=
  vs.Pairwise fun v w => l.hasFile w = true → isAmong v.module l.files = false

variable {l : Layout} {vs : List Level}

theorem known?_eq_none {p : Path} (h : ¬ isAmong p l.files = true) : known? l p = none := if_neg h

theorem files_eq_none (h : ∀ v ∈ vs, ¬ l.hasFile v = true) :
    firstModule? l vs = none ∧ lastPackage? l vs = none ∧ deepest? l vs = none := by
  induction vs with
  | nil => exact ⟨rfl, rfl, rfl⟩
  | cons v below ih =>
    obtain ⟨hv, hbelow⟩ := List.forall_mem_cons.mp h
    obtain ⟨hfirst, hlast, hdeepest⟩ := ih hbelow
    rw [Layout.hasFile, Bool.or_eq_true, not_or] at hv
    rw [firstModule?, lastPackage?, deepest?, hfirst, hlast, hdeepest, known?_eq_none hv.1, known?_eq_none hv.2]
    exact ⟨rfl, rfl, rfl⟩

/-- **The search finds the first module file, or else the deepest package file**, or else what it had found. -/
theorem deepestFrom_eq {base : Path} {names : List String} (h : l.Encloses (levels base names)) (best : Option Path) :
    deepestFrom l best base names =
      (firstModule? l (levels base names)).or ((lastPackage? l (levels base names)).or best) := by
  induction names generalizing base best with
  | nil => rfl
  | cons name rest ih =>
    obtain ⟨hpackage, hpackages⟩ := List.forall_mem_cons.mp h.packages
    obtain ⟨hbelow, hdeeper⟩ := List.pairwise_cons.mp h.deeper
    rw [levels, firstModule?, lastPackage?, deepestFrom]
    by_cases hmodule : isAmong (base.join (name ++ ".py")) l.files = true
    · rw [if_pos hmodule, known?, if_pos hmodule]
      rfl
    · rw [if_neg hmodule, known?_eq_none hmodule, Option.none_or]
      by_cases hdir : isAmong (base.join name) l.dirs = true
      · rw [hdir, if_neg (by decide), ih ⟨hpackages, hdeeper⟩, Option.or_assoc]
        congr 2
        unfold known? Level.package
        split <;> rfl
      · -- below a directory that is not known there are no files
        obtain ⟨hfirst, hlast, -⟩ := files_eq_none fun w hw hfile => hdir (hbelow w hw hfile)
        rw [Bool.eq_false_iff.mpr hdir, if_pos (by decide), hfirst, hlast,
          known?_eq_none fun hfile => hdir (hpackage hfile)]
        rfl

theorem or_eq_deepest? (h : l.Clear vs) : (firstModule? l vs).or (lastPackage? l vs) = deepest? l vs := by
  induction vs with
  | nil => rfl
  | cons v below ih =>
    obtain ⟨hbelow, hrest⟩ := List.pairwise_cons.mp h
    rw [firstModule?, lastPackage?, deepest?]
    by_cases hmodule : isAmong v.module l.files = true
    · obtain ⟨-, -, hnone⟩ := files_eq_none fun w hw hfile => Bool.eq_false_iff.mp (hbelow w hw hfile) hmodule
      rw [hnone, known?, if_pos hmodule]
      rfl
    · rw [known?_eq_none hmodule, Option.none_or, Option.none_or, ← ih hrest, Option.or_assoc]

/--
**A module file hides all files below it.** Names lead from a directory to the module file of the shortest prefix that
has one, or else to the package file of the longest prefix that has one. Where no file lies below a module file, this is
the file of the longest prefix that has one.
-/
theorem module_hides_deeper_files (l : Layout) (base : Path) (names : List String) (hnames : names ≠ [])
    (hdirs : l.Encloses (levels base names)) :
    deepestMatch l base names = (firstModule? l (levels base names)).or (lastPackage? l (levels base names)) ∧
      (l.Clear (levels base names) → deepestMatch l base names = deepest? l (levels base names)) := by
  have hsearch : deepestMatch l base names = deepestFrom l none base names := by
    cases names with
    | nil => exact absurd rfl hnames
    | cons name rest => rfl
  rw [hsearch, deepestFrom_eq hdirs, Option.or_none]
  exact ⟨rfl, or_eq_deepest?⟩

/-- A module beside a directory of the same name, and a package. -/
def twofold : Layout := ⟨[⟨"/p/a.py"⟩, ⟨"/p/a/b.py"⟩, ⟨"/p/c/__init__.py"⟩], [⟨"/p/a"⟩, ⟨"/p/c"⟩, ⟨"/p"⟩, ⟨"/"⟩], []⟩

theorem module_hides_deeper_files_package :
    twofold.Clear (levels ⟨"/p"⟩ ["c", "d"]) ∧
      deepestMatch twofold ⟨"/p"⟩ ["c", "d"] = deepest? twofold (levels ⟨"/p"⟩ ["c", "d"]) := by
  have hclear : twofold.Clear (levels ⟨"/p"⟩ ["c", "d"]) := by
    unfold Layout.Clear
    decide +kernel
  refine ⟨hclear, (module_hides_deeper_files twofold ⟨"/p"⟩ ["c", "d"] (by decide) ⟨?_, ?_⟩).2 hclear⟩ <;>
    decide +kernel

/-- The file of the longest prefix is not found. -/
theorem module_hides_deeper_files_module :
    (deepestMatch twofold ⟨"/p"⟩ ["a", "b"]).map Path.text = some "/p/a.py" ∧
      (deepest? twofold (levels ⟨"/p"⟩ ["a", "b"])).map Path.text = some "/p/a/b.py" := by
  decide +kernel

end ModuleOrder

end Surmise
