import Surmise.Proofs.Path
import Surmise.Proofs.Store.Objects

/-!
# Adding files to the tree

A file is added by a sequence of small changes: packages are made for the directories around it, and each
becomes an entry of the one around it.

* `SourceTree.Load`: these changes. Packages get entries only where an analysed file lies below them.
* `SourceTree.loads_addFile`: adding a file makes no others.
-/

namespace Surmise

namespace StoreM

open Store

variable {s : Store}

/-- The store with one more package, whose entries are in the last scope. -/
def packageAdded (dir : Path) (s : Store) : Store :=
  { opened (.ofFile dir) none s with packages := s.packages.push ⟨dir, ⟨s.tables.size⟩, none⟩ }

theorem newPackage_eq (dir : Path) (s : Store) : newPackage dir s = (⟨s.packages.size⟩, packageAdded dir s) := rfl

theorem package_packageAdded (dir : Path) (s : Store) (p : PackageId) : (packageAdded dir s).package p =
      if p.index = s.packages.size then ⟨dir, ⟨s.tables.size⟩, none⟩ else s.package p :=
  getD_push _ _ _ _

theorem extends_packageAdded (dir : Path) (s : Store) : s.Extends (packageAdded dir s) :=
  { extends_opened (.ofFile dir) none s with
    packages := by simp [packageAdded]
    package := fun p hp => by
      rw [package_packageAdded, if_neg (Nat.ne_of_lt hp)]
      exact ⟨rfl, rfl⟩ }

theorem consistent_packageAdded (hs : s.Consistent) (dir : Path) : (packageAdded dir s).Consistent := by
  have ho := consistent_opened (.ofFile dir) none hs
  exact ⟨{ ho.sound with }, ho.tidy.entry, ho.tidy.once⟩

theorem package_setInit (p q : PackageId) (init : Option ModuleId) (s : Store) :
    ((setInit p init s).2.package q).dir = (s.package q).dir ∧
      ((setInit p init s).2.package q).entries = (s.package q).entries := by
  have hq : (setInit p init s).2.package q =
      (s.packages.modify p.index fun info => { info with init }).getD q.index default := rfl
  rw [hq, getD_modify]
  split <;> exact ⟨rfl, rfl⟩

theorem extends_setInit (p : PackageId) (init : Option ModuleId) (s : Store) : s.Extends (setInit p init s).2 :=
  { Extends.refl s with
    packages := Nat.le_of_eq Array.size_modify.symm
    package := fun q _ => package_setInit p q init s }

theorem consistent_setInit (hs : s.Consistent) (p : PackageId) (init : Option ModuleId) :
    (setInit p init s).2.Consistent :=
  ⟨{ hs.sound with }, hs.tidy.entry, hs.tidy.once⟩

theorem produceIn_eq (table : TableId) (name : String) (v : Value) (s : Store) : produceIn table name v s =
      producePrivate (createPrivate table name false s).1 v false (createPrivate table name false s).2 :=
  rfl

theorem extends_produceIn (table : TableId) (name : String) (v : Value) (s : Store) :
    s.Extends (produceIn table name v s).2 := by
  rw [produceIn_eq]
  exact (extends_createPrivate s table name false).trans (extends_producePrivate _ _ v false)

theorem sameObjects_produceIn (table : TableId) (name : String) (v : Value) (s : Store) :
    SameObjects s (produceIn table name v s).2 := by
  rw [produceIn_eq]
  exact (sameObjects_createPrivate s table name false).trans (sameObjects_producePrivate _ _ v false)

theorem consistent_produceIn (hs : s.Consistent) (table : TableId) (name : String) {v : Value}
    (hv : v.Sound s.nextSerial) : (produceIn table name v s).2.Consistent := by
  have hsound := hs.sound.createPrivate table name false
  have hserial := (extends_createPrivate s table name false).serial
  rw [produceIn_eq]
  refine ⟨hsound.producePrivate _ (hv.mono hserial) false, ?_⟩
  exact (hs.tidy.createPrivate table name false).of_tables (extends_producePrivate _ _ v false)
    (tables_producePrivate _ _ v false)

end StoreM

namespace SourceTree

open StoreM

variable {t : SourceTree} {dir path : Path} {p : PackageId}

/--
A single change of the store and the tree while files are added. A package gets a named entry only if it
satisfies `Q`.
-/
inductive Load (Q : Path → Prop) : Store × SourceTree → Store × SourceTree → Prop
  | package (s : Store) (t : SourceTree) {dir : Path} (hnew : t.dir? dir = none) :
      Load Q (s, t) (packageAdded dir s, { t with dirs := t.dirs ++ [(dir, ⟨s.packages.size⟩)] })
  | entry (s : Store) (t : SourceTree) {p : PackageId} (hp : p.index < s.packages.size) {name : String}
      (hname : name = "" ∨ Q (s.package p).dir) {v : Value} (hv : v.Sound s.nextSerial) :
      Load Q (s, t) ((produceIn (s.package p).entries name v s).2, t)
  | init (s : Store) (t : SourceTree) (p : PackageId) (m : Option ModuleId) :
      Load Q (s, t) ((setInit p m s).2, t)

abbrev Loads (Q : Path → Prop) : Store × SourceTree → Store × SourceTree → Prop :=
  Relation.ReflTransGen (Load Q)

section Kept

variable {Q : Path → Prop} {a b : Store × SourceTree}

theorem Load.extension (h : Load Q a b) : a.1.Extends b.1 := by
  cases h with
  | package s t hnew => exact extends_packageAdded _ s
  | entry s t hp hname hv => exact extends_produceIn _ _ _ s
  | init s t p m => exact extends_setInit p m s

theorem Loads.extension (h : Loads Q a b) : a.1.Extends b.1 := by
  induction h with
  | refl => exact .refl _
  | tail _ hload ih => exact ih.trans hload.extension

/-- Files are added without making functions, classes or modules. -/
structure SameProgram (s s' : Store) : Prop where
  functions : s'.functions = s.functions
  classes : s'.classes.size = s.classes.size
  modules : s'.modules = s.modules

theorem Load.sameProgram (h : Load Q a b) : SameProgram a.1 b.1 := by
  cases h with
  | package | init => exact ⟨rfl, rfl, rfl⟩
  | @entry s t p hp name hname v hv =>
    have hsame := sameObjects_produceIn (s.package p).entries name v s
    exact ⟨hsame.functions, hsame.classes, hsame.modules⟩

theorem Loads.sameProgram (h : Loads Q a b) : SameProgram a.1 b.1 := by
  induction h with
  | refl => exact ⟨rfl, rfl, rfl⟩
  | tail _ hload ih =>
    have hlast := hload.sameProgram
    exact ⟨hlast.functions.trans ih.functions, hlast.classes.trans ih.classes, hlast.modules.trans ih.modules⟩

theorem Load.files (h : Load Q a b) : b.2.files = a.2.files := by
  cases h <;> rfl

theorem Loads.files (h : Loads Q a b) : b.2.files = a.2.files := by
  induction h with
  | refl => rfl
  | tail _ hload ih => exact hload.files.trans ih

/-- The packages of a tree are there, and are those of their directories. -/
def Keyed (a : Store × SourceTree) : Prop :=
  ∀ e ∈ a.2.dirs, e.2.index < a.1.packages.size ∧ (a.1.package e.2).dir = e.1

theorem Keyed.mono {s s' : Store} {t : SourceTree} (h : Keyed (s, t)) (hx : s.Extends s') : Keyed (s', t) := by
  intro e he
  obtain ⟨hlt, hdir⟩ := h e he
  exact ⟨Nat.lt_of_lt_of_le hlt hx.packages, (hx.package e.2 hlt).1.trans hdir⟩

theorem Load.keyed (h : Load Q a b) (ha : Keyed a) : Keyed b := by
  have hkept : Keyed (b.1, a.2) := Keyed.mono ha h.extension
  cases h with
  | package s t hnew =>
    intro e he
    rcases List.mem_append.mp he with hold | hnew
    · exact hkept e hold
    · obtain rfl := List.mem_singleton.mp hnew
      refine ⟨by simp [packageAdded], ?_⟩
      rw [package_packageAdded, if_pos rfl]
  | entry | init => exact hkept

theorem Loads.keyed (h : Loads Q a b) (ha : Keyed a) : Keyed b := by
  induction h with
  | refl => exact ha
  | tail _ hload ih => exact hload.keyed ih

end Kept

/-! ## Adding directories and files -/

theorem mem_dirs_of_dir? (h : t.dir? dir = some p) : ∃ e ∈ t.dirs, (e.1 == dir) = true ∧ e.2 = p := by
  obtain ⟨e, he, rfl⟩ := Option.map_eq_some_iff.mp h
  have hkey := List.find?_some he
  exact ⟨e, List.mem_of_find?_eq_some he, hkey, rfl⟩

def withDir (t : SourceTree) (dir : Path) (p : PackageId) : SourceTree :=
  { t with dirs := t.dirs ++ [(dir, p)] }

/-- A directory is there, or is added with those around it, and becomes an entry of the one around it. -/
inductive AddsDir : Store → SourceTree → Path → PackageId → Store → SourceTree → Prop
  | found {s : Store} {t : SourceTree} {dir : Path} {p : PackageId} (h : t.dir? dir = some p) : AddsDir s t dir p s t
  | outermost {s : Store} {t : SourceTree} {dir : Path} (hnew : t.dir? dir = none)
      (hend : dir.parent? = none ∨ dir.fileName? = none) :
      AddsDir s t dir ⟨s.packages.size⟩ (packageAdded dir s) (t.withDir dir ⟨s.packages.size⟩)
  | within {s s' : Store} {t t' : SourceTree} {dir parent : Path} {name : String} {around : PackageId}
      (hnew : t.dir? dir = none) (hparent : dir.parent? = some parent) (hname : dir.fileName? = some name)
      (h : AddsDir (packageAdded dir s) (t.withDir dir ⟨s.packages.size⟩) parent around s' t') :
      AddsDir s t dir ⟨s.packages.size⟩
        (produceIn (s'.package around).entries name (.packageRef ⟨s.packages.size⟩) s').2 t'

theorem addsDir_addDirWithin (above : Nat) (t : SourceTree) (dir : Path) (s : Store)
    (habove : dir.parts.length ≤ above) :
    ∃ t' p s', addDirWithin above t dir s = ((t', p), s') ∧ AddsDir s t dir p s' t' := by
  induction above generalizing t dir s with
  | zero =>
    have hend : dir.parent? = none := by
      rw [Path.parent?, List.eq_nil_of_length_eq_zero (Nat.le_zero.mp habove)]
      rfl
    unfold addDirWithin
    cases hdir : t.dir? dir with
    | some p => exact ⟨t, p, s, rfl, .found hdir⟩
    | none => exact ⟨_, _, _, rfl, .outermost hdir (.inl hend)⟩
  | succ above ih =>
    unfold addDirWithin
    cases hdir : t.dir? dir with
    | some p => exact ⟨t, p, s, rfl, .found hdir⟩
    | none =>
      cases hparent : dir.parent? with
      | none => exact ⟨_, _, _, rfl, .outermost hdir (.inl hparent)⟩
      | some parent =>
        cases hname : dir.fileName? with
        | none => exact ⟨_, _, _, rfl, .outermost hdir (.inr hname)⟩
        | some name =>
          have hlength := Path.length_parts_of_parent? hparent
          obtain ⟨t', around, s', heq, haround⟩ :=
            ih (t.withDir dir ⟨s.packages.size⟩) parent (packageAdded dir s) (by omega)
          refine ⟨t', _, _, ?_, .within hdir hparent hname haround⟩
          dsimp only
          rw [bind_apply, newPackage_eq]
          dsimp only
          rw [bind_apply, ← withDir, heq]
          dsimp only
          rw [bind_apply, get_apply, bind_apply]
          generalize produceIn _ _ _ _ = out
          rfl

/-- A directory that was added has its package. -/
def HasPackage (s : Store) (dir : Path) (p : PackageId) : Prop :=
  p.index < s.packages.size ∧ ((s.package p).dir == dir) = true

theorem HasPackage.mono {s s' : Store} (h : HasPackage s dir p) (hx : s.Extends s') : HasPackage s' dir p := by
  refine ⟨Nat.lt_of_lt_of_le h.1 hx.packages, ?_⟩
  rw [(hx.package p h.1).1]
  exact h.2

theorem hasPackage_of_dir? {s : Store} (hkeyed : Keyed (s, t)) (h : t.dir? dir = some p) : HasPackage s dir p := by
  obtain ⟨e, he, hkey, rfl⟩ := mem_dirs_of_dir? h
  obtain ⟨hlt, hpath⟩ := hkeyed e he
  exact ⟨hlt, hpath ▸ hkey⟩

theorem hasPackage_packageAdded (dir : Path) (s : Store) : HasPackage (packageAdded dir s) dir ⟨s.packages.size⟩ := by
  refine ⟨by simp [packageAdded], ?_⟩
  rw [package_packageAdded, if_pos rfl]
  exact Path.beq_self dir

/--
Adding a directory adds packages for it and for those around it. `Q` must hold of the directories around
it, since these get entries.
-/
theorem AddsDir.loads {Q : Path → Prop} {s s' : Store} {t t' : SourceTree} (h : AddsDir s t dir p s' t')
    (hkeyed : Keyed (s, t)) (hq : ∀ n a d, dir.up? (n + 1) = some a → (d == a) = true → Q d) :
    Loads Q (s, t) (s', t') ∧ HasPackage s' dir p := by
  induction h with
  | found h => exact ⟨.refl, hasPackage_of_dir? hkeyed h⟩
  | @outermost s t dir hnew => exact ⟨.single (.package s t hnew), hasPackage_packageAdded dir s⟩
  | @within s s' t t' dir parent name around hnew hparent hname _ ih =>
    have hup : ∀ n, dir.up? (n + 1) = parent.up? n := fun n => by
      rw [Path.up?, hparent]
      rfl
    have hpackage : Load Q (s, t) (packageAdded dir s, t.withDir dir ⟨s.packages.size⟩) := .package s t hnew
    obtain ⟨hloads, haround⟩ := ih (hpackage.keyed hkeyed) fun n a d ha => hq (n + 1) a d (by rw [hup, ha])
    refine ⟨(Relation.ReflTransGen.head hpackage hloads).tail ?_, ?_⟩
    · exact .entry s' t' haround.1 (.inr (hq 0 parent _ (hup 0) haround.2)) (by simp)
    · have hadded := (hasPackage_packageAdded dir s).mono hloads.extension
      exact hadded.mono (extends_produceIn _ name _ s')

theorem forall_of_not_contains (h : t.contains path = false) : ∀ e ∈ t.files, (e.1 == path) = false := by
  have hfile : t.file? path = none := by simpa [contains] using h
  intro e he
  exact Bool.eq_false_iff.mpr (List.find?_eq_none.mp (Option.map_eq_none_iff.mp hfile) e he)

/-- A file that is not there is put at the end. -/
theorem putFile_eq_append {files : List (Path × ModuleId)} (h : ∀ e ∈ files, (e.1 == path) = false)
    (m : ModuleId) : putFile path m files = files ++ [(path, m)] := by
  induction files with
  | nil => rfl
  | cons first rest ih =>
    have hfirst := h first List.mem_cons_self
    rw [putFile, hfirst, ih fun e he => h e (List.mem_cons_of_mem _ he)]
    rfl

/-- The modules of a tree with one more file are the ones it had, and the new one. -/
theorem mem_putFile {m : ModuleId} {files : List (Path × ModuleId)} {e : Path × ModuleId}
    (h : e ∈ putFile path m files) : e ∈ files ∨ e.2 = m := by
  induction files with
  | nil =>
    obtain rfl := List.mem_singleton.mp h
    exact .inr rfl
  | cons first rest ih =>
    rw [putFile] at h
    split at h
    · rcases List.mem_cons.mp h with rfl | hmem
      · exact .inr rfl
      · exact .inl (List.mem_cons_of_mem _ hmem)
    · rcases List.mem_cons.mp h with rfl | hmem
      · exact .inl List.mem_cons_self
      · exact (ih hmem).imp_left (List.mem_cons_of_mem _)

theorem moduleName_of_no_parent (h : path.parent? = none) : path.moduleName = "" := by
  have hparts : path.parts = [] := by
    unfold Path.parent? at h
    split at h
    · next hreverse => exact List.reverse_eq_nil_iff.mp hreverse
    · cases h
    · cases h
  have hname : path.fileName? = none := by
    rw [Path.fileName?, hparts]
    rfl
  rw [Path.moduleName, Path.fileStem?, hname]
  rfl

/-- The store after a file was entered in the package of its directory. -/
def fileEntered (path : Path) (m : ModuleId) (p : PackageId) (s : Store) : Store :=
  if path.fileName? = some "__init__.py" then (setInit p (some m) s).2
  else (produceIn (s.package p).entries path.moduleName (.moduleRef m) s).2

theorem load_fileEntered {Q : Path → Prop} {s : Store} (hp : p.index < s.packages.size)
    (hname : path.moduleName = "" ∨ Q (s.package p).dir) (m : ModuleId) :
    Load Q (s, t) (fileEntered path m p s, t) := by
  unfold fileEntered
  split
  · exact .init s t p (some m)
  · exact .entry s t hp hname (by simp)

theorem addFile_eq (t : SourceTree) (path : Path) (m : ModuleId) (s : Store) :
    ∃ t' p s', AddsDir s t (path.parent?.getD .empty) p s' t' ∧
      t.addFile path m s = ({ t' with files := putFile path m t'.files }, fileEntered path m p s') := by
  obtain ⟨t', p, s', heq, hadds⟩ := addsDir_addDirWithin _ t (path.parent?.getD .empty) s (Nat.le_refl _)
  refine ⟨t', p, s', hadds, ?_⟩
  unfold addFile addDir fileEntered
  rw [bind_apply, heq]
  dsimp only
  split
  · rfl
  · rw [bind_apply, get_apply, bind_apply]
    generalize produceIn _ _ _ _ = out
    rfl

/-- Adding a file adds packages for the directories around it, and an entry for the file. -/
theorem loads_addFile {Q : Path → Prop} (t : SourceTree) (path : Path) (m : ModuleId) (s : Store)
    (hkeyed : Keyed (s, t)) (hq : ∀ n a d, path.up? (n + 1) = some a → (d == a) = true → Q d) :
    ∃ t' s', t.addFile path m s = ({ t' with files := putFile path m t'.files }, s') ∧ Loads Q (s, t) (s', t') := by
  have haround : ∀ n a d, (path.parent?.getD .empty).up? (n + 1) = some a → (d == a) = true → Q d := by
    intro n a d ha
    cases hparent : path.parent? with
    | none =>
      -- a file without a directory is taken to lie in the empty path, which nothing is around
      rw [hparent] at ha
      cases ha
    | some parent =>
      rw [hparent] at ha
      refine hq (n + 1) a d ?_
      rw [Path.up?, hparent]
      exact ha
  have hname : ∀ d, (d == path.parent?.getD .empty) = true → path.moduleName = "" ∨ Q d := by
    intro d hd
    cases hparent : path.parent? with
    | none => exact .inl (moduleName_of_no_parent hparent)
    | some parent =>
      rw [hparent] at hd
      refine .inr (hq 0 parent d ?_ hd)
      rw [Path.up?, hparent]
      rfl
  obtain ⟨t', p, s', hadds, heq⟩ := addFile_eq t path m s
  obtain ⟨hloads, hp⟩ := hadds.loads hkeyed haround
  exact ⟨t', _, heq, hloads.tail (load_fileEntered hp.1 (hname _ hp.2) m)⟩

end SourceTree

end Surmise
