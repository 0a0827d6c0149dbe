import Surmise.Proofs.Project.Directories
import Surmise.Proofs.Store.Scopes

/-!
# What a tree of files holds

Files are added to an empty tree one after another, at any paths and in any order, also repeatedly. An entry of
a package has as many alternatives as a value can have. So a module or a directory that came to an entry
without room is not found there, and every other one is, whatever is added later.

* `SourceTree.grown`: the tree after some files.
* `SourceTree.alternatives`: what the package of a directory has under a name.
* `SourceTree.Holds`: what the tree has for the files that were added.
* `SourceTree.holds_addFiles`: it has that after every sequence of files.
-/

namespace Surmise

/-! ## Entries of packages -/

theorem Mark.serial_zero (mark : Mark) (serial : Option Nat) (parts : Key) :
    mark.serial 0 serial parts = mark :: parts ∨ ∃ k, mark.serial 0 serial parts = [.numbered k] := by
  unfold Mark.serial
  split
  · exact .inl rfl
  · cases serial with
    | none => exact .inl rfl
    | some k => exact .inr ⟨k, rfl⟩

namespace Value

variable {held held' v w : Value} {vs ws : List Value}

/-- What packages have entries for. -/
inductive IsEntry : Value → Prop
  | module (m : ModuleId) : IsEntry (.moduleRef m)
  | package (p : PackageId) : IsEntry (.packageRef p)

theorem IsEntry.eq_of_slot (h : v.IsEntry) (hslot : w.slot = v.slot) : w = v := by
  cases h <;> cases w
  case module.synthetic s | package.synthetic s => cases s <;> cases hslot
  all_goals first | cases hslot <;> rfl | grind [slot, key, keyAt, Mark.serial_zero]

theorem IsEntry.wellFormed (h : v.IsEntry) : v.WellFormed := by
  cases h <;> exact wellFormed_of_isAtom rfl

theorem GrowsAll.mem (h : GrowsAll vs ws) (hv : v ∈ vs) (hkept : v.isMerged = false) : v ∈ ws := by
  induction vs generalizing ws with
  | nil => cases hv
  | cons first vs ih =>
    cases h with
    | cons hfirst hvs =>
      rcases List.mem_cons.mp hv with rfl | hv
      · exact (becomes_iff.mp hfirst).2.1 hkept ▸ List.mem_cons_self
      · exact List.mem_cons_of_mem _ (ih hvs hv)

/-- A join that has room for the entry has it. -/
theorem IsEntry.mem_unite (hv : v.IsEntry) (hheld : held.WellFormed) (hroom : held.disjuncts.length < maxDisjuncts) :
    v ∈ (unite [held, v]).disjuncts := by
  have hall : ∀ u ∈ [held, v], u.WellFormed := by simpa using ⟨hheld, hv.wellFormed⟩
  have hflat : flatten [held, v] = held.disjuncts ++ [v] := by cases hv <;> simp [flatten, disjuncts]
  have hdistinct := nodup_eraseDups ((flatten [held, v]).map slot)
  have hfew := (List.subperm_of_subset hdistinct fun _ => List.mem_eraseDups.mp).length_le
  have hlength : ((flatten [held, v]).map slot).length ≤ maxDisjuncts := by
    rw [hflat, List.length_map, List.length_append]
    exact hroom
  have hslots := map_slot_merged unite [held, v]
  rw [keptSlots, List.take_of_length_le (Nat.le_trans hfew hlength)] at hslots
  have hslot : v.slot ∈ ((flatten [held, v]).map slot).eraseDups := by simp [hflat]
  rw [disjuncts_unite hall]
  obtain ⟨d, hd, hsame⟩ := List.mem_map.mp (hslots ▸ hslot)
  exact hv.eq_of_slot hsame ▸ hd

theorem mem_numberAll_of_isNumbered (hv : v ∈ vs) (hnumbered : v.isNumbered) (n : Nat) : v ∈ (numberAll vs n).1 := by
  induction vs generalizing n with
  | nil => cases hv
  | cons first vs ih =>
    rw [numberAll_cons]
    rcases List.mem_cons.mp hv with rfl | hv
    · rw [number_of_isNumbered hnumbered]
      exact List.mem_cons_self
    · exact List.mem_cons_of_mem _ (ih hv _)

theorem IsEntry.mem_number (hv : v.IsEntry) (h : v ∈ held.disjuncts) (n : Nat) : v ∈ (held.number n).1.disjuncts := by
  rw [disjuncts_number]
  refine mem_numberAll_of_isNumbered h ?_ n
  cases hv <;> rfl

end Value

namespace Store

variable {s : Store} {t table : TableId} {name other : String} {v w : Value}

/-- What a scope has under a name. -/
def alternatives (s : Store) (t : TableId) (name : String) : List Value :=
  ((s.valueIn? t name).getD .empty).disjuncts

theorem alternatives_congr {s' : Store} {t' : TableId} (h : s'.valueIn? t' name = s.valueIn? t name) :
    s'.alternatives t' name = s.alternatives t name := by
  rw [alternatives, h]
  rfl

theorem sound_alternatives (hs : s.Sound) (t : TableId) (name : String) :
    ((s.valueIn? t name).getD .empty).WellFormed ∧ ((s.valueIn? t name).getD .empty).isNumbered := by
  cases h : s.valueIn? t name with
  | none => exact ⟨(Value.sound_empty (n := 0)).wellFormed, rfl⟩
  | some held =>
    obtain ⟨id, -, rfl⟩ := Option.map_eq_some_iff.mp h
    exact ⟨(hs.value id).wellFormed, hs.numbered id⟩

theorem alternatives_entered (hs : s.Consistent) (ht : t.index < s.tables.size) :
    (StoreM.produceIn t name v s).2.alternatives t name = (s.joined ((s.valueIn? t name).getD .empty) v).disjuncts :=
  congrArg (fun held => (held.getD .empty).disjuncts) (StoreM.valueIn?_entered hs.tidy ht false v false)

/-- What a scope has it still has when something was joined into one of its names. -/
theorem mem_alternatives_produceIn (h : v ∈ s.alternatives t name) (hv : v.IsEntry) (hs : s.Consistent)
    (table : TableId) (other : String) (hw : w.Sound s.nextSerial) :
    v ∈ (StoreM.produceIn table other w s).2.alternatives t name := by
  by_cases hsame : t = table ∧ name = other
  · obtain ⟨rfl, rfl⟩ := hsame
    obtain ⟨hwell, hnumbered⟩ := sound_alternatives hs.sound t name
    by_cases ht : t.index < s.tables.size
    · rw [alternatives_entered hs ht, joined]
      split
      · exact h
      · have hboth : ∀ u ∈ [(s.valueIn? t name).getD .empty, w], u.WellFormed := by simpa using ⟨hwell, hw.wellFormed⟩
        obtain ⟨hall⟩ := (Value.grows_unite hboth).number hnumbered s.nextSerial
        exact hall.mem h (by cases hv <;> rfl)
    · rw [alternatives, valueIn?, StoreM.get?_of_size_le (Nat.le_of_not_lt ht)] at h
      cases h
  · exact (alternatives_congr (StoreM.valueIn?_entered_of_ne hs.tidy hsame false w false)).symm ▸ h

/-- An entry is added, unless there are as many as can be. -/
theorem mem_alternatives_entered (hs : s.Consistent) (ht : t.index < s.tables.size) (hv : v.IsEntry)
    (hroom : (s.alternatives t name).length < maxDisjuncts) :
    v ∈ (StoreM.produceIn t name v s).2.alternatives t name := by
  have hempty : v.isEmpty = false := by cases hv <;> rfl
  rw [alternatives_entered hs ht, joined, hempty]
  exact hv.mem_number (hv.mem_unite (sound_alternatives hs.sound t name).1 hroom) _

end Store

namespace SourceTree

open Store StoreM

variable {Q : Path → Prop} {a b : Store × SourceTree} {s s' : Store} {t t' : SourceTree} {dir : Path} {p : PackageId}
  {added : List (Path × ModuleId)}

/-- The store is in order, and every directory of the tree has a package of its own. -/
structure Grounded (a : Store × SourceTree) : Prop where
  consistent : a.1.Consistent
  keyed : Keyed a
  housed : Housed (fun _ => True) a

theorem Loads.grounded (h : Loads Q a b) (ha : Grounded a) : Grounded b := by
  induction h with
  | refl => exact ha
  | tail _ hload ih =>
    exact ⟨hload.consistent ih.consistent, hload.keyed ih.keyed,
      hload.housed (fun _ _ => trivial) ih.housed⟩

/-! ## Directories -/

theorem dir?_congr {dir' : Path} (h : (dir == dir') = true) (t : SourceTree) : t.dir? dir = t.dir? dir' := by
  have hsame : ∀ d : Path, (d == dir) = (d == dir') := fun d => by
    rw [Bool.eq_iff_iff, Path.beq_iff, Path.beq_iff, Path.beq_iff.mp h]
  unfold dir?
  simp only [hsame]

theorem dir?_withDir (t : SourceTree) (dir d : Path) (p : PackageId) :
    (t.withDir dir p).dir? d = (t.dir? d).or (if dir == d then some p else none) := by
  unfold dir? withDir
  rw [List.find?_append, List.find?_singleton]
  cases t.dirs.find? _ with
  | some e => rfl
  | none => dsimp only [Option.none_or]; split <;> rfl

/-- The module of a directory. -/
def init? (a : Store × SourceTree) (dir : Path) : Option ModuleId := (a.2.dir? dir).bind fun p => (a.1.package p).init

/-- What the package of a directory has under a name. -/
def alternatives (a : Store × SourceTree) (dir : Path) (name : String) : List Value :=
  (a.2.dir? dir).elim [] fun p => a.1.alternatives (a.1.package p).entries name

/-- A package in the tree keeps what it has. -/
theorem Loads.mem_alternatives (h : Loads Q a b) (ha : Grounded a) {name : String} {v : Value} (hv : v.IsEntry)
    (hmem : v ∈ alternatives a dir name) (hkept : ∀ q, a.2.dir? dir = some q → b.2.dir? dir = some q) :
    v ∈ alternatives b dir name := by
  unfold alternatives at hmem ⊢
  cases hp : a.2.dir? dir with
  | none =>
    rw [hp] at hmem
    cases hmem
  | some p =>
    rw [hp] at hmem
    rw [hkept p hp, Option.elim_some, (h.extension.package p (hasPackage_of_dir? ha.keyed hp).1).2]
    clear hkept
    induction h with
    | refl => exact hmem
    | tail hbefore hload ih =>
      have hmid := Loads.grounded hbefore ha
      cases hload with
      | package s t hnew => exact (alternatives_congr (valueIn?_congr (get?_opened ..) fun _ _ => rfl)).symm ▸ ih
      | entry s t hp hname hw => exact mem_alternatives_produceIn ih hv hmid.consistent _ _ hw
      | init s t p m => exact ih

theorem alternatives_packageAdded (ha : Keyed (s, t)) (dir d : Path) (name : String) :
    alternatives (packageAdded dir s, t.withDir dir ⟨s.packages.size⟩) d name = alternatives (s, t) d name := by
  have hsame : ∀ table, (packageAdded dir s).alternatives table name = s.alternatives table name := fun table =>
    alternatives_congr (valueIn?_congr (get?_opened ..) fun _ _ => rfl)
  unfold alternatives
  simp only [dir?_withDir, hsame, package_packageAdded]
  cases hq : t.dir? d with
  | some q =>
    have hlt := (hasPackage_of_dir? ha hq).1
    rw [Option.some_or, Option.elim_some, Option.elim_some, if_neg (Nat.ne_of_lt hlt)]
  | none =>
    rw [Option.none_or]
    split
    · have hnone : s.get? ⟨s.tables.size⟩ name = none := get?_of_size_le (Nat.le_refl _) name
      rw [Option.elim_some, if_pos rfl, Store.alternatives, valueIn?, hnone]
      rfl
    · rfl

/-- An entry of one package is none of a package further down. -/
theorem alternatives_produceIn (ha : Grounded (s, t)) (hp : t.dir? dir = some p) {d : Path}
    (hlt : dir.parts.length < d.parts.length) (entry name : String) (v : Value) :
    alternatives ((produceIn (s.package p).entries entry v s).2, t) d name = alternatives (s, t) d name := by
  unfold alternatives
  cases hq : t.dir? d with
  | none => rfl
  | some q =>
    rw [Option.elim_some, Option.elim_some, package_of_packages (sameObjects_produceIn ..).packages]
    refine alternatives_congr (valueIn?_entered_of_ne ha.consistent.tidy (fun hsame => ?_) false v false)
    -- packages with one scope have one directory
    obtain ⟨hq, hdirq⟩ := hasPackage_of_dir? ha.keyed hq
    obtain ⟨hp, hdirp⟩ := hasPackage_of_dir? ha.keyed hp
    have haddress := ha.housed.address q hq
    dsimp only at haddress
    rw [hsame.1, ha.housed.address p hp] at haddress
    have hdir : (s.package p).dir = (s.package q).dir := congrArg Address.file haddress
    have hcomponents := (Path.beq_iff.mp hdirp).symm.trans (hdir ▸ Path.beq_iff.mp hdirq)
    have hlength := congrArg (fun c => c.names.length) hcomponents
    simp only [Path.components, List.length_map] at hlength
    omega

theorem init?_packageAdded (s : Store) (t : SourceTree) (dir d : Path) :
    init? (packageAdded dir s, t.withDir dir ⟨s.packages.size⟩) d = init? (s, t) d := by
  have hinit : ∀ q, ((packageAdded dir s).package q).init = (s.package q).init := by
    intro q
    rw [package_packageAdded]
    split
    · next h => simp [Store.package, h]; rfl
    · rfl
  unfold init?
  simp only [dir?_withDir, hinit]
  cases t.dir? d with
  | some q => rfl
  | none =>
    rw [Option.none_or]
    split
    · simp [Store.package]; rfl
    · rfl

/--
The package of a directory has been made an entry of the one around it between two states, unless that
entry had no room in the first one.
-/
def Links (a b : Store × SourceTree) (e : Path × PackageId) : Prop :=
  ∀ parent name, e.1.parent? = some parent → e.1.fileName? = some name → (b.2.dir? parent).isSome ∧
    (.packageRef e.2 ∈ alternatives b parent name ∨ maxDisjuncts ≤ (alternatives a parent name).length)

/-- What adding a directory does to the tree. -/
structure Widens (a : Store × SourceTree) (dir : Path) (p : PackageId) (b : Store × SourceTree) : Prop where
  home : b.2.dir? dir = some p
  kept : ∀ d q, a.2.dir? d = some q → b.2.dir? d = some q
  init : ∀ d, init? b d = init? a d
  entries : ∀ d name, dir.parts.length ≤ d.parts.length → alternatives b d name = alternatives a d name
  new : ∀ e ∈ b.2.dirs, e ∈ a.2.dirs ∨
    a.2.dir? e.1 = none ∧ b.2.dir? e.1 = some e.2 ∧ Links a b e ∧ ∃ levels, dir.up? levels = some e.1

theorem AddsDir.widens (h : AddsDir s t dir p s' t') (ha : Grounded (s, t)) : Widens (s, t) dir p (s', t') := by
  have hself : ∀ (t : SourceTree) (dir : Path) (p : PackageId), t.dir? dir = none →
      (t.withDir dir p).dir? dir = some p :=
    fun t dir p hnone => by rw [dir?_withDir, hnone, Option.none_or, if_pos (Path.beq_self dir)]
  have hkept : ∀ (t : SourceTree) (dir : Path) (p : PackageId) d q, t.dir? d = some q →
      (t.withDir dir p).dir? d = some q := fun t dir p d q hq => by rw [dir?_withDir, hq, Option.some_or]
  induction h with
  | found h => exact ⟨h, fun _ _ => id, fun _ => rfl, fun _ _ _ => rfl, fun _ => .inl⟩
  | @outermost s t dir hnew hend =>
    refine ⟨hself t dir _ hnew, hkept t dir _, init?_packageAdded s t dir,
      fun d name _ => alternatives_packageAdded ha.keyed dir d name, fun e he => ?_⟩
    refine (List.mem_append.mp he).imp_right fun he => ?_
    obtain rfl := List.mem_singleton.mp he
    refine ⟨hnew, hself t dir _ hnew, fun parent name hparent hname => ?_, 0, rfl⟩
    rcases hend with hend | hend
    · cases hend.symm.trans hparent
    · cases hend.symm.trans hname
  | @within s s' t t' dir parent name around hnew hparent hname h ih =>
    have hpackage : Loads (fun _ => True) (s, t) (packageAdded dir s, t.withDir dir ⟨s.packages.size⟩) :=
      .single (.package s t hnew)
    have hadded := hpackage.grounded ha
    have ih := ih hadded
    obtain ⟨hloads, haround⟩ := h.loads (Q := fun _ => True) hadded.keyed fun _ _ _ _ _ => trivial
    have hground := hloads.grounded hadded
    have hentry : Loads (fun _ => True) (s', t')
        ((produceIn (s'.package around).entries name (.packageRef ⟨s.packages.size⟩) s').2, t') :=
      .single (.entry s' t' haround.1 (.inr trivial) (by simp))
    have hlength := Path.length_parts_of_parent? hparent
    -- what a directory has that is not above the parent is what it had at the start
    have hbefore : ∀ d name, parent.parts.length ≤ d.parts.length →
        alternatives (s', t') d name = alternatives (s, t) d name := fun d name hle =>
      (ih.entries d name hle).trans (alternatives_packageAdded ha.keyed dir d name)
    refine ⟨ih.kept dir _ (hself t dir _ hnew), fun d q hq => ih.kept d q (hkept t dir _ d q hq), fun d => ?_,
      fun d other hle => ?_, fun e he => ?_⟩
    · rw [← init?_packageAdded s t dir d, ← ih.init d]
      unfold init?
      simp only [package_of_packages (sameObjects_produceIn ..).packages]
    · rw [alternatives_produceIn hground ih.home (by omega), hbefore d other (by omega)]
    · rcases ih.new e he with hold | ⟨hnone, hthere, hlinks, levels, hup⟩
      · refine (List.mem_append.mp hold).imp_right fun he => ?_
        obtain rfl := List.mem_singleton.mp he
        refine ⟨hnew, ih.kept dir _ (hself t dir _ hnew), fun parent' name' hparent' hname' => ?_, 0, rfl⟩
        obtain rfl := Option.some.inj (hparent.symm.trans hparent')
        obtain rfl := Option.some.inj (hname.symm.trans hname')
        refine ⟨Option.isSome_of_eq_some ih.home, or_iff_not_imp_right.mpr fun hroom => ?_⟩
        rw [← hbefore parent name (Nat.le_refl _), Nat.not_le] at hroom
        unfold alternatives at hroom ⊢
        dsimp only at hroom ⊢
        rw [ih.home, Option.elim_some] at hroom ⊢
        rw [package_of_packages (sameObjects_produceIn ..).packages]
        exact mem_alternatives_entered hground.consistent (hground.housed.known around haround.1) (.package _) hroom
      · rw [dir?_withDir, Option.or_eq_none_iff] at hnone
        refine .inr ⟨hnone.1, hthere, fun above name' habove hname' => ?_, levels + 1, ?_⟩
        · obtain ⟨hin, hmem⟩ := hlinks above name' habove hname'
          rw [alternatives_packageAdded ha.keyed] at hmem
          exact ⟨hin, hmem.imp_left fun hmem => hentry.mem_alternatives hground (.package _) hmem fun _ => id⟩
        · rw [Path.up?, hparent]
          exact hup

/-! ## Files -/

/-- The module that was added last of those whose paths satisfy a condition. -/
def latest? (of : Path → Bool) (added : List (Path × ModuleId)) : Option ModuleId :=
  (added.reverse.find? fun f => of f.1).map Prod.snd

theorem latest?_append (of : Path → Bool) (added : List (Path × ModuleId)) (path : Path) (m : ModuleId) :
    latest? of (added ++ [(path, m)]) = if of path then some m else latest? of added := by
  unfold latest?
  rw [List.reverse_append, List.reverse_singleton, List.singleton_append, List.find?_cons]
  cases of path <;> rfl

/-- The directory that a file is taken to lie in. -/
def home (path : Path) : Path := path.parent?.getD .empty

def isInit (path : Path) : Bool := path.fileName? = some "__init__.py"

/-- What adding a file does to the tree. -/
structure Takes (a : Store × SourceTree) (f : Path × ModuleId) (b : Store × SourceTree) : Prop where
  file : ∀ other, b.2.file? other = if f.1 == other then some f.2 else a.2.file? other
  home : (b.2.dir? (home f.1)).isSome
  kept : ∀ d q, a.2.dir? d = some q → b.2.dir? d = some q
  entries : ∀ d name v, v.IsEntry → v ∈ alternatives a d name → v ∈ alternatives b d name
  entry : isInit f.1 = false → .moduleRef f.2 ∈ alternatives b (SourceTree.home f.1) f.1.moduleName ∨
    maxDisjuncts ≤ (alternatives a (SourceTree.home f.1) f.1.moduleName).length
  init : ∀ d, init? b d = if isInit f.1 && SourceTree.home f.1 == d then some f.2 else init? a d
  new : ∀ e ∈ b.2.dirs, e ∈ a.2.dirs ∨ a.2.dir? e.1 = none ∧ b.2.dir? e.1 = some e.2 ∧ Links a b e ∧
    (f.1.LiesBelow e.1 ∨ f.1.parent? = none ∧ e.1 = .empty)

theorem find?_putFile (files : List (Path × ModuleId)) (path other : Path) (m : ModuleId) :
    ((putFile path m files).find? fun e => e.1 == other).map Prod.snd =
      if path == other then some m else (files.find? fun e => e.1 == other).map Prod.snd := by
  induction files with
  | nil =>
    rw [putFile, List.find?_singleton]
    split <;> rfl
  | cons first rest ih =>
    rw [putFile]
    split
    · next hfirst =>
      have hsame : (first.1 == other) = (path == other) := by
        rw [Bool.eq_iff_iff, Path.beq_iff, Path.beq_iff, Path.beq_iff.mp hfirst]
      rw [List.find?_cons, List.find?_cons, hsame]
      cases path == other <;> rfl
    · next hfirst =>
      rw [List.find?_cons, List.find?_cons]
      dsimp only
      cases hother : first.1 == other with
      | false => exact ih
      | true =>
        rw [if_neg]
        rw [Path.beq_iff] at hother hfirst ⊢
        exact fun hsame => hfirst (hother.trans hsame.symm)

theorem init?_fileEntered (ha : Keyed (s, t)) (path : Path) (m : ModuleId) (hp : t.dir? (home path) = some p)
    (d : Path) : init? (fileEntered path m p s, t) d =
      if isInit path && home path == d then some m else init? (s, t) d := by
  unfold fileEntered isInit
  split
  · next hinit =>
    obtain ⟨hlt, hdir⟩ := hasPackage_of_dir? ha hp
    have hset : ∀ q, ((setInit p (some m) s).2.package q).init =
        if p.index = q.index ∧ q.index < s.packages.size then some m else (s.package q).init := by
      intro q
      refine (congrArg PackageInfo.init (getD_modify ..)).trans ?_
      split <;> rfl
    rw [decide_eq_true hinit, Bool.true_and]
    unfold init?
    split
    · next hsame => rw [← dir?_congr hsame t, hp, Option.bind_some, hset, if_pos ⟨rfl, hlt⟩]
    · next hother =>
      refine Option.bind_congr fun q hq => ?_
      rw [hset, if_neg]
      rintro ⟨hsame, -⟩
      obtain rfl : p = q := congrArg PackageId.mk hsame
      have hd := (hasPackage_of_dir? ha hq).2
      rw [Path.beq_iff] at hother hdir hd
      exact hother (hdir.symm.trans hd)
  · next hinit =>
    rw [decide_eq_false hinit, Bool.false_and, if_neg (by decide)]
    unfold init?
    simp only [package_of_packages (sameObjects_produceIn ..).packages]

/-- A directory that is the home of a file or above it. -/
theorem liesBelow_of_home {path d : Path} {levels : Nat} (hup : (home path).up? levels = some d) :
    path.LiesBelow d ∨ path.parent? = none ∧ d = .empty := by
  unfold home at hup
  cases hparent : path.parent? with
  | some parent =>
    rw [hparent] at hup
    refine .inl ⟨levels, d, ?_, Path.beq_self _⟩
    rw [Path.up?, hparent]
    exact hup
  | none =>
    rw [hparent] at hup
    -- nothing is above the empty path
    cases levels with
    | zero => exact .inr ⟨rfl, (Option.some.inj hup).symm⟩
    | succ levels => cases hup

/-- **Adding one file.** -/
theorem takes_addFile (ha : Grounded (s, t)) (path : Path) (m : ModuleId) :
    let b := ((t.addFile path m s).2, (t.addFile path m s).1)
    Takes (s, t) (path, m) b ∧ Grounded b := by
  obtain ⟨t', p, s', hadds, heq⟩ := addFile_eq t path m s
  obtain ⟨hloads, hp⟩ := hadds.loads (Q := fun _ => True) ha.keyed fun _ _ _ _ _ => trivial
  have hwide := hadds.widens ha
  have hground := hloads.grounded ha
  have hentered : Loads (fun _ => True) (s', t') (fileEntered path m p s', t') :=
    .single (load_fileEntered hp.1 (.inr trivial) m)
  have hall : Loads (fun _ => True) (s, t) (fileEntered path m p s', t') := hloads.trans hentered
  have hdone := hall.grounded ha
  rw [heq]
  refine ⟨⟨fun other => ?_, Option.isSome_of_eq_some hwide.home, hwide.kept, fun d name v hv hmem => ?_,
    fun hinit => ?_, fun d => ?_, fun e he => ?_⟩, hdone.consistent, hdone.keyed, { hdone.housed with }⟩
  · have hfiles : t'.files = t.files := hloads.files
    exact hfiles ▸ find?_putFile t'.files path other m
  · exact hall.mem_alternatives ha hv hmem (hwide.kept d)
  · refine or_iff_not_imp_right.mpr fun hroom => ?_
    rw [← hwide.entries (home path) path.moduleName (Nat.le_refl _), Nat.not_le] at hroom
    unfold alternatives at hroom ⊢
    dsimp only at hroom ⊢
    rw [show t'.dir? (home path) = some p from hwide.home, Option.elim_some] at hroom
    rw [show dir? { t' with files := putFile path m t'.files } (home path) = some p from hwide.home, Option.elim_some,
      fileEntered, if_neg (of_decide_eq_false hinit), package_of_packages (sameObjects_produceIn ..).packages]
    exact mem_alternatives_entered hground.consistent (hground.housed.known p hp.1) (.module m) hroom
  · rw [← hwide.init d]
    exact init?_fileEntered hground.keyed path m hwide.home d
  · refine (hwide.new e he).imp_right ?_
    rintro ⟨hnone, hthere, hlinks, _, hup⟩
    refine ⟨hnone, hthere, fun parent name hparent hname => ?_, liesBelow_of_home hup⟩
    obtain ⟨hin, hmem⟩ := hlinks parent name hparent hname
    exact ⟨hin, hmem.imp_left fun hmem => hentered.mem_alternatives hground (.package _) hmem fun _ => id⟩

/-! ## Sequences of files

By induction on the files, with the last one apart: what holds of the state before a file stays true of it when
more files come. -/

/-- Adds files one after another. -/
def addFiles (added : List (Path × ModuleId)) (t : SourceTree) : StoreM SourceTree :=
  added.foldlM (fun t f => t.addFile f.1 f.2) t

/-- The tree after files were added to an empty one. -/
def grown (s : Store) (added : List (Path × ModuleId)) : Store × SourceTree :=
  ((addFiles added .empty s).2, (addFiles added .empty s).1)

/--
What a tree has for the files that were added to it. A module is an entry unless the entry had no room in
the tree to which the module was added, and so is the package of a directory.
-/
structure Holds (s : Store) (added : List (Path × ModuleId)) : Prop where
  files : ∀ path, (grown s added).2.file? path = latest? (· == path) added
  homes : ∀ f ∈ added, ((grown s added).2.dir? (home f.1)).isSome
  modules : ∀ i f, added[i]? = some f → isInit f.1 = false →
    .moduleRef f.2 ∈ alternatives (grown s added) (home f.1) f.1.moduleName ∨
      maxDisjuncts ≤ (alternatives (grown s (added.take i)) (home f.1) f.1.moduleName).length
  distinct : (grown s added).2.dirs.Pairwise fun e e' => (e.1 == e'.1) = false
  packages : ∀ e ∈ (grown s added).2.dirs, ∃ i < added.length, (grown s (added.take i)).2.dir? e.1 = none ∧
    (grown s (added.take (i + 1))).2.dir? e.1 = some e.2 ∧ Links (grown s (added.take i)) (grown s added) e
  init : ∀ dir, init? (grown s added) dir = latest? (fun path => isInit path && home path == dir) added
  only : ∀ e ∈ (grown s added).2.dirs, ∃ f ∈ added, f.1.LiesBelow e.1 ∨ f.1.parent? = none ∧ e.1 = .empty

theorem takes_grown (ha : Grounded (grown s added)) (f : Path × ModuleId) :
    Takes (grown s added) f (grown s (added ++ [f])) ∧ Grounded (grown s (added ++ [f])) := by
  have hnext := takes_addFile ha f.1 f.2
  unfold grown addFiles at hnext ⊢
  rw [List.foldlM_append]
  exact hnext

/-- **One more file.** -/
theorem Holds.append {f : Path × ModuleId} (h : Holds s added)
    (hstep : Takes (grown s added) f (grown s (added ++ [f]))) (hground : Grounded (grown s (added ++ [f]))) :
    Holds s (added ++ [f]) := by
  have htake : ∀ {i}, i ≤ added.length → (added ++ [f]).take i = added.take i := List.take_append_of_le_length
  have hlast : (added ++ [f]).take (added.length + 1) = added ++ [f] := List.take_of_length_le (by simp)
  refine ⟨fun path => ?_, fun g hg => ?_, fun i g hg hinit => ?_, hground.housed.dirs, fun e he => ?_, fun d => ?_,
    fun e he => ?_⟩
  · rw [latest?_append, ← h.files path, hstep.file]
  · rcases List.mem_append.mp hg with hg | hg
    · obtain ⟨q, hq⟩ := Option.isSome_iff_exists.mp (h.homes g hg)
      exact Option.isSome_of_eq_some (hstep.kept _ q hq)
    · obtain rfl := List.mem_singleton.mp hg
      exact hstep.home
  · rcases Nat.lt_trichotomy i added.length with hlt | rfl | hgt
    · rw [List.getElem?_append_left hlt] at hg
      rw [htake (Nat.le_of_lt hlt)]
      exact (h.modules i g hg hinit).imp_left (hstep.entries _ _ _ (.module _))
    · obtain rfl : f = g := by simpa using hg
      rw [htake (Nat.le_refl _), List.take_length]
      exact hstep.entry hinit
    · rw [List.getElem?_eq_none (by simp; omega)] at hg
      cases hg
  · rw [List.length_append, List.length_singleton]
    rcases hstep.new e he with hold | ⟨hnone, hthere, hlinks, -⟩
    · obtain ⟨i, hi, hnone, hthere, hlinks⟩ := h.packages e hold
      refine ⟨i, Nat.lt_succ_of_lt hi, ?_⟩
      rw [htake (Nat.le_of_lt hi), htake hi]
      refine ⟨hnone, hthere, fun parent name hparent hname => ?_⟩
      obtain ⟨hin, hmem⟩ := hlinks parent name hparent hname
      obtain ⟨q, hq⟩ := Option.isSome_iff_exists.mp hin
      exact ⟨Option.isSome_of_eq_some (hstep.kept _ q hq), hmem.imp_left (hstep.entries _ _ _ (.package _))⟩
    · refine ⟨added.length, Nat.lt_succ_self _, ?_⟩
      rw [htake (Nat.le_refl _), List.take_length, hlast]
      exact ⟨hnone, hthere, hlinks⟩
  · rw [latest?_append, ← h.init d, hstep.init]
  · rcases hstep.new e he with hold | ⟨-, -, -, hbelow⟩
    · obtain ⟨g, hg, honly⟩ := h.only e hold
      exact ⟨g, List.mem_append_left _ hg, honly⟩
    · exact ⟨f, by simp, hbelow⟩

/-- **After every sequence of added files**, a tree that was empty holds them. -/
theorem holds_addFiles (added : List (Path × ModuleId)) (hs : s.Consistent) (hnone : s.packages = #[]) :
    Holds s added := by
  have hstart : grown s [] = (s, .empty) := rfl
  have hhoused : Housed (fun _ => True) (s, SourceTree.empty) := by
    constructor <;> simp [hnone, empty]
  have hground : Grounded (s, SourceTree.empty) := ⟨hs, by simp [Keyed, empty], hhoused⟩
  have hnothing : Holds s [] := by
    refine ⟨fun _ => rfl, ?_, ?_, hhoused.dirs, ?_, fun _ => rfl, ?_⟩
    all_goals simp [hstart, empty]
  have hall : Holds s added ∧ Grounded (grown s added) := by
    induction added using List.reverseRecOn with
    | nil => exact ⟨hnothing, hground⟩
    | append_singleton added f ih =>
      obtain ⟨hstep, hnext⟩ := takes_grown ih.2 f
      exact ⟨ih.1.append hstep hnext, hnext⟩
  exact hall.1

/-- A file that is added again at another spelling of its path, and the file of its package. -/
theorem holds_addFiles_respelled :
    Holds .empty [(⟨"app/main.py"⟩, ⟨0⟩), (⟨"app/__init__.py"⟩, ⟨1⟩), (⟨"app//main.py"⟩, ⟨2⟩)] :=
  holds_addFiles _ StoreM.consistent_empty rfl

end SourceTree

end Surmise
