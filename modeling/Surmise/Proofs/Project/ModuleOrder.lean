import Mathlib.Data.List.Perm.Subperm
import Mathlib.Logic.Relation
import Surmise.Project.ModuleOrder
import Surmise.Proofs.Path

/-!
# Files come after what they import

The walk behind the order of modules is a depth-first walk that lists a file when it leaves it. The files
that are entered and not yet left lead, by imports, to the file that is entered next. So when a file is
left, an import of it is either listed already or leads back to the file.

* `ModuleOrder.Sorted`: what holds of a walk at any time, with `ModuleOrder.walk_sorted`.
* `ModuleOrder.mem_moduleOrder`, `ModuleOrder.nodup_moduleOrder`: each file is listed once.
* `moduleOrder_topological`: the main statement.
-/

namespace Surmise

namespace ModuleOrder

/-- The components that paths stand for. -/
abbrev keys (paths : List Path) : List Path.Components := paths.map Path.components

theorem isAmong_iff {p : Path} {paths : List Path} : isAmong p paths = true ↔ p.components ∈ keys paths := by
  rw [isAmong, List.any_eq_true, List.mem_map]
  exact exists_congr fun q => and_congr_right fun _ => Path.beq_iff

/-! ## What a file imports -/

section Dependencies

variable {l : Layout} {names : List String}

theorem deepestFrom_known {best : Option Path} {dir : Path}
    (hbest : ∀ p ∈ best, isAmong p l.files) : ∀ p ∈ deepestFrom l best dir names, isAmong p l.files := by
  induction names generalizing best dir with
  | nil => exact hbest
  | cons name rest ih =>
    rw [deepestFrom]
    split
    · next hmodule =>
      rintro _ ⟨⟩
      exact hmodule
    · split
      · exact hbest
      · apply ih
        split
        · next hinit =>
          rintro _ ⟨⟩
          exact hinit
        · exact hbest

theorem deepestMatch_known {dir : Path} : ∀ p ∈ deepestMatch l dir names, isAmong p l.files := by
  unfold deepestMatch
  split
  · dsimp only
    split
    · next hinit =>
      rintro _ ⟨⟩
      exact hinit
    · nofun
  · exact deepestFrom_known nofun

theorem resolve_known {decl : ImportDecl} {p : Path} (h : resolve l decl = some p) : isAmong p l.files := by
  obtain ⟨start, -, h⟩ := Option.bind_eq_some_iff.mp h
  dsimp only at h
  split at h
  · obtain ⟨dir, -, h⟩ := Option.bind_eq_some_iff.mp h
    exact deepestMatch_known p h
  · obtain ⟨dir, -, h⟩ := List.exists_of_findSome?_eq_some h
    exact deepestMatch_known p h

/-- Collecting files one by one, the files that are there already and the file itself apart. -/
theorem mem_keys_collect (file : Path) (deps found : List Path) (k : Path.Components) : k ∈ keys (deps.foldl
        (fun found dep => if dep == file || isAmong dep found then found else found ++ [dep]) found) ↔
      k ∈ keys found ∨ k ∈ keys deps ∧ k ≠ file.components := by
  induction deps generalizing found with
  | nil => simp
  | cons dep deps ih =>
    rw [List.foldl_cons, ih]
    split
    · next hskip =>
      rw [Bool.or_eq_true, Path.beq_iff, isAmong_iff] at hskip
      grind
    · next hkeep =>
      rw [Bool.or_eq_true, Path.beq_iff, isAmong_iff] at hkeep
      grind

theorem mem_keys_dependencies {file : Path} {imports : List ImportDecl} {k : Path.Components} :
    k ∈ keys (dependencies l file imports) ↔
      k ≠ file.components ∧ ∃ decl ∈ imports, ∃ dep, resolve l decl = some dep ∧ dep.components = k := by
  rw [dependencies, mem_keys_collect]
  simp only [keys, List.map_nil, List.not_mem_nil, false_or, List.mem_map, List.mem_filterMap]
  grind

end Dependencies

/--
A file imports another one: one of its declarations resolves to it. Paths with the same components are one
file, and the declarations of a file that is given more than once are taken together.
-/
def Imports (files : List (Path × List ImportDecl)) (roots : List Path) (f g : Path) : Prop :=
  ¬ g == f ∧ ∃ entry ∈ files, entry.1 == f ∧
    ∃ decl ∈ entry.2, ∃ dep, resolve (layout files roots) decl = some dep ∧ dep == g

section Imports

variable {files : List (Path × List ImportDecl)} {roots : List Path} {f g : Path}

theorem mem_keys_links : g.components ∈ keys (links files roots f) ↔ Imports files roots f g := by
  rw [links, mem_keys_dependencies, Imports, Path.beq_iff]
  simp only [List.mem_flatMap, List.mem_filter, Path.beq_iff]
  refine and_congr_right fun _ => ⟨?_, ?_⟩
  · rintro ⟨decl, ⟨entry, ⟨hentry, hf⟩, hdecl⟩, hdep⟩
    exact ⟨entry, hentry, hf, decl, hdecl, hdep⟩
  · rintro ⟨entry, hentry, hf, decl, hdecl, hdep⟩
    exact ⟨decl, ⟨entry, ⟨hentry, hf⟩, hdecl⟩, hdep⟩

theorem Imports.congr {f' g' : Path} (h : Imports files roots f g) (hf : f.components = f'.components)
    (hg : g.components = g'.components) : Imports files roots f' g' := by
  simp only [Imports, Path.beq_iff] at h ⊢
  rwa [← hf, ← hg]

theorem Imports.ne (h : Imports files roots f g) : g.components ≠ f.components := by
  intro heq
  exact h.1 (Path.beq_iff.mpr heq)

theorem Imports.source_mem (h : Imports files roots f g) : f.components ∈ keys (files.map Prod.fst) := by
  obtain ⟨-, entry, hentry, hf, -⟩ := h
  rw [← Path.beq_iff.mp hf]
  exact List.mem_map_of_mem (List.mem_map_of_mem hentry)

theorem Imports.target_mem (h : Imports files roots f g) : g.components ∈ keys (files.map Prod.fst) := by
  obtain ⟨-, entry, -, -, decl, -, dep, hresolve, hg⟩ := h
  rw [← Path.beq_iff.mp hg]
  exact isAmong_iff.mp (resolve_known hresolve)

end Imports

/-! ## The walk -/

section Walk

variable (files : List (Path × List ImportDecl)) (roots : List Path)

/-- A file is another one, or leads to it by imports. -/
def Leads (p q : Path) : Prop :=
  p.components = q.components ∨ Relation.TransGen (Imports files roots) p q

/-- Entered and not left. -/
def Walk.Open (w : Walk) (k : Path.Components) : Prop := k ∈ keys w.entered ∧ k ∉ keys w.left

/-- Only given files have been entered, each once. -/
structure Walk.Within (paths : List Path) (w : Walk) : Prop where
  known : keys w.entered ⊆ keys paths
  nodup : (keys w.entered).Nodup

/-- What holds of a walk at any time. -/
structure Sorted (w : Walk) : Prop where
  entered_known : keys w.entered ⊆ keys (files.map Prod.fst)
  entered_nodup : (keys w.entered).Nodup
  left_entered : keys w.left ⊆ keys w.entered
  left_nodup : (keys w.left).Nodup
  /-- An import of a listed file is listed before it, or leads back to it. -/
  listed : ∀ before file after, w.left = before ++ file :: after → ∀ dep, Imports files roots file dep →
    dep.components ∈ keys before ∨ Leads files roots dep file

/-- What walking from some files does to a walk: it lists and opens, but leaves what was open open. -/
structure Advances (w w' : Walk) : Prop where
  entered : keys w.entered ⊆ keys w'.entered
  length : w.entered.length ≤ w'.entered.length
  open_iff : ∀ k, w'.Open k ↔ w.Open k

variable {files roots} {w : Walk} {file : Path} {paths : List Path}

theorem Leads.tail {p q r : Path} (h : Leads files roots p q) (hqr : Imports files roots q r) :
    Leads files roots p r := by
  rcases h with heq | hpath
  · exact .inr (.single (hqr.congr heq.symm rfl))
  · exact .inr (hpath.tail hqr)

theorem Leads.congr_right {p q q' : Path} (h : Leads files roots p q)
    (hq : q.components = q'.components) : Leads files roots p q' := by
  rcases h with heq | hpath
  · exact .inl (heq.trans hq)
  · obtain ⟨r, hpr, hrq⟩ := Relation.TransGen.tail'_iff.mp hpath
    exact .inr (.tail' hpr (hrq.congr rfl hq))

/-- Known files that have not all been entered are more than the entered ones. -/
theorem Walk.Within.length_lt (hw : w.Within paths)
    (hknown : file.components ∈ keys paths) (hnew : file.components ∉ keys w.entered) :
    w.entered.length < paths.length := by
  have hnodup : (file.components :: keys w.entered).Nodup := List.nodup_cons.mpr ⟨hnew, hw.nodup⟩
  have hsub : file.components :: keys w.entered ⊆ keys paths := List.cons_subset.mpr ⟨hknown, hw.known⟩
  have hle := (hnodup.subperm hsub).length_le
  simp only [List.length_cons, List.length_map] at hle
  omega

theorem Walk.Within.enter (hw : w.Within paths) (hknown : file.components ∈ keys paths)
    (hnew : file.components ∉ keys w.entered) :
    Walk.Within paths { w with entered := w.entered ++ [file] } where
  known := by
    rw [keys, List.map_append]
    exact List.append_subset.mpr ⟨hw.known, List.cons_subset.mpr ⟨hknown, List.nil_subset _⟩⟩
  nodup := by
    simpa [keys, List.nodup_append] using ⟨hw.nodup, fun p hp heq =>
      hnew (heq ▸ List.mem_map_of_mem hp)⟩

theorem Advances.refl (w : Walk) : Advances w w := ⟨fun _ h => h, Nat.le_refl _, fun _ => .rfl⟩

theorem Advances.trans {w₁ w₂ w₃ : Walk} (h₁ : Advances w₁ w₂) (h₂ : Advances w₂ w₃) : Advances w₁ w₃ where
  entered := fun _ h => h₂.entered (h₁.entered h)
  length := Nat.le_trans h₁.length h₂.length
  open_iff := fun k => (h₂.open_iff k).trans (h₁.open_iff k)

theorem Sorted.within (hw : Sorted files roots w) : w.Within (files.map Prod.fst) :=
  ⟨hw.entered_known, hw.entered_nodup⟩

theorem Sorted.length_lt (hw : Sorted files roots w) (hknown : file.components ∈ keys (files.map Prod.fst))
    (hnew : file.components ∉ keys w.entered) : w.entered.length < files.length := by
  simpa using hw.within.length_lt hknown hnew

theorem Sorted.enter (hw : Sorted files roots w) (hknown : file.components ∈ keys (files.map Prod.fst))
    (hnew : file.components ∉ keys w.entered) :
    Sorted files roots { w with entered := w.entered ++ [file] } where
  entered_known := (hw.within.enter hknown hnew).known
  entered_nodup := (hw.within.enter hknown hnew).nodup
  left_entered := fun k hk => by
    simpa [keys] using .inl (List.mem_map.mp (hw.left_entered hk))
  left_nodup := hw.left_nodup
  listed := hw.listed

/-- A file may be left once each of its imports is listed or open, and all that is open leads to it. -/
theorem Sorted.leave (hw : Sorted files roots w) (hopen : w.Open file.components)
    (hleads : ∀ p : Path, w.Open p.components → Leads files roots p file)
    (hdeps : ∀ dep, Imports files roots file dep → dep.components ∈ keys w.entered) :
    Sorted files roots { w with left := w.left ++ [file] } where
  entered_known := hw.entered_known
  entered_nodup := hw.entered_nodup
  left_entered := by
    simpa [keys] using ⟨hw.left_entered, List.mem_map.mp hopen.1⟩
  left_nodup := by
    simpa [keys, List.nodup_append] using ⟨hw.left_nodup, fun p hp heq =>
      hopen.2 (heq ▸ List.mem_map_of_mem hp)⟩
  listed := by
    intro before f after hsplit dep hdep
    rcases after.eq_nil_or_concat with rfl | ⟨rest, last, rfl⟩
    · -- the file that is left
      obtain ⟨rfl, hsingle⟩ := List.append_inj' hsplit rfl
      obtain ⟨rfl, -⟩ := List.cons.inj hsingle
      by_cases hlisted : dep.components ∈ keys w.left
      · exact .inl hlisted
      · exact .inr (hleads dep ⟨hdeps dep hdep, hlisted⟩)
    · -- a file that was listed before
      rw [List.concat_eq_append, ← List.cons_append, ← List.append_assoc] at hsplit
      obtain ⟨hleft, -⟩ := List.append_inj' hsplit rfl
      exact hw.listed before f rest hleft dep hdep

/-- Walking from files in turn, each of which everything open leads to. -/
theorem foldl_sorted (step : Walk → Path → Walk) (room : Nat) (targets : List Path)
    (hstep : ∀ {w : Walk} {file}, Sorted files roots w → room ≤ w.entered.length → file ∈ targets →
      (∀ p : Path, w.Open p.components → Leads files roots p file) → Sorted files roots (step w file) ∧
      Advances w (step w file) ∧ file.components ∈ keys (step w file).entered)
    (hw : Sorted files roots w) (hroom : room ≤ w.entered.length)
    (hleads : ∀ file ∈ targets, ∀ p : Path, w.Open p.components → Leads files roots p file) :
    Sorted files roots (targets.foldl step w) ∧ Advances w (targets.foldl step w) ∧
      keys targets ⊆ keys (targets.foldl step w).entered := by
  induction targets generalizing w with
  | nil => exact ⟨hw, .refl w, List.nil_subset _⟩
  | cons file rest ih =>
    rw [List.foldl_cons]
    obtain ⟨hsorted, hadvances, hentered⟩ := hstep hw hroom List.mem_cons_self (hleads file List.mem_cons_self)
    have hleads' : ∀ target ∈ rest, ∀ p : Path, (step w file).Open p.components → Leads files roots p target := by
      intro target htarget p hp
      exact hleads target (List.mem_cons_of_mem _ htarget) p ((hadvances.open_iff _).mp hp)
    obtain ⟨hsorted', hadvances', hentered'⟩ :=
      ih (fun hw' hroom' hmem => hstep hw' hroom' (List.mem_cons_of_mem _ hmem)) hsorted
        (Nat.le_trans hroom hadvances.length) hleads'
    refine ⟨hsorted', hadvances.trans hadvances', List.cons_subset.mpr ⟨?_, hentered'⟩⟩
    exact hadvances'.entered hentered

/--
A walk from a file that everything open leads to. The induction is on the fuel, which suffices as long as
it exceeds the number of files that have not been entered.
-/
theorem walk_sorted (fuel : Nat) (hw : Sorted files roots w) (hfuel : files.length + 1 ≤ fuel + w.entered.length)
    (hknown : file.components ∈ keys (files.map Prod.fst))
    (hleads : ∀ p : Path, w.Open p.components → Leads files roots p file) :
    Sorted files roots (walk (links files roots) fuel w file) ∧ Advances w (walk (links files roots) fuel w file) ∧
        file.components ∈ keys (walk (links files roots) fuel w file).entered := by
  induction fuel generalizing w file with
  | zero =>
    by_cases hentered : file.components ∈ keys w.entered
    · exact ⟨hw, .refl w, hentered⟩
    · have hlt := hw.length_lt hknown hentered
      omega
  | succ fuel ih =>
    rw [walk]
    split
    · next hentered => exact ⟨hw, .refl w, isAmong_iff.mp hentered⟩
    · next hnew =>
      rw [isAmong_iff] at hnew
      have hnotLeft : file.components ∉ keys w.left := fun h => hnew (hw.left_entered h)
      -- while the imports are walked, the file is open as well
      set w₁ : Walk := { w with entered := w.entered ++ [file] } with hw₁
      have hmem₁ : ∀ k, k ∈ keys w₁.entered ↔ k ∈ keys w.entered ∨ k = file.components := by
        intro k
        simp [hw₁, keys]
      have hopen₁ : ∀ k, w₁.Open k ↔ w.Open k ∨ k = file.components := by
        intro k
        show (k ∈ keys w₁.entered ∧ k ∉ keys w.left) ↔ (k ∈ keys w.entered ∧ k ∉ keys w.left) ∨ _
        rw [hmem₁]
        grind
      have hleads₁ : ∀ p : Path, w₁.Open p.components → Leads files roots p file := by
        intro p hp
        rcases (hopen₁ _).mp hp with hp | heq
        · exact hleads p hp
        · exact .inl heq
      have himports : ∀ dep ∈ links files roots file, Imports files roots file dep := fun dep hdep =>
        mem_keys_links.mp (List.mem_map_of_mem hdep)
      have hlength₁ : w₁.entered.length = w.entered.length + 1 := by
        rw [hw₁, List.length_append, List.length_singleton]
      obtain ⟨hsorted₂, hadvances₂, hdeps₂⟩ :=
        foldl_sorted (walk (links files roots) fuel) w₁.entered.length (links files roots file)
          (fun hw' hroom' hmem hleads' => ih hw' (by omega) (himports _ hmem).target_mem hleads')
          (hw.enter hknown hnew) (Nat.le_refl _)
          (fun dep hdep p hp => (hleads₁ p hp).tail (himports dep hdep))
      set w₂ := (links files roots file).foldl (walk (links files roots) fuel) w₁
      have hopen₂ : ∀ k, w₂.Open k ↔ w.Open k ∨ k = file.components := fun k =>
        (hadvances₂.open_iff k).trans (hopen₁ k)
      refine ⟨hsorted₂.leave ((hopen₂ _).mpr (.inr rfl)) ?_ ?_, ⟨?_, ?_, ?_⟩, ?_⟩
      · exact fun p hp => hleads₁ p ((hadvances₂.open_iff _).mp hp)
      · exact fun dep hdep => hdeps₂ (mem_keys_links.mpr hdep)
      · exact fun k hk => hadvances₂.entered ((hmem₁ k).mpr (.inl hk))
      · have hlength₂ : w₁.entered.length ≤ w₂.entered.length := hadvances₂.length
        show w.entered.length ≤ w₂.entered.length
        omega
      · -- leaving the file closes it again
        intro k
        have hk := hopen₂ k
        simp only [Walk.Open, keys, List.map_append, List.mem_append, List.map_cons, List.map_nil,
          List.mem_singleton] at hk hnotLeft ⊢
        grind
      · exact hadvances₂.entered ((hmem₁ _).mpr (.inr rfl))

end Walk

/-! ## The order -/

section Order

variable (files : List (Path × List ImportDecl)) (roots : List Path)

theorem sorted_moduleOrder : ∃ w : Walk, w.left = moduleOrder files roots ∧ Sorted files roots w ∧
    (∀ k, ¬ w.Open k) ∧ keys (files.map Prod.fst) ⊆ keys w.entered := by
  have hempty : Sorted files roots ⟨[], []⟩ :=
    ⟨List.nil_subset _, List.nodup_nil, List.nil_subset _, List.nodup_nil, by simp⟩
  have hclosed : ∀ k, ¬ Walk.Open ⟨[], []⟩ k := by simp [Walk.Open]
  obtain ⟨hsorted, hadvances, hentered⟩ :=
    foldl_sorted (walk (links files roots) (files.length + 1)) 0 (files.map Prod.fst)
      (fun hw _ hmem hleads => walk_sorted _ hw (by omega) (List.mem_map_of_mem hmem) hleads)
      hempty (Nat.zero_le _) (fun _ _ p hp => absurd hp (hclosed _))
  exact ⟨_, rfl, hsorted, fun k hk => hclosed k ((hadvances.open_iff k).mp hk), hentered⟩

theorem nodup_moduleOrder : (keys (moduleOrder files roots)).Nodup := by
  obtain ⟨w, hleft, hsorted, -⟩ := sorted_moduleOrder files roots
  rw [← hleft]
  exact hsorted.left_nodup

theorem mem_moduleOrder (k : Path.Components) : k ∈ keys (moduleOrder files roots) ↔ k ∈ keys (files.map Prod.fst) := by
  obtain ⟨w, hleft, hsorted, hclosed, hentered⟩ := sorted_moduleOrder files roots
  rw [← hleft]
  constructor
  · exact fun hk => hsorted.entered_known (hsorted.left_entered hk)
  · intro hk
    by_contra hnot
    exact hclosed k ⟨hentered hk, hnot⟩

end Order

/--
A file stands before another one: the other one is listed, and wherever it is, the file stands in front of
it and not behind it.
-/
def Precedes (order : List Path) (g f : Path) : Prop :=
  isAmong f order ∧ ∀ before file after, order = before ++ file :: after → file == f →
    isAmong g before ∧ ¬ isAmong g after

/-- A list has each file once, and no file before a file that it is related to. -/
structure Topological (files : List Path) (related : Path → Path → Prop) (order : List Path) : Prop where
  distinct : order.Pairwise fun p q => ¬ p == q
  complete : ∀ p, isAmong p order ↔ isAmong p files
  ordered : ∀ f g, related f g → Precedes order g f

theorem precedes_of_not_leads {files : List (Path × List ImportDecl)} {roots : List Path} {f g : Path}
    (himports : Imports files roots f g) (hback : ¬ Leads files roots g f) :
    Precedes (moduleOrder files roots) g f := by
  refine ⟨isAmong_iff.mpr ((mem_moduleOrder files roots _).mpr himports.source_mem), ?_⟩
  intro before file after hsplit hfile
  rw [Path.beq_iff] at hfile
  obtain ⟨w, hleft, hsorted, -⟩ := sorted_moduleOrder files roots
  have hlisted := hsorted.listed before file after (hleft.trans hsplit) g (himports.congr hfile.symm rfl)
  have hbefore : g.components ∈ keys before :=
    hlisted.resolve_right fun hleads => hback (hleads.congr_right hfile)
  have hnodup := nodup_moduleOrder files roots
  rw [hsplit, keys, List.map_append, List.nodup_append] at hnodup
  refine ⟨isAmong_iff.mpr hbefore, fun hafter => ?_⟩
  rw [isAmong_iff] at hafter
  exact hnodup.2.2 _ hbefore _ (List.mem_cons_of_mem _ hafter) rfl

end ModuleOrder

open ModuleOrder in
/--
A file is listed after each file it imports from which no imports lead back to it. So the order is
topological if imports have no cycle.
-/
theorem moduleOrder_topological (files : List (Path × List ImportDecl)) (roots : List Path) :
    (∀ f g, Imports files roots f g → ¬ Relation.ReflTransGen (Imports files roots) g f →
      Precedes (moduleOrder files roots) g f) ∧
    ((∀ f, ¬ Relation.TransGen (Imports files roots) f f) →
      Topological (files.map Prod.fst) (Imports files roots) (moduleOrder files roots)) := by
  constructor
  · intro f g himports hback
    apply precedes_of_not_leads himports
    rintro (heq | hpath)
    · exact himports.ne heq
    · exact hback hpath.to_reflTransGen
  · intro hacyclic
    refine ⟨?_, ?_, ?_⟩
    · have hnodup := nodup_moduleOrder files roots
      rw [List.Nodup, List.pairwise_map] at hnodup
      exact hnodup.imp fun hne heq => hne (Path.beq_iff.mp heq)
    · intro p
      rw [isAmong_iff, isAmong_iff]
      exact mem_moduleOrder files roots _
    · intro f g himports
      apply precedes_of_not_leads himports
      rintro (heq | hpath)
      · exact himports.ne heq
      · exact hacyclic f (.head himports hpath)

/-- A file that imports one of two files in a cycle, which comes after it in the list. -/
def aboveCycle : List (Path × List ImportDecl) :=
  [(⟨"/p/main.py"⟩, [⟨"/p/main.py", 0, ["a"], none, false⟩]),
   (⟨"/p/a.py"⟩, [⟨"/p/a.py", 1, [], some "b", false⟩]),
   (⟨"/p/b.py"⟩, [⟨"/p/b.py", 0, ["a"], none, false⟩])]

open ModuleOrder in
/-- The imported file leads round the cycle, and not back to the first file. -/
theorem moduleOrder_topological_aboveCycle :
    Imports aboveCycle [] ⟨"/p/main.py"⟩ ⟨"/p/a.py"⟩ ∧
      ¬ Relation.ReflTransGen (Imports aboveCycle []) ⟨"/p/a.py"⟩ ⟨"/p/main.py"⟩ ∧
      Precedes (moduleOrder aboveCycle []) ⟨"/p/a.py"⟩ ⟨"/p/main.py"⟩ := by
  have himports : Imports aboveCycle [] ⟨"/p/main.py"⟩ ⟨"/p/a.py"⟩ := by
    rw [← mem_keys_links]
    decide +kernel
  -- nothing imports the first file, so no path ends in it
  have hnone : ∀ entry ∈ aboveCycle, ∀ decl ∈ entry.2,
      ∀ dep ∈ resolve (layout aboveCycle []) decl, ¬ dep == ⟨"/p/main.py"⟩ := by decide +kernel
  have hback : ¬ Relation.ReflTransGen (Imports aboveCycle []) ⟨"/p/a.py"⟩ ⟨"/p/main.py"⟩ := by
    intro hpath
    rcases hpath.cases_tail with heq | ⟨p, -, -, entry, hentry, -, decl, hdecl, dep, hresolve, hmain⟩
    · exact absurd (congrArg Path.text heq) (by decide)
    · exact hnone entry hentry decl hdecl dep hresolve hmain
  exact ⟨himports, hback, (moduleOrder_topological aboveCycle []).1 _ _ himports hback⟩

end Surmise
