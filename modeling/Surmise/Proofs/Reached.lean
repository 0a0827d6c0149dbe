import Surmise.Proofs.Project.SourceTree
import Surmise.Proofs.Propagation.Passes

/-!
# The states of an assembler

An assembler is made without files; files are added to it, and it is built, any number of times and in
any order.

* `Assembler.Reached`: the states that can come up.
* `Run.addFile_spec`: adding a file makes a module and packages, and nothing else.
* `Assembler.Reached.inv`: every state that can come up is in order, and so is every state that a build
  passes through.
-/

namespace Surmise

open StoreM

namespace Session

variable {σ : Setting} {s : Session} {Q : Path → Prop}

/-! ## Files -/

theorem map_entries_eq {st st' : Store} (hx : st.Extends st') (hsize : st'.packages.size = st.packages.size) :
    st'.packages.toList.map PackageInfo.entries = st.packages.toList.map PackageInfo.entries :=
  map_eq_of_getD_eq hsize fun i hi => (hx.package ⟨i⟩ hi).2

/-- Packages are no scopes of the program, so making one keeps what is known of these. -/
theorem Inv.package (h : s.Inv σ) (dir : Path) : ({ s with store := packageAdded dir s.store } : Session).Inv σ := by
  have hx := extends_packageAdded dir s.store
  have hperm : List.Perm (scopes σ { s with store := packageAdded dir s.store })
      (⟨s.store.tables.size⟩ :: s.scopes σ) := by
    unfold scopes
    rw [List.perm_iff_count]
    intro t
    simp only [packageAdded, opened, Array.toList_push, List.map_append, List.map_cons,
      List.map_nil, List.count_cons, List.count_append, List.count_nil]
    omega
  have hlt : s.store.tables.size < (packageAdded dir s.store).tables.size := by
    simp [packageAdded, opened]
  obtain ⟨hnodup, hknown⟩ := h.one_more hperm hlt
  exact h.extend ⟨hx, List.Subset.refl _, List.Subset.refl _⟩
    (consistent_packageAdded h.consistent dir) (fun m hm => .inl hm) hnodup hknown
    (fun t ht => .inl ht) (fun t ht => .inl ht) (h.sites.mono hx)

theorem Inv.setInit (h : s.Inv σ) (p : PackageId) (m : Option ModuleId) :
    ({ s with store := (StoreM.setInit p m s.store).2 } : Session).Inv σ := by
  have hx := StoreM.extends_setInit p m s.store
  have hscopes : scopes σ { s with store := (StoreM.setInit p m s.store).2 } = s.scopes σ := by
    unfold scopes
    rw [map_entries_eq hx Array.size_modify]
    rfl
  refine h.extend ⟨hx, List.Subset.refl _, List.Subset.refl _⟩ (StoreM.consistent_setInit h.consistent p m)
    (fun m hm => .inl hm) (hscopes ▸ h.nodup) (fun t ht => ?_) (fun t ht => .inl ht) (fun t ht => .inl ht)
    (h.sites.mono hx)
  exact h.known t (hscopes ▸ ht)

theorem Inv.load (h : s.Inv σ) {t t' : SourceTree} {st : Store}
    (hload : SourceTree.Load Q (s.store, t) (st, t')) : ({ s with store := st } : Session).Inv σ := by
  cases hload with
  | package _ _ hnew => exact h.package _
  | @entry _ _ p hp name hname v hv =>
    have hx := StoreM.extends_produceIn (s.store.package p).entries name v s.store
    exact h.of_sameObjects hx (StoreM.consistent_produceIn h.consistent _ _ hv)
      (StoreM.sameObjects_produceIn _ _ _ s.store) rfl rfl (h.sites.mono hx)
  | init _ _ p m => exact h.setInit p m

/-- Making a module: one more scope, in that of the builtins. -/
theorem Inv.newModule (h : s.Inv σ) (name : String) (path : Path) :
    s.store.Extends (StoreM.newModule name path σ.builtins s.store).2 ∧
      ({ s with store := (StoreM.newModule name path σ.builtins s.store).2 } : Session).Inv σ := by
  obtain ⟨mid, hsteps, heq⟩ := StoreM.newModule_spec name path σ.builtins h.free
  have ho := (StoreM.opens_opened (.ofFile path) (some σ.builtins) s.store).steps hsteps
  have hsame := hsteps.sameObjects
  have hfunctions : mid.functions = s.store.functions := hsame.functions
  have hclasses : mid.classes.size = s.store.classes.size := hsame.classes
  rw [heq, ← ho.modules]
  generalize hadded : ({ mid with modules := mid.modules.push ⟨name, path, ⟨s.store.tables.size⟩⟩ } : Store) = st
  have hx : s.store.Extends st := hadded ▸ ho.extension.trans (extends_pushModule mid _)
  have hconsistent : st.Consistent := by
    have hmid := ho.consistent h.consistent
    rw [← hadded]
    exact ⟨{ hmid.sound with }, hmid.tidy.entry, hmid.tidy.once⟩
  have hmodule : ∀ m : ModuleId, st.module m =
      if m.index = s.store.modules.size then ⟨name, path, ⟨s.store.tables.size⟩⟩ else s.store.module m := by
    intro m
    unfold Store.module
    rw [← hadded, ← ho.modules]
    exact getD_push _ _ _ _
  have hperm : (scopes σ { s with store := st }).Perm (⟨s.store.tables.size⟩ :: s.scopes σ) := by
    unfold scopes
    rw [← hadded]
    dsimp only
    rw [ho.modules, ho.packages, map_members_eq ho.extension hclasses, hfunctions, Array.toList_push,
      List.map_append, List.map_cons, List.perm_iff_count]
    intro t
    simp only [List.count_cons, List.count_append, List.map_nil, List.count_nil]
    omega
  obtain ⟨hnodup, hknown⟩ := h.one_more hperm (by rw [← hadded]; exact ho.tables ▸ Nat.lt_succ_self _)
  refine ⟨hx, h.extend ⟨hx, List.Subset.refl _, List.Subset.refl _⟩ hconsistent ?_ hnodup hknown ?_ ?_
    (h.sites.mono hx)⟩
  · intro m hm
    by_cases hold : m.index < s.store.modules.size
    · exact .inl hold
    · have hlast : m.index = s.store.modules.size := by
        have hsize : st.modules.size = s.store.modules.size + 1 := by
          rw [← hadded, ← ho.modules]
          exact Array.size_push _
        dsimp only at hm
        omega
      unfold IsRooted
      dsimp only
      rw [hmodule, if_pos hlast, ← hadded]
      exact .inr ⟨ho.parent, ho.address⟩
  · rintro t (⟨f, hf, rfl⟩ | hsite)
    · have hf' : f.index < s.store.functions.size := by
        rw [← hadded] at hf
        exact hfunctions ▸ hf
      exact .inl (.inl ⟨f, hf', by rw [hx.function f hf']⟩)
    · exact .inl (.inr hsite)
  · rintro t ⟨c, hc, rfl⟩
    have hc' : c.index < s.store.classes.size := by
      rw [← hadded] at hc
      exact hclasses ▸ hc
    exact .inl ⟨c, hc', (hx.classOf c hc').2.symm⟩

theorem Inv.loads {a b : Store × SourceTree} (hloads : SourceTree.Loads Q a b)
    (h : Inv σ { s with store := a.1 }) : Inv σ { s with store := b.1 } := by
  induction hloads with
  | refl => exact h
  | tail _ hload ih => exact ih.load hload

/-- The state after the library of a file was made known. -/
def searching (s : Session) (file : SourceFile) : Session :=
  match file.libraryRoot with
  | some root =>
    { s with assembly :=
      if s.assembly.searchPaths.any (· == root) then s.assembly
      else { s.assembly with searchPaths := s.assembly.searchPaths ++ [root] } }
  | none => s

/-- The state after a file was added, of which the store and the tree are given. -/
def withFile (s : Session) (file : SourceFile) (st : Store) (t : SourceTree) : Session :=
  { s.searching file with
    store := st
    assembly := { (s.searching file).assembly with
      tree := { t with files := SourceTree.putFile file.path ⟨s.store.modules.size⟩ t.files }
      files := (s.searching file).assembly.files ++ [file] } }

theorem searching_eq (s : Session) (file : SourceFile) :
    ∃ paths, s.searching file = { s with assembly := { s.assembly with searchPaths := paths } } := by
  unfold searching
  split
  · split
    · exact ⟨s.assembly.searchPaths, rfl⟩
    · exact ⟨_, rfl⟩
  · exact ⟨s.assembly.searchPaths, rfl⟩

end Session

namespace Run

open Session SourceTree

variable {σ : Setting} {s : Session}

theorem addFile_eq (file : SourceFile) (σ : Setting) (s : Session) : addFile file σ s =
      if s.assembly.tree.contains file.path then (.ok (), s.searching file)
      else
        let made := newModule file.path.moduleName file.path σ.builtins s.store
        let grown := s.assembly.tree.addFile file.path made.1 made.2
        (.ok (), { s.searching file with
          store := grown.2
          assembly := { (s.searching file).assembly with
            tree := grown.1, files := (s.searching file).assembly.files ++ [file] } }) := by
  -- first the library is made known, whether or not the file is there
  have hlibrary : addFile file σ s = (do
      let tree := (← get).assembly.tree
      unless tree.contains file.path do
        let m ← inStore (newModule file.path.moduleName file.path (← read).builtins)
        let tree ← inStore (tree.addFile file.path m)
        modifyAssembly fun a => { a with tree, files := a.files ++ [file] } : Run Unit) σ
        (s.searching file) := by
    unfold addFile searching
    cases file.libraryRoot <;> rfl
  obtain ⟨paths, hpaths⟩ := s.searching_eq file
  rw [hlibrary, get_bind_apply, hpaths]
  dsimp only
  cases s.assembly.tree.contains file.path with
  | true => rfl
  | false =>
    simp only [Bool.false_eq_true, if_false]
    rw [read_bind_apply, bind_apply, inStore_apply]
    dsimp only
    generalize newModule file.path.moduleName file.path σ.builtins s.store = made
    rw [bind_apply, inStore_apply]
    dsimp only
    generalize s.assembly.tree.addFile file.path made.1 made.2 = grown
    rfl

/-- **Adding a file** makes a module and packages for the directories around it; a file with the path of
another one is ignored. -/
theorem addFile_spec {Q : Path → Prop} (h : s.Inv σ) (hkeyed : Keyed (s.store, s.assembly.tree))
    (file : SourceFile) (hq : ∀ n a d, file.path.up? (n + 1) = some a → (d == a) = true → Q d) :
    ∃ s', addFile file σ s = (.ok (), s') ∧ (s.assembly.tree.contains file.path = true ∧ s' = s.searching file ∨
        s.assembly.tree.contains file.path = false ∧ ∃ st t,
          Loads Q ((newModule file.path.moduleName file.path σ.builtins s.store).2, s.assembly.tree)
            (st, t) ∧ s' = s.withFile file st t) := by
  rw [addFile_eq]
  cases s.assembly.tree.contains file.path with
  | true => exact ⟨_, rfl, .inl ⟨rfl, rfl⟩⟩
  | false =>
    have hx := (h.newModule file.path.moduleName file.path).1
    obtain ⟨mid, -, hmade⟩ := newModule_spec file.path.moduleName file.path σ.builtins h.free
    have hid : (newModule file.path.moduleName file.path σ.builtins s.store).1 = ⟨s.store.modules.size⟩ := by rw [hmade]
    dsimp only
    rw [hid]
    generalize (newModule file.path.moduleName file.path σ.builtins s.store).2 = made at hx
    obtain ⟨t, st, hgrown, hloads⟩ := loads_addFile s.assembly.tree file.path ⟨s.store.modules.size⟩ made
      (hkeyed.mono hx) hq
    refine ⟨_, rfl, .inr ⟨rfl, st, t, hloads, ?_⟩⟩
    rw [hgrown]
    rfl

end Run

/-! ## The first state -/

namespace StoreM

open Store

theorem consistent_empty : empty.Consistent := by
  have hget : ∀ t name, empty.get? t name = none := fun t name => get?_of_size_le (Nat.zero_le _) name
  refine ⟨sound_empty, fun t name id hid => ?_, fun t t' name name' id hid => ?_⟩
  · rw [hget] at hid
    cases hid
  · rw [hget] at hid
    cases hid

/-- Binding names anew keeps the store as it should be. -/
theorem putAll_keeps (table : TableId) {entries : List (String × Value)}
    (hv : ∀ e ∈ entries, ∀ n, e.2.Sound n) {s : Store} (hs : s.Consistent) :
    s.Extends (putAll table entries s).2 ∧ (putAll table entries s).2.Consistent ∧
      SameObjects s (putAll table entries s).2 := by
  induction entries generalizing s with
  | nil => exact ⟨.refl s, hs, ⟨rfl, rfl, rfl, rfl, rfl⟩⟩
  | cons e rest ih =>
    have hcreated : (createPrivate table e.1 false s).2.Consistent :=
      ⟨hs.sound.createPrivate table e.1 false, hs.tidy.createPrivate table e.1 false⟩
    have hx := extends_createPrivate s table e.1 false
    have hsame := sameObjects_createPrivate s table e.1 false
    have hput : putAll table (e :: rest) s = putAll table rest
        (put (createPrivate table e.1 false s).1 e.2 (createPrivate table e.1 false s).2).2 := rfl
    rw [hput]
    generalize createPrivate table e.1 false s = out at hcreated hx hsame
    obtain ⟨hx', hc', hsame'⟩ := ih (fun e' he' => hv e' (List.mem_cons_of_mem _ he'))
      (hcreated.put out.1 (hv e List.mem_cons_self _))
    exact ⟨(hx.trans (extends_put out.2 out.1 e.2)).trans hx', hc',
      (hsame.trans (sameObjects_put out.2 out.1 e.2)).trans hsame'⟩

theorem does_bindBuiltins (graph : Graph) {table : TableId} {s : Store} (h : ¬ s.IsPackageScope table)
    (names : List String) : Does s (bindBuiltins graph table names) fun _ _ => True := by
  induction names generalizing s with
  | nil => exact does_pure trivial
  | cons name rest ih =>
    have hrest : ∀ s', Steps s s' → Does s' (bindBuiltins graph table rest) fun _ _ => True :=
      fun s' hs' => ih ((not_congr (hs'.sameObjects.isPackageScope_iff _)).mpr h)
    unfold bindBuiltins
    split
    · next path _ =>
      have hvalue := World.sound_externalValue (w := ⟨graph, .empty, false⟩) (n := s.nextSerial) path
      exact (does_produceIn h name hvalue).bind fun _ s' hs' _ => hrest s' hs'
    · exact hrest s .refl

theorem sound_overrides {e : String × Value} (he : e ∈ Native.overrides) (n : Nat) : e.2.Sound n := by
  rcases List.mem_append.mp he with htype | hfunction
  · obtain ⟨t, -, rfl⟩ := List.mem_map.mp htype
    simp [Value.ofType]
  · obtain ⟨f, -, rfl⟩ := List.mem_map.mp hfunction
    simp [Value.ofFunction]

/-- The builtins are in the first scope of a store that has nothing else. -/
theorem builtinScope_spec (graph : Graph) : ∃ st, builtinScope graph .empty = (⟨0⟩, st) ∧ st.Consistent ∧
      (opened ⟨.empty, "builtins"⟩ none .empty).Extends st ∧
      SameObjects (opened ⟨.empty, "builtins"⟩ none .empty) st := by
  have hopened := consistent_opened ⟨.empty, "builtins"⟩ none consistent_empty
  have hfree : ¬ (opened ⟨.empty, "builtins"⟩ none .empty).IsPackageScope ⟨0⟩ := by
    rintro ⟨p, hp, -⟩
    exact Nat.not_lt_zero _ hp
  obtain ⟨hsteps, -⟩ := does_bindBuiltins graph hfree (graph.children "builtins")
  unfold builtinScope
  rw [bind_apply, newTable_eq]
  dsimp only
  have hfirst : (⟨empty.tables.size⟩ : TableId) = ⟨0⟩ := rfl
  rw [bind_apply, hfirst]
  generalize bindBuiltins graph ⟨0⟩ (graph.children "builtins")
    (opened ⟨.empty, "builtins"⟩ none .empty) = bound at hsteps
  obtain ⟨hx, hc, hsame⟩ := putAll_keeps ⟨0⟩ (fun e he n => sound_overrides he n) (hsteps.consistent hopened)
  rw [bind_apply]
  generalize putAll ⟨0⟩ Native.overrides bound.2 = out at hx hc hsame
  exact ⟨out.2, rfl, hc, hsteps.extension.trans hx, hsteps.sameObjects.trans hsame⟩

end StoreM

namespace Assembler

open Session

/-- The states of an assembler to which files are added and which is built. -/
inductive Reached : Assembler → Prop
  | new (graph : Graph) (options : Options) {policies : List ClassPolicy} (hpolicies : ∀ p ∈ policies, p.IsBundled)
      (trace : Trace) {delegate : Option Delegate} (hdiscreet : (delegate.getD .idle).Discreet) :
      Reached (.new graph options policies trace delegate)
  | addFile {a : Assembler} (h : Reached a) (file : SourceFile) : Reached (a.addFile file)
  /-- Another trace is written, another observer is told, and texts are read in another way. -/
  | attach {a : Assembler} (h : Reached a) (trace : Trace) (observer : Option (List Notice)) {delegate : Delegate}
      (hdiscreet : delegate.Discreet) (reader : String → Node) :
      Reached ⟨{ a.setting with delegate, reader }, { a.session with trace, observer }⟩
  /-- A build, however it ends. -/
  | build {a : Assembler} (h : Reached a) (steps : Nat) (handle : CancelHandle) :
      Reached (a.perform (Run.build steps handle)).2

/-- A new assembler has the builtins in its first scope, and nothing else. -/
theorem new_spec (graph : Graph) (options : Options) (policies : List ClassPolicy) (trace : Trace)
    (delegate : Option Delegate) :
    ∃ st base : Store, st = { base with modules := #[], packages := #[], functions := #[], classes := #[] } ∧
      st.Consistent ∧ (st.table ⟨0⟩).parent = none ∧ st.tables.size = 1 ∧
      new graph options policies trace delegate = ⟨⟨graph, options, policies, ⟨0⟩, delegate.getD .idle, Node.ofText⟩,
        ⟨st, .ofPaths options.searchPaths, none, .new, trace, delegate.map fun _ => [], [], [], []⟩⟩ := by
  obtain ⟨st, heq, hc, hx, hsame⟩ := builtinScope_spec graph
  have hmodules : st.modules = #[] := hsame.modules
  have hpackages : st.packages = #[] := hsame.packages
  have hfunctions : st.functions = #[] := hsame.functions
  have hclasses : st.classes = #[] := Array.eq_empty_of_size_eq_zero hsame.classes
  refine ⟨st, st, ?_, hc, (hx.table ⟨0⟩ Nat.zero_lt_one).2, hsame.tables, ?_⟩
  · rw [← hmodules, ← hpackages, ← hfunctions, ← hclasses]
  · unfold new
    rw [heq]

theorem inv_new (graph : Graph) (options : Options) {policies : List ClassPolicy}
    (hpolicies : ∀ p ∈ policies, p.IsBundled) (trace : Trace) {delegate : Option Delegate}
    (hdiscreet : (delegate.getD .idle).Discreet) :
    Inv (new graph options policies trace delegate).setting (new graph options policies trace delegate).session := by
  obtain ⟨_, base, rfl, hc, hparent, htables, heq⟩ := new_spec graph options policies trace delegate
  rw [heq]
  refine ⟨⟨hpolicies, hdiscreet⟩, hc, rfl, hparent, fun m hm => absurd hm (Nat.not_lt_zero _),
    List.nodup_singleton _, ?_, ?_, ?_, ⟨nofun, nofun, nofun, nofun, nofun⟩⟩
  · intro t ht
    obtain rfl := List.mem_singleton.mp ht
    exact htables ▸ Nat.zero_lt_one
  · rintro t (⟨f, hf, -⟩ | ⟨site, hsite⟩)
    · exact absurd hf (Nat.not_lt_zero _)
    · cases hsite
  · rintro t ((⟨f, hf, -⟩ | ⟨site, hsite⟩) | ⟨c, hc, -⟩)
    · exact absurd hf (Nat.not_lt_zero _)
    · cases hsite
    · exact absurd hc (Nat.not_lt_zero _)

/-! ## All states -/

theorem perform_eq {α : Type} (act : Run α) (a : Assembler) :
    a.perform act = ((act a.setting a.session).1, ⟨a.setting, (act a.setting a.session).2⟩) := rfl

theorem setting_perform {α : Type} (act : Run α) (a : Assembler) : (a.perform act).2.setting = a.setting := rfl

/-- The policies that come with the analysis are used unless others are asked for. -/
theorem reached_new (graph : Graph) (options : Options) (trace : Trace) :
    Reached (.new graph options ClassPolicy.standard trace none) :=
  .new _ _ ClassPolicy.isBundled_of_mem_standard _ fun _ _ => rfl

/-- The state is in order, and its packages are those of their directories. -/
structure Ordered (σ : Setting) (s : Session) : Prop where
  inv : Inv σ s
  keyed : SourceTree.Keyed (s.store, s.assembly.tree)

variable {σ : Setting} {s s' : Session}

/-- A build passes through a sequence of changes, whether or not its options are valid. -/
theorem moves_build (h : Inv σ s) (steps : Nat) (handle : CancelHandle) : Moves σ s (Run.build steps handle σ s).2 := by
  by_cases hpasses : σ.options.passes = 0
  · rw [Run.build_of_no_passes hpasses]
  · exact (Run.does_build h hpasses steps handle).1

theorem Ordered.addFile (h : Ordered σ s) (file : SourceFile) : Ordered σ (Run.addFile file σ s).2 := by
  obtain ⟨s', heq, hadded⟩ := Run.addFile_spec (Q := fun _ => True) h.inv h.keyed file fun _ _ _ _ _ => trivial
  rw [heq]
  obtain ⟨paths, hpaths⟩ := s.searching_eq file
  have hsearching : Inv σ (s.searching file) := by
    rw [hpaths]
    exact h.inv.of_assembly rfl { h.inv.sites with }
  rcases hadded with ⟨-, rfl⟩ | ⟨-, st, t, hloads, rfl⟩
  · refine ⟨hsearching, ?_⟩
    rw [hpaths]
    exact h.keyed
  · obtain ⟨hx, hmade⟩ := hsearching.newModule file.path.moduleName file.path
    have hstore : (s.searching file).store = s.store := by rw [hpaths]
    rw [hstore] at hx hmade
    have hlt := StoreM.lt_newModule file.path.moduleName file.path σ.builtins h.inv.free
    generalize (StoreM.newModule file.path.moduleName file.path σ.builtins s.store).2 = made at hloads hx hmade hlt
    have hloaded : Inv σ { s.searching file with store := st } := Inv.loads hloads hmade
    have hkeyed := hloads.keyed (h.keyed.mono hx)
    refine ⟨?_, hkeyed⟩
    refine hloaded.of_assembly rfl { hloaded.sites with files := fun e he => ?_ }
    rcases SourceTree.mem_putFile he with hold | hnew
    · rw [hloads.files] at hold
      refine hloaded.sites.files e ?_
      rw [hpaths]
      exact hold
    · rw [hnew]
      exact Nat.lt_of_lt_of_le hlt hloads.extension.modules

theorem Moves.tree (h : Moves σ s s') : s'.assembly.tree = s.assembly.tree ∧ s'.assembly.files = s.assembly.files := by
  induction h with
  | refl => exact ⟨rfl, rfl⟩
  | tail _ hmove ih =>
    obtain ⟨htree, hfiles⟩ := hmove.tree
    exact ⟨htree.trans ih.1, hfiles.trans ih.2⟩

theorem Ordered.moves (h : Ordered σ s) (hmoves : Moves σ s s') : Ordered σ s' := by
  refine ⟨h.inv.afterMoves hmoves, ?_⟩
  rw [(Moves.tree hmoves).1]
  exact h.keyed.mono (Moves.extension hmoves).store

/-- **Every state of an assembler is in order.** -/
theorem Reached.ordered {a : Assembler} (h : Reached a) : Ordered a.setting a.session := by
  induction h with
  | new graph options hpolicies trace hdiscreet =>
    exact ⟨inv_new graph options hpolicies trace hdiscreet, nofun⟩
  | addFile _ file ih => exact ih.addFile file
  | @attach a _ trace observer _ hdiscreet _ ih =>
    have hquiet : Step a.setting a.session { a.session with trace, observer } := .quiet rfl rfl rfl rfl
    have hattached := ih.moves (.single (Step.move hquiet))
    exact ⟨{ hattached.inv with benign := ⟨ih.inv.benign.policies, hdiscreet⟩ }, ih.keyed⟩
  | build _ steps handle ih => exact ih.moves (moves_build ih.inv steps handle)

/-- An assembler with one module of these statements, for so many passes. -/
def ofModule (passes : Nat) (statements : List Node) : Assembler :=
  (Assembler.new .empty { Options.standard with passes } ClassPolicy.standard .off none).addFile
    (.ofTree ⟨"/p/a.py"⟩ (.module statements) none)

theorem reached_ofModule (passes : Nat) (statements : List Node) : (ofModule passes statements).Reached := by
  unfold ofModule
  exact .addFile (reached_new _ _ _) _

end Assembler

end Surmise
