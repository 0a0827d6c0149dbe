import Surmise.Proofs.CallChain.Passes
import Surmise.Proofs.Observers
import Surmise.Proofs.Project.ModuleOrder

/-!
# How many passes a chain of calls takes

The value that a constant has after it went through a chain of calls is known after one pass more than the
chain has functions, and not before, in whatever order the functions are written.

* `AfterPasses.start`: the state in which the first pass begins.
* `out_after_passes`: the main statement.
-/

namespace Surmise

namespace Found

/-- A single file has been added, and nothing has been visited. -/
structure Begins (p : Found) (file : SourceFile) (home : ModuleId) : Prop where
  files : p.assembly.files = [file]
  tree : p.assembly.tree.file? file.path = some home
  order : p.assembly.order = #[]
  functions : p.assembly.functions = []
  fresh : p.store.Fresh home

end Found

namespace Run

open Session

variable {σ : Setting} {s : Session} {p : Found} {file : SourceFile} {home : ModuleId}

/-- **The first file is added.** -/
theorem begins_addFile {paths : List Path} (hassembly : s.assembly = .ofPaths paths)
    (hconsistent : s.store.Consistent) (hpackages : s.store.packages = #[]) (hfunctions : s.store.functions = #[])
    (file : SourceFile) :
    ∃ home, (addFile file σ s).2.found.Begins file home := by
  have hfree : ¬ s.store.IsPackageScope ⟨s.store.tables.size⟩ := by
    rintro ⟨p, hp, -⟩
    rw [hpackages] at hp
    exact Nat.not_lt_zero _ hp
  have hmade := StoreM.fresh_newModule hconsistent hfree hfunctions file.path.moduleName file.path σ.builtins
  obtain ⟨paths', hsearching⟩ := s.searching_eq file
  have hempty : s.assembly.tree = .empty := by rw [hassembly]; rfl
  have hcontains : SourceTree.empty.contains file.path = false := rfl
  rw [addFile_eq, hempty, hcontains, hsearching, if_neg Bool.false_ne_true]
  generalize StoreM.newModule file.path.moduleName file.path σ.builtins s.store = made at hmade
  obtain ⟨t, st, hgrown, hloads⟩ := SourceTree.loads_addFile (Q := fun _ => True) .empty file.path made.1 made.2
    nofun fun _ _ _ _ _ => trivial
  have hfiles : t.files = [] := hloads.files
  dsimp only
  rw [hgrown, hfiles, hassembly]
  refine ⟨made.1, rfl, ?_, rfl, rfl, hloads.fresh hmade⟩
  have hpath : (file.path == file.path) = true := Path.beq_iff.mpr rfl
  show ([(file.path, made.1)].find? fun entry => entry.1 == file.path).map Prod.snd = _
  rw [List.find?_cons, hpath]
  rfl

/-- The module of a single file is put on the list. -/
theorem leadsTo_scheduleModules (h : p.Begins file home) :
    LeadsTo σ p scheduleModules () ⟨p.store, { p.assembly with order := #[.module 0] }⟩ := by
  have hunscheduled : unscheduled p.assembly = [(file.path, file.imports)] := by
    simp [unscheduled, h.files, h.order]
  -- the order has one path, which is that of the file up to its spelling
  obtain ⟨path, horder, hpath⟩ : ∃ path, moduleOrder [(file.path, file.imports)] p.assembly.searchPaths = [path] ∧
      (file.path == path) = true := by
    have hkeys : ModuleOrder.keys (moduleOrder [(file.path, file.imports)] p.assembly.searchPaths) =
        [file.path.components] := by
      refine List.perm_singleton.mp ((List.perm_ext_iff_of_nodup ?_ (List.nodup_singleton _)).mpr fun k => ?_)
      · exact ModuleOrder.nodup_moduleOrder _ _
      · exact ModuleOrder.mem_moduleOrder _ _ k
    obtain ⟨path, hpaths, hpath⟩ := List.map_eq_singleton_iff.mp hkeys
    exact ⟨path, hpaths, Path.beq_iff.mpr hpath.symm⟩
  have hschedule : LeadsTo σ p (schedule path) () ⟨p.store, { p.assembly with order := #[.module 0] }⟩ := by
    refine leads_get_bind fun s hs => ?_
    have hassembly : s.assembly = p.assembly := congrArg Found.assembly hs
    have hindex : s.assembly.files.findIdx? (fun file => file.path == path) = some 0 := by
      rw [hassembly, h.files, List.findIdx?_cons, if_pos hpath]
    rw [hindex]
    refine (silent_say _).then ?_
    clear hindex hassembly hs s
    rintro s hs rfl
    refine ⟨(), _, rfl, ⟨hs.handle, hs.observer⟩, rfl, ?_⟩
    show Found.mk s.store { s.assembly with order := s.assembly.order.push (.module 0) } = _
    rw [show s.assembly.order = #[] from h.order]
    rfl
  refine leads_get_bind fun s hs => ?_
  have hassembly : s.assembly = p.assembly := congrArg Found.assembly hs
  dsimp only
  rw [hassembly, hunscheduled, horder, List.forIn_cons, bind_assoc, bind_assoc]
  exact hschedule.then (leads_pure ⟨rfl, rfl⟩)

/-- A value that is not ambiguous is not narrowed. -/
theorem Narrows.valueIn?_eq {st st' : Store} (h : Narrows st st') {t : TableId} {name : String} {v : Value}
    (hv : st.valueIn? t name = some v) (hone : v.disjuncts.length < 2) : st'.valueIn? t name = some v := by
  obtain ⟨id, hget, rfl⟩ := Option.map_eq_some_iff.mp hv
  rw [Store.valueIn?, Store.get?_of_tables h.tables, hget, Option.map_some, h.value id hone]

end Run

namespace Assembler

/-- The value that a module gives to a name. -/
def global? (a : Assembler) (path : Path) (name : String) : Option Value := do
  let m ← a.session.assembly.tree.file? path
  a.session.store.valueIn? (a.session.store.module m).members name

/-- A new assembler has no files, and its store has no packages. -/
theorem session_new (graph : Graph) (options : Options) (policies : List ClassPolicy) (trace : Trace)
    (delegate : Option Delegate) :
    let a := new graph options policies trace delegate
    a.setting.graph = graph ∧ a.setting.options = options ∧ a.setting.delegate = delegate.getD .idle ∧
      a.session.assembly = .ofPaths options.searchPaths ∧ a.session.store.Consistent ∧
      a.session.store.packages = #[] ∧ a.session.store.functions = #[] := by
  obtain ⟨st, heq, hconsistent, -, hsame⟩ := StoreM.builtinScope_spec graph
  unfold new
  rw [heq]
  exact ⟨rfl, rfl, rfl, rfl, hconsistent, hsame.packages, hsame.functions⟩

end Assembler

namespace CallChain

open Run

variable {c : CallChain} {p : Found} {file : SourceFile} {home : ModuleId} {σ : Setting} {steps : Nat}
  {handle : CancelHandle}

/-- **The state in which the first pass begins.** -/
theorem AfterPasses.start (h : p.Begins file home) :
    c.AfterPasses file 0 ⟨p.store, { p.assembly with order := #[.module 0] }⟩ := by
  have htidy := h.fresh.consistent.tidy
  have hempty : p.store.functions.size = 0 := by rw [h.fresh.functions]; rfl
  have hresult : ∀ g, p.store.cell? (.result g) = none := fun g => if_neg (by omega)
  refine ⟨⟨home, (p.store.module home).members, p.store.tables.size⟩, [], [], .inr ⟨rfl, rfl⟩, ?_, fun k _ => ?_,
    fun i hi => ?_⟩
  · refine ⟨h.files, h.tree, rfl, h.functions, rfl, h.fresh.members, hempty, rfl, nofun, nofun, ?_, ?_⟩
    · intro cell id hid
      cases cell with
      | entry t name => exact (htidy.entry t name id hid).1
      | result g => rw [hresult] at hid; cases hid
    · intro cell cell' id hid hid'
      cases cell with
      | entry t name =>
        cases cell' with
        | entry t' name' =>
          obtain ⟨rfl, rfl⟩ := htidy.once t t' name name' id hid hid'
          rfl
        | result g => rw [hresult] at hid'; cases hid'
      | result g => rw [hresult] at hid; cases hid
  · refine Eq.trans ?_ (if_neg (Nat.not_lt_zero k)).symm
    rw [place]
    split_ifs
    · show ((p.store.get? _ "x").map p.store.value).getD .empty = .empty
      rw [locals, StoreM.get?_of_size_le (Nat.le_add_right ..)]
      rfl
    · rw [Store.read, hresult]
      rfl
    · exact congrArg (·.getD .empty) (h.fresh.binds "out")
  · exact congrArg (·.getD .empty) (h.fresh.binds (c.name i))

/-- What the variable holds in the end. -/
theorem AfterPasses.out {passes : Nat} (h : c.AfterPasses file passes p) (hpasses : passes ≠ 0) :
    ∃ home, p.assembly.tree.file? file.path = some home ∧ p.store.valueIn? (p.store.module home).members "out" =
        some (if c.depth < passes then .ofText c.constant else .empty) := by
  obtain ⟨l, made, names, hmade, h⟩ := h
  obtain ⟨-, hnames⟩ := hmade.resolve_right fun hnone => hpasses hnone.2
  obtain ⟨id, hget⟩ := Option.isSome_iff_exists.mp (h.wired.named "out" hnames.out)
  have hread := h.holds.place (2 * c.depth) (Nat.le_refl _)
  rw [place_out, Store.read, Store.cell?, hget] at hread
  refine ⟨l.home, h.wired.tree, ?_⟩
  rw [h.wired.home, Store.valueIn?, hget]
  exact congrArg some (hread.trans (if_congr (out_lt_progress_iff c.complete passes) rfl rfl))

/-- What the passes of a build and the narrowing after them find. -/
theorem leads_build (hgraph : c.Quiet σ.graph) (htree : file.tree = c.tree) (h : p.Begins file home)
    (hpasses : σ.options.passes ≠ 0) (hsteps : c.depth + 2 ≤ steps) :
    Leads σ p (propagate steps >>= fun _ => Run.refine) fun _ p' =>
      ∃ home, p'.assembly.tree.file? file.path = some home ∧ p'.store.valueIn? (p'.store.module home).members "out" =
          some (if c.depth < σ.options.passes then .ofText c.constant else .empty) := by
  rw [propagate, bind_assoc]
  refine (leadsTo_scheduleModules h).then ?_
  rw [bind_assoc]
  refine leads_read_bind ?_
  refine ((AfterPasses.start h).passes hgraph htree hsteps _ _).bind fun _ p₂ h₂ => ?_
  rw [Nat.zero_add] at h₂
  obtain ⟨home, hfile, hout⟩ := h₂.out hpasses
  refine leads_refine.imp fun _ p₃ hrefined => ⟨home, ?_, ?_⟩ <;> obtain ⟨hnarrows, hassembly⟩ := hrefined
  · rw [hassembly]
    exact hfile
  · have hmodule : p₃.store.module home = p₂.store.module home := by
      unfold Store.module
      rw [hnarrows.modules]
    rw [hmodule]
    refine hnarrows.valueIn?_eq hout ?_
    split
    · exact Nat.one_lt_two
    · exact Nat.zero_lt_two

/-- A build that begins with the file of the chain ends, and finds this. -/
theorem build_out {s : Session} {path : Path} {libraryRoot : Option Path} {home : ModuleId}
    (hbegins : s.found.Begins (c.file path libraryRoot) home) (hgraph : c.Quiet σ.graph)
    (hpasses : σ.options.passes ≠ 0) (hpatient : σ.delegate.Patient)
    (hgoes : handle.isCancelled = false) (hsteps : c.depth + 2 ≤ steps) :
    ∃ s', Run.build steps handle σ s = (.ok (), s') ∧ Assembler.global? ⟨σ, s'⟩ path "out" =
      some (if c.depth < σ.options.passes then .ofText c.constant else .empty) := by
  have hunstopped : Session.Unstopped σ { s with handle } := ⟨hgoes, .inr hpatient⟩
  obtain ⟨_, s', hrun, -, home', hfile, hout⟩ :=
    leads_build hgraph rfl hbegins hpasses hsteps _ hunstopped rfl
  refine ⟨s', ?_, ?_⟩
  · rw [build_apply, if_neg hpasses, if_neg (Bool.eq_false_iff.mp hgoes)]
    exact hrun
  · have hpath : s'.assembly.tree.file? path = some home' := hfile
    unfold Assembler.global?
    rw [hpath]
    exact hout

/--
**A chain of calls takes one pass more than it has functions.** In a module that defines functions in any
order, each of which hands its argument to the one before it, and that calls the outermost one with a
constant, nothing is known of the result as long as there were no more passes than functions; from the
next pass on it is the constant, and nothing else.
-/
theorem out_after_passes (c : CallChain) (path : Path) (libraryRoot : Option Path) {graph : Graph}
    (hgraph : c.Quiet graph) {options : Options} (hpasses : 1 ≤ options.passes) (policies : List ClassPolicy)
    (trace : Trace) {delegate : Option Delegate} (hpatient : ∀ d, delegate = some d → d.Patient)
    (hgoes : handle.isCancelled = false) (hsteps : c.depth + 2 ≤ steps) :
    let built := (Assembler.new graph options policies trace delegate).analyse [c.file path libraryRoot] steps handle
    built.1 = .ok () ∧
      (options.passes ≤ c.depth → built.2.global? path "out" = some .empty) ∧
      (c.depth + 1 ≤ options.passes → built.2.global? path "out" = some (.ofText c.constant)) := by
  have hnew := Assembler.session_new graph options policies trace delegate
  unfold Assembler.analyse
  generalize Assembler.new graph options policies trace delegate = a at hnew ⊢
  obtain ⟨σ, s⟩ := a
  obtain ⟨rfl, rfl, hdelegate, hassembly, hconsistent, hpackages, hfunctions⟩ := hnew
  have hpatient : σ.delegate.Patient := by
    rw [hdelegate]
    cases delegate with
    | none => exact ⟨fun _ => rfl, fun _ _ => rfl⟩
    | some d => exact hpatient d rfl
  obtain ⟨home, hbegins⟩ :=
    begins_addFile (σ := σ) hassembly hconsistent hpackages hfunctions (c.file path libraryRoot)
  obtain ⟨s', hbuild, hout⟩ := build_out hbegins hgraph (Nat.one_le_iff_ne_zero.mp hpasses) hpatient
    hgoes hsteps
  intro built
  have hbuilt : built = (.ok (), ⟨σ, s'⟩) := by
    show ((Run.build steps handle σ (addFile (c.file path libraryRoot) σ s).2).1,
      Assembler.mk σ (Run.build steps handle σ (addFile (c.file path libraryRoot) σ s).2).2) = _
    rw [hbuild]
  rw [hbuilt]
  refine ⟨rfl, fun hfew => ?_, fun hmany => ?_⟩
  · rw [hout, if_neg (Nat.not_lt.mpr hfew)]
  · rw [hout, if_pos (Nat.lt_of_succ_le hmany)]

/-- Two functions, of which the outer one is written first. -/
def twoCalls : CallChain where
  depth := 2
  name i := if i = 0 then "inner" else "outer"
  node i := i
  line i := 4 - 2 * i
  written := [1, 0]
  constant := "v"
  positive := Nat.zero_lt_two
  complete := .swap 0 1 []
  name_inj := by decide
  node_inj _ _ _ _ := id
  name_ne := by decide

def twoCallsAnalysed (passes : Nat) : Except AnalysisError Unit × Assembler :=
  (Assembler.new .empty { Options.standard with passes } ClassPolicy.standard .off none).analyse
    [twoCalls.file ⟨"/p/a.py"⟩ none] 4 .new

theorem out_after_passes_twoCalls :
    (twoCallsAnalysed 2).1 = .ok () ∧ (twoCallsAnalysed 2).2.global? ⟨"/p/a.py"⟩ "out" = some .empty ∧
      (twoCallsAnalysed 3).1 = .ok () ∧
      (twoCallsAnalysed 3).2.global? ⟨"/p/a.py"⟩ "out" = some (.ofText "v") := by
  have hquiet : twoCalls.Quiet .empty := fun hname => absurd hname (by decide)
  have hpatient : ∀ d, (none : Option Delegate) = some d → d.Patient := nofun
  have hlaw : ∀ passes, 1 ≤ passes → (twoCallsAnalysed passes).1 = .ok () ∧
      (passes ≤ 2 → (twoCallsAnalysed passes).2.global? ⟨"/p/a.py"⟩ "out" = some .empty) ∧
      (3 ≤ passes → (twoCallsAnalysed passes).2.global? ⟨"/p/a.py"⟩ "out" = some (.ofText "v")) :=
    fun passes hpasses => out_after_passes twoCalls ⟨"/p/a.py"⟩ none hquiet hpasses
      ClassPolicy.standard .off hpatient rfl (Nat.le_refl 4)
  obtain ⟨hends, hunknown, -⟩ := hlaw 2 (by decide)
  obtain ⟨hends', -, hknown⟩ := hlaw 3 (by decide)
  exact ⟨hends, hunknown (Nat.le_refl 2), hends', hknown (Nat.le_refl 3)⟩

end CallChain

end Surmise
