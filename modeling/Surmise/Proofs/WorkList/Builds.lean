import Surmise.Proofs.Reached
import Surmise.Proofs.WorkList.Visits

/-!
# The list of what is visited

After a build the list holds each module and each function once, and all passes have swept over it. This is
so in every state that an assembler can reach, with any files and however earlier builds ended.

* `Session.Tracked`: what holds of the list in every state; `Assembler.Reached.tracked`.
* `Run.Propagates`: what the passes of a build come to.
* `Assembler.Reached.workList_exact`: the main statement.
-/

namespace Surmise

namespace Run

open Session

variable {σ : Setting} {s : Session}

/-! ## Narrowing -/

theorem answers_refine (w : World) (names : List String) (v : Value) : Answers (w.refine names v) := by
  unfold World.refine
  split
  · exact ensures_pure trivial
  · exact World.Ensures.check (ensures_pure trivial)

theorem keeps_refineSymbols (graph : Graph) (cancelled : Bool) (record : List (SymbolId × List String))
    (count : Nat) : Analysis.KeepsDefinitions (refineSymbols graph cancelled record count) := by
  intro st
  induction record generalizing st count with
  | nil => exact Analysis.keeps_pure count st
  | cons entry rest ih =>
    obtain ⟨symbol, names⟩ := entry
    have hanswers := answers_refine ⟨graph, st, cancelled⟩ names (st.value symbol)
    rw [run_refineSymbols_cons]
    generalize World.refine ⟨graph, st, cancelled⟩ names (st.value symbol) = refined at hanswers ⊢
    obtain e | _ | v := refined
    · obtain rfl : e = .cancelled := hanswers
      exact ⟨StoreM.keeps_pure () st, nofun⟩
    · exact ih count st
    · obtain ⟨hkept, hresult⟩ := ih (count + 1) (StoreM.put symbol v st).2
      exact ⟨(StoreM.keeps_put symbol v st).trans hkept, hresult⟩

/-- Narrowing changes symbols only, and does not run out of steps. -/
theorem same_refine (σ : Setting) (s : Session) :
    (refine σ s).2.store.functions = s.store.functions ∧ (refine σ s).2.assembly = s.assembly ∧
      (refine σ s).2.evaluated = s.evaluated ∧ (refine σ s).1 ≠ .error .exhausted := by
  rw [refine_apply]
  split
  · next recorder _ =>
    have hkeeps := keeps_refineSymbols σ.graph s.handle.isCancelled recorder.attrs 0 s.store
    dsimp only
    generalize (refineSymbols σ.graph s.handle.isCancelled recorder.attrs 0).run s.store = out at hkeeps
    obtain ⟨e | _, st⟩ := out
    · exact ⟨hkeeps.1.functions, rfl, rfl, fun he => hkeeps.2 (congrArg Except.error (Except.error.inj he))⟩
    · exact ⟨hkeeps.1.functions, rfl, rfl, nofun⟩
  · exact ⟨rfl, rfl, rfl, nofun⟩

end Run

/-! ## Builds -/

/-- What holds of the list of what is visited in every state of an assembler. -/
structure Session.Tracked (s : Session) : Prop where
  listed : ∃ modules : List Nat, modules.Nodup ∧ (∀ i ∈ modules, i < s.assembly.files.length) ∧
    s.Listed modules
  distinct : SourceFile.Distinct s.assembly.files
  held : ∀ file ∈ s.assembly.files, s.assembly.tree.contains file.path = true
  located : s.evaluated = [] → s.Located s.assembly.files

namespace Run

open Session

variable {σ : Setting} {s : Session}

theorem bound_lt {files : List SourceFile} {steps : Nat} (h : ∀ file ∈ files, 2 * file.tree.height < steps)
    (hpos : 0 < steps) (exhausts : Prop) : (Reading.ofFiles exhausts files).bound < steps := by
  have hheights : (files.map fun file => file.tree.height).foldl max 0 ≤ (steps - 1) / 2 := by
    refine Node.foldl_max_le_iff.mpr ⟨Nat.zero_le _, List.forall_mem_map.mpr fun file hfile => ?_⟩
    have hheight := h file hfile
    omega
  show 2 * (files.map fun file => file.tree.height).foldl max 0 < steps
  omega

/-- What the passes of a build come to, from the state after its modules were scheduled. -/
structure Propagates (σ : Setting) (steps : Nat) (s : Session) (out : Except AnalysisError Unit × Session) :
    Prop where
  continues : s.Continues out.2
  listed : out.2.Listed (List.range s.assembly.files.length)
  located : out.2.evaluated = [] → out.2.Located s.assembly.files
  /-- All passes have swept over their lists. -/
  sweeps : out.1 = .ok () →
    Sweeps σ steps σ.options.passes σ.options.passes (scheduleModules σ s).2 out.2
  ends : out.2.evaluated = [] → SourceFile.workCount s.assembly.files < steps →
    (∀ file ∈ s.assembly.files, 2 * file.tree.height < steps) → out.1 ≠ .error .exhausted

theorem propagates (hσ : σ.Benign) (hs : s.Tracked) (steps : Nat) :
    Propagates σ steps s (propagate steps σ s) := by
  obtain ⟨modules, hmodules, hfiles, hlisted⟩ := hs.listed
  obtain ⟨s₁, hscheduled, ⟨_, hschedules⟩, hlisted₁⟩ :=
    listed_scheduleModules (σ := σ) hlisted hmodules hfiles hs.distinct
  have hpropagate : propagate steps σ s = passes steps σ.options.passes σ.options.passes σ s₁ := by
    rw [propagate, bind_apply, hscheduled]
    exact read_bind_apply _
  obtain ⟨hlists, hpasses⟩ := works_passes hσ steps σ.options.passes σ.options.passes
    (List.range s.assembly.files.length) s₁
  have hcontinues := hschedules.continues.trans hpasses
  -- without evaluated texts in the end there are none before
  have hlocated : ∀ exhausts : Prop, (¬exhausts → SourceFile.workCount s.assembly.files < steps ∧
      ∀ file ∈ s.assembly.files, 2 * file.tree.height < steps) →
      (passes steps σ.options.passes σ.options.passes σ s₁).2.evaluated = [] →
      (passes steps σ.options.passes σ.options.passes σ s₁).2.Located s.assembly.files ∧
        ((passes steps σ.options.passes σ.options.passes σ s₁).1 = .error .exhausted → exhausts) := by
    intro exhausts hlimit hnone
    have hstart : s.evaluated = [] := List.suffix_nil.mp (hnone ▸ hcontinues.evaluated)
    have hs₁ : s₁.Located s.assembly.files :=
      (hs.located hstart).of_same (by rw [hschedules.store]) hschedules.functions hschedules.lambdas
    refine located_passes hσ (fun hexhausts => ?_) (fun hexhausts => (hlimit hexhausts).1) hschedules.files
      hlisted₁ hs₁ ?_
    · obtain ⟨hcount, hheights⟩ := hlimit hexhausts
      exact bound_lt hheights (Nat.zero_lt_of_lt hcount) exhausts
    · rw [hnone, hschedules.evaluated, hstart]
  rw [hpropagate]
  refine ⟨hcontinues, hlists hlisted₁, fun hnone => ?_, fun hok => ?_, fun hnone hcount hheights he => ?_⟩
  · exact (hlocated True (fun hfalse => absurd trivial hfalse) hnone).1
  · rw [hscheduled]
    exact sweeps_passes hσ List.nodup_range hlisted₁ (Prod.ext hok rfl)
  · exact (hlocated False (fun _ => ⟨hcount, hheights⟩) hnone).2 he

end Run

theorem SourceTree.contains_iff {t : SourceTree} {path : Path} :
    t.contains path = true ↔ ∃ entry ∈ t.files, entry.1.components = path.components := by
  rw [contains, file?, Option.isSome_map, List.find?_isSome]
  exact exists_congr fun entry => and_congr_right fun _ => Path.beq_iff

theorem StandsIn.append {files : List SourceFile} (file : SourceFile) {origin : Origin} {node : Node}
    (h : StandsIn files origin node) : StandsIn (files ++ [file]) origin node := by
  obtain ⟨i, old, horigin, hold, hnode⟩ := h
  refine ⟨i, old, horigin, ?_, hnode⟩
  rw [List.getElem?_append_left (List.getElem?_eq_some_iff.mp hold).1, hold]

namespace Session

variable {s s' : Session}

/-- A change that leaves functions, definitions, the list and files as they are. -/
theorem Tracked.of_same (hs : s.Tracked) (hstore : s'.store.functions = s.store.functions)
    (hassembly : s'.assembly = s.assembly) (hevaluated : s'.evaluated = s.evaluated) : s'.Tracked := by
  obtain ⟨modules, hnodup, hfiles, hlisted⟩ := hs.listed
  refine ⟨⟨modules, hnodup, ?_, hlisted.of_same hstore ?_ ?_ ?_⟩, ?_, ?_, fun hnone => ?_⟩
  · rw [hassembly]; exact hfiles
  · rw [hassembly]
  · rw [hassembly]
  · rw [hassembly]
  · rw [hassembly]; exact hs.distinct
  · rw [hassembly]; exact hs.held
  · rw [hevaluated] at hnone
    have hlocated := hs.located hnone
    rw [hassembly]
    exact hlocated.of_same hstore (by rw [hassembly]) (by rw [hassembly])

/-- Another search path changes nothing. -/
theorem Tracked.searching (hs : s.Tracked) (file : SourceFile) : (s.searching file).Tracked := by
  obtain ⟨paths, hpaths⟩ := s.searching_eq file
  rw [hpaths]
  obtain ⟨modules, hnodup, hfiles, hlisted⟩ := hs.listed
  exact ⟨⟨modules, hnodup, hfiles, hlisted.of_same rfl rfl rfl rfl⟩, hs.distinct, hs.held,
    fun hnone => (hs.located hnone).of_same rfl rfl rfl⟩

/-- One more file, whose path is new. -/
theorem Tracked.withFile (hs : s.Tracked) (file : SourceFile)
    (hnew : s.assembly.tree.contains file.path = false) {st : Store} {t : SourceTree}
    (hstore : st.functions = s.store.functions) (hfiles : t.files = s.assembly.tree.files) :
    (s.withFile file st t).Tracked := by
  obtain ⟨paths, hpaths⟩ := s.searching_eq file
  obtain ⟨modules, hnodup, hbelow, hlisted⟩ := hs.listed
  have habsent := SourceTree.forall_of_not_contains hnew
  unfold Session.withFile
  rw [hpaths, hfiles, SourceTree.putFile_eq_append habsent]
  refine ⟨⟨modules, hnodup, fun i hi => ?_, hlisted.of_same hstore rfl rfl rfl⟩, ?_, fun old hold => ?_,
    fun hnone => ?_⟩
  · show i < (s.assembly.files ++ [file]).length
    rw [List.length_append]
    exact Nat.lt_add_right _ (hbelow i hi)
  · show (ModuleOrder.keys ((s.assembly.files ++ [file]).map SourceFile.path)).Nodup
    rw [ModuleOrder.keys, List.map_append, List.map_append]
    refine List.nodup_append.mpr ⟨hs.distinct, List.nodup_singleton _, fun k hk k' hk' => ?_⟩
    obtain rfl := List.mem_singleton.mp hk'
    rintro rfl
    -- a file with this path would be in the tree
    obtain ⟨path, hpath, hsame⟩ := List.mem_map.mp hk
    obtain ⟨old, hold, rfl⟩ := List.mem_map.mp hpath
    obtain ⟨entry, hentry, hkey⟩ := SourceTree.contains_iff.mp (hs.held old hold)
    have hbeq := habsent entry hentry
    rw [Path.beq_iff.mpr (hkey.trans hsame)] at hbeq
    cases hbeq
  · refine SourceTree.contains_iff.mpr ?_
    rcases List.mem_append.mp hold with hold | hold
    · obtain ⟨entry, hentry, hkey⟩ := SourceTree.contains_iff.mp (hs.held old hold)
      exact ⟨entry, List.mem_append_left _ hentry, hkey⟩
    · obtain rfl := List.mem_singleton.mp hold
      exact ⟨_, List.mem_append_right _ List.mem_cons_self, rfl⟩
  · have hlocated := (hs.located hnone)
    refine ⟨fun info hinfo => ?_, fun entry hentry => ?_, fun entry hentry => ?_⟩
    · have hinfo' : info ∈ st.functions := hinfo
      rw [hstore] at hinfo'
      exact (hlocated.nodes info hinfo').append file
    · obtain ⟨node, hstands, hid⟩ := hlocated.functions entry hentry
      exact ⟨node, hstands.append file, hid⟩
    · obtain ⟨node, hstands, hid⟩ := hlocated.lambdas entry hentry
      exact ⟨node, hstands.append file, hid⟩

end Session

namespace Assembler

open Session

variable {a : Assembler}

theorem tracked_new (graph : Graph) (options : Options) (policies : List ClassPolicy) (trace : Trace)
    (delegate : Option Delegate) : (new graph options policies trace delegate).session.Tracked := by
  obtain ⟨_, base, rfl, -, -, -, heq⟩ := new_spec graph options policies trace delegate
  rw [heq]
  exact ⟨⟨[], List.nodup_nil, nofun, List.Perm.refl _, List.Perm.refl _, List.nodup_nil, List.nodup_nil⟩,
    List.nodup_nil, nofun, fun _ => ⟨nofun, nofun, nofun⟩⟩

theorem tracked_addFile (h : Ordered a.setting a.session) (hs : a.session.Tracked) (file : SourceFile) :
    (a.addFile file).session.Tracked := by
  obtain ⟨s', heq, hadded⟩ := Run.addFile_spec (Q := fun _ => True) h.inv h.keyed file fun _ _ _ _ _ => trivial
  have hsession : (a.addFile file).session = s' := congrArg Prod.snd heq
  rw [hsession]
  rcases hadded with ⟨-, rfl⟩ | ⟨hnew, st, t, hloads, rfl⟩
  · exact hs.searching file
  · obtain ⟨mid, hsteps, hmade⟩ := StoreM.newModule_spec file.path.moduleName file.path a.setting.builtins h.inv.free
    have hmodule : (StoreM.newModule file.path.moduleName file.path a.setting.builtins
        a.session.store).2.functions = a.session.store.functions := by
      rw [hmade]
      exact hsteps.sameObjects.functions
    generalize (StoreM.newModule file.path.moduleName file.path a.setting.builtins a.session.store).2 = made
      at hloads hmodule
    exact hs.withFile file hnew (hloads.sameProgram.functions.trans hmodule) hloads.files

section Build

variable {σ : Setting} {s : Session} {handle : CancelHandle}

/-- A build that is not refused, as its passes and the narrowing after them. -/
theorem build_begun (hvalid : σ.options.passes ≠ 0) (hgoes : handle.isCancelled = false) (steps : Nat) :
    Run.build steps handle σ s =
      match Run.propagate steps σ { s with handle } with
      | (.ok _, t) => Run.refine σ t
      | (.error e, t) => (.error e, t) := by
  rw [Run.build_apply, if_neg hvalid, if_neg (Bool.eq_false_iff.mp hgoes), Run.bind_apply]
  rcases Run.propagate steps σ { s with handle } with ⟨_ | _, _⟩ <;> rfl

/-- The passes of a build are followed by a change of symbols only. -/
theorem same_build (hvalid : σ.options.passes ≠ 0) (hgoes : handle.isCancelled = false) (steps : Nat) :
    (Run.build steps handle σ s).2.store.functions = (Run.propagate steps σ { s with handle }).2.store.functions ∧
      (Run.build steps handle σ s).2.assembly = (Run.propagate steps σ { s with handle }).2.assembly ∧
      (Run.build steps handle σ s).2.evaluated = (Run.propagate steps σ { s with handle }).2.evaluated := by
  rw [build_begun hvalid hgoes]
  generalize Run.propagate steps σ { s with handle } = out
  obtain ⟨e | _, t⟩ := out
  · exact ⟨rfl, rfl, rfl⟩
  · obtain ⟨hstore, hassembly, hevaluated, -⟩ := Run.same_refine σ t
    exact ⟨hstore, hassembly, hevaluated⟩

theorem tracked_build (hbenign : σ.Benign) (hs : s.Tracked) (steps : Nat)
    (handle : CancelHandle) : (Run.build steps handle σ s).2.Tracked := by
  by_cases hvalid : σ.options.passes = 0
  · rw [Run.build_apply, if_pos hvalid]
    exact hs
  · cases hgoes : handle.isCancelled with
    | true =>
      rw [Run.build_apply, if_neg hvalid, if_pos hgoes]
      exact hs
    | false =>
      have hs' : Session.Tracked { s with handle } := hs.of_same rfl rfl rfl
      have hpropagates := Run.propagates hbenign hs' steps
      obtain ⟨hstore, hassembly, hevaluated⟩ := same_build hvalid hgoes steps
      refine Tracked.of_same ?_ hstore hassembly hevaluated
      generalize Run.propagate steps σ { s with handle } = out at hpropagates
      have hfiles : out.2.assembly.files = s.assembly.files := hpropagates.continues.files
      have htree : out.2.assembly.tree = s.assembly.tree := hpropagates.continues.tree
      refine ⟨⟨_, List.nodup_range, fun i hi => ?_, hpropagates.listed⟩, ?_, ?_, fun hnone => ?_⟩
      · rw [hfiles]
        exact List.mem_range.mp hi
      · rw [hfiles]; exact hs.distinct
      · rw [hfiles, htree]; exact hs.held
      · rw [hfiles]; exact hpropagates.located hnone

end Build

theorem Reached.tracked (h : Reached a) : a.session.Tracked := by
  induction h with
  | new graph options _ trace _ => exact tracked_new graph options _ trace _
  | addFile h file ih => exact tracked_addFile h.ordered ih file
  | attach _ _ _ _ _ ih => exact ih.of_same rfl rfl rfl
  | build h steps handle ih => exact tracked_build h.ordered.inv.benign ih steps handle

/--
**The list of what is visited is exact, and passes end.** After any builds and additions of files, a build
that is not refused leaves a list that holds each file's module once, each function once and nothing else;
no two functions have one place. If the build succeeds, each of its passes has visited in turn what was on the
list at the end of the pass. If the program has evaluated no text, the list is no longer than there are
files and definitions in them, and steps do not run out where there are more of them than that and than
nodes are nested.
-/
theorem Reached.workList_exact {a : Assembler} (h : a.Reached) (steps : Nat) (handle : CancelHandle)
    (hvalid : a.setting.options.passes ≠ 0) (hgoes : handle.isCancelled = false) :
    let built := a.perform (Run.build steps handle)
    let files := built.2.session.assembly.files
    built.2.session.Listed (List.range files.length) ∧ built.2.session.assembly.order.toList.Nodup ∧
      (built.1 = .ok () → ∃ ended,
        Run.Sweeps a.setting steps a.setting.options.passes a.setting.options.passes
          (Run.scheduleModules a.setting { a.session with handle }).2 ended ∧
        (built.1, built.2.session) = Run.refine a.setting ended ∧
        built.2.session.assembly = ended.assembly) ∧
      (built.2.session.evaluated = [] →
        built.2.session.assembly.order.size ≤ SourceFile.workCount files ∧
        (SourceFile.workCount files < steps → (∀ file ∈ files, 2 * file.tree.height < steps) →
          built.1 = .ok () ∨ built.1 = .error .cancelled)) := by
  have hs := h.tracked
  have hinv := h.ordered.inv
  obtain ⟨σ, s⟩ := a
  have hs' : Session.Tracked { s with handle } := hs.of_same rfl rfl rfl
  have hpropagates := Run.propagates hinv.benign hs' steps
  have hends := (Run.does_build hinv hvalid steps handle).2
  obtain ⟨hstore, hassembly, hevaluated⟩ := same_build (s := s) hvalid hgoes steps
  have hbegun := build_begun (s := s) hvalid hgoes steps
  rw [perform_eq]
  dsimp only at hends ⊢
  generalize Run.build steps handle σ s = out at hends hstore hassembly hevaluated hbegun ⊢
  generalize hpassed : Run.propagate steps σ { s with handle } = passed
    at hpropagates hstore hassembly hevaluated hbegun
  have hfiles : out.2.assembly.files = s.assembly.files := by
    rw [hassembly]
    exact hpropagates.continues.files
  have hlisted : out.2.Listed (List.range s.assembly.files.length) :=
    hpropagates.listed.of_same hstore (by rw [hassembly]) (by rw [hassembly]) (by rw [hassembly])
  rw [hfiles]
  refine ⟨hlisted, hlisted.nodup List.nodup_range, fun hok => ?_, fun hnone => ⟨?_, fun hcount hheights => ?_⟩⟩
  · obtain ⟨_ | _, ended⟩ := passed
    · rw [hbegun] at hok
      cases hok
    · exact ⟨ended, hpropagates.sweeps rfl, hbegun, hassembly⟩
  · rw [hevaluated] at hnone
    exact size_le_workCount hlisted ((hpropagates.located hnone).of_same hstore (by rw [hassembly])
      (by rw [hassembly]))
  · rw [hevaluated] at hnone
    have hpasses := hpropagates.ends hnone hcount hheights
    have hresult : out.1 ≠ .error .exhausted := by
      rw [hbegun]
      obtain ⟨e | _, ended⟩ := passed
      · exact fun he => hpasses (congrArg Except.error (Except.error.inj he))
      · exact (Run.same_refine σ ended).2.2.2
    obtain ⟨e | _, t⟩ := out
    · rcases hends with rfl | rfl
      · exact .inr rfl
      · exact absurd rfl hresult
    · exact .inl rfl

def nestedFile : SourceFile :=
  .ofTree ⟨"/p/a.py"⟩ (.module
    [.functionDef 0 "f" .empty
      [.functionDef 1 "g" .empty [.returnStmt (some (.lambda 2 .empty (.literal .float)))] [] none false 2]
      [] none false 1]) none

def lambdaFile : SourceFile :=
  .ofTree ⟨"/p/b.py"⟩ (.module [.assign [.ident "x"] (.lambda 0 .empty (.literal .bytes))]) none

def twoPasses : Assembler := .new .empty { Options.standard with passes := 2 } ClassPolicy.standard .off none

def ofNestedDefinitions : Assembler := (twoPasses.addFile nestedFile).addFile lambdaFile

theorem reached_ofNestedDefinitions : ofNestedDefinitions.Reached := by
  unfold ofNestedDefinitions twoPasses
  exact .addFile (.addFile (reached_new _ _ _) _) _

theorem files_addFile {file : SourceFile} (hnew : a.session.assembly.tree.contains file.path = false) :
    (a.addFile file).session.assembly.files = a.session.assembly.files ++ [file] := by
  obtain ⟨paths, hpaths⟩ := a.session.searching_eq file
  show (Run.addFile file a.setting a.session).2.assembly.files = _
  rw [Run.addFile_eq, hnew, hpaths]
  rfl

theorem files_ofNestedDefinitions :
    (ofNestedDefinitions.perform (Run.build 30 .new)).2.session.assembly.files = [nestedFile, lambdaFile] := by
  have hbuild := (Moves.tree (moves_build reached_ofNestedDefinitions.ordered.inv 30 .new)).2
  have hnone : twoPasses.session.assembly.files = [] := rfl
  have hfirst : twoPasses.session.assembly.tree.contains nestedFile.path = false := by decide +kernel
  have hsecond : (twoPasses.addFile nestedFile).session.assembly.tree.contains lambdaFile.path = false := by
    decide +kernel
  rw [perform_eq]
  dsimp only
  rw [hbuild, ofNestedDefinitions, files_addFile hsecond, files_addFile hfirst, hnone]
  rfl

theorem workCount_nested : SourceFile.workCount [nestedFile, lambdaFile] = 6 ∧
    ∀ file ∈ [nestedFile, lambdaFile], 2 * file.tree.height < 30 := by
  constructor
  · simp only [SourceFile.workCount, nestedFile, lambdaFile, SourceFile.ofTree, List.map_cons, List.map_nil,
      Node.definitionCount]
    simp [Node.nodes_eq, Node.children, Parameters.children, Parameters.empty]
    rfl
  · simp [nestedFile, lambdaFile, SourceFile.ofTree, Node.height_eq, Node.children, Parameters.children,
      Parameters.empty]

set_option maxRecDepth 100000 in
theorem workList_exact_ofNestedDefinitions :
    (ofNestedDefinitions.perform (Run.build 30 .new)).2.session.assembly.order.size = 6 ∧
      (ofNestedDefinitions.perform (Run.build 30 .new)).2.session.evaluated = [] ∧
      SourceFile.workCount (ofNestedDefinitions.perform (Run.build 30 .new)).2.session.assembly.files = 6 ∧
      (ofNestedDefinitions.perform (Run.build 30 .new)).2.session.Listed (List.range 2) ∧
      (ofNestedDefinitions.perform (Run.build 30 .new)).1 ≠ .error .exhausted := by
  have hvalid : ofNestedDefinitions.setting.options.passes ≠ 0 := by decide +kernel
  have hfacts : (ofNestedDefinitions.perform (Run.build 30 .new)).2.session.assembly.order.size = 6 ∧
      (ofNestedDefinitions.perform (Run.build 30 .new)).2.session.evaluated = [] := by
    decide +kernel
  have hfiles := files_ofNestedDefinitions
  have hexact := reached_ofNestedDefinitions.workList_exact 30 .new hvalid rfl
  dsimp only at hexact
  generalize ofNestedDefinitions.perform (Run.build 30 .new) = built at hfacts hfiles hexact ⊢
  rw [hfiles] at hexact ⊢
  obtain ⟨hsize, hnone⟩ := hfacts
  obtain ⟨hlisted, -, -, hends⟩ := hexact
  obtain ⟨hcount, hheights⟩ := workCount_nested
  refine ⟨hsize, hnone, hcount, hlisted, fun he => ?_⟩
  rcases (hends hnone).2 (by rw [hcount]; decide) hheights with hok | hcancelled
  · rw [hok] at he
    cases he
  · rw [hcancelled] at he
    cases he

end Assembler

end Surmise
