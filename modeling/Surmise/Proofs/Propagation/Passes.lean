import Surmise.Build
import Surmise.Proofs.Propagation.Lockstep.Evaluation

/-!
# Passes

A build visits everything pass after pass. Apart from evaluating bodies it puts modules on the list of
what is visited, binds the receivers of methods, and narrows symbols at its end.

* `Session.Move`: what a build does to the state, one change at a time.
* `Run.does_passes`, `Run.does_refine`: a build only makes such changes.
-/

namespace Surmise

open Relation StoreM World

/-- The parameter that a method is handed its receiver in. -/
def FunctionInfo.bound? (info : FunctionInfo) : Option SymbolId :=
  if info.receiver = .unbound || info.owner.isNone then none else info.params.head?.map Param.symbol

namespace Session

/-- A single change of the state while an item is visited. -/
inductive Visit (σ : Setting) (item : WorkItem) : Session → Session → Prop
  | step {s s' : Session} (h : Step σ s s') : Visit σ item s s'
  /-- The receiver of the visited method is bound. -/
  | receive (s : Session) {g : FunctionId} (hg : item = .function g) {id : SymbolId}
      (hid : (s.store.function g).bound? = some id) {v : Value} (hv : v.Sound s.store.nextSerial) :
      Visit σ item s { s with store := (StoreM.put id v s.store).2 }

/-- A single change of the state during passes, while some item is visited. -/
def Tour (σ : Setting) (s s' : Session) : Prop := ∃ item, Visit σ item s s'

/-- A single change of the state during a build. -/
inductive Move (σ : Setting) : Session → Session → Prop
  | visit {s s' : Session} {item : WorkItem} (h : Visit σ item s s') : Move σ s s'
  /-- A module is put on the list of what is visited. -/
  | schedule (s : Session) (index : Nat) :
      Move σ s { s with assembly := { s.assembly with order := s.assembly.order.push (.module index) } }
  /-- A symbol is narrowed at the end of a build. -/
  | refine (s : Session) (id : SymbolId) {v : Value} (hv : v.Sound s.store.nextSerial) :
      Move σ s { s with store := (StoreM.put id v s.store).2 }

abbrev Moves (σ : Setting) : Session → Session → Prop := Relation.ReflTransGen (Move σ)

section Kept

variable {σ : Setting} {s s' : Session} {item : WorkItem}

theorem extends_put (s : Session) (id : SymbolId) (v : Value) : s.Extends { s with store := (put id v s.store).2 } :=
  ⟨Store.extends_put s.store id v, List.Subset.refl _, List.Subset.refl _⟩

theorem Inv.schedule (hs : s.Inv σ) (index : Nat) :
    Inv σ { s with assembly := { s.assembly with order := s.assembly.order.push (.module index) } } := by
  refine hs.of_assembly rfl { hs.sites with order := fun g hg => ?_ }
  rcases Array.mem_push.mp hg with hold | hnew
  · exact hs.sites.order g hold
  · cases hnew

theorem Visit.extension (h : Visit σ item s s') : s.Extends s' := by
  cases h with
  | step h => exact h.extension
  | receive => exact extends_put s _ _

theorem Visit.inv (h : Visit σ item s s') (hs : s.Inv σ) : s'.Inv σ := by
  cases h with
  | step h => exact h.inv hs
  | receive hg hid hv => exact hs.put _ hv _

theorem Move.extension (h : Move σ s s') : s.Extends s' := by
  cases h with
  | visit h => exact h.extension
  | schedule index => exact ⟨.refl _, List.Subset.refl _, List.Subset.refl _⟩
  | refine id => exact extends_put s id _

theorem Move.inv (h : Move σ s s') (hs : s.Inv σ) : s'.Inv σ := by
  cases h with
  | visit h => exact h.inv hs
  | schedule index => exact hs.schedule index
  | refine id hv => exact hs.put id hv _

theorem Step.move (h : Step σ s s') : Move σ s s' := by
  have hvisit : Visit σ (.module 0) s s' := .step h
  exact .visit hvisit

/-- The files are as they were: nothing that is evaluated adds one. -/
theorem Step.tree (h : Step σ s s') : s'.assembly.tree = s.assembly.tree ∧ s'.assembly.files = s.assembly.files := by
  cases h with
  | quiet hstore hassembly hnarrowed hbodies => rw [hassembly]; exact ⟨rfl, rfl⟩
  | _ => exact ⟨rfl, rfl⟩

theorem Move.tree (h : Move σ s s') : s'.assembly.tree = s.assembly.tree ∧ s'.assembly.files = s.assembly.files := by
  cases h with
  | visit h =>
    cases h with
    | step h => exact h.tree
    | receive => exact ⟨rfl, rfl⟩
  | schedule | refine => exact ⟨rfl, rfl⟩

theorem Moves.extension (h : Moves σ s s') : s.Extends s' := by
  induction h with
  | refl => exact .refl s
  | tail _ hmove ih => exact ih.trans hmove.extension

theorem Inv.afterMoves (hs : s.Inv σ) (h : Moves σ s s') : s'.Inv σ := by
  induction h with
  | refl => exact hs
  | tail _ hmove ih => exact hmove.inv ih

theorem moves_of_steps (h : Steps σ s s') : Moves σ s s' :=
  ReflTransGen.mono (fun _ _ => Step.move) _ _ h

theorem moves_of_visits (h : ReflTransGen (Visit σ item) s s') : Moves σ s s' :=
  ReflTransGen.mono (fun _ _ => Move.visit) _ _ h

theorem Tour.move (h : Tour σ s s') : Move σ s s' := by
  obtain ⟨item, hvisit⟩ := h
  exact .visit hvisit

theorem moves_of_tours (h : ReflTransGen (Tour σ) s s') : Moves σ s s' :=
  ReflTransGen.mono (fun _ _ => Tour.move) _ _ h

end Kept

end Session

namespace Run

open Session

variable {σ : Setting} {s : Session} {α : Type} {act : Run α} {post : α → Session → Prop} {ev : Evaluator}
  {item : WorkItem} {g : FunctionId} {m : ModuleId}

theorem Does.mono {r r' : Session → Session → Prop} (h : Does r σ s act post) (hr : ∀ s s', r s s' → r' s s') :
    Does r' σ s act post :=
  ⟨ReflTransGen.mono hr _ _ h.1, h.2⟩

/-- What takes steps can be done while any item is visited. -/
theorem Does.visits (h : Does (Step σ) σ s act post) : Does (Visit σ item) σ s act post :=
  h.mono fun _ _ => .step

theorem Does.moves (h : Does (Step σ) σ s act post) : Does (Move σ) σ s act post :=
  h.mono fun _ _ => Step.move

/-! ## Bodies -/

theorem does_bindReceiver (g : FunctionId) : Does (Visit σ (.function g)) σ s (bindReceiver g) fun _ _ => True := by
  refine does_getStore_bind ?_
  dsimp only
  split
  · next first rest c hparams howner =>
    have hreceive : ∀ v : Value, v.SoundIn s → (s.store.function g).receiver ≠ .unbound →
        Does (Visit σ (.function g)) σ s (inStore (put first.symbol v)) fun _ _ => True := by
      intro v hv hreceiver
      have hbound : (s.store.function g).bound? = some first.symbol := by
        simp [FunctionInfo.bound?, hparams, howner, hreceiver]
      exact ⟨.single (.receive s rfl hbound hv), trivial⟩
    split
    · exact does_pure trivial
    · next h => exact hreceive _ (Value.sound_unite (List.forall_mem_map.mpr fun c _ => by simp)) (by simp [h])
    · next h => exact hreceive _ (Value.sound_unite (List.forall_mem_map.mpr fun c _ => by simp)) (by simp [h])
  · exact does_pure trivial

/-- The body of a function may be run in its own scope. -/
theorem ready_function (h : s.Inv σ) (hg : g.index < s.store.functions.size) (home : ModuleId)
    (function : Option FunctionId) (origin : Origin) :
    Ready σ s (.body home (s.store.function g).locals function origin) := by
  have hinner : s.IsInner (s.store.function g).locals := .inl ⟨g, hg, rfl⟩
  exact ⟨h, h.lexical _ hinner, .inl rfl, h.placed _ (.inl hinner)⟩

theorem ready_module (h : s.Inv σ) (hm : m.index < s.store.modules.size)
    (function : Option FunctionId) (origin : Origin) :
    Ready σ s (.body m (s.store.module m).members function origin) := by
  refine ⟨h, .module hm, .inl rfl, m, hm, ?_⟩
  show (s.store.module m).path = (s.store.table (s.store.module m).members).address.file
  rw [(h.modules m hm).2]
  rfl

theorem does_visitFunction (hev : ev.Sound σ) (h : s.Inv σ) (hg : g.index < s.store.functions.size) :
    Does (Visit σ (.function g)) σ s (visitFunction ev g) fun _ _ => True := by
  refine does_getStore_bind ?_
  refine Does.then (Does.visits (does_say _)) fun s₁ hs₁ => ?_
  refine (does_bindReceiver g).then fun s₂ hs₂ => ?_
  have hmoves := moves_of_visits (hs₁.trans hs₂)
  have hready := (ready_function h hg (s.store.function g).home (some g) (s.store.function g).origin).extend
    (Moves.extension hmoves) (h.afterMoves hmoves)
  split
  · refine Does.visits (hev.block ?_ _)
    exact hready.congr rfl rfl
  · refine Does.visits ((hev.eval s₂ _ _ hready).bind fun v s₃ hs₃ hv => ?_)
    have hreturn := @walk_produceReturn .any true
    exact performs_of_twins (Γ := .sound v) (fun hf => hreturn hf v) (hready.inv.after hs₃) hv
  · exact does_pure trivial

theorem mem_files_of_file? {t : SourceTree} {path : Path} (h : t.file? path = some m) :
    ∃ e ∈ t.files, e.2 = m := by
  obtain ⟨e, he, rfl⟩ := Option.map_eq_some_iff.mp h
  exact ⟨e, List.mem_of_find?_eq_some he, rfl⟩

theorem does_visitModule (hev : ev.Sound σ) (h : s.Inv σ) (index : Nat) :
    Does (Visit σ (.module index)) σ s (visitModule ev index) fun _ _ => True := by
  refine does_get_bind ?_
  split
  · exact does_pure trivial
  · split
    · exact does_pure trivial
    · next m hm =>
      obtain ⟨e, he, rfl⟩ := mem_files_of_file? hm
      refine Does.visits ((does_say _).then fun s₁ hs₁ => ?_)
      exact hev.block ((ready_module h (h.sites.files e he) none (.file index)).after hs₁) _

theorem does_visitItem (hev : ev.Sound σ) (h : s.Inv σ) (hitem : item ∈ s.assembly.order) :
    Does (Visit σ item) σ s (visitItem ev item) fun _ _ => True := by
  cases item with
  | module index => exact does_visitModule hev h index
  | function g => exact does_visitFunction hev h (h.sites.order g hitem)

/-! ## Passes -/

/-- What takes steps can be done while something is visited. -/
theorem Does.tours (h : Does (Step σ) σ s act post) : Does (Tour σ) σ s act post :=
  h.mono fun _ _ hstep => ⟨.module 0, .step hstep⟩

theorem does_visitItems (hev : ev.Sound σ) (h : s.Inv σ) (steps index : Nat) :
    Does (Tour σ) σ s (visitItems ev steps index) fun _ _ => True := by
  induction steps generalizing s index with
  | zero => exact does_throw (.inr rfl)
  | succ steps ih =>
    refine does_get_bind ?_
    split
    · exact does_pure trivial
    · next item hitem =>
      refine does_check.tours.bind fun _ s₁ _ hs₁ => ?_
      subst hs₁
      have hvisit := does_visitItem hev h (Array.mem_of_getElem? hitem)
      refine (hvisit.mono fun _ _ hvisit => ⟨item, hvisit⟩).then fun s₂ hs₂ => ?_
      exact ih (h.afterMoves (moves_of_tours hs₂)) (index + 1)

theorem does_pass (h : s.Inv σ) (steps current total : Nat) :
    Does (Tour σ) σ s (pass steps current total) fun _ _ => True := by
  have hrecorder : ∀ recorder s₁, Goes σ s₁ (modify fun s => { s with recorder }) :=
    fun recorder s₁ => Does.imp (does_quiet rfl rfl rfl rfl) fun _ _ _ _ => trivial
  refine (does_say _).tours.then fun s₁ hs₁ => ?_
  refine (does_tell h.benign.delegate _).tours.then fun s₂ hs₂ => ?_
  refine does_read_bind ?_
  refine (hrecorder _ s₂).tours.then fun s₃ hs₃ => ?_
  have hinv := h.afterMoves (moves_of_tours ((hs₁.trans hs₂).trans hs₃))
  exact does_visitItems (Evaluator.sound_ofDepth σ steps) hinv steps 0

theorem does_passes (h : s.Inv σ) (steps total left : Nat) :
    Does (Tour σ) σ s (passes steps total left) fun _ _ => True := by
  induction left generalizing s with
  | zero => exact does_pure trivial
  | succ left ih =>
    exact (does_pass h steps (total - left) total).then fun s₁ hs₁ => ih (h.afterMoves (moves_of_tours hs₁))

theorem does_schedule (path : Path) : Does (Move σ) σ s (schedule path) fun _ _ => True := by
  refine does_get_bind ?_
  split
  · next index _ =>
    refine Does.then (Does.moves (does_say _)) fun s₁ _ => ?_
    exact Does.imp (does_modify (Move.schedule s₁ index)) fun _ _ _ _ => trivial
  · exact does_pure trivial

theorem does_scheduleModules : Does (Move σ) σ s scheduleModules fun _ _ => True := by
  refine does_get_bind ?_
  exact (does_for fun path _ s₁ _ => does_schedule path).then fun _ _ => does_pure trivial

/-! ## Refinement -/

theorem ensures_refine {w : World} (names : List String) {v : Value} {n : Nat} (hv : v.Sound n) :
    Ensures (w.refine names v) fun o => ∀ u ∈ o, u.Sound n := by
  unfold World.refine
  split
  · exact ensures_pure nofun
  · refine World.Ensures.check (ensures_pure fun u hu => ?_)
    unfold World.refined? at hu
    dsimp only at hu
    split at hu
    · cases hu
    · obtain rfl := Option.some.inj hu
      exact Value.sound_unite fun d hd => hv.of_mem_disjuncts (List.mem_filter.mp hd).1

theorem run_refineSymbols_cons (graph : Graph) (cancelled : Bool) (symbol : SymbolId) (names : List String)
    (rest : List (SymbolId × List String)) (count : Nat) (st : Store) :
    (refineSymbols graph cancelled ((symbol, names) :: rest) count).run st =
      match World.refine ⟨graph, st, cancelled⟩ names (st.value symbol) with
      | .error e => (.error e, st)
      | .ok none => (refineSymbols graph cancelled rest count).run st
      | .ok (some v) => (refineSymbols graph cancelled rest (count + 1)).run (StoreM.put symbol v st).2 := by
  have hget : ∀ next : Store → Analysis Nat, (get >>= next).run st = (next st).run st := fun _ => rfl
  rw [refineSymbols, hget]
  dsimp only
  rcases World.refine ⟨graph, st, cancelled⟩ names (st.value symbol) with _ | _ | _ <;> rfl

/-- Narrowing the symbols of a record is a sequence of moves, and fails only by being cancelled. -/
theorem moves_refineSymbols (graph : Graph) (cancelled : Bool) (record : List (SymbolId × List String))
    (count : Nat) (h : s.Inv σ) :
    Moves σ s { s with store := ((refineSymbols graph cancelled record count).run s.store).2 } ∧
      Ensures ((refineSymbols graph cancelled record count).run s.store).1 fun _ => True := by
  induction record generalizing s count with
  | nil => exact ⟨.refl, trivial⟩
  | cons entry rest ih =>
    obtain ⟨symbol, names⟩ := entry
    have hvalue := ensures_refine (w := ⟨graph, s.store, cancelled⟩) names (h.consistent.sound.value symbol)
    rw [run_refineSymbols_cons]
    split
    · next e hrefine =>
      rw [hrefine] at hvalue
      exact ⟨.refl, hvalue⟩
    · exact ih count h
    · next v hrefine =>
      rw [hrefine] at hvalue
      have hmove := Move.refine (σ := σ) s symbol (hvalue v rfl)
      obtain ⟨hmoves, hends⟩ := ih (count + 1) (hmove.inv h)
      exact ⟨.head hmove hmoves, hends⟩

theorem does_refine (h : s.Inv σ) : Does (Move σ) σ s refine fun _ _ => True := by
  refine does_get_bind ?_
  split
  · next recorder _ =>
    refine does_get_bind (does_read_bind ?_)
    obtain ⟨hmoves, hends⟩ := moves_refineSymbols σ.graph s.handle.isCancelled recorder.attrs 0 h
    have hrun : Does (Move σ) σ s (inStore (refineSymbols σ.graph s.handle.isCancelled recorder.attrs 0).run)
        fun o _ => Ensures o fun _ => True := ⟨hmoves, hends⟩
    have hrefine : Does (Move σ) σ s
        (inAnalysis (refineSymbols σ.graph s.handle.isCancelled recorder.attrs 0)) fun _ _ => True := by
      refine hrun.bind fun o s' _ ho => ?_
      cases o with
      | ok a => exact does_pure trivial
      | error e => exact does_throw (.inl ho)
    exact hrefine.then fun _ _ => does_pure trivial
  · exact does_pure trivial

/-! ## Builds -/

/-- Without a pass there is nothing to build. -/
theorem build_of_no_passes (hpasses : σ.options.passes = 0) (steps : Nat) (handle : CancelHandle) :
    build steps handle σ s = (.error (.invalidOptions OptionsError.noPasses.message), s) := by
  have hinvalid : σ.options.validate = .error .noPasses := if_pos hpasses
  rw [build, read_bind_apply, hinvalid]
  rfl

/-- A build with valid options makes moves, and stops only if it is cancelled or exhausted. -/
theorem does_build (h : s.Inv σ) (hpasses : σ.options.passes ≠ 0) (steps : Nat) (handle : CancelHandle) :
    Does (Move σ) σ s (build steps handle) fun _ _ => True := by
  have hhandle : Goes σ s (modify fun s => { s with handle }) :=
    Does.imp (does_quiet rfl rfl rfl rfl) fun _ _ _ _ => trivial
  have hvalid : σ.options.validate = .ok σ.options := if_neg hpasses
  refine does_read_bind ?_
  dsimp only
  rw [hvalid, CancelHandle.check]
  by_cases hcancelled : handle.isCancelled = true
  · rw [if_pos hcancelled]
    exact does_throw (.inl rfl)
  · rw [if_neg hcancelled]
    refine hhandle.moves.then fun s₁ hs₁ => ?_
    refine does_scheduleModules.then fun s₂ hs₂ => ?_
    have h₂ := h.afterMoves (hs₁.trans hs₂)
    have hpasses := does_passes h₂ steps σ.options.passes σ.options.passes
    refine (hpasses.mono fun _ _ => Tour.move).then fun s₃ hs₃ => ?_
    exact does_refine (h₂.afterMoves hs₃)

end Run

end Surmise
