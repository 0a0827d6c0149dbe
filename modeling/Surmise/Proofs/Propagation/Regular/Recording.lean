import Surmise.Proofs.Propagation.Regular.Basic

/-!
# What is noted

What is noted of names, arguments and assignments changes nothing but the record, because a look at the targets
of a call makes nothing.
-/

namespace Surmise.Run

section Idle

variable {α β : Type}

theorem idle_of_still {act : Run α} (h : ∀ σ (s : Session), ∃ a, ∀ trace observer,
    act σ (s.watching trace observer) = (.ok a, s.watching trace observer)) : Idle act := by
  intro σ s
  obtain ⟨a, hact⟩ := h σ s
  exact ⟨a, s.recorder, rfl, hact⟩

theorem idle_pure (a : α) : Idle (pure a) := idle_of_still fun _ _ => ⟨a, fun _ _ => rfl⟩

theorem idle_record (f : Recorder → Recorder) : Idle (record f) := fun _ s =>
  ⟨(), s.recorder.map f, Option.isSome_map, fun _ _ => rfl⟩

theorem Idle.bind {act : Run α} {next : α → Run β} (h : Idle act) (hnext : ∀ a, Idle (next a)) :
    Idle (act >>= next) := by
  intro σ s
  obtain ⟨a, recorder, hkept, hact⟩ := h σ s
  obtain ⟨b, recorder', hkept', hrest⟩ := hnext a σ (s.noting recorder)
  refine ⟨b, recorder', hkept'.trans hkept, fun trace observer => ?_⟩
  rw [bind_apply, hact]
  exact hrest trace observer

/-- What is noted takes no step that the rest of the state shows. -/
theorem Idle.goes {act : Run α} (h : Idle act) {σ : Setting} {s : Session} : Goes σ s act := by
  obtain ⟨a, recorder, -, hact⟩ := h σ s
  have hrun : act σ s = (.ok a, s.noting recorder) := hact s.trace s.observer
  unfold Goes Does
  rw [hrun]
  exact ⟨.single (.quiet rfl rfl rfl rfl), trivial⟩

theorem idle_getStore : Idle getStore := idle_of_still fun _ s => ⟨s.store, fun _ _ => rfl⟩

theorem idle_world : Idle world := idle_of_still fun σ s =>
  ⟨⟨σ.graph, s.store, s.handle.isCancelled⟩, fun _ _ => rfl⟩

theorem idle_isRecording : Idle isRecording := idle_of_still fun _ s =>
  ⟨s.recorder.isSome, fun _ _ => rfl⟩

theorem idle_forIn {body : α → Unit → Run (ForInStep Unit)} (h : ∀ x, Idle (body x ())) (xs : List α) :
    Idle (forIn xs () body) := by
  induction xs with
  | nil => exact idle_pure ()
  | cons x rest ih =>
    rw [List.forIn_cons]
    refine (h x).bind fun out => ?_
    cases out with
    | done => exact idle_pure ()
    | yield => exact ih

/-- What is done only while a record is kept. -/
theorem idle_whenRecording {act : Run Unit} {p : Bool → Bool} (h : Idle act) :
    Idle (isRecording >>= fun recording => if p recording then act else pure ()) := by
  refine idle_isRecording.bind fun recording => ?_
  split
  · exact h
  · exact idle_pure ()

theorem idle_recordMember (f : Frame) (object : Node) (name : String) : Idle (recordMember f object name) := by
  refine idle_whenRecording (idle_getStore.bind fun st => ?_)
  split
  · exact idle_record _
  · exact idle_pure ()

end Idle

/-! ## Looks -/

/-- The computation leaves the state as it is, and looks neither at the trace nor at the observer. -/
def Still {α : Type} (act : Run α) : Prop :=
  ∀ σ (s : Session), ∃ out, ∀ trace observer,
    act σ (s.watching trace observer) = (out, s.watching trace observer)

section Still

variable {α β : Type}

theorem Still.bind {act : Run α} {next : α → Run β} (h : Still act) (hnext : ∀ a, Still (next a)) :
    Still (act >>= next) := by
  intro σ s
  obtain ⟨_ | a, hact⟩ := h σ s
  · exact ⟨_, fun trace observer => by rw [bind_apply, hact]⟩
  · obtain ⟨out, hrest⟩ := hnext a σ s
    refine ⟨out, fun trace observer => ?_⟩
    rw [bind_apply, hact]
    exact hrest trace observer

theorem still_pure (a : α) : Still (pure a) := fun _ _ => ⟨.ok a, fun _ _ => rfl⟩

theorem still_getStore_bind {next : Store → Run β} (h : ∀ st, Still (next st)) :
    Still (getStore >>= next) := fun σ s => h s.store σ s

theorem still_check : Still check := fun σ s => ⟨s.handle.check, fun _ _ => check_apply σ _⟩

theorem still_mapM {f : α → Run β} (h : ∀ x, Still (f x)) (xs : List α) : Still (xs.mapM f) := by
  induction xs with
  | nil => exact still_pure []
  | cons x rest ih =>
    rw [List.mapM_cons]
    exact (h x).bind fun b => ih.bind fun bs => still_pure _

end Still

/-- Looking for the symbols of members without making any leaves the store as it is. -/
theorem memberSymbols_store (graph : Graph) (name : String) (symbols : List SymbolId) (vs : List Value)
    (st : Store) : (StoreM.memberSymbols graph false name symbols vs st).2 = st := by
  induction vs generalizing symbols with
  | nil => rfl
  | cons v rest ih =>
    have hone : (StoreM.memberSymbol graph false name v st).2 = st := by
      unfold StoreM.memberSymbol StoreM.madeSymbol
      rw [StoreM.bind_apply, StoreM.get_apply]
      dsimp only
      generalize World.memberSymbol? _ name v = found
      cases v <;> cases found <;> rfl
    rw [StoreM.memberSymbols, StoreM.bind_apply]
    generalize StoreM.memberSymbol graph false name v st = found at hone
    obtain ⟨_ | symbol, st'⟩ := found
    · subst hone
      exact ih symbols
    · subst hone
      exact ih _

theorem still_memberSymbols (v : Value) (name : String) : Still (memberSymbols false v name) := by
  refine still_check.bind fun _ σ s => ?_
  refine ⟨.ok (StoreM.memberSymbols σ.graph false name [] v.disjuncts s.store).1, fun trace observer => ?_⟩
  have hstore := memberSymbols_store σ.graph name [] v.disjuncts s.store
  show (_, Session.watching { s with store := (StoreM.memberSymbols σ.graph false name [] v.disjuncts
    s.store).2 } trace observer) = _
  rw [hstore]

theorem still_callTargets (callee : Value) : Still (callTargets callee) := by
  refine (still_mapM (fun v => ?_) _).bind fun _ => still_pure _
  unfold targetsOf
  split
  · exact still_pure _
  · exact (still_memberSymbols _ _).bind fun _ => still_getStore_bind fun _ => still_pure _
  · exact still_pure _

/-- A computation whose failure is replaced by a result. -/
theorem tryCatch_apply {α : Type} (act : Run α) (a : α) (σ : Setting) (t : Session) :
    (tryCatch act fun _ => pure a) σ t =
      match act σ t with
      | (.ok b, t') => (.ok b, t')
      | (.error _, t') => (.ok a, t') := by
  show (ExceptT.tryCatch (act σ) fun _ => pure a) t = _
  unfold ExceptT.tryCatch ExceptT.mk
  show StateT.bind (act σ) _ t = _
  unfold StateT.bind
  rcases act σ t with ⟨_ | a, t'⟩ <;> rfl

/-- A look at something that may fail, and is then left out. -/
theorem Still.idle_tryCatch {α : Type} {act : Run α} (h : Still act) (a : α) : Idle (tryCatch act fun _ => pure a) := by
  refine idle_of_still fun σ s => ?_
  obtain ⟨_ | b, hact⟩ := h σ s
  · exact ⟨a, fun trace observer => by rw [tryCatch_apply, hact]⟩
  · exact ⟨b, fun trace observer => by rw [tryCatch_apply, hact]⟩

theorem idle_recordArguments (callee : Value) (arguments : List (Option SymbolId)) :
    Idle (recordArguments callee arguments) := by
  refine idle_whenRecording (((still_callTargets callee).idle_tryCatch []).bind fun targets => ?_)
  refine idle_getStore.bind fun st => (idle_forIn (fun f => ?_) targets).bind fun _ => idle_pure ()
  refine (idle_forIn (fun entry => ?_) _).bind fun _ => idle_pure _
  obtain ⟨param, argument⟩ := entry
  cases argument with
  | some symbol => exact (idle_record _).bind fun _ => idle_pure _
  | none => exact idle_pure _

theorem idle_recordComparison (f : Frame) (left : Node) (ops : List CompareOp) (others : List Node) :
    Idle (Evaluator.recordComparison f left ops others) := by
  refine idle_whenRecording (idle_getStore.bind fun st => ?_)
  split
  · exact idle_record _
  · exact idle_pure ()

theorem idle_calleeReturns (f : Frame) (function : Node) : Idle (Evaluator.calleeReturns f function) :=
  idle_getStore.bind fun _ => idle_world.bind fun _ => idle_pure _

theorem idle_recordAssignment (f : Frame) (targets : List Node) (value : Node) :
    Idle (Evaluator.recordAssignment f targets value) := by
  refine idle_whenRecording (idle_getStore.bind fun st => ?_)
  split
  · have hflow : ∀ (target : SymbolId) (sources : List SymbolId), Idle (do
        for source in sources do
          record fun r => r.recordFlow source target) := fun target sources =>
      (idle_forIn (fun source => (idle_record _).bind fun _ => idle_pure _) sources).bind fun _ => idle_pure ()
    dsimp only
    split
    · exact (idle_pure _).bind fun sources => hflow _ sources
    · exact (idle_calleeReturns f _).bind fun sources => hflow _ sources
    · exact (idle_pure _).bind fun sources => hflow _ sources
  · exact idle_pure ()

end Surmise.Run

theorem Surmise.Evaluator.assignment_ident (ev : Evaluator) (f : Frame) (x : String) (e : Node) :
    ev.assignment f [.ident x] e = (do
      let assigned ← ev.evalAssigned f e
      ev.assign f (.ident x) assigned.1
      recordAssignment f [.ident x] e) := by
  unfold assignment
  simp only [List.forIn_cons, List.forIn_nil, bind_assoc, pure_bind]
  rfl
