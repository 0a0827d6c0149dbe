import Surmise.Proofs.Propagation.Builds
import Surmise.Proofs.Reached

/-!
# Observers do not influence what is found

A build may record what the code does with its symbols, write a trace and tell an observer of every value.
None of this is looked at while a program is evaluated: with another record, another trace or no observer
the same happens. The observer has one way to interfere, which is to abort the handle.

* `Session.Alike`: two states that differ in what is kept for observers.
* `Run.Unheeding`: in such states the computation does the same.
* `Run.Regular.unheeding`, `Run.unheeding_passes`: evaluation and whole passes do.
* `Assembler.analyse_unobserved`: the main statement.
-/

namespace Surmise

open Run Session

/-- What two states may differ in. -/
structure Difference where
  recorder : Bool
  trace : Bool
  observer : Bool

/--
The states differ as they may at most: in the record, in the trace, and in the observer, which the second
state is then without.
-/
def Session.Alike (d : Difference) (s s' : Session) : Prop :=
  ∃ recorder trace observer, s' = (s.noting recorder).watching trace observer ∧
    (d.recorder = false → recorder = s.recorder) ∧ (d.trace = false → trace = s.trace) ∧
    observer = if d.observer then none else s.observer

/--
The settings differ at most in the use of capabilities, if records may differ. An observer that may be missing
touches nothing.
-/
def Setting.Alike (d : Difference) (σ σ' : Setting) : Prop :=
  ∃ useCapabilities, σ' = σ.withCapabilities useCapabilities ∧ (d.recorder = false → σ' = σ) ∧
    (d.observer = true → σ.delegate.Discreet)

namespace Run

/--
The computation does the same in states that are alike, and leads to states that are alike. The one thing
that it may do to the handle is to abort it; where observers may differ, it does not.
-/
structure Unheeding {α : Type} (d : Difference) (act : Run α) : Prop where
  handle : ∀ σ s, (act σ s).2.handle = s.handle ∨ (act σ s).2.handle = s.handle.abort
  same : ∀ {σ σ' : Setting} {s s' : Session}, σ.Alike d σ' → s.Alike d s' →
    (d.observer = true → (act σ s).2.handle = s.handle) →
    (act σ' s').1 = (act σ s).1 ∧ (act σ s).2.Alike d (act σ' s').2

section Rules

variable {α β : Type} {d : Difference} {h h₁ h₂ : CancelHandle}

theorem handle_trans (hfirst : h₁ = h ∨ h₁ = h.abort)
    (hsecond : h₂ = h₁ ∨ h₂ = h₁.abort) : h₂ = h ∨ h₂ = h.abort := by
  rcases hfirst with rfl | rfl
  · exact hsecond
  · exact .inr (hsecond.elim id id)

/-- An aborted handle stays so: one that is as it was in the end has been so all the time. -/
theorem handle_eq_of_trans (hfirst : h₁ = h ∨ h₁ = h.abort)
    (hsecond : h₂ = h₁ ∨ h₂ = h₁.abort) (hend : h₂ = h) : h₁ = h := by
  rcases hfirst with rfl | rfl
  · rfl
  · exact (hsecond.elim id id).symm.trans hend

theorem Unheeding.bind {act : Run α} {next : α → Run β} (h : Unheeding d act)
    (hnext : ∀ a, Unheeding d (next a)) : Unheeding d (act >>= next) where
  handle σ s := state_bind (P := fun t => t.handle = s.handle ∨ t.handle = s.handle.abort) (h.handle σ s)
    fun a t ht => handle_trans ht ((hnext a).handle σ t)
  same {σ σ' s s'} hσ hs hend := by
    have hmid : d.observer = true → (act σ s).2.handle = s.handle := by
      intro hd
      have hfirst := h.handle σ s
      have hlast := hend hd
      rw [bind_apply] at hlast
      generalize act σ s = out at hfirst hlast
      obtain ⟨_ | a, t⟩ := out
      · exact hlast
      · exact handle_eq_of_trans hfirst ((hnext a).handle σ t) hlast
    obtain ⟨hout, halike⟩ := h.same hσ hs hmid
    rw [bind_apply] at hend ⊢
    rw [bind_apply]
    generalize act σ s = out at hmid hout halike hend ⊢
    generalize act σ' s' = out' at hout halike ⊢
    obtain ⟨result, t⟩ := out
    obtain ⟨result', t'⟩ := out'
    obtain rfl : result' = result := hout
    cases result' with
    | error e => exact ⟨rfl, halike⟩
    | ok a => exact (hnext a).same hσ halike fun hd => (hend hd).trans (hmid hd).symm

/-- A computation whose result depends on the rest of the state, and that leaves the handle as it is. -/
theorem unheeding_of_rest {act : Run α} (hhandle : ∀ σ s, (act σ s).2.handle = s.handle)
    (h : ∀ σ useCapabilities s recorder trace observer,
      act (σ.withCapabilities useCapabilities) ((s.noting recorder).watching trace observer) =
        ((act σ s).1, ((act σ s).2.noting recorder).watching trace observer)) : Unheeding d act where
  handle σ s := .inl (hhandle σ s)
  same {σ σ' s s'} hσ hs _ := by
    obtain ⟨useCapabilities, rfl, -⟩ := hσ
    obtain ⟨recorder, trace, observer, rfl, hrecorder, htrace, hobserver⟩ := hs
    have hown := h σ σ.options.useCapabilities s s.recorder s.trace s.observer
    have hr : (act σ s).2.recorder = s.recorder := congrArg (fun out => out.2.recorder) hown
    have ht : (act σ s).2.trace = s.trace := congrArg (fun out => out.2.trace) hown
    have ho : (act σ s).2.observer = s.observer := congrArg (fun out => out.2.observer) hown
    rw [h]
    exact ⟨rfl, recorder, trace, observer, rfl, hr ▸ hrecorder, ht ▸ htrace, ho ▸ hobserver⟩

theorem unheeding_pure (a : α) : Unheeding d (pure a) :=
  unheeding_of_rest (fun _ _ => rfl) fun _ _ _ _ _ _ => rfl

theorem unheeding_throw (e : AnalysisError) : Unheeding d (throw e : Run α) :=
  unheeding_of_rest (fun _ _ => rfl) fun _ _ _ _ _ _ => rfl

theorem unheeding_check : Unheeding d check := by
  refine unheeding_of_rest (fun σ s => ?_) fun σ _ s _ _ _ => ?_
  · rw [check_apply]
  · rw [check_apply, check_apply]
    rfl

theorem unheeding_inStore (act : StoreM α) : Unheeding d (inStore act) :=
  unheeding_of_rest (fun _ _ => rfl) fun _ _ _ _ _ _ => rfl

theorem unheeding_modifyAssembly (f : Assembly → Assembly) : Unheeding d (modifyAssembly f) :=
  unheeding_of_rest (fun _ _ => rfl) fun _ _ _ _ _ _ => rfl

theorem unheeding_ask (query : World → Except AnalysisError α) : Unheeding d (ask query) := by
  refine unheeding_of_rest (fun σ s => ?_) fun σ _ s _ _ _ => ?_
  · rw [ask_apply]
  · rw [ask_apply, ask_apply]
    rfl

theorem unheeding_inAnalysis (act : Analysis α) : Unheeding d (inAnalysis act) := by
  refine unheeding_of_rest (fun σ s => ?_) fun σ _ s _ _ _ => ?_
  · rw [inAnalysis_apply]
  · rw [inAnalysis_apply, inAnalysis_apply]
    rfl

/-- A look at the store and the assembly. -/
theorem unheeding_get {next : Session → Run β}
    (hsame : ∀ s s' : Session, s.store = s'.store → s.assembly = s'.assembly → next s = next s')
    (hnext : ∀ s, Unheeding d (next s)) : Unheeding d (get >>= next) where
  handle σ s := (hnext s).handle σ s
  same {σ σ' s s'} hσ hs hend := by
    have hlook : next s' = next s := by
      obtain ⟨recorder, trace, observer, rfl, -⟩ := hs
      exact hsame _ s rfl rfl
    show (next s' σ' s').1 = (next s σ s).1 ∧ (next s σ s).2.Alike d (next s' σ' s').2
    rw [hlook]
    exact (hnext s).same hσ hs hend

/-- A look at the setting, capabilities apart. -/
theorem unheeding_read {next : Setting → Run β}
    (hsame : ∀ σ useCapabilities, next (σ.withCapabilities useCapabilities) = next σ)
    (hnext : ∀ σ, Unheeding d (next σ)) : Unheeding d (read >>= next) where
  handle σ s := (hnext σ).handle σ s
  same {σ σ' s s'} hσ hs hend := by
    have hlook : next σ' = next σ := by
      obtain ⟨useCapabilities, rfl, -⟩ := hσ
      exact hsame σ useCapabilities
    show (next σ' σ' s').1 = (next σ σ s).1 ∧ (next σ σ s).2.Alike d (next σ' σ' s').2
    rw [hlook]
    exact (hnext σ).same hσ hs hend

theorem unheeding_for {act : α → Run Unit} (h : ∀ x, Unheeding d (act x)) (xs : List α) :
    Unheeding d (forIn xs () fun x _ => act x >>= fun _ => pure (ForInStep.yield ())) := by
  induction xs with
  | nil => exact unheeding_pure ()
  | cons x rest ih =>
    rw [List.forIn_cons]
    refine ((h x).bind fun _ => unheeding_pure _).bind fun out => ?_
    cases out with
    | done => exact unheeding_pure ()
    | yield => exact ih

theorem unheeding_say (pieces : Store → List String) : Unheeding d (say pieces) := by
  refine ⟨fun σ s => .inl (by rw [say_apply]; rfl), fun {σ σ' s s'} hσ hs _ => ?_⟩
  obtain ⟨recorder, trace, observer, rfl, hrecorder, htrace, hobserver⟩ := hs
  rw [say_apply, say_apply]
  refine ⟨rfl, recorder, _, observer, rfl, hrecorder, fun hd => ?_, hobserver⟩
  rw [← htrace hd]
  rfl

theorem unheeding_idle {act : Run Unit} (h : Idle act) : Unheeding d act where
  handle σ s := by
    obtain ⟨_, recorder, -, hact⟩ := h σ s
    have hrun : act σ s = _ := hact s.trace s.observer
    rw [hrun]
    exact .inl rfl
  same {σ σ' s s'} hσ hs _ := by
    obtain ⟨recorder, trace, observer, rfl, hrecorder, htrace, hobserver⟩ := hs
    obtain ⟨_, recorder₁, -, hact⟩ := h σ s
    obtain ⟨_, recorder₂, -, hact'⟩ := h σ' (s.noting recorder)
    have hrun : act σ s = _ := hact s.trace s.observer
    rw [hrun, hact']
    refine ⟨rfl, recorder₂, trace, observer, rfl, fun hd => ?_, htrace, hobserver⟩
    -- with one record and one setting, what is noted is determined
    obtain ⟨_, -, hsame, -⟩ := hσ
    obtain rfl := hrecorder hd
    obtain rfl := hsame hd
    have hboth : (Except.ok (), (s.noting recorder₂).watching trace observer) =
        ((.ok (), (s.noting recorder₁).watching trace observer) :
          Except AnalysisError Unit × Session) := (hact' trace observer).symm.trans (hact trace observer)
    exact congrArg (fun out => out.2.recorder) hboth

/-- The observer aborts the handle or not. Where it may be missing, it touches nothing. -/
theorem unheeding_tell (notice : Notice) : Unheeding d (tell notice) where
  handle σ s := by
    obtain ⟨_, _, _, handle, _, observer, _, _, _⟩ := s
    cases observer with
    | none => exact .inl rfl
    | some told =>
      show (if σ.delegate.aborts (notice :: told) then handle.abort else handle) = handle ∨
        (if σ.delegate.aborts (notice :: told) then handle.abort else handle) = handle.abort
      split
      · exact .inr rfl
      · exact .inl rfl
  same {σ σ' s s'} hσ hs hend := by
    obtain ⟨_, rfl, -, hdiscreet⟩ := hσ
    obtain ⟨recorder, trace, observer, rfl, hrecorder, htrace, hobserver⟩ := hs
    obtain ⟨store, _, _, handle, _, watcher, _, _, _⟩ := s
    cases watcher with
    | none =>
      have hnone : observer = none := by rw [hobserver]; split <;> rfl
      subst hnone
      exact ⟨rfl, recorder, trace, none, rfl, hrecorder, htrace, hobserver⟩
    | some told =>
      cases hd : d.observer with
      | false =>
        rw [hd] at hobserver
        subst hobserver
        refine ⟨rfl, recorder, trace, some (notice :: told), rfl, hrecorder, htrace, ?_⟩
        rw [hd]
        rfl
      | true =>
        rw [hd] at hobserver
        subst hobserver
        have hkept : (if σ.delegate.aborts (notice :: told) then handle.abort else handle) = handle := hend hd
        have hstore : σ.delegate.touches (notice :: told) store = store := hdiscreet hd _ _
        refine ⟨rfl, recorder, trace, none, ?_, hrecorder, htrace, ?_⟩
        · show mk store _ _ handle _ _ _ _ _ = mk (σ.delegate.touches (notice :: told) store) _ _
            (if σ.delegate.aborts (notice :: told) then handle.abort else handle) _ _ _ _ _
          rw [hkept, hstore]
          rfl
        · rw [hd]
          rfl

end Rules

/-! ## Evaluation -/

section Evaluation

variable {α : Type} {d : Difference}

theorem unheeding_definedAt (form : Form) (f : Frame) (id : Nat) (signature : Signature) :
    Unheeding d (definedAt form f id signature) := by
  refine unheeding_of_rest (fun σ s => ?_) fun σ _ s recorder trace observer => ?_
  · rw [definedAt_apply]
    cases (form.places s.assembly).lookup (f.site id) <;> rfl
  · have hsame : ((s.noting recorder).watching trace observer).assembly = s.assembly := rfl
    rw [definedAt_apply, definedAt_apply, hsame]
    cases (form.places s.assembly).lookup (f.site id) <;> rfl

theorem unheeding_classAt (f : Frame) (id : Nat) (name : String) : Unheeding d (Evaluator.classAt f id name) := by
  have hmade : ∀ (s : Session) recorder trace observer,
      classMade f name ((s.noting recorder).watching trace observer) = classMade f name s := by
    intro s recorder trace observer
    unfold classMade
    rfl
  refine unheeding_of_rest (fun σ s => ?_) fun σ _ s recorder trace observer => ?_
  · rw [classAt_apply]
    cases s.assembly.classes.lookup (f.site id) <;> rfl
  · have hsame : ((s.noting recorder).watching trace observer).assembly = s.assembly := rfl
    rw [classAt_apply, classAt_apply, hsame]
    unfold withClass
    rw [hmade]
    cases s.assembly.classes.lookup (f.site id) <;> rfl

/-- **Evaluation does not look at what is kept for observers.** -/
theorem Regular.unheeding {texts : Bool} {act : Run α} (h : Regular .any texts act) : Unheeding d act := by
  have hrest : ∀ f : Session → Session, (∀ s, (f s).handle = s.handle) →
      (∀ s recorder trace observer, f ((s.noting recorder).watching trace observer) =
        ((f s).noting recorder).watching trace observer) → Unheeding d (modify f) := fun f hhandle hcommutes =>
    unheeding_of_rest (fun _ s => hhandle s) fun _ _ s recorder trace observer =>
      congrArg (Except.ok (), ·) (hcommutes s recorder trace observer)
  induction h with
  | pure a => exact unheeding_pure a
  | bind _ _ ih ihnext => exact ih.bind ihnext
  | exhausted => exact unheeding_throw .exhausted
  | check => exact unheeding_check
  | world => exact unheeding_of_rest (fun _ _ => rfl) fun _ _ _ _ _ _ => rfl
  | ask => exact unheeding_ask _
  | @getStore _ _ next _ ihnext =>
    have hget : (Run.getStore >>= next) = MonadState.get >>= fun s : Session => next s.store := rfl
    rw [hget]
    exact unheeding_get (fun _ _ hstore _ => by rw [hstore]) fun s => ihnext s.store
  | get hsame _ ihnext => exact unheeding_get hsame ihnext
  | read hsame _ ihnext => exact unheeding_read hsame fun σ => ihnext σ trivial
  | inStore => exact unheeding_inStore _
  | setBases _ _ ih => exact ih.bind fun _ => unheeding_inStore _
  | policies => exact unheeding_inAnalysis _
  | modifyAssembly => exact unheeding_modifyAssembly _
  | definedAt => exact unheeding_definedAt _ _ _ _
  | classAt => exact unheeding_classAt _ _ _
  | say pieces => exact unheeding_say pieces
  | tell notice => exact unheeding_tell notice
  | idle h => exact unheeding_idle h
  | narrowed | opened => exact hrest _ (fun _ => rfl) fun _ _ _ _ => rfl
  | noteText text _ ih =>
    have hnote : Unheeding d (Run.noteText text) :=
      hrest _ (fun _ => rfl) fun _ _ _ _ => rfl
    exact hnote.bind ih

end Evaluation

/-! ## Whether a record is kept -/

section Recording

variable {α : Type} {σ : Setting} {s : Session}

/-- Evaluation neither begins nor drops a record. -/
theorem Regular.recording {texts : Bool} {act : Run α} (h : Regular .any texts act) (σ : Setting)
    (s : Session) : (act σ s).2.recorder.isSome = s.recorder.isSome := by
  have heffects := h.effects (σ := σ) trivial s
  generalize (act σ s).2 = u at heffects
  induction heffects with
  | refl => rfl
  | @tail t _ _ heffect ih =>
    rw [← ih]
    cases heffect with
    | aside _ _ _ h => exact h
    | tell =>
      obtain ⟨_, _, _, _, _, observer, _, _, _⟩ := t
      cases observer <;> rfl
    | _ => rfl

/-- After a pass, a record is kept if it was the last one and capabilities are used. -/
theorem recording_pass (steps current total : Nat) (σ : Setting) (s : Session) :
    (pass steps current total σ s).2.recorder.isSome = (decide (current = total) && σ.options.useCapabilities) := by
  rw [pass_apply, (regular_visitItems (fun _ _ => rfl) steps steps 0).recording]
  show (if current = total && σ.options.useCapabilities then some Recorder.empty else none).isSome = _
  cases hrecords : decide (current = total) && σ.options.useCapabilities <;> rfl

/-- After all passes, a record is kept if capabilities are used. -/
theorem recording_passes {steps total left : Nat} (h : (passes steps total (left + 1) σ s).1 = .ok ()) :
    (passes steps total (left + 1) σ s).2.recorder.isSome = σ.options.useCapabilities := by
  induction left generalizing s with
  | zero =>
    have hlast := recording_pass steps total total σ s
    rw [decide_eq_true rfl, Bool.true_and] at hlast
    rw [passes, bind_apply]
    rw [passes, bind_apply] at h
    rw [Nat.sub_zero] at h ⊢
    generalize pass steps total total σ s = out at h hlast ⊢
    obtain ⟨_ | _, t⟩ := out
    · cases h
    · exact hlast
  | succ left ih =>
    rw [passes, bind_apply] at h ⊢
    generalize pass steps (total - (left + 1)) total σ s = out at h ⊢
    obtain ⟨_ | _, t⟩ := out
    · cases h
    · exact ih h

end Recording

/-! ## Builds -/

section Builds

variable {d : Difference} {σ : Setting}

theorem unheeding_addFile (file : SourceFile) : Unheeding d (addFile file) := by
  unfold addFile
  extract_lets add
  have hadd : Unheeding d (add ()) := by
    refine unheeding_get (fun s s' _ hassembly => by rw [hassembly]) fun s => ?_
    dsimp only
    split
    · exact unheeding_pure ()
    · refine unheeding_read (fun _ _ => rfl) fun σ => (unheeding_inStore _).bind fun m => ?_
      exact (unheeding_inStore _).bind fun tree => unheeding_modifyAssembly _
  cases file.libraryRoot with
  | none => exact hadd
  | some root => exact (unheeding_modifyAssembly _).bind fun _ => hadd

theorem unheeding_scheduleModules : Unheeding d scheduleModules := by
  have hschedule : ∀ path, Unheeding d (schedule path) := by
    intro path
    refine unheeding_get (fun s s' _ hassembly => by rw [hassembly]) fun s => ?_
    split
    · exact (unheeding_say _).bind fun _ => unheeding_modifyAssembly _
    · exact unheeding_pure ()
  refine unheeding_get (fun s s' _ hassembly => by rw [hassembly]) fun s => ?_
  exact (unheeding_for hschedule _).bind fun _ => unheeding_pure ()

/-- A record is begun, or none is kept. -/
theorem unheeding_beginRecord (last : Bool) : Unheeding d (do
    let recorder := if last && (← read).options.useCapabilities then some Recorder.empty else none
    modify fun s => { s with recorder }) where
  handle _ _ := .inl rfl
  same {σ σ' s s'} hσ hs _ := by
    obtain ⟨_, trace, observer, rfl, -, htrace, hobserver⟩ := hs
    refine ⟨rfl, _, trace, observer, rfl, fun hd => ?_, htrace, hobserver⟩
    obtain ⟨_, -, hsame, -⟩ := hσ
    rw [hsame hd]
    rfl

theorem unheeding_pass (steps current total : Nat) : Unheeding d (pass steps current total) := by
  refine (unheeding_say _).bind fun _ => (unheeding_tell _).bind fun _ => ?_
  exact (unheeding_beginRecord (current = total)).bind fun _ =>
    (regular_visitItems (fun _ _ => rfl) steps steps 0).unheeding

theorem unheeding_passes (steps total left : Nat) : Unheeding d (passes steps total left) := by
  induction left with
  | zero => exact unheeding_pure ()
  | succ left ih => exact (unheeding_pass steps _ total).bind fun _ => ih

/-- Narrowing looks at the record, but not at the trace and the observer. -/
theorem unheeding_refine (hd : d.recorder = false) : Unheeding d refine where
  handle σ s := by
    rw [refine_apply]
    cases s.recorder <;> exact .inl rfl
  same {σ σ' s s'} hσ hs _ := by
    obtain ⟨_, -, hsame, -⟩ := hσ
    obtain rfl := hsame hd
    obtain ⟨recorder, trace, observer, rfl, hrecorder, htrace, hobserver⟩ := hs
    obtain rfl := hrecorder hd
    rw [refine_apply, refine_apply]
    obtain ⟨store, assembly, recorder, handle, _, _, _, _, _⟩ := s
    cases recorder <;> exact ⟨rfl, _, trace, observer, rfl, hrecorder, htrace, hobserver⟩

theorem unheeding_propagate (steps : Nat) : Unheeding d (propagate steps) :=
  unheeding_scheduleModules.bind fun _ => unheeding_read (fun _ _ => rfl) fun _ => unheeding_passes _ _ _

theorem recording_propagate (steps : Nat) (s : Session) (hpasses : σ.options.passes ≠ 0)
    (h : (propagate steps σ s).1 = .ok ()) :
    (propagate steps σ s).2.recorder.isSome = σ.options.useCapabilities := by
  obtain ⟨left, hleft⟩ := Nat.exists_eq_succ_of_ne_zero hpasses
  rw [propagate, bind_apply] at h ⊢
  generalize scheduleModules σ s = out at h ⊢
  obtain ⟨_ | _, t⟩ := out
  · cases h
  · dsimp only at h ⊢
    rw [read_bind_apply, hleft] at h ⊢
    exact recording_passes h

/-- A build with the same options does the same, if no observer aborts it. -/
theorem same_build {s s' : Session} (hd : d.recorder = false) (hs : s.Alike d s')
    (hdiscreet : d.observer = true → σ.delegate.Discreet) {steps : Nat} {handle : CancelHandle}
    (hleaves : d.observer = true → σ.options.passes ≠ 0 → handle.isCancelled = false →
      (build steps handle σ s).2.handle = handle) :
    (build steps handle σ s').1 = (build steps handle σ s).1 ∧
      (build steps handle σ s).2.Alike d (build steps handle σ s').2 := by
  have hσ : σ.Alike d σ := ⟨σ.options.useCapabilities, rfl, fun _ => rfl, hdiscreet⟩
  have hgiven : Alike d { s with handle } { s' with handle } := by
    obtain ⟨recorder, trace, observer, rfl, hside⟩ := hs
    exact ⟨recorder, trace, observer, rfl, hside⟩
  have hrun := build_apply steps handle σ s
  have hrun' := build_apply steps handle σ s'
  by_cases hpasses : σ.options.passes = 0
  · rw [if_pos hpasses] at hrun hrun'
    rw [hrun, hrun']
    exact ⟨rfl, hs⟩
  · rw [if_neg hpasses] at hrun hrun'
    cases hcancelled : handle.isCancelled with
    | true =>
      rw [if_pos hcancelled] at hrun hrun'
      rw [hrun, hrun']
      exact ⟨rfl, hs⟩
    | false =>
      have hgoes : ¬handle.isCancelled = true := Bool.eq_false_iff.mp hcancelled
      rw [if_neg hgoes] at hrun hrun'
      rw [hrun] at hleaves ⊢
      rw [hrun']
      have hbuild := (unheeding_propagate steps).bind fun _ => unheeding_refine hd
      exact hbuild.same hσ hgiven fun hobserver => hleaves hobserver hpasses hcancelled

theorem recorder_refine (σ : Setting) (s : Session) : (refine σ s).2.recorder = s.recorder := by
  rw [refine_apply]
  obtain ⟨_, _, recorder, _, _, _, _, _, _⟩ := s
  cases recorder <;> rfl

/-- Adding a file leaves the handle of the last build as it is. -/
theorem handle_addFile (file : SourceFile) (σ : Setting) (s : Session) : (addFile file σ s).2.handle = s.handle := by
  have hsearching : (s.searching file).handle = s.handle := by
    obtain ⟨paths, hpaths⟩ := s.searching_eq file
    rw [hpaths]
  rw [addFile_eq]
  split
  · exact hsearching
  · exact hsearching

end Builds

end Run

namespace Assembler

def withCapabilities (useCapabilities : Bool) (a : Assembler) : Assembler :=
  ⟨a.setting.withCapabilities useCapabilities, a.session⟩

def tracing (trace : Trace) (a : Assembler) : Assembler :=
  ⟨a.setting, a.session.watching trace a.session.observer⟩

def unobserved (a : Assembler) : Assembler := ⟨a.setting, a.session.watching a.session.trace none⟩

/-- Adds some files and runs a build. -/
def analyse (files : List SourceFile) (steps : Nat) (handle : CancelHandle) (a : Assembler) :
    Except AnalysisError Unit × Assembler :=
  (files.foldl (fun a file => a.addFile file) a).perform (Run.build steps handle)

/-- The settings and the states are alike. -/
def Alike (d : Difference) (a a' : Assembler) : Prop :=
  a.setting.Alike d a'.setting ∧ a.session.Alike d a'.session

section Alike

variable {d : Difference} {a a' : Assembler}

theorem Alike.addFile (h : a.Alike d a') (file : SourceFile) : (a.addFile file).Alike d (a'.addFile file) := by
  obtain ⟨hσ, hs⟩ := h
  exact ⟨hσ, ((unheeding_addFile file).same hσ hs fun _ => handle_addFile file _ _).2⟩

theorem Alike.addFiles (h : a.Alike d a') (files : List SourceFile) :
    (files.foldl (fun a file => a.addFile file) a).Alike d (files.foldl (fun a file => a.addFile file) a') := by
  induction files generalizing a a' with
  | nil => exact h
  | cons file rest ih => exact ih (h.addFile file)

theorem setting_addFiles (files : List SourceFile) (a : Assembler) :
    (files.foldl (fun a file => a.addFile file) a).setting = a.setting := by
  induction files generalizing a with
  | nil => rfl
  | cons file rest ih => exact ih _

end Alike

/-- Unless the build is refused at once, its handle is in the end as it was given. -/
def LeavesHandle (handle : CancelHandle) (built : Except AnalysisError Unit × Assembler) : Prop :=
  built.2.setting.options.passes ≠ 0 → handle.isCancelled = false → built.2.session.handle = handle

/-- A build that uses capabilities does what the plain one does, and narrows values once at its end. -/
structure Refines (plain recorded : Except AnalysisError Unit × Assembler) : Prop where
  /-- Where the plain build is stopped, so is the other one, in the same state. -/
  stopped : ∀ e, plain.1 = .error e →
    recorded.1 = .error e ∧ ∃ recorder, recorded.2.session = plain.2.session.noting recorder
  /-- Otherwise what is recorded is used in the state where the plain build ends. -/
  ended : plain.1 = .ok () → plain.2.session.recorder = none ∧
    ∃ recorder, recorded.2.session.recorder = some recorder ∧
      (recorded.1, recorded.2.session) =
        Run.refine recorded.2.setting (plain.2.session.noting (some recorder))

variable {a a' : Assembler}

/-- With the same options the same is found, if no observer aborts the build. -/
theorem Alike.analyse {d : Difference} (h : a.Alike d a') (hd : d.recorder = false)
    (files : List SourceFile) (steps : Nat) (handle : CancelHandle)
    (hleaves : d.observer = true → LeavesHandle handle (a.analyse files steps handle)) :
    (a'.analyse files steps handle).1 = (a.analyse files steps handle).1 ∧
      (a.analyse files steps handle).2.Alike d (a'.analyse files steps handle).2 := by
  have hadded := h.addFiles files
  unfold Assembler.analyse at hleaves ⊢
  generalize files.foldl (fun a file => a.addFile file) a = b at hadded hleaves ⊢
  generalize files.foldl (fun a file => a.addFile file) a' = b' at hadded ⊢
  obtain ⟨σ, s⟩ := b
  obtain ⟨σ', s'⟩ := b'
  obtain ⟨hσ, hs⟩ := hadded
  have hsame := hσ
  obtain ⟨_, -, hsame, hdiscreet⟩ := hsame
  obtain rfl : σ' = σ := hsame hd
  obtain ⟨hresult, halike⟩ := same_build hd hs hdiscreet hleaves
  exact ⟨hresult, hσ, halike⟩

/-- A build that uses capabilities refines the plain one. -/
theorem Alike.refines (h : a.Alike ⟨true, false, false⟩ a')
    (hplain : a.setting.options.useCapabilities = false) (hrecords : a'.setting.options.useCapabilities = true)
    (steps : Nat) (handle : CancelHandle) :
    Refines (a.perform (Run.build steps handle)) (a'.perform (Run.build steps handle)) := by
  obtain ⟨⟨σ, s⟩, ⟨σ', s'⟩⟩ := a, a'
  obtain ⟨hσ, hs⟩ := h
  have hpasses' : σ'.options.passes = σ.options.passes := by
    obtain ⟨_, rfl, -⟩ := hσ
    rfl
  have hgiven : Session.Alike ⟨true, false, false⟩ { s with handle } { s' with handle } := by
    obtain ⟨recorder, trace, observer, rfl, hside⟩ := hs
    exact ⟨recorder, trace, observer, rfl, hside⟩
  have hnoting : ∀ {t t' : Session}, t.Alike ⟨true, false, false⟩ t' → t' = t.noting t'.recorder := by
    rintro t t' ⟨recorder, trace, observer, rfl, -, htrace, hobserver⟩
    obtain rfl := htrace rfl
    obtain rfl : observer = t.observer := hobserver
    rfl
  simp only [perform_eq]
  rw [Run.build_apply, Run.build_apply, hpasses']
  dsimp only at hplain hrecords hs
  by_cases hpasses : σ.options.passes = 0
  · rw [if_pos hpasses, if_pos hpasses]
    exact ⟨fun _ he => ⟨he, _, hnoting hs⟩, fun hok => by cases hok⟩
  · rw [if_neg hpasses, if_neg hpasses]
    cases handle.isCancelled with
    | true =>
      rw [if_pos rfl, if_pos rfl]
      exact ⟨fun _ he => ⟨he, _, hnoting hs⟩, fun hok => by cases hok⟩
    | false =>
      obtain ⟨hresult, halike⟩ := (Run.unheeding_propagate steps).same hσ hgiven (fun hd => by cases hd)
      have hdropped := Run.recording_propagate steps { s with handle } hpasses
      have hkept := Run.recording_propagate steps { s' with handle } (hpasses' ▸ hpasses)
      simp only [Bool.false_eq_true, if_false, Run.bind_apply]
      generalize Run.propagate steps σ { s with handle } = out at hresult halike hdropped
      generalize Run.propagate steps σ' { s' with handle } = out' at hresult halike hkept
      obtain ⟨result, t⟩ := out
      obtain ⟨result', t'⟩ := out'
      obtain rfl : result' = result := hresult
      cases result' with
      | error e => exact ⟨fun _ he => ⟨he, _, hnoting halike⟩, fun hok => by cases hok⟩
      | ok _ =>
        -- the plain build keeps no record, so there is nothing it could narrow by
        have hnone : t.recorder = none := by
          have hsome := hdropped rfl
          rw [hplain] at hsome
          exact Option.isSome_eq_false_iff.mp hsome |> Option.isNone_iff_eq_none.mp
        obtain ⟨recorder, hrecorder⟩ := Option.isSome_iff_exists.mp ((hkept rfl).trans hrecords)
        have hstays : Run.refine σ t = (.ok (), t) := by rw [Run.refine_apply, hnone]
        have hstate : t' = t.noting (some recorder) := by
          rw [← hrecorder]
          exact hnoting halike
        dsimp only
        rw [hstays, hstate]
        exact ⟨(fun _ he => by cases he), fun _ => ⟨hnone, recorder, Run.recorder_refine _ _, rfl⟩⟩

/--
**Observers do not influence what is found.** Whatever files are added to an assembler in whatever state
before a build:

* the build with capabilities refines the one without;
* the build with another trace, be it closed or full or not, has the same result and leads to the same
  state, up to the trace;
* the build without the observer has the same result and leads to the same state, up to the observer, if
  the observer neither aborts the handle nor touches the store through the values that it is given.
-/
theorem analyse_unobserved (a : Assembler) (files : List SourceFile) (steps : Nat) (handle : CancelHandle) :
    Refines ((a.withCapabilities false).analyse files steps handle)
        ((a.withCapabilities true).analyse files steps handle) ∧
      (∀ trace, ∃ trace', (a.tracing trace).analyse files steps handle =
        ((a.analyse files steps handle).1, (a.analyse files steps handle).2.tracing trace')) ∧
      (a.setting.delegate.Discreet → LeavesHandle handle (a.analyse files steps handle) →
        a.unobserved.analyse files steps handle =
          ((a.analyse files steps handle).1, (a.analyse files steps handle).2.unobserved)) := by
  refine ⟨?_, fun trace => ?_, fun hdiscreet hleaves => ?_⟩
  · have halike : (a.withCapabilities false).Alike ⟨true, false, false⟩ (a.withCapabilities true) :=
      ⟨⟨true, rfl, (fun hd => by cases hd), nofun⟩, _, _, _, rfl, fun _ => rfl, fun _ => rfl, rfl⟩
    refine (halike.addFiles files).refines ?_ ?_ steps handle
    · rw [setting_addFiles]
      rfl
    · rw [setting_addFiles]
      rfl
  · have halike : a.Alike ⟨false, true, false⟩ (a.tracing trace) :=
      ⟨⟨_, rfl, fun _ => rfl, nofun⟩, _, trace, _, rfl, fun _ => rfl, (fun hd => by cases hd), rfl⟩
    obtain ⟨hresult, ⟨_, -, hσ, -⟩, recorder, trace', observer, hs, hrecorder, -, rfl⟩ :=
      halike.analyse rfl files steps handle fun hd => by cases hd
    obtain rfl := hrecorder rfl
    exact ⟨trace', Prod.ext hresult (congrArg₂ Assembler.mk (hσ rfl) hs)⟩
  · have halike : a.Alike ⟨false, false, true⟩ a.unobserved :=
      ⟨⟨_, rfl, fun _ => rfl, fun _ => hdiscreet⟩, _, _, none, rfl, fun _ => rfl, fun _ => rfl, rfl⟩
    obtain ⟨hresult, ⟨_, -, hσ, -⟩, recorder, trace, observer, hs, hrecorder, htrace, rfl⟩ :=
      halike.analyse rfl files steps handle fun _ => hleaves
    obtain rfl := hrecorder rfl
    obtain rfl := htrace rfl
    exact Prod.ext hresult (congrArg₂ Assembler.mk (hσ rfl) hs)

/-- A module that binds `x` to an instance of one of two classes, only one of which has the member `f`. -/
def ambiguousFile : SourceFile :=
  .ofTree ⟨"/p/a.py"⟩ (.module
    [.classDef 0 "A" [] [] [.assign [.ident "f"] (.literal .float)] [] 1,
      .classDef 1 "B" [] [] [.passStmt] [] 2,
      .assign [.ident "x"] (.conditional (.ident "c") (.call (.ident "A") [] [] none none)
        (.call (.ident "B") [] [] none none)),
      .member (.ident "x") "f"]) none

/-- An assembler with an observer and a trace that takes three lines. -/
def watchful : Assembler :=
  .new .empty { Options.standard with passes := 1 } ClassPolicy.standard (.on (some 3)) (some .idle)

/-- The text of the value that is known of a symbol after an analysis. -/
def shownAt (id : SymbolId) (built : Except AnalysisError Unit × Assembler) : String :=
  String.join (built.2.session.store.pieces (built.2.session.store.value id))

set_option maxRecDepth 100000 in
theorem analyse_unobserved_ambiguousFile :
    shownAt ⟨74⟩ ((watchful.withCapabilities false).analyse [ambiguousFile] 20 .new) =
        "instance A | instance B" ∧
      shownAt ⟨74⟩ ((watchful.withCapabilities true).analyse [ambiguousFile] 20 .new) = "instance A" ∧
      Refines ((watchful.withCapabilities false).analyse [ambiguousFile] 20 .new)
        ((watchful.withCapabilities true).analyse [ambiguousFile] 20 .new) ∧
      LeavesHandle .new (watchful.analyse [ambiguousFile] 20 .new) ∧
      watchful.unobserved.analyse [ambiguousFile] 20 .new =
        ((watchful.analyse [ambiguousFile] 20 .new).1, (watchful.analyse [ambiguousFile] 20 .new).2.unobserved) := by
  have hshown : shownAt ⟨74⟩ ((watchful.withCapabilities false).analyse [ambiguousFile] 20 .new) =
        "instance A | instance B" ∧
      shownAt ⟨74⟩ ((watchful.withCapabilities true).analyse [ambiguousFile] 20 .new) = "instance A" := by
    decide +kernel
  have hhandle : (watchful.analyse [ambiguousFile] 20 .new).2.session.handle = .new := by decide +kernel
  have hleaves : LeavesHandle .new (watchful.analyse [ambiguousFile] 20 .new) := fun _ _ => hhandle
  obtain ⟨hrefines, -, hunobserved⟩ := analyse_unobserved watchful [ambiguousFile] 20 .new
  exact ⟨hshown.1, hshown.2, hrefines, hleaves, hunobserved (fun _ _ => rfl) hleaves⟩

end Assembler

end Surmise
