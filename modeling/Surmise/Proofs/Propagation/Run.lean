import Surmise.Proofs.Propagation.Steps

/-!
# Computations of an analysis

`Run.Does` says which changes a computation makes and how it ends. It fails only because the analysis
is cancelled or has taken too many steps. There is a rule for each way to put computations together, and
a lemma for each of the small ones that evaluation is made of.
-/

namespace Surmise

open Relation

/-- A reason for which any computation of an analysis may stop. -/
def AnalysisError.Stops (e : AnalysisError) : Prop :=
  e = .cancelled ∨ e = .exhausted

abbrev Value.SoundIn (v : Value) (s : Session) : Prop := v.Sound s.store.nextSerial

abbrev Args.SoundIn (args : Args) (s : Session) : Prop := args.Sound s.store.nextSerial

namespace Run

open Session

/-- The computation makes changes `r`. Its result satisfies `post`, or it is stopped. -/
def Does {α : Type} (r : Session → Session → Prop) (σ : Setting) (s : Session) (act : Run α)
    (post : α → Session → Prop) : Prop :=
  Relation.ReflTransGen r s (act σ s).2 ∧
    match (act σ s).1 with
    | .ok a => post a (act σ s).2
    | .error e => e.Stops

/-- The computation takes steps of the analysis. -/
abbrev Goes {α : Type} (σ : Setting) (s : Session) (act : Run α) : Prop :=
  Does (Step σ) σ s act fun _ _ => True

/-- The computation takes steps of the analysis and gives a sound value. -/
abbrev Gives (σ : Setting) (s : Session) (act : Run Value) : Prop :=
  Does (Step σ) σ s act fun v s' => v.SoundIn s'

/-! ## Rules -/

variable {α β : Type} {σ : Setting}

theorem bind_apply (act : Run α) (next : α → Run β) (σ : Setting) (s : Session) : (act >>= next) σ s =
      match act σ s with
      | (.ok a, s') => next a σ s'
      | (.error e, s') => (.error e, s') := by
  show (ExceptT.bind (act σ) fun a => next a σ) s = _
  unfold ExceptT.bind ExceptT.mk ExceptT.bindCont
  show StateT.bind (act σ) _ s = _
  unfold StateT.bind
  rcases act σ s with ⟨_ | a, s'⟩ <;> rfl

theorem bind_eq_ok {act : Run α} {next : α → Run β} {s s' : Session} {b : β}
    (h : (act >>= next) σ s = (.ok b, s')) : ∃ a t, act σ s = (.ok a, t) ∧ next a σ t = (.ok b, s') := by
  rw [bind_apply] at h
  generalize act σ s = out at h ⊢
  obtain ⟨_ | a, t⟩ := out
  · cases h
  · exact ⟨a, t, rfl, h⟩

/-- What holds of the state after the first computation and is kept by the second one. -/
theorem state_bind {act : Run α} {next : α → Run β} {s : Session} {P : Session → Prop}
    (h : P (act σ s).2) (hnext : ∀ a t, P t → P (next a σ t).2) : P ((act >>= next) σ s).2 := by
  rw [bind_apply]
  generalize act σ s = out at h
  obtain ⟨_ | a, t⟩ := out
  · exact h
  · exact hnext a t h

section Rules

variable {α β : Type} {r : Session → Session → Prop} {σ : Setting} {s : Session}
  {post : β → Session → Prop} {act : Run α}

theorem does_pure {a : α} {post : α → Session → Prop} (h : post a s) : Does r σ s (pure a) post :=
  ⟨.refl, h⟩

theorem does_pure_bind {a : α} {next : α → Run β} (h : Does r σ s (next a) post) :
    Does r σ s (pure a >>= next) post := h

theorem does_throw {e : AnalysisError} (he : e.Stops) {post : α → Session → Prop} : Does r σ s (throw e) post :=
  ⟨.refl, he⟩

theorem does_get_bind {next : Session → Run β} (h : Does r σ s (next s) post) : Does r σ s (get >>= next) post := h

theorem does_getStore_bind {next : Store → Run β} (h : Does r σ s (next s.store) post) :
    Does r σ s (getStore >>= next) post := h

theorem does_world_bind {next : World → Run β} (h : Does r σ s (next ⟨σ.graph, s.store, s.handle.isCancelled⟩) post) :
    Does r σ s (world >>= next) post := h

theorem does_read_bind {next : Setting → Run β} (h : Does r σ s (next σ) post) : Does r σ s (read >>= next) post := h

theorem Does.bind {next : α → Run β} {mid : α → Session → Prop} (h : Does r σ s act mid)
    (hnext : ∀ a s', ReflTransGen r s s' → mid a s' → Does r σ s' (next a) post) :
    Does r σ s (act >>= next) post := by
  obtain ⟨hsteps, hmid⟩ := h
  unfold Does
  rw [bind_apply]
  generalize act σ s = out at hsteps hmid
  obtain ⟨_ | a, s'⟩ := out
  · exact ⟨hsteps, hmid⟩
  · obtain ⟨hsteps', hpost⟩ := hnext a s' hsteps hmid
    exact ⟨hsteps.trans hsteps', hpost⟩

theorem Does.imp {post post' : α → Session → Prop} (h : Does r σ s act post)
    (himp : ∀ a s', ReflTransGen r s s' → post a s' → post' a s') : Does r σ s act post' := by
  obtain ⟨hsteps, hpost⟩ := h
  refine ⟨hsteps, ?_⟩
  generalize act σ s = out at hsteps hpost
  obtain ⟨_ | a, s'⟩ := out
  · exact hpost
  · exact himp a s' hsteps hpost

/-- A computation whose result is not used. -/
theorem Does.then {next : Run β} {mid : α → Session → Prop} (h : Does r σ s act mid)
    (hnext : ∀ s', ReflTransGen r s s' → Does r σ s' next post) :
    Does r σ s (act >>= fun _ => next) post :=
  h.bind fun _ s' hs' _ => hnext s' hs'

/-- A loop that runs its body on each element. -/
theorem does_forIn {xs : List α} {body : α → Unit → Run (ForInStep Unit)}
    (h : ∀ x ∈ xs, ∀ s', ReflTransGen r s s' → Does r σ s' (body x ()) fun out _ => out = .yield ()) :
    Does r σ s (forIn xs () body) fun _ _ => True := by
  induction xs generalizing s with
  | nil => exact does_pure trivial
  | cons x rest ih =>
    rw [List.forIn_cons]
    refine (h x List.mem_cons_self s .refl).bind fun out s' hs' hout => ?_
    subst hout
    exact ih fun y hy s'' hs'' => h y (List.mem_cons_of_mem _ hy) s'' (hs'.trans hs'')

/-- A loop whose body gives nothing. -/
theorem does_for {xs : List α} {act : α → Run Unit}
    (h : ∀ x ∈ xs, ∀ s', ReflTransGen r s s' → Does r σ s' (act x) fun _ _ => True) :
    Does r σ s (forIn xs () fun x _ => act x >>= fun _ => pure (ForInStep.yield ())) fun _ _ => True :=
  does_forIn fun x hx s' hs' => (h x hx s' hs').then fun _ _ => does_pure rfl

theorem does_modify {f : Session → Session} (h : r s (f s)) : Does r σ s (modify f) fun _ s' => s' = f s :=
  ⟨.single h, rfl⟩

end Rules

/-! ## Small computations -/

section Computations

variable {α : Type} {σ : Setting} {s : Session} {v : Value}

theorem get_bind_apply (next : Session → Run α) : (get >>= next) σ s = next s σ s := rfl

theorem read_bind_apply (next : Setting → Run α) : (read >>= next) σ s = next σ σ s := rfl

theorem getStore_bind_apply (next : Store → Run α) : (getStore >>= next) σ s = next s.store σ s := rfl

theorem inStore_apply (act : StoreM α) :
    inStore act σ s = (.ok (act s.store).1, { s with store := (act s.store).2 }) := rfl

theorem does_inStore {act : StoreM α} {post : α → Store → Prop} (h : StoreM.Does s.store act post) :
    Does (Step σ) σ s (inStore act) fun a s' => post a s'.store :=
  ⟨Steps.ofStore s h.1, h.2⟩

theorem does_inAnalysis {act : Analysis α} {post : α → Store → Prop} (h : Analysis.Does s.store act post) :
    Does (Step σ) σ s (inAnalysis act) fun a s' => post a s'.store := by
  refine (does_inStore h).bind fun o s' _ ho => ?_
  obtain ⟨a, rfl, ha⟩ := ho
  exact does_pure ha

/-- A change that only the trace, the record, the observer or the handle shows. -/
theorem does_quiet {f : Session → Session} (hstore : (f s).store = s.store)
    (hassembly : (f s).assembly = s.assembly) (hnarrowed : (f s).narrowed = s.narrowed)
    (hbodies : (f s).bodies = s.bodies) : Does (Step σ) σ s (modify f) fun _ s' => s' = f s :=
  does_modify (.quiet hstore hassembly hnarrowed hbodies)

theorem does_check : Does (Step σ) σ s check fun _ s' => s' = s := by
  refine does_get_bind ?_
  unfold CancelHandle.check
  by_cases hc : s.handle.isCancelled = true
  · rw [if_pos hc]
    exact does_throw (.inl rfl)
  · rw [if_neg hc]
    exact does_pure rfl

theorem does_ask {query : World → Except AnalysisError α} {P : α → Prop}
    (h : Ensures (query ⟨σ.graph, s.store, s.handle.isCancelled⟩) P) :
    Does (Step σ) σ s (ask query) fun a s' => s' = s ∧ P a := by
  refine does_world_bind ?_
  generalize query _ = o at h
  cases o with
  | ok a => exact does_pure ⟨rfl, h⟩
  | error e => exact does_throw (.inl h)

theorem does_say (pieces : Store → List String) : Goes σ s (say pieces) := by
  refine Does.imp (does_quiet ?_ ?_ ?_ ?_) fun _ _ _ _ => trivial
  all_goals split <;> rfl

/-- A discreet observer changes nothing but the handle and what it has been told of. -/
theorem tell_eq (hσ : σ.delegate.Discreet) (notice : Notice) (s : Session) :
    ∃ handle observer, tell notice σ s = (.ok (), { s with handle, observer }) := by
  obtain ⟨store, assembly, recorder, handle, trace, observer, narrowed, bodies, evaluated⟩ := s
  cases observer with
  | none => exact ⟨handle, none, rfl⟩
  | some told => exact ⟨_, some (notice :: told), congrArg (Except.ok (), mk · ..) (hσ (notice :: told) store)⟩

theorem does_tell (hσ : σ.delegate.Discreet) (notice : Notice) : Goes σ s (tell notice) := by
  obtain ⟨handle, observer, htell⟩ := tell_eq hσ notice s
  have hdoes := does_quiet (σ := σ) (s := s) (f := fun s => { s with handle, observer }) rfl rfl rfl rfl
  unfold Goes Does
  rw [htell]
  exact ⟨hdoes.1, trivial⟩

theorem does_numbered (hv : v.SoundIn s) : Gives σ s (numbered v) :=
  (does_inStore (StoreM.does_numbered hv)).imp fun _ _ _ h => h.1

theorem does_produce (symbol : SymbolId) (hv : v.SoundIn s) : Goes σ s (inStore (StoreM.produce symbol v)) :=
  does_inStore (StoreM.does_producePrivate symbol hv false)

end Computations

end Run

end Surmise
