import Surmise.Proofs.Observers
import Surmise.Proofs.WorkList.Builds

/-!
# When an abort is noticed

An observer may abort the handle of a build when it is told of a pass or of a value. The handle is looked at
before every item that is visited, so the build is stopped if anything is left to visit. The one abort that it
may miss comes while the last pass visits its last item: nothing has to look at the handle after that.

* `Session.Heeds`: what becomes of the handle and the observer; `Run.Regular.heeding`: along evaluation.
* `Run.LastVisit`: the last visit of a build.
* `Assembler.Reached.abort_noticed`: the main statement.
* `Assembler.abort_missed`: a build that misses an abort.
-/

namespace Surmise

/-- The observer aborts the handle at one of some new notices, of which it is told after the others. -/
def Delegate.stops (d : Delegate) (told : List Notice) : (news : List Notice) → Bool
  | [] => false
  | notice :: news => d.aborts (notice :: (news ++ told)) || d.stops told news

theorem Delegate.stops_of_mem {d : Delegate} {news : List Notice} {notice : Notice} (h : notice ∈ news)
    (haborts : ∀ told, d.aborts (notice :: told) = true) (told : List Notice) : d.stops told news = true := by
  induction news with
  | nil => cases h
  | cons first news ih =>
    rw [stops, Bool.or_eq_true]
    rcases List.mem_cons.mp h with rfl | h
    · exact .inl (haborts _)
    · exact .inr (ih h)

theorem Delegate.stops_append (d : Delegate) (told later news : List Notice) :
    d.stops told (later ++ news) = (d.stops (news ++ told) later || d.stops told news) := by
  induction later with
  | nil => rfl
  | cons notice later ih => rw [List.cons_append, stops, stops, ih, List.append_assoc, Bool.or_assoc]

namespace Session

/--
The observer is told of more notices. The handle is cancelled if it was so before or if the observer has aborted
it at one of them, and not otherwise.
-/
def Heeds (d : Delegate) (news : List Notice) (s s' : Session) : Prop :=
  s'.observer = s.observer.map (news ++ ·) ∧
    s'.handle.isCancelled = (s.handle.isCancelled || s.observer.any (d.stops · news))

variable {d : Delegate} {news later : List Notice} {s s' s'' : Session}

theorem Heeds.trans (h : s.Heeds d news s') (h' : s'.Heeds d later s'') : s.Heeds d (later ++ news) s'' := by
  obtain ⟨hobserver, hhandle⟩ := h
  obtain ⟨hobserver', hhandle'⟩ := h'
  rw [hobserver] at hobserver' hhandle'
  refine ⟨?_, ?_⟩
  · rw [hobserver', Option.map_map]
    exact congrArg (s.observer.map ·) (funext fun told => (List.append_assoc later news told).symm)
  · rw [hhandle', hhandle]
    cases s.observer with
    | none => simp
    | some told => simp [Delegate.stops_append, Bool.or_assoc, Bool.or_comm]

/-- A change that neither the handle nor the observer shows. -/
theorem heeds_of_same (hhandle : s'.handle = s.handle) (hobserver : s'.observer = s.observer) : s.Heeds d [] s' := by
  rw [Heeds, hhandle, hobserver]
  cases s.observer <;> simp [Delegate.stops]

end Session

theorem CancelHandle.isCancelled_abort (h : CancelHandle) : h.abort.isCancelled = true := rfl

theorem CancelHandle.check_eq_ok {h : CancelHandle} {u : Unit} (hok : h.check = .ok u) : h.isCancelled = false := by
  unfold check at hok
  split at hok
  · cases hok
  · next hgoes => exact Bool.eq_false_iff.mpr hgoes

namespace Run

open Session

/-- Whatever the computation does, the observer is heeded. -/
def Heeding {α : Type} (act : Run α) : Prop :=
  ∀ (σ : Setting) (s : Session), ∃ news, s.Heeds σ.delegate news (act σ s).2

/-! ## Evaluation -/

theorem heeds_tell (notice : Notice) (σ : Setting) (s : Session) :
    s.Heeds σ.delegate [notice] (tell notice σ s).2 := by
  obtain ⟨_, _, _, handle, _, observer, _, _, _⟩ := s
  cases observer with
  | none => exact ⟨rfl, (Bool.or_false _).symm⟩
  | some told =>
    refine ⟨rfl, ?_⟩
    show (if σ.delegate.aborts (notice :: told) then handle.abort else handle).isCancelled =
      (handle.isCancelled || (σ.delegate.aborts (notice :: told) || false))
    cases σ.delegate.aborts (notice :: told) with
    | false => simp
    | true => simp [handle.isCancelled_abort]

theorem Regular.heeding {α : Type} {texts : Bool} {act : Run α} (h : Regular .any texts act) : Heeding act := by
  intro σ s
  have heffects := h.effects (σ := σ) trivial s
  generalize (act σ s).2 = t at heffects
  induction heffects with
  | refl => exact ⟨[], heeds_of_same rfl rfl⟩
  | tail _ heffect ih =>
    obtain ⟨news, ih⟩ := ih
    cases heffect with
    | tell _ notice => exact ⟨_, ih.trans (heeds_tell notice σ _)⟩
    | _ => exact ⟨_, ih.trans (heeds_of_same rfl rfl)⟩

/-! ## Passes -/

section Passes

variable {σ : Setting} {s s' : Session} {current steps : Nat}

theorem heeds_begun (current total : Nat) (σ : Setting) (s : Session) :
    s.Heeds σ.delegate [.pass current total] (begun current total σ s) := by
  rw [begun, say_apply]
  exact heeds_tell (.pass current total) σ _

/-- The observer has been told of each pass. -/
theorem Passed.heeds (h : Passed σ steps s current s') : ∃ news, s.Heeds σ.delegate news s' ∧
    ∀ k, 1 ≤ k → k ≤ current → .pass k σ.options.passes ∈ news := by
  induction h with
  | start => exact ⟨[], heeds_of_same rfl rfl, fun k hpos hle => absurd hpos (by omega)⟩
  | @pass current s₁ s₂ _ hpass ih =>
    obtain ⟨news, hheeds, hpasses⟩ := ih
    obtain ⟨later, hvisits⟩ := (regular_visitItems (fun _ _ => rfl) steps steps 0).heeding σ
      (begun (current + 1) σ.options.passes σ s₁)
    rw [← pass_apply, hpass] at hvisits
    refine ⟨_, (hheeds.trans (heeds_begun _ _ σ s₁)).trans hvisits, fun k hpos hle => ?_⟩
    rcases Nat.lt_or_eq_of_le hle with hlt | rfl
    · simp [hpasses k hpos (Nat.le_of_lt_succ hlt)]
    · simp

/-- The list is only added to. -/
theorem Passed.size_le (hσ : σ.Benign) (h : Passed σ steps s current s') :
    s.assembly.order.size ≤ s'.assembly.order.size := by
  induction h with
  | start => exact Nat.le_refl _
  | @pass current s₁ s₂ _ hpass ih =>
    have hworks := (works_pass hσ steps (current + 1) σ.options.passes [] s₁).2
    rw [hpass] at hworks
    exact Nat.le_trans ih (size_le_of_continues hworks)

/--
The last pass visits its last item in the state `t` and ends in `ended`: all passes but the last lead from `s`
to a state, from which the last pass comes to `t` by visiting what stands on its list before that item.
-/
inductive LastVisit (σ : Setting) (steps : Nat) (s t ended : Session) : Prop
  | intro {s₁ : Session} {before : List WorkItem} {last : WorkItem}
      (hpasses : Passed σ steps s (σ.options.passes - 1) s₁)
      (hbefore : visitAll (.ofDepth steps) before σ (begun σ.options.passes σ.options.passes σ s₁) = (.ok (), t))
      (hlast : visitItem (.ofDepth steps) last σ t = (.ok (), ended))
      (hlist : ended.assembly.order.toList = before ++ [last])

/-- The handle is looked at before an item is visited. -/
theorem visitAll_concat {ev : Evaluator} {before : List WorkItem} {last : WorkItem}
    (h : visitAll ev (before ++ [last]) σ s = (.ok (), s')) : ∃ t, visitAll ev before σ s = (.ok (), t) ∧
      t.handle.isCancelled = false ∧ visitItem ev last σ t = (.ok (), s') := by
  induction before generalizing s with
  | nil =>
    rw [List.nil_append, visitAll, visitNext_apply] at h
    cases hcheck : s.handle.check with
    | error e =>
      rw [hcheck] at h
      cases h
    | ok _ =>
      rw [hcheck] at h
      dsimp only at h
      refine ⟨s, rfl, CancelHandle.check_eq_ok hcheck, ?_⟩
      generalize visitItem ev last σ s = out at h ⊢
      obtain ⟨_ | _, t⟩ := out
      · cases h
      · exact h
  | cons item rest ih =>
    rw [List.cons_append, visitAll, visitNext_apply] at h
    rw [visitAll]
    simp only [visitNext_apply]
    cases hcheck : s.handle.check with
    | error e =>
      rw [hcheck] at h
      cases h
    | ok _ =>
      rw [hcheck] at h
      dsimp only at h ⊢
      generalize visitItem ev item σ s = out at h ⊢
      obtain ⟨_ | _, t⟩ := out
      · cases h
      · exact ih h

/-- Passes that go through have a last visit. When it began, no abort had been asked for. -/
theorem Passed.lastVisit (hσ : σ.Benign) {ended : Session} (hpasses : σ.options.passes ≠ 0)
    (hlist : 0 < s.assembly.order.size) (h : Passed σ steps s σ.options.passes ended) :
    ∃ t news, LastVisit σ steps s t ended ∧ s.Heeds σ.delegate news t ∧ t.handle.isCancelled = false ∧
      ∀ k, 1 ≤ k → k ≤ σ.options.passes → .pass k σ.options.passes ∈ news := by
  have hsize := Nat.lt_of_lt_of_le hlist (h.size_le hσ)
  generalize hcurrent : σ.options.passes = current at h
  cases h with
  | start => exact absurd hcurrent hpasses
  | @pass current s₁ _ hbefore hpass =>
    rw [pass_apply] at hpass
    have hvisits := visitAll_of_visitItems hσ hpass
    obtain ⟨before, last, horder⟩ := List.eq_nil_or_concat ended.assembly.order.toList |>.resolve_left
      (List.ne_nil_of_length_pos hsize)
    rw [List.drop_zero, horder, List.concat_eq_append] at hvisits
    rw [List.concat_eq_append] at horder
    obtain ⟨t, hfirst, hgoes, hlast⟩ := visitAll_concat hvisits
    obtain ⟨news, hheeds, htold⟩ := hbefore.heeds
    obtain ⟨later, hvisited⟩ := (regular_visitAll (fun _ _ => rfl) steps before).heeding σ
      (begun (current + 1) σ.options.passes σ s₁)
    rw [hfirst] at hvisited
    refine ⟨t, _, @LastVisit.intro _ _ _ _ _ s₁ before last ?_ ?_ hlast horder,
      (hheeds.trans (heeds_begun _ _ σ s₁)).trans hvisited, hgoes, fun k hpos hle => ?_⟩
    · rw [hcurrent]
      exact hbefore
    · rw [hcurrent] at hfirst ⊢
      exact hfirst
    · rcases Nat.lt_or_eq_of_le hle with hlt | rfl
      · have hmem := htold k hpos (Nat.le_of_lt_succ hlt)
        rw [hcurrent] at hmem
        simp [hmem]
      · simp [hcurrent]

end Passes

end Run

namespace Assembler

open Session

/--
**An abort is noticed while there is something left to visit.** Take a build of some files with at least one
pass, in whatever state the assembler is.

* With a handle that is cancelled from the beginning, the build is refused and changes nothing.
* If the observer aborts the handle whenever it is told of one of the passes, the build does not succeed.
* A build that succeeds has begun its last visit with a handle that is not cancelled. Until then the observer had
  been told of every pass, and had aborted the handle at nothing that it was told of.
* With a cancelled handle nothing is evaluated any more, also in the last visit.
* A build that does not succeed is cancelled, or steps have run out.
-/
theorem Reached.abort_noticed {a : Assembler} (h : a.Reached) (hfiles : a.session.assembly.files ≠ [])
    (hvalid : a.setting.options.passes ≠ 0) (steps : Nat) (handle : CancelHandle) :
    let built := a.perform (Run.build steps handle)
    let passes := a.setting.options.passes
    (handle.isCancelled = true → built = (.error .cancelled, a)) ∧
      (∀ k, a.session.observer.isSome → (∀ told, a.setting.delegate.aborts (.pass k passes :: told) = true) →
        1 ≤ k → k ≤ passes → built.1 ≠ .ok ()) ∧
      (built.1 = .ok () → ∃ t ended news,
        Run.LastVisit a.setting steps (Run.scheduleModules a.setting { a.session with handle }).2 t ended ∧
        (built.1, built.2.session) = Run.refine a.setting ended ∧ t.handle.isCancelled = false ∧
        t.observer = a.session.observer.map (news ++ ·) ∧ (∀ k, 1 ≤ k → k ≤ passes → .pass k passes ∈ news) ∧
        ∀ told, a.session.observer = some told → a.setting.delegate.stops told news = false) ∧
      (∀ depth f node t, t.handle.isCancelled = true →
        (Evaluator.ofDepth (depth + 1)).eval f node a.setting t = (.error .cancelled, t) ∧
          (Evaluator.ofDepth (depth + 1)).exec f node a.setting t = (.error .cancelled, t)) ∧
      (built.1 = .ok () ∨ built.1 = .error .cancelled ∨ built.1 = .error .exhausted) := by
  have hσ := h.ordered.inv.benign
  have hends := (Run.does_build h.ordered.inv hvalid steps handle).2
  have htracked := h.tracked
  obtain ⟨σ, s⟩ := a
  rw [perform_eq]
  dsimp only at hσ hfiles hvalid hends htracked ⊢
  have hresult : (Run.build steps handle σ s).1 = .ok () ∨ (Run.build steps handle σ s).1 = .error .cancelled ∨
      (Run.build steps handle σ s).1 = .error .exhausted := by
    generalize Run.build steps handle σ s = out at hends ⊢
    obtain ⟨e | _, t⟩ := out
    · rcases hends with rfl | rfl
      · exact .inr (.inl rfl)
      · exact .inr (.inr rfl)
    · exact .inl rfl
  have hnothing : ∀ depth f node (t : Session), t.handle.isCancelled = true →
      (Evaluator.ofDepth (depth + 1)).eval f node σ t = (.error .cancelled, t) ∧
        (Evaluator.ofDepth (depth + 1)).exec f node σ t = (.error .cancelled, t) := by
    intro depth f node t hcancelled
    have hcheck : Run.check σ t = (.error .cancelled, t) := by
      rw [Run.check_apply]
      exact congrArg (·, t) (if_pos hcancelled)
    have hstop : ∀ {α : Type} (next : Unit → Run α), (Run.check >>= next) σ t = (.error .cancelled, t) := by
      intro α next
      rw [Run.bind_apply, hcheck]
    exact ⟨hstop _, hstop _⟩
  cases hgoes : handle.isCancelled with
  | true =>
    have hrefused : Run.build steps handle σ s = (.error .cancelled, s) := by
      rw [Run.build_apply, if_neg hvalid, if_pos hgoes]
    rw [hrefused]
    exact ⟨fun _ => rfl, fun _ _ _ _ _ => by simp, by simp, hnothing, .inr (.inl rfl)⟩
  | false =>
    -- the modules are put on the list, so there is something to visit
    have htracked' : Tracked { s with handle } := htracked.of_same rfl rfl rfl
    obtain ⟨modules, hmodules, hbelow, hlisted⟩ := htracked'.listed
    obtain ⟨s₁, hscheduled, -, hlisted₁⟩ :=
      Run.listed_scheduleModules (σ := σ) hlisted hmodules hbelow htracked.distinct
    have hlist : 0 < s₁.assembly.order.size := by
      have hlength := hlisted₁.order.length_eq
      have hpos := List.length_pos_iff.mpr hfiles
      simp only [Assembly.work, List.length_append, List.length_map, List.length_range,
        Array.length_toList] at hlength
      omega
    have hheeds : Heeds σ.delegate [] { s with handle } s₁ := by
      obtain ⟨s', hrun, hschedules⟩ := Run.schedules_scheduleModules σ { s with handle }
      obtain rfl : s' = s₁ := congrArg Prod.snd (hrun.symm.trans hscheduled)
      exact heeds_of_same hschedules.handle hschedules.observer
    -- a build that succeeds has gone through all passes
    have hpassed : (Run.build steps handle σ s).1 = .ok () → ∃ ended,
        Run.Passed σ steps s₁ σ.options.passes ended ∧ Run.build steps handle σ s = Run.refine σ ended := by
      have hread : ∀ (next : Setting → Run Unit) t, (read >>= next) σ t = next σ σ t := fun _ _ => rfl
      have hpropagate : Run.propagate steps σ { s with handle } =
          Run.passes steps σ.options.passes σ.options.passes σ s₁ := by
        rw [Run.propagate, Run.bind_apply, hscheduled]
        exact hread _ s₁
      rw [build_begun hvalid hgoes, hpropagate]
      generalize hpasses : Run.passes steps σ.options.passes σ.options.passes σ s₁ = out
      obtain ⟨e | _, ended⟩ := out
      · simp
      · have hstart : Run.Passed σ steps s₁ (σ.options.passes - σ.options.passes) s₁ := by
          rw [Nat.sub_self]
          exact .start
        exact fun _ => ⟨ended, Run.passed_passes (Nat.le_refl _) hstart hpasses, rfl⟩
    have hlast : (Run.build steps handle σ s).1 = .ok () → ∃ t ended news, Run.LastVisit σ steps s₁ t ended ∧
        Run.build steps handle σ s = Run.refine σ ended ∧ t.handle.isCancelled = false ∧
        t.observer = s.observer.map (news ++ ·) ∧
        (∀ k, 1 ≤ k → k ≤ σ.options.passes → .pass k σ.options.passes ∈ news) ∧
        ∀ told, s.observer = some told → σ.delegate.stops told news = false := by
      intro hok
      obtain ⟨ended, hall, hrefine⟩ := hpassed hok
      obtain ⟨t, news, hvisit, hheeds', hgoes', hpasses⟩ := hall.lastVisit hσ hvalid hlist
      obtain ⟨hobserver, hhandle⟩ := hheeds.trans hheeds'
      rw [List.append_nil] at hobserver hhandle
      refine ⟨t, ended, news, hvisit, hrefine, hgoes', hobserver, hpasses, fun told htold => ?_⟩
      have hsome : ({ s with handle } : Session).observer = some told := htold
      rw [hgoes', hsome, Option.any_some, eq_comm, Bool.or_eq_false_iff] at hhandle
      exact hhandle.2
    refine ⟨by simp, fun k hobserver haborts hpos hle hok => ?_, fun hok => ?_, hnothing, hresult⟩
    · obtain ⟨_, _, _, -, -, -, -, hpasses, hnever⟩ := hlast hok
      obtain ⟨told, htold⟩ := Option.isSome_iff_exists.mp hobserver
      have hstops := Delegate.stops_of_mem (hpasses k hpos hle) haborts told
      rw [hnever told htold] at hstops
      cases hstops
    · obtain ⟨t, ended, news, hvisit, hrest⟩ := hlast hok
      rw [hscheduled]
      exact ⟨t, ended, news, hvisit, hrest⟩

def bindingFile : SourceFile :=
  .ofTree ⟨"/p/a.py"⟩ (.module [.assign [.ident "x"] (.literal (.int (some 1)))]) none

def bindingWatchedBy (delegate : Delegate) : Assembler :=
  (Assembler.new .empty .standard ClassPolicy.standard .off (some delegate)).addFile bindingFile

theorem delegate_bindingWatchedBy (delegate : Delegate) :
    (bindingWatchedBy delegate).setting.delegate = delegate := by
  rw [bindingWatchedBy, addFile, setting_perform]
  rfl

theorem reached_bindingWatchedBy {delegate : Delegate} (h : delegate.Discreet) :
    (bindingWatchedBy delegate).Reached := by
  unfold bindingWatchedBy
  exact .addFile (.new _ _ ClassPolicy.isBundled_of_mem_standard _
    (show (Option.getD (some delegate) _).Discreet from h)) _

set_option maxRecDepth 100000 in
/-- An observer that aborts the handle at the second of three passes. -/
theorem abort_noticed_secondPass :
    let a := bindingWatchedBy (.stopping (some 2) none)
    a.setting.options.passes = 3 ∧ (a.perform (Run.build 20 .new)).1 ≠ .ok () ∧
      (a.perform (Run.build 20 .new)).1 = .error .cancelled := by
  intro a
  have hfacts : a.session.assembly.files ≠ [] ∧ a.setting.options.passes = 3 ∧ a.session.observer.isSome ∧
      (a.perform (Run.build 20 .new)).1 = .error .cancelled := by
    decide +kernel
  obtain ⟨hfiles, hpasses, hobserver, hresult⟩ := hfacts
  have hreached : a.Reached := reached_bindingWatchedBy fun _ _ => rfl
  have hnoticed := hreached.abort_noticed hfiles (by rw [hpasses]; decide) 20 .new
  have haborts : ∀ told, a.setting.delegate.aborts (.pass 2 a.setting.options.passes :: told) = true := by
    intro told
    rw [delegate_bindingWatchedBy]
    rfl
  exact ⟨hpasses, hnoticed.2.1 2 hobserver haborts (by decide) (by rw [hpasses]; decide), hresult⟩

set_option maxRecDepth 100000 in
/--
An abort that is missed. Three passes find one value each, and the observer aborts the handle when it is told of
the third one. The build succeeds with a handle that is cancelled.
-/
theorem abort_missed :
    let built := (bindingWatchedBy (.stopping none (some 3))).perform (Run.build 20 .new)
    built.1 = .ok () ∧ built.2.session.handle.isCancelled = true ∧
      built.2.session.observer.map (List.countP Notice.isValue) = some 3 := by
  decide +kernel

end Assembler

end Surmise
