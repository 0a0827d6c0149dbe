import Surmise.Proofs.Propagation.Passes
import Surmise.Proofs.Propagation.Regular.Evaluation

/-!
# Passes and builds as equations

In which state a pass begins to visit, where passes lead, what narrowing does to the store, and when a build is
refused.
-/

namespace Surmise.Run

/-- The state in which a pass begins to visit. -/
def begun (current total : Nat) (σ : Setting) (s : Session) : Session :=
  (tell (.pass current total) σ (say (fun _ => ["### PROPAGATION PASS ", toString current]) σ s).2).2.noting
    (if current = total && σ.options.useCapabilities then some Recorder.empty else none)

theorem pass_apply (steps current total : Nat) (σ : Setting) (s : Session) :
    pass steps current total σ s = visitItems (.ofDepth steps) steps 0 σ (begun current total σ s) := rfl

/-- The first `current` passes lead from a state to another one. -/
inductive Passed (σ : Setting) (steps : Nat) (s : Session) : (current : Nat) → Session → Prop
  | start : Passed σ steps s 0 s
  | pass {current : Nat} {s₁ s₂ : Session} (h : Passed σ steps s current s₁)
      (hpass : pass steps (current + 1) σ.options.passes σ s₁ = (.ok (), s₂)) : Passed σ steps s (current + 1) s₂

theorem passed_passes {σ : Setting} {steps left : Nat} {s s₀ ended : Session} (hleft : left ≤ σ.options.passes)
    (hs : Passed σ steps s₀ (σ.options.passes - left) s)
    (h : passes steps σ.options.passes left σ s = (.ok (), ended)) :
    Passed σ steps s₀ σ.options.passes ended := by
  induction left generalizing s with
  | zero =>
    obtain rfl : s = ended := congrArg Prod.snd h
    exact hs
  | succ left ih =>
    have hcurrent : σ.options.passes - (left + 1) + 1 = σ.options.passes - left := by omega
    rw [passes, bind_apply] at h
    generalize hpass : pass steps (σ.options.passes - left) σ.options.passes σ s = out at h
    obtain ⟨_ | _, t⟩ := out
    · cases h
    · refine ih (Nat.le_of_succ_le hleft) ?_ h
      rw [← hcurrent] at hpass ⊢
      exact hs.pass hpass

theorem refine_apply (σ : Setting) (s : Session) : refine σ s =
    match s.recorder with
    | some recorder =>
      let refined := (refineSymbols σ.graph s.handle.isCancelled recorder.attrs 0).run s.store
      (refined.1.map fun _ => (), { s with store := refined.2 })
    | none => (.ok (), s) := by
  rw [refine, get_bind_apply]
  obtain ⟨store, _, recorder, handle, _, _, _, _, _⟩ := s
  cases recorder with
  | none => rfl
  | some recorder =>
    dsimp only
    rw [get_bind_apply, read_bind_apply, bind_apply, inAnalysis_apply]
    dsimp only
    rcases (refineSymbols σ.graph handle.isCancelled recorder.attrs 0).run store with ⟨_ | _, _⟩ <;> rfl

/-- What a build does before it narrows values. -/
def propagate (steps : Nat) : Run Unit := do
  scheduleModules
  let total := (← read).options.passes
  passes steps total total

/-- A build is refused, or it begins with the handle that it is given. -/
theorem build_apply (steps : Nat) (handle : CancelHandle) (σ : Setting) (s : Session) : build steps handle σ s =
      if σ.options.passes = 0 then (.error (.invalidOptions OptionsError.noPasses.message), s)
      else if handle.isCancelled then (.error .cancelled, s)
      else (propagate steps >>= fun _ => refine) σ { s with handle } := by
  by_cases hpasses : σ.options.passes = 0
  · rw [if_pos hpasses]
    exact build_of_no_passes hpasses steps handle
  · have hvalid : σ.options.validate = .ok σ.options := if_neg hpasses
    rw [if_neg hpasses, build, read_bind_apply, hvalid]
    dsimp only
    cases hcancelled : handle.isCancelled with
    | true =>
      have hcheck : handle.check = .error .cancelled := if_pos hcancelled
      rw [hcheck]
      rfl
    | false =>
      have hcheck : handle.check = .ok () := if_neg (by rw [hcancelled]; exact Bool.false_ne_true)
      rw [hcheck]
      dsimp only [propagate]
      rw [bind_assoc]
      have hmodify : ∀ next : Run Unit, ((modify fun s => { s with handle }) >>= fun _ => next) σ s =
          next σ { s with handle } := fun _ => rfl
      rw [hmodify]
      simp only [bind_apply, Bool.false_eq_true, if_false]
      generalize scheduleModules σ { s with handle } = out
      obtain ⟨_ | _, s'⟩ := out <;> rfl

end Surmise.Run
