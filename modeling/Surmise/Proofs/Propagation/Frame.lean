import Surmise.Proofs.Propagation.Regular.Recording

/-!
# Frames

A body is run in a lawful frame: functions that it defines lie in a scope from which names are looked up, and its
own bindings are made there or in the scope of a class body.
-/

namespace Surmise

open Session

/-- The frame of a body that may be run in this state. -/
structure Frame.Lawful (s : Session) (f : Frame) : Prop where
  inherited : s.Lexical f.inherited
  scope : f.scope = f.inherited ∨ f.scope ∈ s.bodies
  file : s.IsFile (s.store.table f.scope).address.file

/-- The state is in order, and the frame may be used in it. -/
structure Ready (σ : Setting) (s : Session) (f : Frame) : Prop where
  inv : s.Inv σ
  lawful : f.Lawful s

namespace Ready

variable {σ : Setting} {s s' : Session} {f : Frame}

theorem scope_mem (h : Ready σ s f) : f.scope ∈ s.scopes σ := by
  rcases h.lawful.scope with heq | hbody
  · rw [heq]
    exact mem_scopes_lexical h.lawful.inherited
  · exact mem_scopes_body hbody

theorem scope_known (h : Ready σ s f) : f.scope.index < s.store.tables.size :=
  h.inv.known _ h.scope_mem

/-- A body never binds names in the scope of a package. -/
theorem scope_apart (h : Ready σ s f) : ¬ s.store.IsPackageScope f.scope := by
  intro hp
  obtain ⟨-, hmodule, -, hinner, hbody⟩ := h.inv.package_apart hp
  rcases h.lawful.scope with heq | hscope
  · rw [heq] at hmodule hinner
    rcases h.lawful.inherited.role with ⟨m, hm, heq⟩ | hi
    · exact hmodule (heq ▸ List.mem_map_of_mem (getD_mem hm default))
    · exact hinner hi
  · exact hbody hscope

theorem extend (h : Ready σ s f) (hx : s.Extends s') (hinv : s'.Inv σ) : Ready σ s' f := by
  refine ⟨hinv, h.lawful.inherited.mono hx, h.lawful.scope.imp_right fun hb => hx.bodies hb, ?_⟩
  rw [(hx.store.table _ h.scope_known).1]
  exact h.lawful.file.mono hx

theorem after (h : Ready σ s f) (hs : Steps σ s s') : Ready σ s' f :=
  h.extend hs.extension (h.inv.after hs)

/-- Only the scopes of a frame matter. -/
theorem congr {g : Frame} (h : Ready σ s f) (hscope : g.scope = f.scope) (hinherited : g.inherited = f.inherited) :
    Ready σ s g := by
  refine ⟨h.inv, ?_, ?_, ?_⟩
  · rw [hinherited]
    exact h.lawful.inherited
  · rw [hscope, hinherited]
    exact h.lawful.scope
  · rw [hscope]
    exact h.lawful.file

end Ready

theorem Frame.sound_valueOf {s : Store} (hs : s.Sound) (f : Frame) (name : String) :
    (f.valueOf s name).Sound s.nextSerial := by
  unfold Frame.valueOf
  split
  · exact hs.value _
  · exact Value.sound_empty

namespace Run

variable {σ : Setting} {s : Session} {f : Frame}

theorem does_create (h : ¬ s.store.IsPackageScope f.scope) (name : String) (isPrivate : Bool) :
    Goes σ s (inStore (StoreM.createPrivate f.scope name isPrivate)) :=
  (does_inStore (StoreM.does_createPrivate h name isPrivate)).imp fun _ _ _ _ => trivial

end Run

/-! ## Types as values -/

namespace World

open Value

variable {w : World} {n : Nat}

theorem instantiateAll_eq_map (vs : List Value) : w.instantiateAll vs = vs.map w.instantiate :=
  eq_map_of_cons rfl (fun _ _ => rfl) vs

theorem withSubclassesAll_eq_map (vs : List Value) : w.withSubclassesAll vs = vs.map w.withSubclasses :=
  eq_map_of_cons rfl (fun _ _ => rfl) vs

theorem sound_instantiate (v : Value) : (w.instantiate v).Sound n := by
  induction v with
  | step v ih =>
    cases v
    case union | tuple =>
      unfold instantiate
      rw [instantiateAll_eq_map]
      exact sound_unite (List.forall_mem_map.mpr ih)
    case external path =>
      unfold instantiate
      split <;> simp
    case builtin b => cases b <;> simp [instantiate]
    all_goals simp [instantiate]

theorem sound_withSubclasses {v : Value} (hv : v.Sound n) : (w.withSubclasses v).Sound n := by
  induction v with
  | step v ih =>
    cases v
    case union | tuple =>
      unfold withSubclasses
      rw [withSubclassesAll_eq_map]
      exact sound_unite (List.forall_mem_map.mpr fun p hp => ih p hp (hv.of_mem_parts hp))
    case classRef c =>
      unfold withSubclasses
      exact sound_unite (List.forall_mem_map.mpr fun c _ => by simp)
    all_goals exact hv

end World

end Surmise
