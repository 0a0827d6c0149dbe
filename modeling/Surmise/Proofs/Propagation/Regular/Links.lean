import Surmise.Proofs.Propagation.Regular.Definitions
import Surmise.Proofs.Store.Lockstep

/-!
# What evaluation changes and what it keeps

Evaluation changes the state by few kinds of effects, so what each of them keeps is kept by all. Whatever is
evaluated, no symbol, no scope of a comprehension and no subclass is forgotten, and a class gets no base that does
not list it. Functions and classes are made with symbols, so without a new symbol nothing is defined.

* `Session.Effect`, `Run.Regular.effects`: the effects, and that evaluation has no others.
* `Session.Onward`, `Run.Regular.onward`: what is kept, and that it is.
* `Reading.Registers.then`: nor is a class taken out of a list by what is evaluated afterwards.
-/

namespace Surmise

/-! ## Effects -/

/-- What evaluation does to the state in one place. -/
inductive Session.Effect (K : Reading) (σ : Setting) : Session → Session → Prop
  /-- The record, the trace and what no result depends on. -/
  | aside (s : Session) {recorder : Option Recorder} (trace : Trace) (narrowed : List SymbolId) (bodies : List TableId)
      (h : recorder.isSome = s.recorder.isSome) : Effect K σ s { s with recorder, trace, narrowed, bodies }
  | tell (s : Session) (hσ : K.Trusted σ) (notice : Notice) : Effect K σ s (Run.tell notice σ s).2
  | noteText (s : Session) (text : String) : Effect K σ s { s with evaluated := text :: s.evaluated }
  | store (s : Session) {st : Store} (h : K.Benign → s.store.KeepsDefinitions st) : Effect K σ s { s with store := st }
  | setBases (s : Session) {c : ClassId} {bases : List Value} (h : K.Benign → s.store.Registered c bases) :
      Effect K σ s { s with store := (StoreM.modifyClass c (fun info => { info with bases }) s.store).2 }
  | assembly (s : Session) (reserved : List Address) {comprehensions : List (Site × TableId)}
      (h : s.assembly.comprehensions <+: comprehensions) :
      Effect K σ s { s with assembly := { s.assembly with reserved, comprehensions } }
  | define (s : Session) (form : Run.Form) (f : Frame) {id : Nat} (signature : Run.Signature)
      (hnew : (form.places s.assembly).lookup (f.site id) = none) :
      Effect K σ s (Run.withDefinition form f id signature s)
  | newClass (s : Session) (f : Frame) (id : Nat) (name : String) : Effect K σ s (Run.withClass f id name s)

variable {K : Reading} {texts : Bool}

/-- **Evaluation has no other effects.** -/
theorem Run.Regular.effects {α : Type} {act : Run α} (h : Regular K texts act)
    {σ : Setting} (hσ : K.Trusted σ) (s : Session) :
    Relation.ReflTransGen (Session.Effect K σ) s (act σ s).2 := by
  induction h generalizing s with
  | bind _ _ ih ihnext => exact state_bind (ih s) fun a t ht => ht.trans (ihnext a t)
  | @setBases _ c act _ hregisters ih =>
    have hfirst := ih s
    have hregistered := fun hbenign => hregisters hbenign σ s
    rw [bind_apply]
    generalize act σ s = out at hfirst hregistered
    obtain ⟨_ | bases, t⟩ := out
    · exact hfirst
    · exact hfirst.tail (.setBases t fun hbenign => hregistered hbenign t bases hσ rfl)
  | getStore _ ihnext => exact ihnext s.store s
  | get _ _ ihnext => exact ihnext s s
  | read _ _ ihnext => exact ihnext σ hσ s
  | inStore h => exact .single (.store s fun _ => h s.store)
  | policies graph htrusted c body =>
    rw [inAnalysis_apply]
    exact .single (.store s fun hbenign =>
      (Analysis.keeps_applyPolicies (hbenign _ htrusted).policies graph c body s.store).1)
  | @modifyAssembly _ f h =>
    obtain ⟨reserved, _, heq, hcomprehensions⟩ := h s.assembly
    rw [show (Run.modifyAssembly f σ s).2 = { s with assembly := f s.assembly } from rfl, heq]
    exact .single (.assembly s reserved hcomprehensions)
  | @definedAt _ form f id signature =>
    rw [definedAt_apply]
    cases hnew : (form.places s.assembly).lookup (f.site id) with
    | some g => exact .refl
    | none => exact .single (.define s form f _ hnew)
  | classAt f id name =>
    rw [classAt_apply]
    split
    · exact .refl
    · exact .single (.newClass s f id name)
  | say =>
    rw [say_apply]
    exact .single (.aside s _ s.narrowed s.bodies rfl)
  | tell notice => exact .single (.tell s hσ notice)
  | idle h =>
    obtain ⟨_, recorder, hkept, hact⟩ := h σ s
    have hrun := hact s.trace s.observer
    rw [show (_ : Run Unit) σ s = _ from hrun]
    exact .single (.aside s s.trace s.narrowed s.bodies hkept)
  | noteText text _ ih => exact .head (.noteText s text) (ih () _)
  | narrowed symbol => exact .single (.aside s s.trace (symbol :: s.narrowed) s.bodies rfl)
  | opened table => exact .single (.aside s s.trace s.narrowed (table :: s.bodies) rfl)
  | check => rw [check_apply]
  | ask => rw [ask_apply]
  | pure | exhausted | world => exact .refl

/-! ## Onward -/

/--
No symbol or scope of a comprehension is lost, and classes stay below their bases. Without a new symbol no scope
is changed and nothing is defined: the assembly may only have more comprehensions and addresses.
-/
structure Session.Onward (s t : Session) : Prop where
  store : s.store.Onward t.store
  coherent : s.store.KeepsCoherent t.store
  comprehensions : s.assembly.comprehensions <+: t.assembly.comprehensions
  assembly : t.store.symbols.size = s.store.symbols.size →
    ∃ reserved comprehensions, t.assembly = { s.assembly with reserved, comprehensions }

namespace Session

variable {s t u : Session}

theorem onward_of_store (h : s.store.KeepsDefinitions t.store) (hassembly : t.assembly = s.assembly) : s.Onward t :=
  ⟨h.onward, h.keepsCoherent, hassembly ▸ List.prefix_rfl, fun _ => ⟨_, _, hassembly⟩⟩

theorem onward_of_same (hstore : t.store = s.store) (hassembly : t.assembly = s.assembly) : s.Onward t :=
  ⟨hstore ▸ .refl s.store, hstore ▸ .refl s.store, hassembly ▸ List.prefix_rfl, fun _ => ⟨_, _, hassembly⟩⟩

theorem onward_of_lt (h : s.store.symbols.size < t.store.symbols.size) (hcoherent : s.store.KeepsCoherent t.store)
    (hcomprehensions : s.assembly.comprehensions <+: t.assembly.comprehensions) : s.Onward t :=
  ⟨Store.onward_of_lt h, hcoherent, hcomprehensions, fun hsame => absurd hsame (Nat.ne_of_gt h)⟩

theorem Onward.refl (s : Session) : s.Onward s := onward_of_same rfl rfl

theorem Onward.trans (h : s.Onward t) (h' : t.Onward u) : s.Onward u := by
  refine ⟨h.store.trans h'.store, h.coherent.trans h'.coherent, h.comprehensions.trans h'.comprehensions,
    fun hsame => ?_⟩
  have hfirst := h.store.symbols
  have hsecond := h'.store.symbols
  obtain ⟨_, _, hmid⟩ := h.assembly (by omega)
  obtain ⟨_, _, hend⟩ := h'.assembly (by omega)
  exact ⟨_, _, hend.trans (by rw [hmid])⟩

end Session

namespace Run

/-! ### Definitions -/

/-- A function that is defined has symbols. -/
theorem symbols_lt_definedStore (f : Frame) (signature : Signature) (s : Session) :
    s.store.symbols.size < (definedStore f signature s).symbols.size := by
  have hmade := StoreM.symbols_lt_newFunction (specOf f signature s) s.store
  unfold definedStore
  dsimp only
  split
  · exact Nat.lt_of_lt_of_le hmade (StoreM.keeps_produce _ _ _).symbols
  · exact hmade

theorem symbols_lt_classMade (f : Frame) (name : String) (s : Session) :
    s.store.symbols.size < (classMade f name s).2.symbols.size := by
  unfold classMade
  exact StoreM.symbols_lt_newClass name _ _ s.store

theorem keeps_classMade (f : Frame) (name : String) (s : Session) :
    s.store.KeepsDefinitions (classMade f name s).2 := by
  unfold classMade
  exact StoreM.keeps_newClass _ _ _ s.store

end Run

namespace Session

variable {K : Reading} {σ : Setting} {s t : Session}

theorem Effect.onward (h : Effect K σ s t) (hbenign : K.Benign) : s.Onward t := by
  cases h with
  | aside | noteText => exact onward_of_same rfl rfl
  | tell hσ notice =>
    obtain ⟨_, _, htell⟩ := Run.tell_eq (hbenign _ hσ).delegate notice s
    rw [htell]
    exact onward_of_same rfl rfl
  | store h => exact onward_of_store (h hbenign) rfl
  | setBases h =>
    exact ⟨⟨Nat.le_refl _, fun _ => List.prefix_rfl, fun _ => rfl⟩, Store.keepsCoherent_setBases (h hbenign),
      List.prefix_rfl, fun _ => ⟨_, _, rfl⟩⟩
  | assembly reserved h => exact ⟨.refl _, .refl _, h, fun _ => ⟨_, _, rfl⟩⟩
  | define form f signature =>
    refine onward_of_lt (Run.symbols_lt_definedStore f signature s)
      (Store.keepsCoherent_of_adds (Run.addsFunctionTo_definedStore f signature s)) ?_
    cases form <;> exact List.prefix_rfl
  | newClass f id name =>
    exact onward_of_lt (Run.symbols_lt_classMade f name s) (Run.keeps_classMade f name s).keepsCoherent List.prefix_rfl

end Session

namespace Run

variable {K : Reading} {σ : Setting}

/-- **Evaluation goes onward.** The bases of a class are written in its definition, after its place below them. -/
theorem Regular.onward {texts : Bool} {α : Type} {act : Run α} (h : Regular K texts act)
    (hbenign : K.Benign) (hσ : K.Trusted σ) (s : Session) : s.Onward (act σ s).2 := by
  have heffects := h.effects hσ s
  generalize (act σ s).2 = t at heffects
  induction heffects with
  | refl => exact .refl s
  | tail _ heffect ih => exact ih.trans (heffect.onward hbenign)

end Run

/-! ## Listing a class below its bases -/

open Run

/-- What is evaluated afterwards does not take a class out of a list. -/
theorem Reading.Registers.then {c : ClassId} {act : Run (List Value)} {next : Run Unit}
    (h : K.Registers c act) (hnext : Regular K texts next) :
    K.Registers c (act >>= fun bases => next >>= fun _ => pure bases) := by
  intro hbenign σ s s' bases hσ hrun
  obtain ⟨bases', t, hact, hrest⟩ := bind_eq_ok hrun
  obtain ⟨_, t', hnextRun, hpure⟩ := bind_eq_ok hrest
  cases hpure
  have hlinks := (hnext.onward hbenign hσ t).coherent
  rw [hnextRun] at hlinks
  exact (h hbenign σ s t bases hσ hact).mono hlinks.subclassLinks

end Surmise
