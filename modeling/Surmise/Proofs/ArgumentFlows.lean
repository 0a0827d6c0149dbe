import Surmise.Proofs.Arguments
import Surmise.Proofs.Propagation.Regular.Recording

/-!
# Recorded flows of arguments

Where a record is kept, a call notes a flow from each argument that is a plain name to a parameter. The parameter is
the one at the place of the argument, keyword-only parameters counted too. Binding leaves these out, so the two agree
only before the first of them.

* `Recorder.Flow`: the flows in a record.
* `Run.recordArguments_apply`: what a call notes.
* `Run.inStep_evalArguments`: which values the noted symbols belong to.
* `Run.flows_are_bound_before_keywords`: the main statement.
-/

namespace Surmise

/-! ## Records -/

/-- The record has a flow from a symbol to another one. -/
def Recorder.Flow (r : Recorder) (a b : SymbolId) : Prop := ∃ e ∈ r.forward, e.1 = a ∧ b ∈ e.2

/-- Notes some flows in order. -/
def Recorder.noteAll (flows : List (SymbolId × SymbolId)) (r : Recorder) : Recorder :=
  flows.foldl (fun r e => r.recordFlow e.1 e.2) r

theorem exists_mem_addUnder {κ α : Type} [DecidableEq κ] [DecidableEq α] (key : κ) (x : α) (table : List (κ × List α))
    (a : κ) (b : α) : (∃ e ∈ addUnder key x table, e.1 = a ∧ b ∈ e.2) ↔
      (∃ e ∈ table, e.1 = a ∧ b ∈ e.2) ∨ a = key ∧ b = x := by
  induction table with
  | nil => simp [addUnder, eq_comm]
  | cons first rest ih =>
    obtain ⟨k, items⟩ := first
    by_cases hk : k = key
    · subst hk
      by_cases hx : x ∈ items <;> simp [addUnder, hx] <;> grind
    · rw [addUnder, if_neg hk]
      simp only [List.exists_mem_cons_iff, ih, or_assoc]

namespace Recorder

variable {r : Recorder} {a b x y : SymbolId}

theorem flow_recordFlow : (r.recordFlow x y).Flow a b ↔ r.Flow a b ∨ x ≠ y ∧ a = x ∧ b = y := by
  unfold recordFlow
  split
  · next hxy => simp [hxy]
  · next hxy =>
    rw [and_iff_right hxy]
    exact exists_mem_addUnder x y r.forward a b

theorem flow_noteAll {flows : List (SymbolId × SymbolId)} :
    (r.noteAll flows).Flow a b ↔ r.Flow a b ∨ a ≠ b ∧ (a, b) ∈ flows := by
  induction flows generalizing r with
  | nil => simp [noteAll]
  | cons first rest ih =>
    show (noteAll rest (r.recordFlow first.1 first.2)).Flow a b ↔ _
    rw [ih, flow_recordFlow, List.mem_cons, Prod.ext_iff]
    grind

end Recorder

/-! ## What a call notes -/

/-- The argument at a place is the first symbol, and the parameter behind the receiver at this place the second. -/
def FunctionInfo.Pairs (info : FunctionInfo) (arguments : List (Option SymbolId)) (i : Nat) (a b : SymbolId) : Prop :=
  ∃ p, info.afterReceiver[i]? = some p ∧ p.symbol = b ∧ arguments[i]? = some (some a)

/-- All pairs of a call, in order. -/
def FunctionInfo.pairs (info : FunctionInfo) (arguments : List (Option SymbolId)) : List (SymbolId × SymbolId) :=
  (info.afterReceiver.zip arguments).flatMap fun e => e.2.toList.map (·, e.1.symbol)

theorem FunctionInfo.mem_pairs {info : FunctionInfo} {arguments : List (Option SymbolId)} {a b : SymbolId} :
    (a, b) ∈ info.pairs arguments ↔ ∃ i, info.Pairs arguments i a b := by
  unfold pairs Pairs
  rw [List.mem_flatMap]
  constructor
  · rintro ⟨⟨p, argument⟩, hmem, hpair⟩
    obtain ⟨i, hi⟩ := List.mem_iff_getElem?.mp hmem
    obtain ⟨hp, hargument⟩ := List.getElem?_zip_eq_some.mp hi
    obtain ⟨_, ha, hsame⟩ := List.mem_map.mp hpair
    obtain rfl := Option.mem_toList.mp ha
    cases hsame
    exact ⟨i, p, hp, rfl, hargument⟩
  · rintro ⟨i, p, hp, rfl, hargument⟩
    refine ⟨(p, some a), List.mem_iff_getElem?.mpr ⟨i, List.getElem?_zip_eq_some.mpr ⟨hp, hargument⟩⟩, ?_⟩
    exact List.mem_singleton_self _

namespace Run

variable {σ : Setting} {t : Session}

/-- The functions that a call is known to run. -/
def reached (callee : Value) (σ : Setting) (t : Session) : List FunctionId :=
  (callTargets callee σ t).1.toOption.getD []

def notingAll (flows : List (SymbolId × SymbolId)) (t : Session) : Session :=
  t.noting (t.recorder.map (Recorder.noteAll flows))

theorem notingAll_append (flows more : List (SymbolId × SymbolId)) (t : Session) :
    notingAll (flows ++ more) t = notingAll more (notingAll flows t) := by
  have hnote : Recorder.noteAll (flows ++ more) = Recorder.noteAll more ∘ Recorder.noteAll flows :=
    funext fun _ => List.foldl_append
  unfold notingAll
  rw [hnote, ← Option.map_map]
  rfl

theorem notingAll_nil (t : Session) : notingAll [] t = t := congrArg t.noting Option.map_id'

/-- A loop that notes flows in each round. -/
theorem forIn_notingAll {α : Type} {body : α → Unit → Run (ForInStep Unit)} (flows : α → List (SymbolId × SymbolId))
    (h : ∀ x t, body x () σ t = (.ok (.yield ()), notingAll (flows x) t)) (xs : List α) (t : Session) :
    forIn xs () body σ t = (.ok (), notingAll (xs.flatMap flows) t) := by
  induction xs generalizing t with
  | nil => exact congrArg (Except.ok (), ·) (notingAll_nil t).symm
  | cons x rest ih =>
    rw [List.forIn_cons, bind_apply, h, List.flatMap_cons, notingAll_append]
    exact ih _

theorem recordArguments_apply (callee : Value) (arguments : List (Option SymbolId)) :
    recordArguments callee arguments σ t = (.ok (),
      notingAll ((reached callee σ t).flatMap fun g => (t.store.function g).pairs arguments) t) := by
  have hrecording : ∀ next : Bool → Run Unit, (isRecording >>= next) σ t = next t.recorder.isSome σ t := fun _ => rfl
  unfold recordArguments
  rw [hrecording]
  split
  · obtain ⟨result, htargets⟩ := still_callTargets callee σ t
    have hrun : callTargets callee σ t = (result, t) := htargets t.trace t.observer
    have hcaught : (tryCatch (callTargets callee) fun _ => pure []) σ t = (.ok (reached callee σ t), t) := by
      rw [tryCatch_apply, reached, hrun]
      cases result <;> rfl
    rw [bind_apply, hcaught]
    dsimp only
    rw [getStore_bind_apply, bind_apply]
    rw [forIn_notingAll fun g => (t.store.function g).pairs arguments]
    · rfl
    · intro g u
      rw [bind_apply, forIn_notingAll fun e => e.2.toList.map (·, e.1.symbol)]
      · rfl
      · rintro ⟨p, _ | a⟩ u
        · exact congrArg (_, ·) (notingAll_nil u).symm
        · rfl
  · next hidle =>
    refine congrArg (Except.ok (), ·) ?_
    cases hrecorder : t.recorder with
    | none =>
      unfold notingAll
      rw [hrecorder, Option.map_none, ← hrecorder]
      rfl
    | some r =>
      have hunnamed : ∀ argument ∈ arguments, argument = none := by simpa [hrecorder] using hidle
      have hpairs : ∀ info : FunctionInfo, info.pairs arguments = [] := fun info =>
        List.flatMap_eq_nil_iff.mpr fun e he => by rw [hunnamed e.2 (List.of_mem_zip he).2]; rfl
      rw [List.flatMap_eq_nil_iff.mpr fun g _ => hpairs _, notingAll_nil]

/-- The value is that of one of the arguments, and the symbol the one that it then has as a plain name. -/
def GivenBy (ev : Evaluator) (f : Frame) (σ : Setting) (nodes : List Node) (v : Value)
    (symbol : Option SymbolId) : Prop :=
  ∃ node ∈ nodes, ∃ s s', ev.eval f node σ s = (.ok v, s') ∧ symbol = f.symbolOf? s'.store node

/-- **The values of arguments and their symbols stand in step.** -/
theorem inStep_evalArguments {ev : Evaluator} {f : Frame} {nodes : List Node} {s s' : Session}
    {arguments : Evaluator.Arguments} (h : ev.evalArguments f nodes σ s = (.ok arguments, s')) :
    List.Forall₂ (GivenBy ev f σ nodes) arguments.positional arguments.symbols := by
  induction nodes generalizing s s' arguments with
  | nil =>
    cases h
    exact .nil
  | cons node rest ih =>
    have hlater : ∀ v symbol, GivenBy ev f σ rest v symbol → GivenBy ev f σ (node :: rest) v symbol := by
      rintro v symbol ⟨argument, hargument, hgiven⟩
      exact ⟨argument, List.mem_cons_of_mem _ hargument, hgiven⟩
    cases node
    case starred value =>
      obtain ⟨_, t, -, h⟩ := bind_eq_ok h
      obtain ⟨more, t', hmore, h⟩ := bind_eq_ok h
      cases h
      exact (ih hmore).imp hlater
    all_goals
      obtain ⟨v, t, hv, h⟩ := bind_eq_ok h
      obtain ⟨_, _, hstore, h⟩ := bind_eq_ok h
      cases hstore
      obtain ⟨more, t', hmore, h⟩ := bind_eq_ok h
      cases h
      exact .cons ⟨_, List.mem_cons_self, s, t, hv, rfl⟩ ((ih hmore).imp hlater)

/-! ## What a call binds -/

/-- Binding the positional arguments of a call joins the value to the symbol. -/
def Binds (g : FunctionId) (args : Args) (σ : Setting) (t : Session) (id : SymbolId) (v : Value) : Prop :=
  ∃ before after, bindPositional g args σ t = (.ok (), handedOut (before ++ ⟨.symbol id, v⟩ :: after) t)

theorem binds_of_getElem? {g : FunctionId} {args : Args} {i : Nat} {p : Param} {v : Value}
    (hp : (t.store.function g).openParams[i]? = some p) (hv : args.positional[i]? = some v) :
    Binds g args σ t p.symbol v := by
  have hmem : ⟨.symbol p.symbol, v⟩ ∈ (t.store.function g).positionalHandings args :=
    FunctionInfo.mem_positionalHandings.mpr ⟨i, p, hp, hv, rfl⟩
  obtain ⟨before, after, hhandings⟩ := List.append_of_mem hmem
  refine ⟨before, after ++ (t.store.function g).overflowHandings args, ?_⟩
  rw [bindPositional_apply, hhandings, List.append_assoc]
  rfl

/-- Before the first keyword-only parameter, all parameters behind the receiver are open. -/
theorem getElem?_openParams {info : FunctionInfo} {i : Nat}
    (h : ∀ p ∈ info.afterReceiver.take (i + 1), p.keywordOnly = false) :
    info.openParams[i]? = info.afterReceiver[i]? := by
  rw [FunctionInfo.openParams_eq]
  generalize info.afterReceiver = params at h
  induction params generalizing i with
  | nil => rfl
  | cons p rest ih =>
    have hp : p.keywordOnly = false := h p List.mem_cons_self
    rw [List.filter_cons_of_pos (by rw [hp]; rfl)]
    cases i with
    | zero => rfl
    | succ i => exact ih fun q hq => h q (List.mem_cons_of_mem p hq)

/--
**Recorded flows are real before the first keyword-only parameter.** Where a record is kept, a call notes just the
flows from the arguments that are plain names to the parameters at their places behind the receiver, for all functions
that it is known to run. If no keyword-only parameter stands up to this place, binding the arguments joins the value of
the argument to the parameter.
-/
theorem flows_are_bound_before_keywords (σ : Setting) (t : Session) (callee : Value)
    (arguments : List (Option SymbolId)) :
    ∃ recorder, recordArguments callee arguments σ t = (.ok (), t.noting recorder) ∧
      (∀ a b, (∃ r ∈ recorder, r.Flow a b) ↔ ∃ r ∈ t.recorder, r.Flow a b ∨
        a ≠ b ∧ ∃ g ∈ reached callee σ t, ∃ i, (t.store.function g).Pairs arguments i a b) ∧
      ∀ g i a b, (t.store.function g).Pairs arguments i a b →
        (∀ p ∈ (t.store.function g).afterReceiver.take (i + 1), p.keywordOnly = false) →
        ∀ (args : Args) (v : Value), args.positional[i]? = some v →
          ∀ u : Session, u.store.function g = t.store.function g → Binds g args σ u b v := by
  refine ⟨_, recordArguments_apply callee arguments, fun a b => ?_, ?_⟩
  · simp [Option.mem_def, Recorder.flow_noteAll, FunctionInfo.mem_pairs]
  · rintro g i a b ⟨p, hp, rfl, -⟩ hopen args v hv u hsame
    refine binds_of_getElem? (i := i) ?_ hv
    rw [hsame, getElem?_openParams hopen, hp]

/-- The session in which a method with a keyword-only parameter is called, with a record. -/
def recorded : Session := { (default : Session) with store := richStore, recorder := some .empty }

/-- The first argument flows to the first parameter behind the receiver, and is bound to it. -/
theorem flows_are_bound_firstArgument :
    (recorded.store.function ⟨0⟩).Pairs [some ⟨4⟩, some ⟨5⟩] 0 ⟨4⟩ ⟨1⟩ ∧
      Binds ⟨0⟩ (.ofPositional [.ofInt 1, .null]) bareSetting recorded ⟨1⟩ (.ofInt 1) := by
  obtain ⟨_, -, -, hbound⟩ :=
    flows_are_bound_before_keywords bareSetting recorded (.functionRef ⟨0⟩) [some ⟨4⟩, some ⟨5⟩]
  have hpairs : (recorded.store.function ⟨0⟩).Pairs [some ⟨4⟩, some ⟨5⟩] 0 ⟨4⟩ ⟨1⟩ := ⟨_, rfl, rfl, rfl⟩
  exact ⟨hpairs, hbound ⟨0⟩ 0 _ _ hpairs (by decide) _ _ rfl _ rfl⟩

/-- A flow is noted from the second argument to the keyword-only parameter, which binding leaves as it is. -/
theorem flow_to_keyword_only :
    (recordArguments (.functionRef ⟨0⟩) [some ⟨4⟩, some ⟨5⟩] bareSetting recorded).2.recorder.map Recorder.forward =
        some [(⟨4⟩, [⟨1⟩]), (⟨5⟩, [⟨3⟩])] ∧
      (bindArguments ⟨0⟩ (.ofPositional [.ofInt 1, .null]) bareSetting recorded).2.store.symbol ⟨3⟩ =
        recorded.store.symbol ⟨3⟩ :=
  ⟨rfl, rfl⟩

end Run

end Surmise
