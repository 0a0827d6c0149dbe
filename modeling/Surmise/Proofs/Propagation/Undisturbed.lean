import Surmise.Proofs.Propagation.Builds
import Surmise.Proofs.Store.Scopes

/-!
# Computations that nothing stops

As long as the handle is not cancelled and the observer does not stop the analysis, what a computation does
to the store and to the assembly does not depend on the rest of the state. `Run.Leads` says that it goes
through, and what it leads to. There is a rule for each way to put computations together, and a lemma for
each part of the evaluation of plain names, constants, calls and assignments.
-/

namespace Surmise

open StoreM World

/-- The observer never stops the analysis, and touches nothing. -/
def Delegate.Patient (d : Delegate) : Prop := (∀ told, d.aborts told = false) ∧ d.Discreet

/-- What an analysis has found. -/
structure Found where
  store : Store
  assembly : Assembly

namespace Session

def found (s : Session) : Found := ⟨s.store, s.assembly⟩

/-- Nothing stops the analysis. -/
structure Unstopped (σ : Setting) (s : Session) : Prop where
  handle : s.handle.isCancelled = false
  observer : s.observer = none ∨ σ.delegate.Patient

end Session

namespace Run

open Session

/--
Where nothing stops it, the computation goes through. It leads from what has been found to a result and to
what is found then, which satisfy `post`.
-/
def Leads {α : Type} (σ : Setting) (p : Found) (act : Run α) (post : α → Found → Prop) : Prop :=
  ∀ s : Session, s.Unstopped σ → s.found = p →
    ∃ a s', act σ s = (.ok a, s') ∧ s'.Unstopped σ ∧ post a s'.found

/-- Where nothing stops it, the computation goes through with this result, and this is found then. -/
abbrev LeadsTo {α : Type} (σ : Setting) (p : Found) (act : Run α) (a : α) (p' : Found) : Prop :=
  Leads σ p act fun b q => b = a ∧ q = p'

/-- The computation gives nothing and changes nothing that is found. -/
def Silent (act : Run Unit) : Prop := ∀ σ p, Leads σ p act fun _ p' => p' = p

section Rules

variable {α β : Type} {σ : Setting} {p : Found} {post : β → Found → Prop}

theorem leads_pure {a : α} {post : α → Found → Prop} (h : post a p) : Leads σ p (pure a) post := by
  rintro s hs rfl
  exact ⟨a, s, rfl, hs, h⟩

theorem Leads.bind {act : Run α} {next : α → Run β} {mid : α → Found → Prop} (h : Leads σ p act mid)
    (hnext : ∀ a p', mid a p' → Leads σ p' (next a) post) : Leads σ p (act >>= next) post := by
  intro s hs hp
  obtain ⟨a, s', hact, hs', hmid⟩ := h s hs hp
  obtain ⟨b, s'', hrest, hs'', hpost⟩ := hnext a s'.found hmid s' hs' rfl
  refine ⟨b, s'', ?_, hs'', hpost⟩
  rw [bind_apply, hact]
  exact hrest

theorem Leads.imp {act : Run α} {post post' : α → Found → Prop} (h : Leads σ p act post)
    (himp : ∀ a p', post a p' → post' a p') : Leads σ p act post' := by
  intro s hs hp
  obtain ⟨a, s', hact, hs', hpost⟩ := h s hs hp
  exact ⟨a, s', hact, hs', himp _ _ hpost⟩

theorem LeadsTo.then {act : Run α} {next : α → Run β} {a : α} {p' : Found} (h : LeadsTo σ p act a p')
    (hnext : Leads σ p' (next a) post) : Leads σ p (act >>= next) post := by
  refine h.bind ?_
  rintro _ _ ⟨rfl, rfl⟩
  exact hnext

theorem Silent.leadsTo {act : Run Unit} (h : Silent act) : LeadsTo σ p act () p := (h σ p).imp fun _ _ => .intro rfl

theorem Silent.then {act : Run Unit} (h : Silent act) {next : Run β} (hnext : Leads σ p next post) :
    Leads σ p (act >>= fun _ => next) post := h.leadsTo.then hnext

theorem leads_get_bind {next : Session → Run β} (h : ∀ s : Session, s.found = p → Leads σ p (next s) post) :
    Leads σ p (get >>= next) post :=
  fun s hs hp => h s hp s hs hp

theorem leads_getStore_bind {next : Store → Run β} (h : Leads σ p (next p.store) post) :
    Leads σ p (getStore >>= next) post := by
  rintro s hs rfl
  exact h s hs rfl

theorem leads_read_bind {next : Setting → Run β} (h : Leads σ p (next σ) post) : Leads σ p (read >>= next) post :=
  fun s hs hp => h s hs hp

theorem leadsTo_inStore (act : StoreM α) : LeadsTo σ p (inStore act) (act p.store).1 ⟨(act p.store).2, p.assembly⟩ := by
  rintro s hs rfl
  exact ⟨_, _, rfl, ⟨hs.handle, hs.observer⟩, rfl, rfl⟩

theorem leadsTo_ask {query : World → Except AnalysisError α} {a : α}
    (h : query ⟨σ.graph, p.store, false⟩ = .ok a) : LeadsTo σ p (ask query) a p := by
  rintro s hs rfl
  refine ⟨a, s, ?_, hs, rfl, rfl⟩
  rw [ask_apply, hs.handle]
  exact congrArg (·, s) h

theorem leadsTo_numbered {v : Value} (hv : v.isNumbered) : LeadsTo σ p (numbered v) v p := by
  have hstays : StoreM.numbered v p.store = (v, p.store) := by
    unfold StoreM.numbered
    rw [if_pos hv]
    rfl
  have hrun := leadsTo_inStore (σ := σ) (p := p) (StoreM.numbered v)
  rw [hstays] at hrun
  exact hrun

theorem silent_check : Silent check := by
  rintro σ p s hs rfl
  exact ⟨(), s, check_of_live σ hs.handle, hs, rfl⟩

theorem silent_say (pieces : Store → List String) : Silent (say pieces) := by
  rintro σ p s hs rfl
  exact ⟨(), _, say_apply pieces σ s, ⟨hs.handle, hs.observer⟩, rfl⟩

theorem silent_tell (notice : Notice) : Silent (tell notice) := by
  rintro σ p ⟨_, _, _, _, _, observer, _, _, _⟩ hs rfl
  cases observer with
  | none => exact ⟨(), _, rfl, hs, rfl⟩
  | some told =>
    obtain ⟨hnever, hdiscreet⟩ := hs.observer.resolve_left nofun
    refine ⟨(), _, rfl, ⟨?_, .inr ⟨hnever, hdiscreet⟩⟩, congrArg (Found.mk · _) (hdiscreet _ _)⟩
    show CancelHandle.isCancelled (if σ.delegate.aborts (notice :: told) then _ else _) = false
    rw [hnever, if_neg nofun]
    exact hs.handle

theorem Idle.silent {act : Run Unit} (h : Idle act) : Silent act := by
  rintro σ p s hs rfl
  obtain ⟨_, recorder, -, hact⟩ := h σ s
  exact ⟨(), _, hact s.trace s.observer, ⟨hs.handle, hs.observer⟩, rfl⟩

end Rules

/-! ## Evaluation -/

open Evaluator

section Evaluation

variable {σ : Setting} {p : Found} {f : Frame} {depth : Nat} {name : String} {x : Value} {node : Node}
  {post : Value → Found → Prop} {v : Value} {g : FunctionId} {symbol : SymbolId}

theorem leads_eval
    (h : Leads σ p ((ofDepth depth).evalNode f node) fun v p' => v.isNumbered ∧ post v p') :
    Leads σ p ((ofDepth (depth + 1)).eval f node) post := by
  refine silent_check.then (h.bind fun v p' ⟨hv, hpost⟩ => ?_)
  exact (leadsTo_numbered hv).then ((silent_say _).then ((silent_tell _).then (leads_pure hpost)))

theorem leads_exec {post : Unit → Found → Prop} (h : Leads σ p ((ofDepth depth).execNode f node) post) :
    Leads σ p ((ofDepth (depth + 1)).exec f node) post :=
  silent_check.then h

theorem leadsTo_eval_ident (h : f.valueOf p.store name = v) (hv : v.isNumbered) :
    LeadsTo σ p ((ofDepth (depth + 1)).eval f (.ident name)) v p := by
  subst h
  exact leads_eval (leads_getStore_bind (leads_pure ⟨hv, rfl, rfl⟩))

theorem leadsTo_eval_text (text : String) :
    LeadsTo σ p ((ofDepth (depth + 1)).eval f (.literal (.str text))) (.ofText text) p :=
  leads_eval (leads_pure ⟨rfl, rfl, rfl⟩)

/-- Binding a name joins the value into the symbol that the scope binds to it. -/
theorem leadsTo_assignName {isPrivate : Bool} (hdeclared : f.isDeclared name = false) :
    LeadsTo σ p (assignName f name v isPrivate) () ⟨entered f.scope name isPrivate v isPrivate p.store,
      p.assembly⟩ := by
  unfold assignName
  rw [hdeclared]
  exact (leadsTo_inStore _).then ((leadsTo_inStore _).then (silent_say _).leadsTo)

theorem leadsTo_write (symbol : SymbolId) (v : Value) :
    LeadsTo σ p (write symbol v) () ⟨(produce symbol v p.store).2, p.assembly⟩ :=
  (leadsTo_inStore _).then (silent_say _).leadsTo

/-! ## Calls -/

theorem evalArguments_plain (ev : Evaluator) (f : Frame) (h : node.isStarred = false) (rest : List Node) :
    ev.evalArguments f (node :: rest) = (do
      let v ← ev.eval f node
      let symbol := f.symbolOf? (← getStore) node
      let args ← ev.evalArguments f rest
      return { args with positional := v :: args.positional, symbols := symbol :: args.symbols }) := by
  cases node <;> first | rfl | cases h

/-- A call of a plain name with one argument. -/
theorem leads_evalCall {ev : Evaluator} {arg : Node} {callee : Value}
    (harg : arg.isStarred = false) (hcallee : LeadsTo σ p (ev.eval f (.ident name)) callee p)
    (hx : LeadsTo σ p (ev.eval f arg) x p)
    (hcalls : Leads σ p (callee.disjuncts.mapM (ev.callAlternative f (.ofPositional [x]))) fun results p' =>
      post (.unite results) p') :
    Leads σ p (ev.evalCall f (.ident name) [arg] [] none none) post := by
  have harguments : LeadsTo σ p (ev.evalArguments f [arg]) ⟨[x], [f.symbolOf? p.store arg], []⟩ p := by
    rw [evalArguments_plain ev f harg]
    exact hx.then (leads_getStore_bind (leads_pure ⟨rfl, rfl⟩))
  have hargs : LeadsTo σ p (ev.evalArgs f [arg] [] none none) (.ofPositional [x], [f.symbolOf? p.store arg]) p :=
    harguments.then (leads_pure ⟨rfl, rfl⟩)
  refine hcallee.then (hargs.then (hcalls.bind fun results p' hpost => ?_))
  exact (idle_recordArguments _ _).silent.then (leads_pure hpost)

/-- A query that nothing stops calls each alternative of the callee. -/
theorem call_eq (graph : Graph) (st : Store) (callee : Value) (args : Args) :
    ∃ q, call ⟨graph, st, false⟩ callLimit callee args = uniteM callee.disjuncts (callOne ⟨graph, st, false⟩ q args) :=
  ⟨queries ⟨graph, st, false⟩ 31, rfl⟩

/-- Calling something that is no function of the program and gives nothing. -/
theorem leadsTo_doCall_nothing {d : Value} {args : Args} (htargets : callTargets d = pure [])
    (hcall : call ⟨σ.graph, p.store, false⟩ callLimit d args = .ok .empty) :
    LeadsTo σ p (doCall d args) .empty p := by
  unfold doCall
  rw [htargets, pure_bind, List.forIn_nil, pure_bind]
  exact (leadsTo_ask hcall).then (leadsTo_numbered rfl)

/-- The argument of a function with one parameter is joined into the symbol of the parameter. -/
theorem leadsTo_bindArguments (hparams : p.store.positionalParams g = [symbol]) :
    LeadsTo σ p (bindArguments g (.ofPositional [x])) () ⟨(produce symbol x p.store).2, p.assembly⟩ := by
  have hpositional : LeadsTo σ p (bindPositional g (.ofPositional [x])) ()
      ⟨(produce symbol x p.store).2, p.assembly⟩ := by
    refine leads_getStore_bind ?_
    rw [hparams]
    exact (leadsTo_inStore _).then (leads_pure ⟨rfl, rfl⟩)
  have hspread : bindSpread g (.ofPositional [x]) = pure () := rfl
  refine (silent_say _).then (hpositional.then ?_)
  rw [hspread, pure_bind]
  exact (leadsTo_inStore _).then (leadsTo_inStore _)

/-- A call of a function with one parameter gives what it is known to return. -/
theorem leadsTo_doCall {st : Store}
    (hparams : p.store.positionalParams g = [symbol]) (hst : (produce symbol x p.store).2 = st)
    (hreturns : st.value (st.function g).returns = v) (hone : .unite [v] = v) (hv : v.isNumbered) :
    LeadsTo σ p (doCall (.functionRef g) (.ofPositional [x])) v ⟨st, p.assembly⟩ := by
  have hask : LeadsTo σ ⟨st, p.assembly⟩ (ask fun w => w.call callLimit (.functionRef g) (.ofPositional [x])) v
      ⟨st, p.assembly⟩ := by
    refine leadsTo_ask ?_
    obtain ⟨q, hq⟩ := call_eq σ.graph st (.functionRef g) (.ofPositional [x])
    rw [hq]
    show Except.ok (Value.unite [st.value (st.function g).returns]) = _
    rw [hreturns, hone]
  have htargets : callTargets (.functionRef g) = pure [g] := rfl
  have hloop : LeadsTo σ p (forIn [g] PUnit.unit fun f _ => bindArguments f (.ofPositional [x]) >>= fun _ =>
      pure (ForInStep.yield PUnit.unit)) () ⟨st, p.assembly⟩ := by
    rw [List.forIn_cons, bind_assoc, ← hst]
    exact (leadsTo_bindArguments hparams).then (leads_pure ⟨rfl, rfl⟩)
  unfold doCall
  rw [htargets, pure_bind]
  exact hloop.then (hask.then (leadsTo_numbered hv))

end Evaluation

/-! ## Passes -/

section Passes

variable {σ : Setting} {p : Found} {steps : Nat} {post : Unit → Found → Prop} {ev : Evaluator} {index : Nat}

/-- What is recorded is no part of what is found. -/
theorem silent_note (recorder : Option Recorder) : Silent (modify fun s => { s with recorder }) := by
  rintro σ p s hs rfl
  exact ⟨(), _, rfl, ⟨hs.handle, hs.observer⟩, rfl⟩

/-- A pass visits everything on the list. -/
theorem leads_pass {current total : Nat} (h : Leads σ p (visitItems (.ofDepth steps) steps 0) post) :
    Leads σ p (pass steps current total) post :=
  (silent_say _).then ((silent_tell _).then (leads_read_bind ((silent_note _).then h)))

/-- The item at a place of the list is visited, and then those after it. -/
theorem leads_visitItems {item : WorkItem} {mid : Unit → Found → Prop}
    (hitem : p.assembly.order[index]? = some item) (hvisit : Leads σ p (visitItem ev item) mid)
    (hrest : ∀ p', mid () p' → Leads σ p' (visitItems ev steps (index + 1)) post) :
    Leads σ p (visitItems ev (steps + 1) index) post := by
  refine leads_get_bind fun s hs => ?_
  have hassembly : s.assembly = p.assembly := congrArg Found.assembly hs
  rw [hassembly, hitem]
  exact silent_check.then (hvisit.bind fun _ => hrest)

theorem leads_visitItems_end (hitem : p.assembly.order[index]? = none)
    (hpost : post () p) : Leads σ p (visitItems ev (steps + 1) index) post := by
  refine leads_get_bind fun s hs => ?_
  have hassembly : s.assembly = p.assembly := congrArg Found.assembly hs
  rw [hassembly, hitem]
  exact leads_pure hpost

/-- Only ambiguous values have changed. -/
structure Narrows (st st' : Store) : Prop where
  tables : st'.tables = st.tables
  modules : st'.modules = st.modules
  value : ∀ id, (st.value id).disjuncts.length < 2 → st'.value id = st.value id

theorem Narrows.trans {st st' st'' : Store} (h : Narrows st st') (h' : Narrows st' st'') : Narrows st st'' where
  tables := h'.tables.trans h.tables
  modules := h'.modules.trans h.modules
  value id hid := by
    rw [h'.value id (by rw [h.value id hid]; exact hid), h.value id hid]

/-- Narrowing that is not cancelled goes through. -/
theorem narrows_refineSymbols (graph : Graph) (record : List (SymbolId × List String)) (count : Nat) (st : Store) :
    ∃ n st', (refineSymbols graph false record count).run st = (.ok n, st') ∧ Narrows st st' := by
  induction record generalizing count st with
  | nil => exact ⟨count, st, rfl, rfl, rfl, fun _ _ => rfl⟩
  | cons entry rest ih =>
    obtain ⟨symbol, names⟩ := entry
    rw [run_refineSymbols_cons]
    cases hrefine : World.refine ⟨graph, st, false⟩ names (st.value symbol) with
    | error e =>
      unfold World.refine at hrefine
      split at hrefine <;> cases hrefine
    | ok refined =>
      cases refined with
      | none => exact ih count st
      | some v =>
        obtain ⟨n, st', hrun, hnarrows⟩ := ih (count + 1) (StoreM.put symbol v st).2
        refine ⟨n, st', hrun, Narrows.trans ⟨Store.tables_put .., ?_, fun id hid => ?_⟩ hnarrows⟩
        · exact (Store.sameObjects_put st symbol v).modules
        · -- the symbol that is narrowed was ambiguous
          rw [Store.value_put, if_neg]
          rintro ⟨hsame, -⟩
          obtain rfl : symbol = id := congrArg SymbolId.mk hsame
          unfold World.refine at hrefine
          rw [if_pos (by rw [decide_eq_true hid]; rfl)] at hrefine
          cases hrefine

/-- **Narrowing** changes ambiguous values only. -/
theorem leads_refine : Leads σ p refine fun _ p' => Narrows p.store p'.store ∧ p'.assembly = p.assembly := by
  rintro s hs rfl
  have hrun := refine_apply σ s
  cases hrecorder : s.recorder with
  | none =>
    rw [hrecorder] at hrun
    exact ⟨(), s, hrun, hs, ⟨rfl, rfl, fun _ _ => rfl⟩, rfl⟩
  | some recorder =>
    obtain ⟨n, st, hrefined, hnarrows⟩ := narrows_refineSymbols σ.graph recorder.attrs 0 s.store
    rw [hrecorder, hs.handle] at hrun
    dsimp only at hrun
    rw [hrefined] at hrun
    exact ⟨(), _, hrun, ⟨hs.handle, hs.observer⟩, hnarrows, rfl⟩

end Passes

end Run

end Surmise
