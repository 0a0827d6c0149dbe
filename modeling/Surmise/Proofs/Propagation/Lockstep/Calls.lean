import Surmise.Proofs.Propagation.Walk

/-!
# Scopes and calls

What binding a name and calling a function of the program do. The names of a body are bound in its own scope or in
one around it, and never in the scope of a package.
-/

namespace Surmise

open Value Assertion StoreM Store

/-- The policies come with the analysis, and the builtins are the first scope. -/
structure Setting.InOrder (σ : Setting) : Prop where
  benign : σ.Benign
  builtins : σ.builtins = ⟨0⟩

variable {s s' : Store}

theorem Store.Mirror.isBuiltin {R : Course} (h : s.Mirror R s') (symbol : SymbolId) :
    s'.isBuiltin ⟨0⟩ symbol = s.isBuiltin ⟨0⟩ symbol := by
  rw [Store.isBuiltin, Store.isBuiltin, h.symbol, h.get? h.outermost.lt_size]
  rfl

theorem Store.positionalParams_congr (h : ∀ g, s'.function g = s.function g) (f : FunctionId) :
    s'.positionalParams f = s.positionalParams f := by
  rw [positionalParams, positionalParams, receiverCount, receiverCount, h]

namespace Run

variable {K : Reading} {texts : Bool} {R : Course} {σ : Setting} {Γ : Assertion σ}

/-! ## Names -/

/-- A symbol that is found, unless it is one of the builtins. -/
theorem walk_unlessBuiltin (d d' : Store → Option SymbolId) (hd : ∀ {s s' : Store}, s.Mirror R s' → d' s' = d s) :
    let find := fun d : Store → Option SymbolId => do
      let s ← getStore
      let setting ← read
      return (d s).filter fun symbol => !s.isBuiltin setting.builtins symbol
    Acts K texts R Γ (find d) (find d') := by
  refine ⟨⟨.getStore fun _ => .read (fun _ _ => rfl) fun _ _ => .pure _, fun σ hσ s s' hs _ => ⟨?_, hs⟩⟩,
    fun _ _ _ => does_getStore_bind (does_read_bind (does_pure trivial))⟩
  show Except.ok _ = Except.ok _
  rw [hd hs.store, hσ.builtins]
  exact congrArg (fun p => Except.ok (Option.filter p _)) (funext fun symbol => by rw [hs.store.isBuiltin])

section Names

variable {f f' : Frame} (hf : f.Twin R f')

include hf

theorem walk_lookupBinding (name : String) : Acts K texts R Γ (lookupBinding? f name) (lookupBinding? f' name) :=
  walk_unlessBuiltin _ _ fun hs => hf.lookup? hs name

theorem walk_enclosing (name : String) : Acts K texts R Γ (enclosing? f name) (enclosing? f' name) := by
  refine walk_unlessBuiltin _ _ fun {s s'} hs => ?_
  rw [hf.table hs]
  -- a scope that is there lies in one that is there
  cases hf.scope.mono hs.based with
  | outermost hrecord hparent => rw [table_of_getElem? hrecord, hparent]; rfl
  | inner hrecord hparent _ houter =>
    rw [table_of_getElem? hrecord, hparent]
    exact lookup?_of_same hs.tables houter (hs.table houter.lt_size) name

variable [Γ.Implies (lawful f)]

theorem walk_createLocal (name : String) (isPrivate : Bool) :
    Acts K texts R Γ (inStore (createPrivate f.scope name isPrivate))
      (inStore (createPrivate f'.scope name isPrivate)) :=
  ⟨lockstep_inStore (lockstep_createPrivate (fun hs => hf.get? hs name) isPrivate), fun _ hs h =>
    does_create (ready hs h).scope_apart name isPrivate⟩

theorem walk_binding (name : String) : Acts K texts R Γ (binding f name) (binding f' name) := by
  unfold binding
  extract_lets create create'
  have hcreate : ∀ around, Acts K texts R Γ (create around) (create' around) := by
    rintro (_ | symbol)
    · exact walk_createLocal hf name false
    · exact walk_pure symbol
  rw [hf.globals, hf.nonlocals, hf.home]
  refine .ite ⟨lockstep_getStore_based (fun _ => .inStore (keeps_create _ name)) fun hs => ?_, fun s hs _ => ?_⟩ ?_
  · rw [hs.module]
    exact lockstep_inStore (lockstep_create (by simpa [Course.rebase] using hs.module_lt f.home) name)
  · have hcreates := does_createPrivate (hs.membersApart.modules f.home) name false
    exact does_getStore_bind ((does_inStore hcreates).imp fun _ _ _ _ => trivial)
  · exact .ite ((walk_enclosing hf name).bind fun around => (hcreate around).weaken) (hcreate none)

theorem walk_assignName (name : String) (v : Value) [Γ.Implies (sound v)] (isPrivate : Bool) :
    Acts K texts R Γ (assignName f name v isPrivate) (assignName f' name (v.shift R.shift) isPrivate) := by
  unfold assignName
  extract_lets write write'
  have hwrite : ∀ symbol, Acts K texts R Γ (write symbol) (write' symbol) := fun symbol =>
    (walk_inStore (lockstep_producePrivate symbol v isPrivate) fun hs h =>
      does_producePrivate symbol ((sound v).of hs h) isPrivate).bind fun _ => walk_say _ _
  rw [hf.isDeclared]
  exact .ite ((walk_binding hf name).bind fun symbol => (hwrite symbol).weaken)
    ((walk_createLocal hf name isPrivate).bind fun symbol => (hwrite symbol).weaken)

end Names

theorem walk_produceReturn {f f' : Frame} (hf : f.Twin R f') (v : Value) [Γ.Implies (sound v)] :
    Acts K texts R Γ (produceReturn f v) (produceReturn f' (v.shift R.shift)) := by
  unfold produceReturn
  rw [hf.function]
  cases f.function with
  | none => exact walk_pure ()
  | some g =>
    refine walk_getFunctions fun hs => ?_
    rw [hs]
    exact walk_write _ v

theorem walk_memberSymbols (make : Bool) (v : Value) (name : String) :
    Acts K texts R Γ (memberSymbols make v name) (memberSymbols make (v.shift R.shift) name) := by
  refine walk_check.bind fun _ => walk_read (fun _ _ => rfl) fun σ' _ => ?_
  rw [disjuncts_shift]
  exact walk_inStore (lockstep_memberSymbols σ'.graph make name [] v.disjuncts) fun hs _ =>
    does_memberSymbols hs.membersApart σ'.graph make name [] v.disjuncts

section Questions

variable (v : Value) [Γ.Implies (sound v)]

theorem walk_elem :
    Yields K texts R Γ (ask fun w => w.elem callLimit v) (ask fun w => w.elem callLimit (v.shift R.shift)) :=
  walk_ask (fun w => w.answers_elem callLimit v) (fun hw => hw.elem callLimit v) fun hs h =>
    World.ensures_elem hs.consistent.sound callLimit ((sound v).of hs h)

theorem walk_member (name : String) : Yields K texts R Γ (ask fun w => w.member callLimit v name)
    (ask fun w => w.member callLimit (v.shift R.shift) name) :=
  walk_ask (fun w => w.answers_member callLimit v name) (fun hw => hw.member callLimit v name) fun hs h =>
    World.ensures_member (w := ⟨_, _, _⟩) hs.consistent.sound callLimit ((sound v).of hs h) name

theorem walk_call (args : Args) [Γ.Implies (soundArgs args)] : Yields K texts R Γ
    (ask fun w => w.call callLimit v args) (ask fun w => w.call callLimit (v.shift R.shift) (args.shift R.shift)) :=
  walk_ask (fun w => w.answers_call callLimit v args) (fun hw => hw.call callLimit v args) fun hs h =>
    World.ensures_call (w := ⟨_, _, _⟩) hs.consistent.sound callLimit ((sound v).of hs h) ((soundArgs args).of hs h)

end Questions

/-! ## Calls -/

theorem functionsIn_shift (π : Shift) (v : Value) : functionsIn (v.shift π) = functionsIn v := by
  rw [functionsIn, functionsIn, disjuncts_shift, List.filterMap_map]
  refine List.filterMap_congr fun d _ => ?_
  cases d <;> rfl

theorem walk_targetsOf (v : Value) : Acts K texts R Γ (targetsOf v) (targetsOf (v.shift R.shift)) := by
  cases v
  case functionRef f => exact walk_pure [f]
  case classRef | instanceOf =>
    refine (walk_memberSymbols false _ _).bind fun symbols => walk_looked _ _ (fun hs => ?_) fun _ _ => trivial
    simp only [hs.value, functionsIn_shift]
    rfl
  all_goals exact walk_pure []

theorem walk_callTargets (callee : Value) :
    Acts K texts R Γ (callTargets callee) (callTargets (callee.shift R.shift)) := by
  unfold callTargets
  rw [disjuncts_shift]
  refine (walk_mapM fun v _ => walk_targetsOf v).bind fun targets => ?_
  rw [List.map_id]
  exact walk_pure _

section Arguments

variable (f : FunctionId)

theorem inStore_get_bind {α : Type} (next : Store → StoreM α) :
    inStore (get >>= next) = getStore >>= fun s => inStore (next s) := rfl

theorem walk_bindInOrder (symbols : List SymbolId) {vs : List Value} (h : ∀ v ∈ vs, Γ.Implies (sound v)) :
    Acts K texts R Γ (inStore (bindInOrder symbols vs)) (inStore (bindInOrder symbols (vs.map (shift R.shift)))) := by
  induction symbols generalizing vs with
  | nil => exact walk_pure ()
  | cons symbol rest ih =>
    cases vs with
    | nil => exact walk_pure ()
    | cons v vs =>
      have := h v List.mem_cons_self
      exact (walk_produce symbol v).then (ih fun w hw => h w (List.mem_cons_of_mem v hw))

theorem walk_bindKeyword (name : String) (v : Value) [Γ.Implies (sound v)] :
    Acts K texts R Γ (inStore (bindKeyword f name v)) (inStore (bindKeyword f name (v.shift R.shift))) := by
  unfold bindKeyword
  rw [inStore_get_bind, inStore_get_bind]
  refine walk_getFunctions fun {s s'} hs => ?_
  rw [param?, param?, hs]
  split
  · exact walk_produce _ v
  · rw [inStore_get_bind, inStore_get_bind]
    refine walk_getFunctions fun {s s'} hs => ?_
    rw [hs]
    split
    · exact walk_inStore (lockstep_addKwarg _ name v) fun hs h =>
        does_addKwarg _ name ((sound v).of hs h)
    · exact walk_pure ()

theorem walk_bindKeywords {entries : List (String × Value)} (h : ∀ entry ∈ entries, Γ.Implies (sound entry.2)) :
    Acts K texts R Γ (inStore (bindKeywords f entries)) (inStore (bindKeywords f (shiftEntries R.shift entries))) := by
  induction entries with
  | nil => exact walk_pure ()
  | cons entry rest ih =>
    have := h entry List.mem_cons_self
    exact (walk_bindKeyword f entry.1 entry.2).then (ih fun e he => h e (List.mem_cons_of_mem entry he))

/-- The entries of a keyword dictionary are bound. -/
theorem walk_bindEntries (dict : KwargsId) :
    Acts K texts R Γ (getStore >>= fun s => inStore (bindKeywords f (s.kwargsOf dict).entries))
      (getStore >>= fun s => inStore (bindKeywords f (s.kwargsOf dict).entries)) := by
  refine walk_look (Δ := all fun entry => sound entry.2)
    (fun entries => walk_bindKeywords f fun entry he => ⟨fun _ h => h.2 entry he⟩)
    (fun s => (s.kwargsOf dict).entries) (fun hs => ?_) fun hs _ entry he => ?_
  · rw [hs.kwargsOf]
    rfl
  · exact (hs.consistent.sound.kwargs _ entry.2 (List.mem_map_of_mem he)).1

theorem walk_bindSpreadKeywords (vs : List Value) : Acts K texts R Γ (inStore (bindSpreadKeywords f vs))
      (inStore (bindSpreadKeywords f (vs.map (shift R.shift)))) := by
  induction vs with
  | nil => exact walk_pure ()
  | cons v rest ih =>
    cases v
    case kwargs dict => exact (walk_bindEntries f dict).then ih
    all_goals exact ih

variable (args : Args) [Γ.Implies (soundArgs args)]

/-- What a `*` parameter is given, if there is one. -/
theorem walk_produceList? (elem : Value) [Γ.Implies (sound elem)] (found : Option SymbolId) :
    let give := fun elem : Value => match found with
      | some symbol => inStore (produce symbol (.listOf elem))
      | none => return ()
    Acts K texts R Γ (give elem) (give (elem.shift R.shift)) := by
  cases found with
  | none => exact walk_pure ()
  | some symbol =>
    dsimp only
    rw [← shift_listOf]
    exact walk_produce symbol _

theorem walk_bindPositional : Acts K texts R Γ (bindPositional f args) (bindPositional f (args.shift R.shift)) := by
  have hdropped : ∀ n, Γ.Implies (all sound (args.positional.drop n)) := fun n =>
    ⟨fun hs h v hv => ((soundArgs args).of hs h).positional v (List.mem_of_mem_drop hv)⟩
  refine walk_getFunctions fun hs => ?_
  rw [positionalParams_congr hs, Args.positional_shift]
  refine (walk_bindInOrder _ fun v hv => ⟨fun hs h => Args.Sound.positional ((soundArgs args).of hs h) v hv⟩).bind
    fun _ => ?_
  rw [List.length_map]
  refine .ite (walk_getFunctions fun hs => ?_) (walk_pure ())
  rw [hs, ← List.map_drop, ← shift_unite]
  exact (walk_produceList? (Γ := Γ) _ _).weaken

/-- The elements of a spread value go to all parameters after the positional arguments. -/
theorem walk_bindSpread : Acts K texts R Γ (bindSpread f args) (bindSpread f (args.shift R.shift)) := by
  unfold bindSpread
  rw [Args.vararg_shift, Args.positional_shift, List.length_map]
  cases hspread : args.vararg with
  | none => exact walk_pure ()
  | some spread =>
    have : Γ.Implies (sound spread) := ⟨fun hs h => ((soundArgs args).of hs h).vararg spread hspread⟩
    refine (walk_elem spread).bind fun elem => walk_getFunctions fun hs => ?_
    rw [positionalParams_congr hs]
    refine (walk_for fun symbol _ => walk_produce symbol elem).bind fun _ => walk_getFunctions fun hs => ?_
    rw [hs]
    exact walk_produceList? elem _

theorem walk_bindArguments : Acts K texts R Γ (bindArguments f args) (bindArguments f (args.shift R.shift)) := by
  have hspread : ((args.shift R.shift).kwarg.map disjuncts).getD [] =
      ((args.kwarg.map disjuncts).getD []).map (shift R.shift) := by
    rw [Args.kwarg_shift]
    cases args.kwarg with
    | none => rfl
    | some v => exact disjuncts_shift R.shift v
  unfold bindArguments
  rw [hspread]
  refine (walk_say _ _).bind fun _ => (walk_bindPositional f args).bind fun _ => ?_
  refine (walk_bindSpread f args).bind fun _ => ?_
  refine (walk_bindKeywords f fun entry he =>
    ⟨fun hs h => Args.Sound.keywords ((soundArgs args).of hs h) entry he⟩).bind fun _ => ?_
  exact walk_bindSpreadKeywords f _

theorem walk_doCall (callee : Value) [Γ.Implies (sound callee)] :
    Yields K texts R Γ (doCall callee args) (doCall (callee.shift R.shift) (args.shift R.shift)) := by
  refine (walk_callTargets callee).bind fun targets => ?_
  refine (walk_for fun f _ => walk_bindArguments f args).bind fun _ => ?_
  exact (walk_call callee args).bind fun v => walk_numbered v

end Arguments

theorem walk_callAccessor (accessor receiver : Value) (v : Option Value) [Γ.Implies (sound accessor)]
    [Γ.Implies (sound receiver)] [Γ.Implies (all sound v.toList)] :
    Yields K texts R Γ (callAccessor accessor receiver v)
      (callAccessor (accessor.shift R.shift) (receiver.shift R.shift) (v.map (shift R.shift))) := by
  have hcall : ∀ (d : Value) (own : List Value) [Γ.Implies (sound d)] [Γ.Implies (all sound own)],
      Yields K texts R Γ (doCall d (.ofPositional (own ++ v.toList))) (doCall (d.shift R.shift)
          (.ofPositional (own.map (shift R.shift) ++ (v.map (shift R.shift)).toList))) := by
    intro d own _ _
    have hargs : Args.ofPositional (own.map (shift R.shift) ++ (v.map (shift R.shift)).toList) =
        (Args.ofPositional (own ++ v.toList)).shift R.shift := by
      cases v <;> simp [Args.ofPositional, Args.shift, shiftEntries]
    rw [hargs]
    exact walk_doCall _ d
  unfold callAccessor
  refine Walk.bind (walk_mapDisjuncts (Δ := sound) (g := shift R.shift) accessor fun d _ => ?_) fun results => ?_
  · refine walk_getFunctions fun hs => ?_
    cases d
    case functionRef g _ =>
      simp only [shift, hs]
      split
      · exact hcall (.functionRef g) [receiver]
      · exact hcall (.functionRef g) []
    all_goals exact hcall _ []
  · rw [← shift_unite]
    exact walk_pure _

end Run

end Surmise
