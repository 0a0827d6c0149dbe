import Surmise.Proofs.CallChain.Layout

/-!
# Visits to a chain of calls

What a visit to the module or to one of the functions of a chain does: definitions are made or found again,
and the constant is handed on to the places that the visited body writes to.

* `leads_call`: a call hands its argument on to the parameter and gives the result.
* `leads_definition`, `leads_outAssigned`: the statements of the module.
* `leads_visitModule`, `leads_visitFunction`: visits.
-/

namespace Surmise

open Store StoreM

namespace Store

variable {s : Store} {t : TableId} {name : String} {id : SymbolId}

theorem lookup?_of_get? (h : s.get? t name = some id) : s.lookup? t name = some id := by
  unfold lookup?
  cases s.tables.size with
  | zero => exact h
  | succ n => rw [lookupWithin, h]

/-- A name that a scope does not bind is looked for in the scope around it. -/
theorem lookup?_of_parent {parent : TableId} (ht : t.index < s.tables.size) (hnone : s.get? t name = none)
    (hparent : (s.table t).parent = some parent) (h : s.get? parent name = some id) :
    s.lookup? t name = some id := by
  unfold lookup?
  cases hsize : s.tables.size with
  | zero => omega
  | succ n =>
    rw [lookupWithin, hnone, hparent]
    cases n with
    | zero => exact h
    | succ n =>
      dsimp only
      rw [lookupWithin, h]

end Store

namespace CallChain

open Run Evaluator

variable {c : CallChain} {file : SourceFile} {l : Layout} {made : List Nat} {names : List String} {p : Found}
  {reached : Nat} {σ : Setting} {i : Nat} {name : String}

/-! ## Names -/

def moduleFrame (l : Layout) : Frame := .body l.home l.members none (.file 0)

def functionFrame (c : CallChain) (l : Layout) (i : Nat) : Frame :=
  .body l.home (c.locals l i) (some (c.function i)) (.file 0)

theorem valueOf_of_lookup? {f : Frame} {s : Store} {t : TableId} {id : SymbolId}
    (hget : s.get? t name = some id) (hlookup : f.lookup? s name = some id) :
    f.valueOf s name = s.read (.entry t name) := by
  rw [Frame.valueOf, hlookup, Store.read, Store.cell?, hget]
  rfl

theorem Wired.valueOf_global (h : c.Wired file l made names p) (hname : name ∈ names) :
    (moduleFrame l).valueOf p.store name = p.store.read (.entry l.members name) := by
  obtain ⟨id, hget⟩ := Option.isSome_iff_exists.mp (h.named name hname)
  exact valueOf_of_lookup? hget (lookup?_of_get? hget)

/-- A function sees the names of the module. -/
theorem Wired.valueOf_outer (h : c.Wired file l made names p) {j : Nat} (hi : i ∈ made) (hj : j < c.depth)
    (hname : c.name j ∈ names) :
    (c.functionFrame l i).valueOf p.store (c.name j) = p.store.read (.entry l.members (c.name j)) := by
  obtain ⟨x, result, hmade⟩ := h.made i hi
  obtain ⟨id, hget⟩ := Option.isSome_iff_exists.mp (h.named _ hname)
  have hnone := (hmade.entries (c.name j)).trans (if_neg (c.name_ne j hj).1)
  exact valueOf_of_lookup? hget (lookup?_of_parent hmade.inner hnone hmade.parent hget)

/-! ## Calls -/

/--
Calling what a new module binds a name of the chain to gives nothing. This can fail only for the name of the
builtins, and only if the graph takes them for a type or a function.
-/
def Quiet (c : CallChain) (graph : Graph) : Prop :=
  (∃ i < c.depth, c.name i = "__builtins__") → World.callExternal ⟨graph, .empty, false⟩ "builtins" = .empty

theorem leadsTo_callPreset (hgraph : c.Quiet σ.graph) (hi : i < c.depth) {d : Value} (hd : preset (c.name i) = some d)
    (ev : Evaluator) (f : Frame) (args : Args) :
    LeadsTo σ p (ev.callAlternative f args d) .empty p := by
  obtain ⟨q, hq⟩ := call_eq σ.graph p.store d args
  rcases preset_cases (c.name i) with hnone | hstr | ⟨hname, hbuiltins⟩
  · rw [hnone] at hd
    cases hd
  · rw [hstr] at hd
    cases hd
    exact leadsTo_doCall_nothing rfl hq
  · rw [hbuiltins] at hd
    cases hd
    refine leadsTo_doCall_nothing rfl (hq.trans ?_)
    have hempty : World.callExternal ⟨σ.graph, p.store, false⟩ "builtins" = .empty := hgraph ⟨i, hi, hname⟩
    show Except.ok (Value.unite [World.callExternal ⟨σ.graph, p.store, false⟩ "builtins"]) = _
    rw [hempty]
    rfl

theorem unite_of_content (k : Nat) : .unite [c.content reached k] = c.content reached k ∧
    .unite [.empty, c.content reached k] = c.content reached k ∧ (c.content reached k).isNumbered := by
  unfold content
  split <;> exact ⟨rfl, rfl, rfl⟩

/-- Calling what a name is bound to hands the argument on to the parameter and gives the result. -/
theorem leads_alternatives (hgraph : c.Quiet σ.graph) (h : c.Stage file l made names reached p) (hlt : i < c.depth)
    (hi : i ∈ made) {v : Value} (hv : v = if c.depth - 1 - i ≤ reached then .ofText c.constant else .empty)
    (ev : Evaluator) (f : Frame) :
    Leads σ p ((bound (c.name i) (c.function i)).disjuncts.mapM (ev.callAlternative f (.ofPositional [v])))
      fun results p' => .unite results = c.content reached (c.depth + i) ∧
        c.Stage file l made names (handOn (c.depth - 1 - i) reached) p' := by
  obtain ⟨x, result, hmade⟩ := h.wired.made i hi
  have hhanded := h.handOn (by omega) (hmade.cell?_param hlt) hv
  have hparams : p.store.positionalParams (c.function i) = [x] := by
    unfold positionalParams receiverCount
    rw [hmade.info]
    rfl
  have hreturns : (produce x v p.store).2.value
      ((produce x v p.store).2.function (c.function i)).returns = c.content reached (c.depth + i) := by
    obtain ⟨x', result', hmade'⟩ := hhanded.wired.made i hi
    have hread := read_of_cell? (hmade'.cell?_result hlt)
    rw [hhanded.holds.place _ (by omega), content_handOn_of_ne (by omega)] at hread
    exact (congrArg (fun info => value _ (FunctionInfo.returns info)) hmade'.info).trans hread.symm
  obtain ⟨hone, hjoined, hnumbered⟩ : _ ∧ _ ∧ (c.content reached (c.depth + i)).isNumbered :=
    unite_of_content (c.depth + i)
  have hcall : LeadsTo σ p (ev.callAlternative f (.ofPositional [v]) (.functionRef (c.function i)))
      (c.content reached (c.depth + i)) ⟨(produce x v p.store).2, p.assembly⟩ :=
    leadsTo_doCall hparams rfl hreturns hone hnumbered
  cases hpreset : preset (c.name i) with
  | none =>
    have hbound : (bound (c.name i) (c.function i)).disjuncts = [.functionRef (c.function i)] := by
      rw [bound, hpreset]
      rfl
    rw [hbound, List.mapM_cons]
    exact hcall.then (leads_pure ⟨hone, hhanded⟩)
  | some d =>
    have hbound : (bound (c.name i) (c.function i)).disjuncts = [d, .functionRef (c.function i)] := by
      rw [bound, hpreset]
      rfl
    rw [hbound, List.mapM_cons, List.mapM_cons]
    refine (leadsTo_callPreset hgraph hlt hpreset ev f _).then ?_
    rw [bind_assoc]
    exact hcall.then (leads_pure ⟨hjoined, hhanded⟩)

/-- **A call** of a function of the chain hands its argument on and gives the result of the function. -/
theorem leads_call (hgraph : c.Quiet σ.graph) (h : c.Stage file l made names reached p) (hlt : i < c.depth)
    (hi : i ∈ made) (hnamed : c.name i ∈ names) {f : Frame} {depth : Nat} {arg : Node} (harg : arg.isStarred = false)
    {v : Value} (hv : v = if c.depth - 1 - i ≤ reached then .ofText c.constant else .empty)
    (hname : f.valueOf p.store (c.name i) = p.store.read (.entry l.members (c.name i)))
    (heval : LeadsTo σ p ((ofDepth (depth + 1)).eval f arg) v p) :
    Leads σ p ((ofDepth (depth + 2)).eval f (.call (.ident (c.name i)) [arg] [] none none)) fun w p' =>
      w = c.content reached (c.depth + i) ∧ c.Stage file l made names (handOn (c.depth - 1 - i) reached) p' := by
  rw [h.holds.name i hlt, if_pos hnamed] at hname
  refine leads_eval (leads_evalCall harg (leadsTo_eval_ident hname (isNumbered_bound ..)) heval ?_)
  refine (leads_alternatives hgraph h hlt hi hv _ f).imp fun results p' ⟨hresult, hstage⟩ => ?_
  rw [hresult]
  exact ⟨(unite_of_content _).2.2, rfl, hstage⟩

/-! ## Functions -/

/-- The innermost function does not call another one. -/
def handedDown (depth reached : Nat) : Nat → Nat
  | 0 => reached
  | i + 1 => handOn (depth - (i + 1)) reached

theorem handOn_handedDown (depth reached i : Nat) :
    handOn (depth + i) (handedDown depth reached i) = visited depth reached i := by
  cases i with
  | zero =>
    show handOn depth reached = handOn depth (handOn depth reached)
    unfold handOn
    split_ifs <;> omega
  | succ i => rfl

/-- All names are bound. -/
structure Complete (c : CallChain) (names : List String) : Prop where
  named : ∀ i < c.depth, c.name i ∈ names
  out : "out" ∈ names

/-- A function returns what it is called with, or what the one before it makes of that. -/
theorem leads_returned (hgraph : c.Quiet σ.graph) (h : c.Stage file l c.written names reached p)
    (hnames : c.Complete names) (hi : i < c.depth) (depth : Nat) :
    Leads σ p ((ofDepth (depth + 2)).eval (c.functionFrame l i) (c.returned i)) fun v p' =>
      v = (if c.depth + i ≤ handedDown c.depth reached i then .ofText c.constant else .empty) ∧
        c.Stage file l c.written names (handedDown c.depth reached i) p' := by
  have hmem : ∀ j < c.depth, j ∈ c.written := fun j => (c.mem_written j).mpr
  obtain ⟨x, result, hmade⟩ := h.wired.made i (hmem i hi)
  have hx : (c.functionFrame l i).valueOf p.store "x" = c.content reached (c.depth - 1 - i) := by
    rw [← h.holds.place _ (by omega), place_param hi]
    exact valueOf_of_lookup? (hmade.entries "x") (lookup?_of_get? (hmade.entries "x"))
  have heval : ∀ depth, LeadsTo σ p ((ofDepth (depth + 1)).eval (c.functionFrame l i) (.ident "x"))
      (c.content reached (c.depth - 1 - i)) p := fun depth => leadsTo_eval_ident hx (unite_of_content _).2.2
  cases i with
  | zero =>
    refine (heval (depth + 1)).imp fun v p' ⟨hv, hp'⟩ => ⟨hv.trans ?_, hp' ▸ h⟩
    have hiff : c.depth - 1 - 0 < reached ↔ c.depth + 0 ≤ reached := by omega
    exact if_congr hiff rfl rfl
  | succ i =>
    have hlt : i < c.depth := by omega
    have hnamed := hnames.named i hlt
    have hdown : c.depth - 1 - i = c.depth - (i + 1) := by omega
    have hiff : c.depth - 1 - (i + 1) < reached ↔ c.depth - 1 - i ≤ reached := by omega
    refine (leads_call hgraph h hlt (hmem i hlt) hnamed rfl (if_congr hiff rfl rfl)
      (h.wired.valueOf_outer (hmem _ hi) hlt hnamed) (heval depth)).imp fun v p' ⟨hv, hstage⟩ => ⟨hv.trans ?_, ?_⟩
    · rw [← content_handOn_of_ne (k := c.depth - (i + 1)) (by omega)]
      rfl
    · rw [hdown] at hstage
      exact hstage

/-- **A visit to a function** hands the constant on, once down and once up. -/
theorem leads_visitFunction (hgraph : c.Quiet σ.graph) (h : c.Stage file l c.written names reached p)
    (hnames : c.Complete names) (hi : i < c.depth) (depth : Nat) :
    Leads σ p (visitFunction (ofDepth (depth + 3)) (c.function i)) fun _ p' =>
      c.Stage file l c.written names (visited c.depth reached i) p' := by
  have hmem := (c.mem_written i).mpr hi
  obtain ⟨x, result, hmade⟩ := h.wired.made i hmem
  have hreceiver : LeadsTo σ p (bindReceiver (c.function i)) () p := by
    refine leads_getStore_bind ?_
    rw [hmade.info]
    exact leads_pure ⟨rfl, rfl⟩
  have hreturn : Leads σ p ((ofDepth (depth + 3)).exec (c.functionFrame l i) (.returnStmt (some (c.returned i))))
      fun _ p' => c.Stage file l c.written names (visited c.depth reached i) p' := by
    refine leads_exec ((leads_returned hgraph h hnames hi depth).bind fun v p' ⟨hv, hstage⟩ => ?_)
    obtain ⟨x', result', hmade'⟩ := hstage.wired.made i hmem
    refine leads_getStore_bind ?_
    rw [hmade'.info]
    refine (leadsTo_write _ v).imp ?_
    rintro _ _ ⟨-, rfl⟩
    rw [← handOn_handedDown]
    exact hstage.handOn (by omega) (hmade'.cell?_result hi) hv
  refine leads_getStore_bind ?_
  rw [hmade.info]
  exact (silent_say _).then (hreceiver.then (hreturn.bind fun _ _ hstage => leads_pure hstage))

/-! ## The module -/

/-- The parameters have neither defaults nor annotations that could add to what is known. -/
theorem silent_bindSignature (ev : Evaluator) (f : Frame) (g : FunctionId) :
    Silent (ev.bindSignature f g parameters) := by
  intro σ p
  refine leads_getStore_bind ?_
  dsimp only
  have hparams : ∀ slots, ev.bindParameters f parameters.params slots = pure () := by
    intro slots
    cases slots <;> rfl
  have hcollector : ∀ container symbol, ev.bindCollector f container none symbol = pure () := by
    intro container symbol
    cases symbol <;> rfl
  have hvararg : parameters.vararg = none := rfl
  have hkwarg : parameters.kwarg = none := rfl
  rw [hparams, hvararg, hkwarg, hcollector, hcollector, pure_bind, pure_bind]
  exact leads_pure rfl

/-- A definition without decorators and annotation of its result. -/
theorem functionDef_plain (ev : Evaluator) (f : Frame) (id : Nat) (name : String) (params : Parameters Node)
    (node : Node) : ev.functionDef f id name params [] none node = (do
      let g ← functionAt f id name params [] node
      ev.bindSignature f g params
      assignName f name (.functionRef g) false) := by
  unfold functionDef
  refine congrArg (functionAt f id name params [] node >>= ·) (funext fun g => ?_)
  rw [evalAll, pure_bind]
  dsimp only
  refine congrArg (ev.bindSignature f g params >>= ·) (funext fun _ => ?_)
  rw [List.reverse_nil, decorate, pure_bind]

def signature (c : CallChain) (l : Layout) (i : Nat) : Signature :=
  signatureOf (moduleFrame l) (c.name i) parameters [] (c.definition i)

/-- What is found after a function of the chain was defined. -/
theorem found_withDefinition (c : CallChain) (l : Layout) (i : Nat) (s : Session) :
    ∃ address a, c.Lists i ⟨s.store.functions.size⟩ s.assembly a ∧
      (withDefinition .statement (moduleFrame l) (c.node i) (c.signature l i) s).found =
        ⟨StoreM.withPlainFunction (c.spec l i address) ⟨"x", none, none, false⟩ s.store, a⟩ := by
  refine ⟨freeFor s ((s.store.table l.members).address.child (c.name i)),
    (withDefinition .statement (moduleFrame l) (c.node i) (c.signature l i) s).assembly, ⟨rfl, rfl, rfl, rfl⟩, ?_⟩
  refine congrArg (Found.mk · _) ?_
  have hspec : specOf (moduleFrame l) (c.signature l i) s =
      c.spec l i (freeFor s ((s.store.table l.members).address.child (c.name i))) := rfl
  have hplain : (specOf (moduleFrame l) (c.signature l i) s).params = ⟨[⟨"x", none, none, false⟩], none, none⟩ := rfl
  have hvararg : ∀ spec, ((StoreM.withPlainFunction spec ⟨"x", none, none, false⟩ s.store).function
      ⟨s.store.functions.size⟩).vararg = none := fun spec => by
    unfold StoreM.withPlainFunction Store.function
    rw [getD_push, if_pos rfl]
  show definedStore (moduleFrame l) (c.signature l i) s = _
  unfold definedStore
  rw [StoreM.newFunction_plain hplain, hspec]
  dsimp only
  rw [hvararg]

/-- The function of a definition is found again, if it was made. -/
theorem Wired.lookup (h : c.Wired file l made names p) (hmade : ∀ i ∈ made, i < c.depth) (hi : i < c.depth) :
    p.assembly.functions.lookup ⟨.file 0, c.node i⟩ = if i ∈ made then some (c.function i) else none := by
  rw [h.sites]
  clear h
  induction made with
  | nil => rfl
  | cons j rest ih =>
    rw [List.forall_mem_cons] at hmade
    rw [List.map_cons, List.lookup_cons, ih hmade.2]
    by_cases hij : i = j
    · rw [hij, beq_self_eq_true, if_pos List.mem_cons_self]
    · have hne : (⟨.file 0, c.node i⟩ : Site) ≠ ⟨.file 0, c.node j⟩ := fun hsite =>
        hij (c.node_inj i hi j hmade.1 (congrArg Site.node hsite))
      simp only [beq_false_of_ne hne, List.mem_cons, hij, false_or]

/-- **A definition** makes its function, the next one, or finds it again, and binds its name to it. -/
theorem leads_definition (h : c.Stage file l made names reached p) {before rest : List Nat}
    (hwritten : c.written = before ++ i :: rest) (hmade : made = before ∨ made = c.written) (depth : Nat) :
    Leads σ p ((ofDepth (depth + 1)).exec (moduleFrame l) (c.definition i)) fun _ p' =>
      ∃ made', (made' = before ++ [i] ∨ made' = c.written) ∧ c.Stage file l made' (c.name i :: names) reached p' := by
  have hmem : i ∈ c.written := by rw [hwritten]; exact List.mem_append_right _ List.mem_cons_self
  have hi := (c.mem_written i).mp hmem
  have hnodup : (before ++ i :: rest).Nodup := hwritten ▸ c.complete.nodup_iff.mpr List.nodup_range
  have hfunction : Leads σ p (functionAt (moduleFrame l) (c.node i) (c.name i) parameters [] (c.definition i))
      fun g p' => g = c.function i ∧
        ∃ made', (made' = before ++ [i] ∨ made' = c.written) ∧ c.Stage file l made' names reached p' := by
    rintro s hs rfl
    have hrun := definedAt_apply .statement (moduleFrame l) (c.node i) (c.signature l i) σ s
    rcases hmade with rfl | rfl
    · have hnew : i ∉ made := fun hold => (List.nodup_append.mp hnodup).2.2 i hold i List.mem_cons_self rfl
      have hnext : c.written.idxOf i = made.length := by rw [hwritten]; exact idxOf_append_cons hnodup
      have hlookup : s.assembly.functions.lookup ((moduleFrame l).site (c.node i)) = none :=
        (h.wired.lookup (fun j hj => (c.mem_written j).mp (by rw [hwritten]; exact List.mem_append_left _ hj)) hi).trans
          (if_neg hnew)
      rw [Form.places, hlookup] at hrun
      obtain ⟨address, a, hlists, hfound⟩ := found_withDefinition c l i s
      refine ⟨_, _, hrun, ⟨hs.handle, hs.observer⟩, ?_, made ++ [i], .inl rfl, ?_⟩
      · rw [function, hnext, ← h.wired.functions]
        rfl
      · show c.Stage file l _ names reached
          (withDefinition .statement (moduleFrame l) (c.node i) (c.signature l i) s).found
        rw [hfound]
        exact h.define hnext address hlists
    · have hlookup : s.assembly.functions.lookup ((moduleFrame l).site (c.node i)) = some (c.function i) :=
        (h.wired.lookup (fun j => (c.mem_written j).mp) hi).trans (if_pos hmem)
      rw [Form.places, hlookup] at hrun
      exact ⟨_, s, hrun, hs, rfl, c.written, .inr rfl, h⟩
  have hexec : (ofDepth depth).execNode (moduleFrame l) (c.definition i) =
      (ofDepth depth).functionDef (moduleFrame l) (c.node i) (c.name i) parameters [] none (c.definition i) := rfl
  refine leads_exec ?_
  rw [hexec, functionDef_plain]
  refine hfunction.bind fun g p' hout => (silent_bindSignature _ _ _).then ?_
  obtain ⟨hg, made', hmade', h'⟩ := hout
  refine (leadsTo_assignName rfl).imp ?_
  rintro _ _ ⟨-, rfl⟩
  rw [hg]
  exact ⟨made', hmade', h'.bind hi⟩

theorem block_append (ev : Evaluator) (f : Frame) (nodes rest : List Node) :
    ev.block f (nodes ++ rest) = ev.block f nodes >>= fun _ => ev.block f rest := by
  induction nodes with
  | nil =>
    rw [block, pure_bind]
    rfl
  | cons node nodes ih => rw [List.cons_append, block, block, ih, bind_assoc]

theorem leads_definitions (h : c.Stage file l made names reached p) {before functions : List Nat}
    (hwritten : c.written = before ++ functions) (hmade : made = before ∨ made = c.written) (depth : Nat) :
    Leads σ p ((ofDepth (depth + 1)).block (moduleFrame l) (functions.map c.definition)) fun _ p' =>
      ∃ names', (∀ i ∈ functions, c.name i ∈ names') ∧ names ⊆ names' ∧ c.Stage file l c.written names' reached p' := by
  induction functions generalizing made before names p with
  | nil =>
    rw [List.append_nil] at hwritten
    obtain rfl : made = c.written := hmade.elim (fun hbefore => hbefore.trans hwritten.symm) id
    exact leads_pure ⟨names, fun _ hi => absurd hi List.not_mem_nil, fun _ => id, h⟩
  | cons i rest ih =>
    refine (leads_definition h hwritten hmade depth).bind fun _ p' ⟨made', hmade', h'⟩ => ?_
    refine (ih h' (hwritten.trans (List.append_cons ..)) hmade').imp fun _ p'' ⟨names', hall, hkept, h''⟩ => ?_
    rw [List.cons_subset] at hkept
    exact ⟨names', List.forall_mem_cons.mpr ⟨hkept.1, hall⟩, hkept.2, h''⟩

/-- Binding one name to something whose elements are not written out. -/
theorem assignment_plain (ev : Evaluator) (f : Frame) (name : String) {value : Node}
    (hplain : value.plainElements? = none) : ev.assignment f [.ident name] value = (do
      let v ← ev.eval f value
      ev.assign f (.ident name) v
      recordAssignment f [.ident name] value) := by
  rw [assignment_ident, evalAssigned, hplain]
  simp only [bind_assoc, pure_bind]

/-- **The call in the module** hands the constant to the outermost function, and its result to the variable. -/
theorem leads_outAssigned (hgraph : c.Quiet σ.graph) (h : c.Stage file l c.written names reached p)
    (hnamed : c.name (c.depth - 1) ∈ names) (depth : Nat) :
    Leads σ p ((ofDepth (depth + 3)).exec (moduleFrame l) (.assign [.ident "out"] c.call)) fun _ p' =>
      c.Stage file l c.written ("out" :: names) (visited c.depth reached c.depth) p' := by
  have hpositive := c.positive
  have hlast : c.depth - 1 < c.depth := by omega
  have hfirst : c.depth - 1 - (c.depth - 1) = 0 := by omega
  have hcall : Leads σ p ((ofDepth (depth + 2)).eval (moduleFrame l) c.call) fun v p' =>
      v = c.content reached (c.depth + (c.depth - 1)) ∧
        c.Stage file l c.written names (CallChain.handOn 0 reached) p' := by
    refine (leads_call hgraph h hlast ((c.mem_written _).mpr hlast) hnamed rfl (if_pos (by omega)).symm
      (h.wired.valueOf_global hnamed) (leadsTo_eval_text c.constant)).imp fun v p' ⟨hv, h'⟩ => ⟨hv, ?_⟩
    rw [hfirst] at h'
    exact h'
  have hassign : ∀ p' v, v = c.content reached (c.depth + (c.depth - 1)) →
      c.Stage file l c.written names (CallChain.handOn 0 reached) p' →
      Leads σ p' (assignName (moduleFrame l) "out" v false) fun _ p'' =>
        c.Stage file l c.written ("out" :: names) (visited c.depth reached c.depth) p'' := by
    intro p' v hv h'
    obtain ⟨h'', hcell⟩ := h'.declare
    have hiff : c.depth + (c.depth - 1) < reached ↔ 2 * c.depth ≤ CallChain.handOn 0 reached := by
      unfold CallChain.handOn
      split <;> omega
    have hvisited : visited c.depth reached c.depth = CallChain.handOn (2 * c.depth) (CallChain.handOn 0 reached) := by
      unfold visited
      rw [Nat.sub_self, Nat.two_mul]
    refine (leadsTo_assignName rfl).imp ?_
    rintro _ _ ⟨-, rfl⟩
    rw [hvisited]
    exact h''.handOn (Nat.le_refl _) hcell (hv.trans (if_congr hiff rfl rfl))
  have hexec : (ofDepth (depth + 2)).execNode (moduleFrame l) (.assign [.ident "out"] c.call) =
      (ofDepth (depth + 2)).assignment (moduleFrame l) [.ident "out"] c.call := rfl
  refine leads_exec ?_
  rw [hexec, assignment_plain _ _ _ rfl]
  refine hcall.bind fun v p' ⟨hv, h'⟩ => (hassign p' v hv h').bind fun _ p'' hpost => ?_
  exact ((idle_recordAssignment _ _ _).silent σ p'').imp fun _ _ hp => hp ▸ hpost

/-- **A visit to the module** makes what is not yet there, and hands the constant on. -/
theorem leads_visitModule (hgraph : c.Quiet σ.graph) (htree : file.tree = c.tree)
    (h : c.Stage file l made names reached p) (hmade : made = [] ∨ made = c.written) (depth : Nat) :
    Leads σ p (visitModule (ofDepth (depth + 3)) 0) fun _ p' =>
      ∃ names', c.Complete names' ∧ c.Stage file l c.written names' (visited c.depth reached c.depth) p' := by
  have hpositive := c.positive
  have hblock : Leads σ p ((ofDepth (depth + 3)).block (moduleFrame l) c.tree.body) fun _ p' =>
      ∃ names', c.Complete names' ∧ c.Stage file l c.written names' (visited c.depth reached c.depth) p' := by
    have hbody : c.tree.body = c.written.map c.definition ++ [.assign [.ident "out"] c.call] := rfl
    rw [hbody, block_append]
    have hall : c.written = [] ++ c.written := rfl
    refine (leads_definitions h hall hmade (depth + 2)).bind fun _ p' ⟨names', hall, _, h'⟩ => ?_
    have hnamed : ∀ i < c.depth, c.name i ∈ names' := fun i hi => hall i ((c.mem_written i).mpr hi)
    refine (leads_outAssigned hgraph h' (hnamed _ (by omega)) depth).bind fun _ p'' h'' => leads_pure
      ⟨"out" :: names', ⟨fun i hi => List.mem_cons_of_mem _ (hnamed i hi), List.mem_cons_self⟩, h''⟩
  refine leads_get_bind fun s hs => ?_
  have hassembly : s.assembly = p.assembly := congrArg Found.assembly hs
  have hstore : s.store = p.store := congrArg Found.store hs
  have hfile : p.assembly.files[0]? = some file := by
    rw [h.wired.files]
    rfl
  rw [hassembly, hfile]
  dsimp only
  rw [h.wired.tree]
  dsimp only
  rw [hstore, h.wired.home, htree]
  exact (silent_say _).then hblock

end CallChain

end Surmise
