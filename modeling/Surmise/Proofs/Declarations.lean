import Surmise.Proofs.Store.Scopes
import Surmise.Proofs.Value.Decidable

/-!
# Declared names

A function body is searched for `global` and `nonlocal` declarations before it is run. The search goes into compound
statements as the run does, but not into syntax that is approximated, which is run as well.

* `Node.Reaches`: a statement is part of another one.
* `Node.mem_declared_iff`: the declarations that are found are those that lie in no approximated syntax.
* `Evaluator.stopping`: an evaluator that stops at marked statements.
* `Evaluator.stopsIf_exec`: it stops in a statement exactly if one of the parts is marked.
* `Run.declarations_found`: the main statement.
* `Assembler.declaration_overlooked`: a declaration that is not found.
-/

namespace Surmise

namespace Node

/-- The statements that a statement is made of, which run in its own scope. -/
def inner : Node → List Node
  | .ifStmt branches otherwise => branches.flatMap Branch.body ++ otherwise
  | .forStmt _ _ body otherwise | .whileStmt _ body otherwise => body ++ otherwise
  | .tryStmt body handlers otherwise final => body ++ handlers.flatMap Handler.body ++ otherwise ++ final
  | .withStmt _ body | .bad body | .module body => body
  | _ => []

/-- The statement stands for syntax that has no form of its own. -/
def isApproximated : Node → Bool
  | .bad _ | .module _ => true
  | _ => false

/-- What a statement declares itself. -/
def declares : Node → List Declaration
  | .globalStmt names => names.map .globally
  | .nonlocalStmt names => names.map .nonlocally
  | _ => []

/-- The second statement is part of the first one. All statements that it lies in satisfy `within`. -/
def Reaches (within : Node → Prop) : Node → Node → Prop :=
  Relation.ReflTransGen fun node part => within node ∧ part ∈ node.inner

theorem declaredAll_eq (nodes : List Node) : declaredAll nodes = nodes.flatMap declared := by
  induction nodes with
  | nil => rfl
  | cons node rest ih => rw [declaredAll, ih, List.flatMap_cons]

theorem declaredInBranches_eq (branches : List (Branch Node)) :
    declaredInBranches branches = declaredAll (branches.flatMap Branch.body) := by
  induction branches with
  | nil => rfl
  | cons branch rest ih => simp [declaredInBranches, ih, declaredAll_eq]

theorem declaredInHandlers_eq (handlers : List (Handler Node)) :
    declaredInHandlers handlers = declaredAll (handlers.flatMap Handler.body) := by
  induction handlers with
  | nil => rfl
  | cons handler rest ih => simp [declaredInHandlers, ih, declaredAll_eq]

theorem declared_eq (node : Node) :
    node.declared = node.declares ++ if node.isApproximated then [] else declaredAll node.inner := by
  cases node <;>
    simp [declared, declares, inner, isApproximated, declaredInBranches_eq, declaredInHandlers_eq, declaredAll_eq]

theorem mem_children_of_mem_inner {node part : Node} (h : part ∈ node.inner) : part ∈ node.children := by
  cases node <;> simp [inner] at h <;> simp [children, Branch.children, Handler.children] <;> grind

variable {d : Declaration}

/-- **The declarations that are found** lie in no approximated syntax. -/
theorem mem_declared_iff {node : Node} :
    d ∈ node.declared ↔ ∃ part, node.Reaches (fun n => n.isApproximated = false) part ∧ d ∈ part.declares := by
  induction node using children_induction with
  | h node ih =>
    rw [declared_eq, List.mem_append]
    constructor
    · rintro (hown | hinner)
      · exact ⟨node, .refl, hown⟩
      · split at hinner
        · cases hinner
        · next hplain =>
          rw [declaredAll_eq] at hinner
          obtain ⟨part, hpart, hd⟩ := List.mem_flatMap.mp hinner
          obtain ⟨last, hreaches, hlast⟩ := (ih part (mem_children_of_mem_inner hpart)).mp hd
          exact ⟨last, .head ⟨Bool.eq_false_iff.mpr hplain, hpart⟩ hreaches, hlast⟩
    · rintro ⟨last, hreaches, hlast⟩
      rcases hreaches.cases_head with rfl | ⟨part, ⟨hplain, hpart⟩, hrest⟩
      · exact .inl hlast
      · rw [hplain, declaredAll_eq]
        have hd := (ih part (mem_children_of_mem_inner hpart)).mpr ⟨last, hrest, hlast⟩
        exact .inr (List.mem_flatMap.mpr ⟨part, hpart, hd⟩)

theorem mem_declaredAll_iff {body : List Node} : d ∈ declaredAll body ↔
      ∃ node ∈ body, ∃ part, node.Reaches (fun n => n.isApproximated = false) part ∧ d ∈ part.declares := by
  simp only [declaredAll_eq, List.mem_flatMap, mem_declared_iff]

end Node

namespace Run

variable {α β : Type} {σ : Setting}

/--
Where the first computation gives a result, the second one stops with the error if `hit` holds, and does the
same otherwise.
-/
def StopsIf (σ : Setting) (e : AnalysisError) (hit : Prop) (act act' : Run α) : Prop :=
  ∀ s a t, act σ s = (.ok a, t) →
    (hit → ∃ t', act' σ s = (.error e, t')) ∧ (¬hit → act' σ s = (.ok a, t))

section StopsIf

variable {e : AnalysisError} {hit hit' : Prop} {act act' : Run α} {next next' : α → Run β}

theorem stopsIf_same (act : Run α) : StopsIf σ e False act act := fun _ _ _ hact => ⟨False.elim, fun _ => hact⟩

theorem StopsIf.congr (h : StopsIf σ e hit act act') (hiff : hit' ↔ hit) : StopsIf σ e hit' act act' := by
  rwa [propext hiff]

theorem StopsIf.bind (h : StopsIf σ e hit act act') (hnext : ∀ a, StopsIf σ e hit' (next a) (next' a)) :
    StopsIf σ e (hit ∨ hit') (act >>= next) (act' >>= next') := by
  intro s b t hrun
  obtain ⟨a, u, hact, hrest⟩ := bind_eq_ok hrun
  obtain ⟨hstops, hsame⟩ := h s a u hact
  by_cases hfirst : hit
  · obtain ⟨t', hstop⟩ := hstops hfirst
    exact ⟨fun _ => ⟨t', by rw [bind_apply, hstop]⟩, fun hnone => absurd (.inl hfirst) hnone⟩
  · rw [bind_apply, hsame hfirst, or_iff_right hfirst]
    exact hnext a u b t hrest

/-- What comes first is the same. -/
theorem StopsIf.after (hnext : ∀ a, StopsIf σ e hit (next a) (next' a)) :
    StopsIf σ e hit (act >>= next) (act >>= next') :=
  ((stopsIf_same act).bind hnext).congr (or_iff_right id).symm

end StopsIf

end Run

namespace Evaluator

open Run

/-! ## What is run

Only blocks run statements. So with another way to run statements, all that a statement does besides its blocks
is the same, and a block is followed statement by statement. -/

def withExec (ev : Evaluator) (exec : Frame → Node → Run Unit) : Evaluator := { ev with exec }

section WithExec

variable (ev : Evaluator) (exec : Frame → Node → Run Unit) (f : Frame)

theorem eval_withExec : (ev.withExec exec).eval = ev.eval := rfl

theorem assign_withExec : (ev.withExec exec).assign = ev.assign := rfl

theorem evalAll_withExec (nodes : List Node) : (ev.withExec exec).evalAll f nodes = ev.evalAll f nodes := by
  induction nodes with
  | nil => rfl
  | cons node rest ih => simp only [evalAll, ih, eval_withExec]

theorem visit_withExec (nodes : List Node) : (ev.withExec exec).visit f nodes = ev.visit f nodes := by
  induction nodes with
  | nil => rfl
  | cons node rest ih => simp only [visit, ih, eval_withExec]

theorem bindParameters_withExec (params : List (Parameter Node)) (slots : List Param) :
    (ev.withExec exec).bindParameters f params slots = ev.bindParameters f params slots := by
  induction params generalizing slots with
  | nil => rfl
  | cons param params ih =>
    cases slots with
    | nil => rfl
    | cons slot slots => exact congrArg (ev.bindParameter f param slot.symbol >>= fun _ => ·) (ih slots)

theorem evalBases_withExec (c : ClassId) (bases : List Node) :
    (ev.withExec exec).evalBases f c bases = ev.evalBases f c bases := by
  induction bases with
  | nil => rfl
  | cons base rest ih => simp only [evalBases, ih, eval_withExec]

theorem assignAll_withExec (targets : List Node) (values : List Value) :
    (ev.withExec exec).assignAll f targets values = ev.assignAll f targets values := by
  induction targets generalizing values with
  | nil => rfl
  | cons target targets ih =>
    cases values with
    | nil => rfl
    | cons v values => simp only [assignAll, ih, assign_withExec]

theorem assignment_withExec (targets : List Node) (value : Node) :
    (ev.withExec exec).assignment f targets value = ev.assignment f targets value := by
  simp only [assignment, evalAssigned, evalAll_withExec, assignAssigned, assignAll_withExec, eval_withExec,
    assign_withExec]

theorem withItems_withExec (items : List (WithItem Node)) :
    (ev.withExec exec).withItems f items = ev.withItems f items := by
  induction items with
  | nil => rfl
  | cons item rest ih => simp only [withItems, ih, eval_withExec, assign_withExec]

end WithExec

section Running

variable {ev : Evaluator} {exec : Frame → Node → Run Unit} {f : Frame} {σ : Setting} {e : AnalysisError}
  {H : Node → Prop} (h : ∀ g node, StopsIf σ e (g.owner = none ∧ H node) (ev.exec g node) (exec g node))

include h

theorem stopsIf_block (nodes : List Node) : StopsIf σ e (f.owner = none ∧ ∃ node ∈ nodes, H node) (ev.block f nodes)
    ((ev.withExec exec).block f nodes) := by
  induction nodes with
  | nil => exact (stopsIf_same _).congr (by simp)
  | cons node rest ih => exact ((h f node).bind fun _ => ih).congr (by simp [and_or_left])

theorem stopsIf_branches (branches : List (Branch Node)) :
    StopsIf σ e (f.owner = none ∧ ∃ node ∈ branches.flatMap Branch.body, H node) (ev.branches f branches)
      ((ev.withExec exec).branches f branches) := by
  induction branches with
  | nil => exact (stopsIf_same _).congr (by simp)
  | cons branch rest ih =>
    refine .after fun _ => ((stopsIf_block h branch.body).bind fun _ => ih).congr ?_
    simp [or_and_right, exists_or, and_or_left]

theorem stopsIf_handlers (handlers : List (Handler Node)) :
    StopsIf σ e (f.owner = none ∧ ∃ node ∈ handlers.flatMap Handler.body, H node) (ev.handlers f handlers)
      ((ev.withExec exec).handlers f handlers) := by
  induction handlers with
  | nil => exact (stopsIf_same _).congr (by simp)
  | cons handler rest ih =>
    have hbody := (stopsIf_block (f := f) h handler.body).bind fun _ => ih
    rw [← and_or_left, ← exists_or] at hbody
    simp only [← or_and_right, ← List.mem_append, ← List.flatMap_cons] at hbody
    refine .after fun type => ?_
    split
    · exact .after fun _ => .after fun _ => hbody
    · exact hbody

/-- The body of a class is run in a frame of its own. -/
theorem stopsIf_classDef (id : Nat) (name : String) (bases : List Node) (keywords : List (Keyword Node))
    (body decorators : List Node) : StopsIf σ e False (ev.classDef f id name bases keywords body decorators)
      ((ev.withExec exec).classDef f id name bases keywords body decorators) := by
  unfold classDef classBody
  simp only [evalBases_withExec, visit_withExec]
  refine .after fun c => .after fun _ => .after fun _ => .after fun _ => .after fun _ => ?_
  refine ((?_ : StopsIf σ e False _ _).bind fun _ => stopsIf_same _).congr (by simp)
  refine .after fun s => .after fun table => ?_
  exact ((stopsIf_block h body).bind fun _ => stopsIf_same _).congr (by simp [Frame.inner])

/-- **A statement runs its parts, and no other statement of its scope.** -/
theorem stopsIf_execNode (node : Node) : StopsIf σ e (f.owner = none ∧ ∃ part ∈ node.inner, H part) (ev.execNode f node)
    ((ev.withExec exec).execNode f node) := by
  cases node
  case ifStmt bs otherwise =>
    refine ((stopsIf_branches h bs).bind fun _ => stopsIf_block h otherwise).congr ?_
    simp only [Node.inner, List.mem_append, or_and_right, exists_or, and_or_left]
  case forStmt target iter body otherwise =>
    refine .after fun _ => .after fun _ => .after fun _ => ?_
    refine ((stopsIf_block h body).bind fun _ => stopsIf_block h otherwise).congr ?_
    simp only [Node.inner, List.mem_append, or_and_right, exists_or, and_or_left]
  case whileStmt test body otherwise =>
    refine .after fun _ => ((stopsIf_block h body).bind fun _ => stopsIf_block h otherwise).congr ?_
    simp only [Node.inner, List.mem_append, or_and_right, exists_or, and_or_left]
  case tryStmt body hs otherwise final =>
    refine ((stopsIf_block h body).bind fun _ => (stopsIf_handlers h hs).bind fun _ =>
      (stopsIf_block h otherwise).bind fun _ => stopsIf_block h final).congr ?_
    simp only [Node.inner, List.mem_append, or_and_right, exists_or, and_or_left, or_assoc]
  case withStmt items body =>
    simp only [execNode, withItems_withExec]
    exact .after fun _ => stopsIf_block h body
  case bad body | module body => exact stopsIf_block h body
  case classDef => exact StopsIf.congr (stopsIf_classDef h _ _ _ _ _ _) (by simp [Node.inner])
  -- the others have no parts
  all_goals refine (?_ : StopsIf σ e False _ _).congr (by simp [Node.inner])
  case functionDef | assign | assertStmt | raiseStmt | deleteStmt =>
    simp only [execNode, functionDef, bindSignature, evalAll_withExec, bindParameters_withExec, assignment_withExec,
      visit_withExec]
    exact stopsIf_same _
  case returnStmt value => cases value <;> exact stopsIf_same _
  all_goals exact stopsIf_same _

end Running

/-- The evaluator that stops where it comes to a marked statement that is not in the body of a class. -/
def stopping (marks : Node → Bool) (e : AnalysisError) : (depth : Nat) → Evaluator
  | 0 => exhausted
  | depth + 1 => (ofDepth (depth + 1)).withExec fun f node =>
    if f.owner.isNone && marks node then throw e else (around (stopping marks e depth)).exec f node

theorem stopping_eq (marks : Node → Bool) (e : AnalysisError) (depth : Nat) :
    stopping marks e depth = (ofDepth depth).withExec (stopping marks e depth).exec := by
  cases depth <;> rfl

/-- **The evaluator stops** in a statement exactly if one of the parts is marked. -/
theorem stopsIf_exec (marks : Node → Bool) (e : AnalysisError) (σ : Setting) (depth : Nat) (f : Frame) (node : Node) :
    StopsIf σ e (f.owner = none ∧ ∃ part, node.Reaches (fun _ => True) part ∧ marks part = true)
      ((ofDepth depth).exec f node) ((stopping marks e depth).exec f node) := by
  induction depth generalizing f node with
  | zero => exact fun s a t hrun => by cases hrun
  | succ depth ih =>
    have hparts : (∃ part, node.Reaches (fun _ => True) part ∧ marks part = true) ↔ marks node = true ∨
        ∃ q ∈ node.inner, ∃ part, q.Reaches (fun _ => True) part ∧ marks part = true := by
      constructor
      · rintro ⟨part, hreaches, hmarked⟩
        rcases hreaches.cases_head with rfl | ⟨q, ⟨-, hq⟩, hrest⟩
        · exact .inl hmarked
        · exact .inr ⟨q, hq, part, hrest, hmarked⟩
      · rintro (hmarked | ⟨q, hq, part, hrest, hmarked⟩)
        · exact ⟨node, .refl, hmarked⟩
        · exact ⟨part, .head ⟨trivial, hq⟩ hrest, hmarked⟩
    have hinner := stopsIf_execNode (f := f) ih node
    rw [← stopping_eq] at hinner
    rw [hparts]
    by_cases hmarked : f.owner = none ∧ marks node = true
    · intro s a t _
      have hstop : (stopping marks e (depth + 1)).exec f node = throw e := if_pos (by simp [hmarked])
      exact ⟨fun _ => ⟨s, by rw [hstop]; rfl⟩, fun hnone => absurd ⟨hmarked.1, .inl hmarked.2⟩ hnone⟩
    · have hgoes : (stopping marks e (depth + 1)).exec f node = (around (stopping marks e depth)).exec f node :=
        if_neg (by simpa using hmarked)
      rw [hgoes]
      exact .after fun _ => hinner.congr (by tauto)

end Evaluator

/-- The frame in which a visit runs the body of a function. -/
def Frame.visiting (s : Store) (g : FunctionId) (body : List Node) : Frame :=
  { Frame.body (s.function g).home (s.function g).locals (some g) (s.function g).origin with
    globals := (Node.declaredAll body).filterMap Declaration.global?
    nonlocals := (Node.declaredAll body).filterMap Declaration.nonlocal? }

/-- The body binds the name in its module. -/
def Frame.BindsInModule (f : Frame) (s : Store) (x : String) : Prop :=
  x ∈ f.globals ∨ x ∉ f.nonlocals ∧ f.scope = (s.module f.home).members

namespace Run

/-- The symbol that a binding is written to. One that is made for the body's own scope may be private. -/
def target (f : Frame) (x : String) (isPrivate : Bool) : Run SymbolId :=
  if f.isDeclared x then binding f x else inStore (StoreM.createPrivate f.scope x isPrivate)

section Module

variable {f : Frame} {x : String} {σ : Setting} {s : Session} (h : f.BindsInModule s.store x) (isPrivate : Bool)

include h

/-- One that is made for a declared name is public. -/
theorem target_of_module : target f x isPrivate σ s =
    inStore (StoreM.createPrivate (s.store.module f.home).members x (isPrivate && !f.isDeclared x)) σ s := by
  unfold target
  by_cases hglobal : x ∈ f.globals
  · have hdeclared : f.isDeclared x = true := by simp [Frame.isDeclared, hglobal]
    rw [hdeclared, if_pos rfl, Bool.not_true, Bool.and_false, binding, if_pos (List.contains_iff_mem.mpr hglobal)]
    rfl
  · obtain ⟨hlocal, hscope⟩ := h.resolve_left hglobal
    have hdeclared : f.isDeclared x = false := by simp [Frame.isDeclared, hglobal, hlocal]
    rw [hdeclared, if_neg Bool.false_ne_true, hscope, Bool.not_false, Bool.and_true]

theorem assignName_of_module (v : Value) : ∃ s', assignName f x v isPrivate σ s = (.ok (), s') ∧
    s'.store = StoreM.entered (s.store.module f.home).members x (isPrivate && !f.isDeclared x) v isPrivate s.store := by
  have htarget : assignName f x v isPrivate = target f x isPrivate >>= fun symbol =>
      inStore (StoreM.producePrivate symbol v isPrivate) >>= fun _ =>
        say fun s => (s.symbol symbol).address.pieces ++ " <- " :: s.pieces v := by
    unfold assignName target
    split <;> rfl
  rw [htarget, bind_apply, target_of_module h, inStore_apply]
  dsimp only
  rw [bind_apply, inStore_apply]
  exact ⟨_, say_apply _ σ _, rfl⟩

end Module

/--
**Declarations are found outside approximated syntax.** Of a function body:

* The declarations that are found are those that lie in no approximated syntax. So where there is none, all
  declarations of the body count.
* The statements that the body is made of are those that are run with it, outside nested definitions: where the body
  can be run, the run that stops at marked statements is stopped if and only if one of these is marked.
* A visit runs the body in a frame in which the names that were found are declared. In this frame, binding a name
  that was found to be global joins the value into the name of the module, and no other name of any scope holds
  something else.
-/
theorem declarations_found (body : List Node) :
    (∀ d, d ∈ Node.declaredAll body ↔
      ∃ node ∈ body, ∃ part, node.Reaches (fun n => n.isApproximated = false) part ∧ d ∈ part.declares) ∧
    ((∀ node ∈ body, ∀ part, node.Reaches (fun _ => True) part → part.isApproximated = false) → ∀ d,
      d ∈ Node.declaredAll body ↔ ∃ node ∈ body, ∃ part, node.Reaches (fun _ => True) part ∧ d ∈ part.declares) ∧
    (∀ marks e σ f depth s t, f.owner = none → (Evaluator.ofDepth depth).block f body σ s = (.ok (), t) →
      ((∃ node ∈ body, ∃ part, node.Reaches (fun _ => True) part ∧ marks part = true) ↔
        ∃ t', (Evaluator.stopping marks e depth).block f body σ s = (.error e, t'))) ∧
    ∀ (σ : Setting) (s : Session) (g : FunctionId) id name params decorators returns isAsync line,
      (s.store.function g).node = .functionDef id name params body decorators returns isAsync line →
      (∀ ev, visitFunction ev g σ s = (do
        say fun s => "### PROPAGATING FUNCTION " :: (s.functionAddress g).pieces
        bindReceiver g
        ev.block (.visiting s.store g body) body) σ s) ∧
      ∀ x, .globally x ∈ Node.declaredAll body → ∀ (t : Session) v isPrivate, t.store.Tidy →
        let members := (t.store.module (s.store.function g).home).members
        members.index < t.store.tables.size →
        ∃ t', assignName (.visiting s.store g body) x v isPrivate σ t = (.ok (), t') ∧
          t'.store.valueIn? members x = some (t.store.joined ((t.store.valueIn? members x).getD .empty) v) ∧
          ∀ scope y, ¬ (scope = members ∧ y = x) → t'.store.valueIn? scope y = t.store.valueIn? scope y := by
  refine ⟨fun _ => Node.mem_declaredAll_iff, fun hplain d => ?_, fun marks e σ f depth s t howner hrun => ?_, ?_⟩
  · rw [Node.mem_declaredAll_iff]
    refine exists_congr fun node => and_congr_right fun hnode => exists_congr fun part => ?_
    refine and_congr_left' ⟨Relation.ReflTransGen.mono (fun _ _ h => ⟨trivial, h.2⟩) _ _, fun h => ?_⟩
    induction h with
    | refl => exact .refl
    | tail hbefore hstep ih => exact ih.tail ⟨hplain node hnode _ hbefore, hstep.2⟩
  · obtain ⟨hstops, hsame⟩ := Evaluator.stopsIf_block (f := f) (Evaluator.stopsIf_exec marks e σ depth) body s () t hrun
    rw [← Evaluator.stopping_eq] at hstops hsame
    refine ⟨fun hmarked => hstops ⟨howner, hmarked⟩, ?_⟩
    rintro ⟨t', hstop⟩
    by_contra hnone
    cases (hsame fun hmarked => hnone hmarked.2).symm.trans hstop
  · intro σ s g id name params decorators returns isAsync line hnode
    refine ⟨fun ev => ?_, ?_⟩
    · unfold visitFunction
      rw [getStore_bind_apply, hnode]
      rfl
    · intro x hx t v isPrivate ht members hmembers
      have hglobal : x ∈ (Frame.visiting s.store g body).globals := List.mem_filterMap.mpr ⟨_, hx, rfl⟩
      obtain ⟨t', hrun, hstore⟩ := assignName_of_module (σ := σ) (s := t) (.inl hglobal) isPrivate v
      refine ⟨t', hrun, ?_⟩
      rw [hstore]
      exact ⟨StoreM.valueIn?_entered ht hmembers _ v isPrivate, fun scope y hne =>
        StoreM.valueIn?_entered_of_ne ht hne _ v isPrivate⟩

end Run

namespace Assembler

/-- The body of a function that declares `g` in a case of a `match` statement and binds it there. -/
def matching : List Node :=
  [.bad [.ident "x", .bad [.globalStmt ["g"], .assign [.ident "g"] (.literal .float)]]]

theorem reaches_matching : ∃ node ∈ matching, node.Reaches (fun _ => True) (.globalStmt ["g"]) := by
  have hcase : Node.Reaches (fun _ => True) (.bad [.globalStmt ["g"], .assign [.ident "g"] (.literal .float)])
      (.globalStmt ["g"]) := .single ⟨trivial, List.mem_cons_self⟩
  exact ⟨_, List.mem_cons_self, .head ⟨trivial, List.mem_cons_of_mem _ List.mem_cons_self⟩ hcase⟩

def matched : Assembler :=
  ((ofModule 3 [.functionDef 0 "f" .empty matching [] none false 1]).perform (Run.build 20 .new)).2

/-- The frame in which a visit runs that body. -/
def matchingFrame : Frame := .visiting matched.session.store ⟨0⟩ matching

set_option maxRecDepth 100000 in
/-- A run that stops at the declaration is stopped. -/
theorem declarations_found_matching : matchingFrame.owner = none ∧
    ((Evaluator.ofDepth 4).block matchingFrame matching matched.setting matched.session).1.isOk = true ∧
    ∃ t, (Evaluator.stopping (fun node => node.declares.contains (.globally "g")) .cancelled 4).block matchingFrame
      matching matched.setting matched.session = (.error .cancelled, t) := by
  have hok : ((Evaluator.ofDepth 4).block matchingFrame matching matched.setting matched.session).1.isOk = true := by
    decide +kernel
  refine ⟨rfl, hok, ?_⟩
  rcases hrun : (Evaluator.ofDepth 4).block matchingFrame matching matched.setting matched.session with ⟨_ | _, t⟩
  · rw [hrun] at hok
    cases hok
  · refine ((Run.declarations_found matching).2.2.1 _ .cancelled _ _ 4 _ t rfl hrun).mp ?_
    obtain ⟨node, hnode, hreaches⟩ := reaches_matching
    exact ⟨node, hnode, _, hreaches, rfl⟩

set_option maxRecDepth 100000 in
/-- The declaration is run with the body and is not found, so the name is bound in the function. -/
theorem declaration_overlooked :
    (∃ node ∈ matching, node.Reaches (fun _ => True) (.globalStmt ["g"])) ∧ Node.declaredAll matching = [] ∧
      matched.session.store.valueIn? (matched.session.store.module ⟨0⟩).members "g" = none ∧
      matched.session.store.valueIn? (matched.session.store.function ⟨0⟩).locals "g" = some .float := by
  exact ⟨reaches_matching, rfl, by decide +kernel⟩

end Assembler

end Surmise
