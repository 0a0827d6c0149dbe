import Surmise.Proofs.Propagation.Run
import Surmise.Proofs.Store.ClassLinks
import Surmise.Proofs.Tree.Nodes

/-!
# What evaluation is made of

`Run.Regular` lists the computations that evaluating a program is put together from. It says of a whole
computation what it can look at and what it can change, whatever state it is run in, so a fact about all
runs is proved by one induction:

* only the recording looks at what is recorded, and only the trace and the observer at themselves;
* functions are made by definitions alone, and each definition is put on the list of what is visited;
* a class gets bases by its definition alone, and is listed below them before;
* steps run out only inside a text that the program has evaluated, if nodes are not nested too deep.

`Reading` says what is asked of the nodes that are evaluated, in every text they may stand in.
-/

namespace Surmise

/-- The setting with capabilities switched on or off. -/
def Setting.withCapabilities (σ : Setting) (useCapabilities : Bool) : Setting :=
  { σ with options := { σ.options with useCapabilities } }

/-- The state with another record of what the code does with its symbols. -/
def Session.noting (s : Session) (recorder : Option Recorder) : Session := { s with recorder }

def Session.watching (s : Session) (trace : Trace) (observer : Option (List Notice)) : Session :=
  { s with trace, observer }

/-- What is known of the nodes and the policies that evaluation meets. -/
structure Reading where
  /-- The node stands in the text. More is known as long as the program has not evaluated texts itself. -/
  Known : (texts : Bool) → Origin → Node → Prop
  /-- A bound for twice the height of the nodes, as long as the program has not evaluated texts. -/
  bound : Nat
  /-- Steps may run out anywhere. -/
  exhausts : Prop
  Trusted : Setting → Prop
  child : ∀ {texts origin node child}, Known texts origin node → child ∈ node.children →
    Known texts origin child
  bounded : ∀ {origin node}, Known false origin node → 2 * node.height ≤ bound
  text : ∀ {σ : Setting} {text node}, node ∈ (σ.reader text).body → Known true (.evaluated text) node

namespace Reading

variable (K : Reading)

def Knows (texts : Bool) (st : Store) : Prop :=
  ∀ info ∈ st.functions, K.Known texts info.origin info.node

def Has (texts : Bool) (a : Assembly) : Prop :=
  ∀ i file, a.files[i]? = some file → ∀ node ∈ file.tree.body, K.Known texts (.file i) node

/-- Steps may run out, at least once the program has evaluated texts. -/
def MayExhaust (texts : Bool) : Prop := texts = true ∨ K.exhausts

/-- Only settings in which nothing interferes are trusted. -/
def Benign : Prop := ∀ σ, K.Trusted σ → σ.Benign

/-- The class is listed below what the computation gives. -/
def Registers (c : ClassId) (act : Run (List Value)) : Prop :=
  K.Benign → ∀ (σ : Setting) (s s' : Session) (bases : List Value), K.Trusted σ →
    act σ s = (.ok bases, s') → s'.store.Registered c bases

/-- The node is known, and nested at most `depth / 2` deep unless steps may run out. -/
def Fits (texts : Bool) (depth : Nat) (origin : Origin) (node : Node) : Prop :=
  K.Known texts origin node ∧ (K.MayExhaust texts ∨ 2 * node.height ≤ depth)

variable {K} {texts : Bool} {depth : Nat} {origin : Origin} {node : Node}

theorem Fits.mono {depth' : Nat} (h : K.Fits texts depth origin node) (hle : depth ≤ depth') :
    K.Fits texts depth' origin node :=
  ⟨h.1, h.2.imp_right fun h => Nat.le_trans h hle⟩

theorem Fits.child {child : Node} (h : K.Fits texts depth origin node) (hchild : child ∈ node.children) :
    K.Fits texts (depth - 2) origin child := by
  refine ⟨K.child h.1 hchild, h.2.imp_right fun h => ?_⟩
  have hlt := Node.height_lt_of_mem_children hchild
  omega

theorem Fits.below {child : Node} (h : K.Fits texts depth origin node) (hchild : child ∈ node.children) :
    K.Fits texts depth origin child :=
  (h.child hchild).mono (Nat.sub_le depth 2)

/-- Nothing is asked of nodes and policies; steps may run out anywhere. -/
def any : Reading where
  Known texts _ _ := texts = true
  bound := 0
  exhausts := True
  Trusted _ := True
  child h _ := h
  bounded h := by cases h
  text _ := rfl

theorem Fits.any : Reading.any.Fits true depth origin node := ⟨rfl, .inl (.inl rfl)⟩

end Reading

namespace Run

/-! ## Places of functions -/

/-- How a function is written. -/
inductive Form
  | statement
  | lambda

namespace Form

/-- The functions that are written so, with their places. -/
def places : Form → Assembly → List (Site × FunctionId)
  | statement, a => a.functions
  | lambda, a => a.lambdas

/-- One more function has a place. -/
def place (entry : Site × FunctionId) : Form → Assembly → Assembly
  | statement, a => { a with functions := a.functions ++ [entry] }
  | lambda, a => { a with lambdas := a.lambdas ++ [entry] }

def id? : Form → Node → Option Nat
  | statement => Node.functionId?
  | lambda => Node.lambdaId?

end Form

def signatureOf (f : Frame) (name : String) (params : Parameters Node) (decorators : List Node)
    (node : Node) : Signature :=
  ⟨name, node, params, Receiver.classify f.owner.isSome (!params.params.isEmpty)
    (decorators.filterMap Node.decoratorName?)⟩

/-- The function of a place. -/
def definedAt (form : Form) (f : Frame) (id : Nat) (signature : Signature) : Run FunctionId := do
  match (form.places (← get).assembly).lookup (f.site id) with
  | some function => return function
  | none =>
    let function ← define f signature
    modifyAssembly (form.place (f.site id, function))
    return function

theorem functionAt_eq (f : Frame) (id : Nat) (name : String) (params : Parameters Node) (decorators : List Node)
    (node : Node) : Evaluator.functionAt f id name params decorators node =
      definedAt .statement f id (signatureOf f name params decorators node) := rfl

theorem lambdaAt_eq (f : Frame) (id : Nat) (params : Parameters Node) (node : Node) :
    Evaluator.lambdaAt f id params node = definedAt .lambda f id ⟨"[lambda]", node, params, .unbound⟩ := rfl

/-! ## Regular computations -/

/--
The computation does not fail, and changes nothing but the record, if one is kept. It looks neither at the
trace nor at the observer.
-/
def Idle {α : Type} (act : Run α) : Prop :=
  ∀ σ (s : Session), ∃ a recorder, recorder.isSome = s.recorder.isSome ∧ ∀ trace observer,
    act σ (s.watching trace observer) = (.ok a, (s.noting recorder).watching trace observer)

/-- The assembly keeps its files, its definitions and the list of what is visited. Scopes of comprehensions
are only added. -/
def KeepsWork (f : Assembly → Assembly) : Prop :=
  ∀ a, ∃ reserved comprehensions, f a = { a with reserved, comprehensions } ∧ a.comprehensions <+: comprehensions

/-- What evaluation is made of. Once a text of the program is evaluated, `texts` is true. -/
inductive Regular (K : Reading) : (texts : Bool) → {α : Type} → Run α → Prop
  | pure {texts : Bool} {α : Type} (a : α) : Regular K texts (pure a)
  | bind {texts : Bool} {α β : Type} {act : Run α} {next : α → Run β} (h : Regular K texts act)
      (hnext : ∀ a, Regular K texts (next a)) : Regular K texts (act >>= next)
  | exhausted {texts : Bool} {α : Type} (h : K.MayExhaust texts) : Regular K texts (throw .exhausted : Run α)
  | check {texts : Bool} : Regular K texts check
  | world {texts : Bool} : Regular K texts world
  | ask {texts : Bool} {α : Type} {query : World → Except AnalysisError α} (h : ∀ w, Answers (query w)) :
      Regular K texts (ask query)
  | getStore {texts : Bool} {β : Type} {next : Store → Run β}
      (hnext : ∀ st, Regular K texts (next st)) : Regular K texts (getStore >>= next)
  /-- Only the store and the assembly may be looked at. -/
  | get {texts : Bool} {β : Type} {next : Session → Run β}
      (hsame : ∀ s s' : Session, s.store = s'.store → s.assembly = s'.assembly → next s = next s')
      (hnext : ∀ s, Regular K texts (next s)) : Regular K texts (get >>= next)
  /-- It may not matter whether capabilities are used. -/
  | read {texts : Bool} {β : Type} {next : Setting → Run β}
      (hsame : ∀ σ useCapabilities, next (σ.withCapabilities useCapabilities) = next σ)
      (hnext : ∀ σ, K.Trusted σ → Regular K texts (next σ)) : Regular K texts (read >>= next)
  | inStore {texts : Bool} {α : Type} {act : StoreM α} (h : act.KeepsDefinitions) :
      Regular K texts (inStore act)
  | setBases {texts : Bool} {c : ClassId} {act : Run (List Value)} (h : Regular K texts act)
      (hregisters : K.Registers c act) :
      Regular K texts (act >>= fun bases => inStore (StoreM.modifyClass c fun info => { info with bases }))
  | policies {texts : Bool} (graph : Graph) {σ : Setting} (h : K.Trusted σ) (c : ClassId) (body : TableId) :
      Regular K texts (inAnalysis (applyPolicies graph σ.policies c body))
  | modifyAssembly {texts : Bool} {f : Assembly → Assembly} (h : KeepsWork f) :
      Regular K texts (modifyAssembly f)
  | definedAt {texts : Bool} (form : Form) (f : Frame) {id : Nat} (signature : Signature)
      (h : K.Known texts f.origin signature.node) (hid : form.id? signature.node = some id) :
      Regular K texts (definedAt form f id signature)
  | classAt {texts : Bool} (f : Frame) (id : Nat) (name : String) : Regular K texts (Evaluator.classAt f id name)
  | say {texts : Bool} (pieces : Store → List String) : Regular K texts (say pieces)
  | tell {texts : Bool} (notice : Notice) : Regular K texts (tell notice)
  | idle {texts : Bool} {act : Run Unit} (h : Idle act) : Regular K texts act
  | narrowed {texts : Bool} (symbol : SymbolId) :
      Regular K texts (modify fun s => { s with narrowed := symbol :: s.narrowed })
  | opened {texts : Bool} (table : TableId) :
      Regular K texts (modify fun s => { s with bodies := table :: s.bodies })
  | noteText {texts : Bool} {β : Type} (text : String) {next : Unit → Run β}
      (h : ∀ u, Regular K true (next u)) : Regular K texts (noteText text >>= next)

/-! ## What the small computations do -/

theorem check_apply (σ : Setting) (s : Session) : check σ s = (s.handle.check, s) := by
  rw [check, get_bind_apply]
  cases s.handle.check <;> rfl

theorem check_of_live (σ : Setting) {s : Session} (h : s.handle.isCancelled = false) : check σ s = (.ok (), s) := by
  rw [check_apply, CancelHandle.check, h]
  rfl

theorem ask_apply {α : Type} (query : World → Except AnalysisError α) (σ : Setting) (s : Session) :
    ask query σ s = (query ⟨σ.graph, s.store, s.handle.isCancelled⟩, s) := by
  have hworld : ∀ next : World → Run α, (world >>= next) σ s = next ⟨σ.graph, s.store, s.handle.isCancelled⟩ σ s :=
    fun _ => rfl
  rw [ask, hworld]
  cases query ⟨σ.graph, s.store, s.handle.isCancelled⟩ <;> rfl

theorem inAnalysis_apply {α : Type} (act : Analysis α) (σ : Setting) (s : Session) :
    inAnalysis act σ s = ((act.run s.store).1, { s with store := (act.run s.store).2 }) := by
  rw [inAnalysis, bind_apply, inStore_apply]
  rcases act.run s.store with ⟨_ | a, st⟩ <;> rfl

theorem say_apply (pieces : Store → List String) (σ : Setting) (s : Session) : say pieces σ s = (.ok (), s.watching
      (if s.trace.isOpen then s.trace.line (pieces s.store) else s.trace) s.observer) := by
  show (_, if s.trace.isOpen then _ else _) = _
  split <;> rfl

end Run

end Surmise
