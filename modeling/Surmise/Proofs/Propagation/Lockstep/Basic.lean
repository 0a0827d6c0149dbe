import Surmise.Proofs.Propagation.Regular.Links

/-!
# Evaluating a second time

Two evaluations in lockstep: the first one makes no symbol, and the second one starts in a state that has all
scopes of the first one. Started in corresponding states they give corresponding results and lead to
corresponding states. Neither state keeps anything for observers.

* `Session.Mirror`: the state of the second evaluation corresponds to that of the first.
* `Run.Lockstep` with a rule for each way to put computations together. It says what the first evaluation is made
  of too, so one walk through the evaluator shows both.
* `Frame.Twin`: a body of the second evaluation may have another scope, with the same record.
-/

namespace Surmise

open Value StoreM Store

/-- The run may come to the state. -/
structure Course.Admits (R : Course) (s : Session) : Prop where
  store : R.AdmitsStore s.store
  comprehensions : s.assembly.comprehensions <+: R.comprehensions

theorem Session.Onward.admitted {R : Course} {s t : Session} (h : s.Onward t)
    (hcount : R.symbols ≤ s.store.symbols.size) (hend : R.Admits t) : R.Admits s :=
  ⟨h.store.admitted hcount hend.store, h.comprehensions.trans hend.comprehensions⟩

/-- Nothing is kept for observers. -/
def Session.Quiet (s : Session) : Prop :=
  s.recorder = none ∧ s.trace.isOpen = false ∧ s.observer = none

/-- The state of the second evaluation corresponds to that of the first. -/
structure Session.Mirror (R : Course) (s s' : Session) : Prop where
  store : s.store.Mirror R s'.store
  known : s.assembly.comprehensions <+: R.comprehensions
  opened : R.comprehensions <+: s'.assembly.comprehensions
  /-- Names can be looked up from comprehensions. -/
  chained : ∀ entry ∈ s.assembly.comprehensions, Chained s.store.tables.toList entry.2
  classes : s'.assembly.classes = s.assembly.classes
  functions : s'.assembly.functions = s.assembly.functions
  lambdas : s'.assembly.lambdas = s.assembly.lambdas
  tree : s'.assembly.tree = s.assembly.tree
  searchPaths : s'.assembly.searchPaths = s.assembly.searchPaths
  handle : s'.handle = s.handle
  quiet : s.Quiet
  quiet' : s'.Quiet

namespace Session.Mirror

variable {R : Course} {s s' : Session} (h : s.Mirror R s')

include h

theorem world (σ : Setting) : World.Mirror R ⟨σ.graph, s.store, s.handle.isCancelled⟩
    ⟨σ.graph, s'.store, s'.handle.isCancelled⟩ :=
  ⟨rfl, by rw [h.handle], h.store⟩

theorem rebased : s.Mirror (R.rebase s.store s'.store) s' :=
  { h with store := h.store.rebased }

theorem unbased {t t' : Session} (ht : t.Mirror (R.rebase s.store s'.store) t') : t.Mirror R t' :=
  { ht with store := h.store.unbased ht.store }

/-- The stores are changed by computations in lockstep. -/
theorem withStores {α β : Type} {g : α → β} {act : StoreM α} {act' : StoreM β}
    (hact : Lockstep R g act act') (hend : R.AdmitsStore (act s.store).2) :
    (act' s'.store).1 = g (act s.store).1 ∧
      Session.Mirror R { s with store := (act s.store).2 } { s' with store := (act' s'.store).2 } := by
  obtain ⟨hvalue, hstore⟩ := hact.follows h.store hend
  have hsame : (act s.store).2.symbols.size = s.store.symbols.size := hend.count.trans h.store.count.symm
  refine ⟨hvalue, { h with store := hstore, chained := fun entry he => ?_ }⟩
  exact (h.chained entry he).mono ((hact.keeps s.store).tables hsame)

end Session.Mirror

/-- Only policies that come with the analysis are trusted, the setting has such ones, and the builtins are the
first scope. -/
structure Reading.Allows (K : Reading) (σ : Setting) : Prop where
  benign : K.Benign
  trusted : K.Trusted σ
  builtins : σ.builtins = ⟨0⟩

namespace Run

/-- The second computation does in corresponding states what the first one does, or fails alike. -/
def Follows {α β : Type} (R : Course) (σ : Setting) (g : α → β) (act : Run α) (act' : Run β) : Prop :=
  ∀ ⦃s s' : Session⦄, s.Mirror R s' → R.Admits (act σ s).2 →
    (act' σ s').1 = g <$> (act σ s).1 ∧ (act σ s).2.Mirror R (act' σ s').2

/-- The first computation is regular, and the second one follows it. -/
structure Lockstep {α β : Type} (K : Reading) (texts : Bool) (R : Course) (g : α → β) (act : Run α) (act' : Run β) :
    Prop where
  regular : Regular K texts act
  follows : ∀ ⦃σ : Setting⦄, K.Allows σ → Follows R σ g act act'

variable {K : Reading} {texts : Bool} {R : Course} {σ : Setting} {α β γ δ : Type}
  {g : α → β} {act : Run α} {act' : Run β} {k : γ → δ} {next : α → Run γ} {xs : List α}

theorem Lockstep.onward (h : Lockstep K texts R g act act') (hσ : K.Allows σ) (s : Session) : s.Onward (act σ s).2 :=
  h.regular.onward hσ.benign hσ.trusted s

/-! ## Rules -/

theorem lockstep_pure (a : α) : Lockstep K texts R g (pure a) (pure (g a)) :=
  ⟨.pure a, fun _ _ _ _ h _ => ⟨rfl, h⟩⟩

theorem lockstep_exhausted (h : K.MayExhaust texts) : Lockstep K texts R g (throw .exhausted) (throw .exhausted) :=
  ⟨.exhausted h, fun _ _ _ _ h _ => ⟨rfl, h⟩⟩

theorem Follows.bind {next' : β → Run δ} (h : Follows R σ g act act')
    (hnext : ∀ a, Follows R σ k (next a) (next' (g a))) (honward : ∀ s : Session, s.Onward (act σ s).2)
    (hback : ∀ a (t : Session), R.symbols ≤ t.store.symbols.size → R.Admits (next a σ t).2 → R.Admits t) :
    Follows R σ k (act >>= next) (act' >>= next') := by
  intro s s' hs hend
  have hfirst := honward s
  have hfollows := h hs
  rw [bind_apply] at hend
  rw [bind_apply, bind_apply]
  generalize act σ s = out at hfirst hfollows hend
  generalize act' σ s' = out' at hfollows
  obtain ⟨_ | a, t⟩ := out
  · obtain ⟨hresult, hstate⟩ := hfollows hend
    obtain ⟨_, t'⟩ := out'
    obtain rfl := hresult
    exact ⟨rfl, hstate⟩
  · have hmid : R.Admits t := hback a t (hs.store.count ▸ hfirst.store.symbols) hend
    obtain ⟨hresult, hstate⟩ := hfollows hmid
    obtain ⟨_, t'⟩ := out'
    obtain rfl := hresult
    exact hnext a hstate hend

theorem Lockstep.bind {next' : β → Run δ} (h : Lockstep K texts R g act act')
    (hnext : ∀ a, Lockstep K texts R k (next a) (next' (g a))) :
    Lockstep K texts R k (act >>= next) (act' >>= next') :=
  ⟨.bind h.regular fun a => (hnext a).regular, fun _ hσ => (h.follows hσ).bind (fun a => (hnext a).follows hσ)
    (h.onward hσ) fun a t => ((hnext a).onward hσ t).admitted⟩

theorem lockstep_read {next : Setting → Run γ} {next' : Setting → Run δ}
    (hsame : ∀ σ useCapabilities, next (σ.withCapabilities useCapabilities) = next σ)
    (hnext : ∀ σ, K.Trusted σ → Lockstep K texts R k (next σ) (next' σ)) :
    Lockstep K texts R k (read >>= next) (read >>= next') :=
  ⟨.read hsame fun σ hσ => (hnext σ hσ).regular, fun σ hσ => (hnext σ hσ.trusted).follows hσ⟩

/-- A look at the stores. -/
theorem lockstep_getStore {next : Store → Run γ} {next' : Store → Run δ} (hregular : ∀ s, Regular K texts (next s))
    (hnext : ∀ {s s' : Store}, s.Mirror R s' → Lockstep K texts R k (next s) (next' s')) :
    Lockstep K texts R k (getStore >>= next) (getStore >>= next') :=
  ⟨.getStore hregular, fun _ hσ _ _ hs hend => (hnext hs.store).follows hσ hs hend⟩

/-- A look at the stores, from which on their scopes are known. -/
theorem lockstep_getStore_based {next : Store → Run γ} {next' : Store → Run δ}
    (hregular : ∀ s, Regular K texts (next s))
    (hnext : ∀ {s s' : Store}, s.Mirror R s' → Lockstep K texts (R.rebase s s') k (next s) (next' s')) :
    Lockstep K texts R k (getStore >>= next) (getStore >>= next') := by
  refine ⟨.getStore hregular, fun σ hσ s s' hs hend => ?_⟩
  obtain ⟨hresult, hstate⟩ := (hnext hs.store).follows hσ hs.rebased
    ⟨⟨hend.store.count, hend.store.known⟩, hend.comprehensions⟩
  exact ⟨hresult, hs.unbased hstate⟩

/-- A look at the worlds. -/
theorem lockstep_world {next : World → Run γ} {next' : World → Run δ} (hregular : ∀ w, Regular K texts (next w))
    (hnext : ∀ {w w' : World}, w.Mirror R w' → Lockstep K texts R k (next w) (next' w')) :
    Lockstep K texts R k (world >>= next) (world >>= next') :=
  ⟨.bind .world hregular, fun σ hσ _ _ hs hend => (hnext (hs.world σ)).follows hσ hs hend⟩

/-! ## Small computations -/

theorem lockstep_check : Lockstep K texts R id check check := by
  refine ⟨.check, fun σ _ s s' h _ => ?_⟩
  rw [check_apply, check_apply, h.handle]
  exact ⟨(id_map _).symm, h⟩

theorem lockstep_ask {query : World → Except AnalysisError α} {query' : World → Except AnalysisError β}
    (hanswers : ∀ w, Answers (query w)) (hquery : ∀ {w w' : World}, w.Mirror R w' → query' w' = g <$> query w) :
    Lockstep K texts R g (ask query) (ask query') := by
  refine ⟨.ask hanswers, fun σ _ s s' h _ => ?_⟩
  rw [ask_apply, ask_apply]
  exact ⟨hquery (h.world σ), h⟩

theorem lockstep_inStore {act : StoreM α} {act' : StoreM β} (h : StoreM.Lockstep R g act act') :
    Lockstep K texts R g (inStore act) (inStore act') := by
  refine ⟨.inStore h.keeps, fun σ _ s s' hs hend => ?_⟩
  rw [inStore_apply] at hend
  rw [inStore_apply, inStore_apply]
  obtain ⟨hvalue, hstate⟩ := hs.withStores h hend.store
  exact ⟨congrArg Except.ok hvalue, hstate⟩

/-- A class gets the bases that were evaluated, which list it. -/
theorem lockstep_setBases {c : ClassId} {act act' : Run (List Value)}
    (h : Lockstep K texts R (List.map (Value.shift R.shift)) act act') (hregisters : K.Registers c act) :
    Lockstep K texts R id (act >>= fun bases => inStore (modifyClass c fun info => { info with bases }))
      (act' >>= fun bases => inStore (modifyClass c fun info => { info with bases })) := by
  refine ⟨.setBases h.regular hregisters, fun σ hσ => (h.follows hσ).bind (fun bases s s' hs _ => ?_) (h.onward hσ)
    fun _ _ _ hend => ⟨⟨hend.store.count, hend.store.known⟩, hend.comprehensions⟩⟩
  refine ⟨rfl, { hs with store := ?_ }⟩
  refine mirror_modifyClass c ?_ ?_ hs.store <;> exact fun _ => rfl

theorem lockstep_policies (graph : Graph) {σ : Setting} (h : K.Trusted σ) (c : ClassId)
    {body body' : TableId} (hsame : ∀ {s s' : Store}, s.Mirror R s' → s'.table body' = s.table body) :
    Lockstep K texts R id (inAnalysis (applyPolicies graph σ.policies c body))
      (inAnalysis (applyPolicies graph σ.policies c body')) := by
  refine ⟨.policies graph h c body, fun _ hσ s s' hs hend => ?_⟩
  rw [inAnalysis_apply] at hend
  rw [inAnalysis_apply, inAnalysis_apply, id_map]
  exact hs.withStores (Analysis.lockstep_applyPolicies (hσ.benign σ h).policies graph c hsame) hend.store

theorem lockstep_say (pieces pieces' : Store → List String) : Lockstep K texts R id (say pieces) (say pieces') := by
  refine ⟨.say pieces, fun σ _ s s' h _ => ?_⟩
  have hsame : ∀ {t : Session} {pieces : Store → List String}, t.Quiet → say pieces σ t = (.ok (), t) := by
    intro t pieces ht
    rw [say_apply, ht.2.1]
    rfl
  rw [hsame h.quiet, hsame h.quiet']
  exact ⟨rfl, h⟩

theorem lockstep_tell (notice notice' : Notice) : Lockstep K texts R id (tell notice) (tell notice') := by
  refine ⟨.tell notice, fun σ _ s s' h _ => ?_⟩
  have hsame : ∀ {t : Session} {notice : Notice}, t.observer = none → tell notice σ t = (.ok (), t) := by
    rintro ⟨_, _, _, _, _, _, _, _, _⟩ notice rfl
    rfl
  rw [hsame h.quiet.2.2, hsame h.quiet'.2.2]
  exact ⟨rfl, h⟩

/-- What is only noted does nothing where no record is kept. -/
theorem lockstep_idle {act act' : Run Unit} (h : Idle act) (h' : Idle act') : Lockstep K texts R id act act' := by
  refine ⟨.idle h, fun σ _ s s' hs _ => ?_⟩
  have hsame : ∀ {act : Run Unit} {t : Session}, Idle act → t.recorder = none → act σ t = (.ok (), t) := by
    intro act t hidle hnone
    obtain ⟨_, recorder, hkept, hact⟩ := hidle σ t
    have hrecorder : recorder = t.recorder := by
      rw [hnone] at hkept ⊢
      exact Option.isNone_iff_eq_none.mp (by simpa using hkept)
    subst hrecorder
    exact hact t.trace t.observer
  rw [hsame h hs.quiet.1, hsame h' hs.quiet'.1]
  exact ⟨rfl, hs⟩

/-- What is evaluated after a text was noted. -/
theorem lockstep_noteText (text : String) {next : Unit → Run γ} {next' : Unit → Run δ}
    (hnext : ∀ u, Lockstep K true R k (next u) (next' u)) :
    Lockstep K texts R k (noteText text >>= next) (noteText text >>= next') :=
  ⟨.noteText text fun u => (hnext u).regular, fun _ hσ _ _ hs hend => (hnext ()).follows hσ { hs with } hend⟩

theorem lockstep_narrowTo (symbol : SymbolId) (v : Value) :
    Lockstep K texts R id (narrowTo symbol v) (narrowTo symbol (v.shift R.shift)) :=
  (lockstep_inStore (StoreM.lockstep_put symbol v)).bind fun _ =>
    ⟨.narrowed symbol, fun _ _ _ _ hs _ => ⟨rfl, { hs with }⟩⟩

end Run

/-! ## Bodies -/

/--
A body is evaluated in both runs. The second one may have another scope for it, with the same record, if it is
the body of a class.
-/
structure Frame.Twin (R : Course) (f f' : Frame) : Prop where
  same : f' = { f with scope := f'.scope }
  scope : Chained R.base f.scope
  inherited : Chained R.base f.inherited
  record : ∃ record, R.base[f.scope.index]? = some record ∧ R.base'[f'.scope.index]? = some record

namespace Frame.Twin

variable {R : Course} {f f' : Frame} (h : f.Twin R f') {s s' : Store} (hs : s.Mirror R s')

include h

theorem home : f'.home = f.home := by rw [h.same]

theorem inherits : f'.inherited = f.inherited := by rw [h.same]

theorem function : f'.function = f.function := by rw [h.same]

theorem globals : f'.globals = f.globals := by rw [h.same]

theorem nonlocals : f'.nonlocals = f.nonlocals := by rw [h.same]

theorem isDeclared (name : String) : f'.isDeclared name = f.isDeclared name := by
  rw [Frame.isDeclared, Frame.isDeclared, h.globals, h.nonlocals]

theorem site (node : Nat) : f'.site node = f.site node := by rw [h.same]; rfl

/-- Only the scopes of a frame matter. -/
theorem congr {g g' : Frame} (hsame : g' = { g with scope := g'.scope }) (hscope : g.scope = f.scope)
    (hscope' : g'.scope = f'.scope) (hinherited : g.inherited = f.inherited) : g.Twin R g' :=
  ⟨hsame, hscope ▸ h.scope, hinherited ▸ h.inherited, hscope ▸ hscope' ▸ h.record⟩

include hs

theorem rebased : f.Twin (R.rebase s s') f' := by
  obtain ⟨record, hrecord, hrecord'⟩ := h.record
  exact ⟨h.same, h.scope.mono hs.based, h.inherited.mono hs.based, record, getElem?_of_begins hs.based hrecord,
    getElem?_of_begins hs.based' hrecord'⟩

theorem table : s'.table f'.scope = s.table f.scope := by
  obtain ⟨record, hrecord, hrecord'⟩ := h.record
  rw [table_of_getElem? (getElem?_of_begins hs.based hrecord),
    table_of_getElem? (getElem?_of_begins hs.based' hrecord')]

theorem get? (name : String) : s'.get? f'.scope name = s.get? f.scope name := by
  rw [Store.get?, Store.get?, h.table hs]

theorem lookup? (name : String) : f'.lookup? s' name = f.lookup? s name := by
  have hglobal : s'.lookup? (s'.module f.home).members name = s.lookup? (s.module f.home).members name := by
    rw [hs.module]
    exact lookup?_of_same hs.tables (hs.chained_module f.home) (hs.table (hs.module_lt f.home)) name
  have hlocal : s'.lookup? f'.scope name = s.lookup? f.scope name :=
    lookup?_of_same hs.tables (h.scope.mono hs.based) (h.table hs) name
  unfold Frame.lookup?
  rw [h.globals, h.home]
  split
  · exact hglobal
  · exact hlocal

theorem valueOf (name : String) : f'.valueOf s' name = (f.valueOf s name).shift R.shift := by
  rw [Frame.valueOf, Frame.valueOf, h.lookup? hs]
  cases f.lookup? s name with
  | none => rfl
  | some symbol => exact hs.value symbol

theorem symbolOf? (node : Node) : f'.symbolOf? s' node = f.symbolOf? s node := by
  rw [Frame.symbolOf?, Frame.symbolOf?]
  exact congrArg node.name?.bind (funext fun name => h.lookup? hs name)

end Frame.Twin

/-- Some course has the scopes of two frames. -/
theorem Frame.exists_twins (f g : Frame) : ∃ R : Course, f.Twin R f ∧ g.Twin R g := by
  let count := f.scope.index + f.inherited.index + g.scope.index + g.inherited.index + 1
  let base : List Table := List.replicate count ⟨default, .empty, none⟩
  have hrecord : ∀ t : TableId, t.index < count → base[t.index]? = some ⟨default, .empty, none⟩ := fun t ht =>
    List.getElem?_replicate_of_lt ht
  have htwin : ∀ f : Frame, f.scope.index < count → f.inherited.index < count →
      f.Twin ⟨⟨0, 0⟩, 0, [], [], base, base⟩ f := fun f hscope hinherited =>
    ⟨rfl, .outermost (hrecord f.scope hscope) rfl, .outermost (hrecord f.inherited hinherited) rfl, _,
      hrecord f.scope hscope, hrecord f.scope hscope⟩
  exact ⟨_, htwin f (by omega) (by omega), htwin g (by omega) (by omega)⟩

end Surmise
