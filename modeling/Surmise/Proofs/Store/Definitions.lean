import Surmise.Proofs.Store.Objects

/-!
# What only definitions change

Definitions make functions, and give classes their bases. Whatever else is written to a store, its functions
and the bases of its classes stay as they are, and no subclass or symbol is lost. A scope changes only where a
symbol is made. Nothing has to be known of the store or of the values for this.

* `StoreM.KeepsDefinitions` with a rule for each way to put computations together, and a lemma for each
  computation that evaluation is made of.
* `Analysis.keeps_applyPolicies`: so does building a class by the policies that come with the analysis.
* `StoreM.adds_newFunction`: a definition adds one function, whose parameters have symbols.
-/

namespace Surmise

/-- The classes have the bases that they had, and no subclass and no symbol is lost. -/
structure Store.KeepsBases (s s' : Store) : Prop where
  bases : ∀ c, (s'.classOf c).bases = (s.classOf c).bases
  subclassLinks : s.subclassLinks ⊆ s'.subclassLinks
  symbols : s.symbols.size ≤ s'.symbols.size
  /-- As long as no symbol is made, scopes are only added. -/
  tables : s'.symbols.size = s.symbols.size → s.tables.toList <+: s'.tables.toList

/-- There are the same functions too. -/
structure Store.KeepsDefinitions (s s' : Store) : Prop extends s.KeepsBases s' where
  functions : s'.functions = s.functions

namespace Store

variable {s s' s'' : Store}

theorem KeepsBases.trans (h : s.KeepsBases s') (h' : s'.KeepsBases s'') : s.KeepsBases s'' := by
  refine ⟨fun c => (h'.bases c).trans (h.bases c), List.Subset.trans h.subclassLinks h'.subclassLinks,
    Nat.le_trans h.symbols h'.symbols, fun hsame => ?_⟩
  have hfirst := h.symbols
  have hsecond := h'.symbols
  exact (h.tables (by omega)).trans (h'.tables (by omega))

theorem keepsBases_of_same (hclasses : s'.classes = s.classes) (hlinks : s'.subclassLinks = s.subclassLinks)
    (hsymbols : s.symbols.size ≤ s'.symbols.size)
    (htables : s'.symbols.size = s.symbols.size → s.tables.toList <+: s'.tables.toList) : s.KeepsBases s' :=
  ⟨fun c => by rw [classOf, hclasses]; rfl, by rw [hlinks]; exact List.Subset.refl _, hsymbols, htables⟩

theorem KeepsDefinitions.trans (h : s.KeepsDefinitions s') (h' : s'.KeepsDefinitions s'') : s.KeepsDefinitions s'' :=
  ⟨h.toKeepsBases.trans h'.toKeepsBases, h'.functions.trans h.functions⟩

theorem keepsDefinitions_of_same (hfunctions : s'.functions = s.functions) (hclasses : s'.classes = s.classes)
    (hlinks : s'.subclassLinks = s.subclassLinks) (hsymbols : s.symbols.size ≤ s'.symbols.size)
    (htables : s'.symbols.size = s.symbols.size → s.tables.toList <+: s'.tables.toList) :
    s.KeepsDefinitions s' :=
  ⟨keepsBases_of_same hclasses hlinks hsymbols htables, hfunctions⟩

end Store

namespace StoreM

open Store

/-- The computation keeps what only definitions change. -/
def KeepsDefinitions {α : Type} (act : StoreM α) : Prop := ∀ s : Store, s.KeepsDefinitions (act s).2

variable {α β : Type} {act : StoreM α} {node : Node} {origin : Origin}

/-! ## Rules -/

theorem keeps_of_same
    (h : ∀ s, (act s).2.functions = s.functions ∧ (act s).2.classes = s.classes ∧
      (act s).2.subclassLinks = s.subclassLinks ∧ s.symbols.size ≤ (act s).2.symbols.size ∧
      ((act s).2.symbols.size = s.symbols.size → s.tables.toList <+: (act s).2.tables.toList)) :
    KeepsDefinitions act := fun s => by
  obtain ⟨hfunctions, hclasses, hlinks, hsymbols, htables⟩ := h s
  exact keepsDefinitions_of_same hfunctions hclasses hlinks hsymbols htables

theorem keeps_pure (a : α) : KeepsDefinitions (pure a : StoreM α) :=
  keeps_of_same fun _ => ⟨rfl, rfl, rfl, Nat.le_refl _, fun _ => List.prefix_rfl⟩

theorem KeepsDefinitions.bind {next : α → StoreM β} (h : KeepsDefinitions act)
    (hnext : ∀ a, KeepsDefinitions (next a)) : KeepsDefinitions (act >>= next) :=
  fun s => (h s).trans (hnext (act s).1 (act s).2)

theorem keeps_get_bind {next : Store → StoreM β} (h : ∀ s, KeepsDefinitions (next s)) :
    KeepsDefinitions (get >>= next) := fun s => h s s

theorem KeepsDefinitions.map (h : KeepsDefinitions act) (f : α → β) : KeepsDefinitions (f <$> act) := h

/-! ## Symbols -/

theorem keeps_numbered (v : Value) : KeepsDefinitions (numbered v) := keeps_of_same fun s => by
  rw [numbered_eq]
  exact ⟨rfl, rfl, rfl, Nat.le_refl _, fun _ => List.prefix_rfl⟩

theorem keeps_put (symbol : SymbolId) (v : Value) : KeepsDefinitions (put symbol v) := keeps_of_same fun s => by
  rw [put_eq]
  exact ⟨rfl, rfl, rfl, Nat.le_of_eq Array.size_modify.symm, fun _ => List.prefix_rfl⟩

theorem keeps_producePrivate (symbol : SymbolId) (v : Value) (isPrivate : Bool) :
    KeepsDefinitions (producePrivate symbol v isPrivate) := keeps_of_same fun s => by
  have hpublish : s.symbols.size ≤ (publish symbol isPrivate s).symbols.size :=
    Nat.le_of_eq Array.size_modify.symm
  rw [producePrivate_eq]
  split
  · exact ⟨rfl, rfl, rfl, hpublish, fun _ => List.prefix_rfl⟩
  · have hput := keeps_put symbol (.unite [s.value symbol, v]) (publish symbol isPrivate s)
    refine ⟨hput.functions, ?_, ?_, Nat.le_trans hpublish hput.symbols, fun _ => ?_⟩ <;> rw [put_eq]
    · rfl
    · rfl
    · exact List.prefix_rfl

theorem keeps_produce (symbol : SymbolId) (v : Value) : KeepsDefinitions (produce symbol v) :=
  keeps_producePrivate symbol v false

theorem keeps_createPrivate (table : TableId) (name : String) (isPrivate : Bool) :
    KeepsDefinitions (createPrivate table name isPrivate) := keeps_of_same fun s => by
  rw [createPrivate_eq]
  split
  · exact ⟨rfl, rfl, rfl, Nat.le_refl _, fun _ => List.prefix_rfl⟩
  · have hsize : (bound table name isPrivate s).symbols.size = s.symbols.size + 1 := Array.size_push _
    exact ⟨rfl, rfl, rfl, Nat.le.intro hsize.symm, fun hsame => absurd (hsize.symm.trans hsame) (by omega)⟩

theorem keeps_create (table : TableId) (name : String) : KeepsDefinitions (create table name) :=
  keeps_createPrivate table name false

theorem keeps_newTable (address : Address) (parent : Option TableId) :
    KeepsDefinitions (newTable address parent) := keeps_of_same fun _ =>
  ⟨rfl, rfl, rfl, Nat.le_refl _, fun _ => ⟨[⟨address, .empty, parent⟩], Array.toList_push.symm⟩⟩

theorem keeps_produceIn (table : TableId) (name : String) (v : Value) : KeepsDefinitions (produceIn table name v) :=
  (keeps_create table name).bind fun symbol => keeps_produce symbol v

theorem keeps_putAll (table : TableId) (entries : List (String × Value)) : KeepsDefinitions (putAll table entries) := by
  induction entries with
  | nil => exact keeps_pure ()
  | cons entry rest ih =>
    have hput : KeepsDefinitions (putIn table entry.1 entry.2) :=
      (keeps_create table entry.1).bind fun symbol => (keeps_put symbol entry.2).bind fun _ => keeps_pure _
    exact hput.bind fun _ => ih

theorem keeps_addKwarg (dict : KwargsId) (name : String) (v : Value) : KeepsDefinitions (addKwarg dict name v) :=
  keeps_of_same fun s => by
    rw [addKwarg_eq]
    exact ⟨rfl, rfl, rfl, Nat.le_refl _, fun _ => List.prefix_rfl⟩

/-! ## Members -/

theorem keeps_madeSymbol (make : Bool) (name : String) (table? : Option TableId) (found : Option SymbolId) :
    KeepsDefinitions (madeSymbol make name table? found) := by
  unfold madeSymbol
  split
  · exact (keeps_create _ name).map some
  · exact keeps_pure found

theorem keeps_memberSymbol (graph : Graph) (make : Bool) (name : String) (v : Value) :
    KeepsDefinitions (memberSymbol graph make name v) := by
  refine keeps_get_bind fun s => ?_
  dsimp only
  split
  · exact keeps_madeSymbol make name _ _
  · exact keeps_pure _
  · exact keeps_madeSymbol make name _ _

/-! ## Classes -/

theorem keeps_modifyClass (c : ClassId) {f : ClassInfo → ClassInfo} (hf : ∀ info, (f info).bases = info.bases) :
    KeepsDefinitions (modifyClass c f) := by
  refine fun s => ⟨⟨fun c' => ?_, List.Subset.refl _, Nat.le_refl _, fun _ => List.prefix_rfl⟩, rfl⟩
  rw [modifyClass_eq]
  unfold classOf
  rw [getD_modify]
  split
  · exact hf _
  · rfl

/-- A class is known as a subclass. -/
theorem mem_subclassLinks_addSubclass (c sub : ClassId) (s : Store) :
    (c, sub) ∈ (addSubclass c sub s).2.subclassLinks := by
  show (c, sub) ∈ if (c, sub) ∈ s.subclassLinks then s.subclassLinks else s.subclassLinks ++ [(c, sub)]
  split
  · assumption
  · exact List.mem_append_right _ List.mem_cons_self

theorem keeps_addSubclass (c sub : ClassId) : KeepsDefinitions (addSubclass c sub) := by
  refine fun s => ⟨⟨fun _ => rfl, ?_, Nat.le_refl _, fun _ => List.prefix_rfl⟩, rfl⟩
  show s.subclassLinks ⊆ if (c, sub) ∈ s.subclassLinks then s.subclassLinks else s.subclassLinks ++ [(c, sub)]
  split
  · exact List.Subset.refl _
  · exact List.subset_append_left _ _

theorem keeps_registerSubclass (c : ClassId) (vs : List Value) :
    KeepsDefinitions (Evaluator.registerSubclass c vs) := by
  fun_induction Evaluator.registerSubclass c vs with
  | case1 => exact keeps_pure ()
  | case2 parent rest _ hne ih => exact (keeps_addSubclass parent c).bind fun _ => ih
  | case3 parent rest _ heq ih | case4 v rest hv ih => exact ih

theorem keeps_newClass (name : String) (address : Address) (moduleName : String) :
    KeepsDefinitions (newClass name address moduleName) := by
  refine (keeps_newTable address none).bind fun members => ?_
  have hpush : KeepsDefinitions (modifyGet fun s => ((⟨s.classes.size⟩ : ClassId),
      { s with classes := s.classes.push ⟨name, members, [], none⟩ }) : StoreM ClassId) := by
    refine fun s => ⟨⟨fun c => ?_, List.Subset.refl _, Nat.le_refl _, fun _ => List.prefix_rfl⟩, rfl⟩
    show ((s.classes.push ⟨name, members, [], none⟩).getD c.index default).bases = _
    rw [getD_push]
    split
    · next heq =>
      -- a class that is not there has no bases either
      rw [classOf, getD_of_size_le (Nat.le_of_eq heq.symm)]
      rfl
    · rfl
  refine hpush.bind fun id => (keeps_putAll members _).bind fun _ => ?_
  exact (keeps_create members _).bind fun _ => (keeps_create members _).bind fun _ => keeps_pure id

/-! ## Functions -/

theorem keeps_newParams (locals : TableId) (params : List (Parameter Node)) :
    KeepsDefinitions (newParams locals params) := by
  induction params with
  | nil => exact keeps_pure []
  | cons p rest ih => exact (keeps_create locals p.name).bind fun _ => ih.bind fun _ => keeps_pure _

theorem keeps_newVararg (locals : TableId) (p : Option (VarParameter Node)) :
    KeepsDefinitions (newVararg locals p) := by
  cases p with
  | none => exact keeps_pure none
  | some p => exact (keeps_create locals p.name).map some

theorem keeps_newKwargs : KeepsDefinitions newKwargs :=
  keeps_of_same fun _ => ⟨rfl, rfl, rfl, Nat.le_refl _, fun _ => List.prefix_rfl⟩

theorem keeps_newKwarg (locals : TableId) (p : Option (VarParameter Node)) : KeepsDefinitions (newKwarg locals p) := by
  cases p with
  | none => exact keeps_pure _
  | some p =>
    refine keeps_newKwargs.bind fun dict => (keeps_create locals p.name).bind fun symbol => ?_
    exact (keeps_produce symbol _).bind fun _ => keeps_pure _

theorem keeps_newSymbol (name : String) (address : Address) (isPrivate : Bool) :
    KeepsDefinitions (newSymbol name address isPrivate) :=
  keeps_of_same fun _ => ⟨rfl, rfl, rfl, Nat.le.intro (Array.size_push _).symm, fun _ => List.prefix_rfl⟩

/-- The names of a scope are bound to symbols that there are. -/
def BindsKnown (s : Store) (table : TableId) : Prop :=
  ∀ name id, s.get? table name = some id → id.index < s.symbols.size

section

variable {s s' : Store} {table : TableId}

theorem BindsKnown.of_tables (h : BindsKnown s table) (htables : s'.tables = s.tables)
    (hsymbols : s.symbols.size ≤ s'.symbols.size) : BindsKnown s' table := by
  intro name id hid
  have hsame : s'.get? table name = s.get? table name := by
    unfold get? Store.table
    rw [htables]
  exact Nat.lt_of_lt_of_le (h name id (hsame ▸ hid)) hsymbols

theorem bindsKnown_create (h : BindsKnown s table) (name : String) :
    (create table name s).1.index < (create table name s).2.symbols.size ∧
      BindsKnown (create table name s).2 table := by
  unfold create
  rw [createPrivate_eq]
  split
  · next id hid => exact ⟨h name id hid, h⟩
  · have hsize : (bound table name false s).symbols.size = s.symbols.size + 1 := Array.size_push _
    refine ⟨hsize ▸ Nat.lt_succ_self _, fun other id hid => ?_⟩
    rw [get?_bound] at hid
    rw [hsize]
    split at hid
    · cases hid
      exact Nat.lt_succ_self _
    · exact Nat.lt_succ_of_lt (h other id hid)

theorem bindsKnown_newVararg (h : BindsKnown s table) (p : Option (VarParameter Node)) :
    BindsKnown (newVararg table p s).2 table := by
  cases p with
  | none => exact h
  | some p => exact (bindsKnown_create h p.name).2

theorem bindsKnown_newKwarg (h : BindsKnown s table) (p : Option (VarParameter Node)) :
    BindsKnown (newKwarg table p s).2 table := by
  cases p with
  | none => exact h
  | some p =>
    have hdict : BindsKnown (newKwargs s).2 table := h.of_tables rfl (Nat.le_refl _)
    obtain ⟨-, hcreate⟩ := bindsKnown_create hdict p.name
    rw [newKwarg, bind_apply, bind_apply, bind_apply]
    generalize create table p.name (newKwargs s).2 = out at hcreate
    have htables := tables_producePrivate out.2 out.1 (.kwargs (newKwargs s).1) false
    exact hcreate.of_tables htables (keeps_produce out.1 _ out.2).symbols

/-- Parameters have symbols that there are. -/
theorem symbol_lt_newParams (h : BindsKnown s table) (ps : List (Parameter Node)) :
    ∀ p ∈ (newParams table ps s).1, p.symbol.index < (newParams table ps s).2.symbols.size := by
  induction ps generalizing s with
  | nil => exact nofun
  | cons p rest ih =>
    obtain ⟨hsymbol, hnext⟩ := bindsKnown_create h p.name
    intro q hq
    rcases List.mem_cons.mp hq with rfl | hq
    · exact Nat.lt_of_lt_of_le hsymbol (keeps_newParams table rest _).symbols
    · exact ih hnext q hq

end

/-- One function was made, from a node of a text. Its parameters have symbols. -/
structure AddsFunctionTo (s s' : Store) (node : Node) (origin : Origin) : Prop extends s.KeepsBases s' where
  function : ∃ info : FunctionInfo, info.node = node ∧ info.origin = origin ∧ s'.functions = s.functions.push info
  params : ∀ p ∈ (s'.function ⟨s.functions.size⟩).params, p.symbol.index < s'.symbols.size

theorem AddsFunctionTo.then {s s' s'' : Store}
    (h : AddsFunctionTo s s' node origin) (h' : s'.KeepsDefinitions s'') : AddsFunctionTo s s'' node origin := by
  have hsame : s''.function ⟨s.functions.size⟩ = s'.function ⟨s.functions.size⟩ := by
    unfold Store.function
    rw [h'.functions]
  refine ⟨h.toKeepsBases.trans h'.toKeepsBases, h'.functions ▸ h.function, fun p hp => ?_⟩
  exact Nat.lt_of_lt_of_le (h.params p (hsame ▸ hp)) h'.symbols

/-- The computation makes one function, starting from the store. -/
def AddsFunction (node : Node) (origin : Origin) (act : StoreM FunctionId) (s : Store) : Prop :=
  (act s).1 = ⟨s.functions.size⟩ ∧ AddsFunctionTo s (act s).2 node origin

theorem KeepsDefinitions.adds {next : α → StoreM FunctionId} {s : Store}
    {Q : α → Store → Prop} (h : KeepsDefinitions act) (hact : Q (act s).1 (act s).2)
    (hnext : ∀ a s', Q a s' → AddsFunction node origin (next a) s') :
    AddsFunction node origin (act >>= next) s := by
  obtain ⟨hid, hbases, hfunction, hparams⟩ := hnext _ _ hact
  rw [(h s).functions] at hid hfunction hparams
  exact ⟨hid, (h s).toKeepsBases.trans hbases, hfunction, hparams⟩

theorem adds_newFunction (spec : FunctionSpec) (s : Store) :
    AddsFunction spec.node spec.origin (newFunction spec) s := by
  have hopened : BindsKnown (newTable spec.address (some spec.parent) s).2 ⟨s.tables.size⟩ := by
    intro name id hid
    have hget : (opened spec.address (some spec.parent) s).get? ⟨s.tables.size⟩ name = none :=
      (get?_opened _ _ s _ name).trans (get?_of_size_le (Nat.le_refl _) name)
    exact absurd (hget.symm.trans hid) nofun
  refine (keeps_newTable _ _).adds (Q := fun locals s' => BindsKnown s' locals) hopened fun locals s₁ hbinds => ?_
  refine (keeps_newVararg locals _).adds (Q := fun _ s' => BindsKnown s' locals)
    (bindsKnown_newVararg hbinds _) fun vararg s₂ hbinds => ?_
  refine (keeps_newKwarg locals _).adds (Q := fun _ s' => BindsKnown s' locals)
    (bindsKnown_newKwarg hbinds _) fun kwarg s₃ hbinds => ?_
  refine (keeps_newParams locals _).adds (Q := fun params s' => ∀ p ∈ params, p.symbol.index < s'.symbols.size)
    (symbol_lt_newParams hbinds _) fun params s₄ hknown => ?_
  have hreturns := keeps_newSymbol returnName (spec.address.child returnName) false
  refine hreturns.adds (Q := fun _ s' => ∀ p ∈ params, p.symbol.index < s'.symbols.size)
    (fun p hp => Nat.lt_of_lt_of_le (hknown p hp) (hreturns s₄).symbols) fun returns s₅ hknown => ?_
  refine ⟨rfl, keepsBases_of_same rfl rfl (Nat.le_refl _) fun _ => List.prefix_rfl, ⟨_, rfl, rfl, rfl⟩,
    fun p hp => hknown p ?_⟩
  change p ∈ ((s₅.functions.push _).getD s₅.functions.size default).params at hp
  rw [getD_push, if_pos rfl] at hp
  exact hp

end StoreM

/-! ## Policies -/

namespace Analysis

/-- The computation keeps what only definitions change, and does not run out of steps. -/
def KeepsDefinitions {α : Type} (act : Analysis α) : Prop :=
  ∀ s : Store, s.KeepsDefinitions (act.run s).2 ∧ (act.run s).1 ≠ .error .exhausted

variable {α β : Type} {e : AnalysisError}

theorem keeps_pure (a : α) : KeepsDefinitions (pure a) := fun s => ⟨StoreM.keeps_pure a s, nofun⟩

theorem keeps_throw (he : e ≠ .exhausted) : KeepsDefinitions (throw e : Analysis α) :=
  fun s => ⟨StoreM.keeps_pure () s, fun h => he (Except.error.inj h)⟩

theorem KeepsDefinitions.bind {act : Analysis α} {next : α → Analysis β} (h : KeepsDefinitions act)
    (hnext : ∀ a, KeepsDefinitions (next a)) : KeepsDefinitions (act >>= next) := by
  intro s
  obtain ⟨hsame, hends⟩ := h s
  have hrun : (act >>= next).run s =
      match act.run s with
      | (.ok a, s') => (next a).run s'
      | (.error e, s') => (.error e, s') := by
    show (act.run >>= ExceptT.bindCont next) s = _
    rw [StoreM.bind_apply]
    rcases act.run s with ⟨_ | a, s'⟩ <;> rfl
  rw [hrun]
  generalize act.run s = out at hsame hends
  obtain ⟨e | a, s'⟩ := out
  · exact ⟨hsame, fun h => hends (congrArg Except.error (Except.error.inj h))⟩
  · obtain ⟨hsame', hends'⟩ := hnext a s'
    exact ⟨hsame.trans hsame', hends'⟩

theorem keeps_lift {act : StoreM α} (h : StoreM.KeepsDefinitions act) :
    KeepsDefinitions (liftM act : Analysis α) := fun s => ⟨h s, nofun⟩

theorem keeps_get_bind {next : Store → Analysis β} (h : ∀ s, KeepsDefinitions (next s)) :
    KeepsDefinitions (get >>= next) := fun s => h s s

theorem keeps_forIn {body : α → Unit → Analysis (ForInStep Unit)} (h : ∀ x, KeepsDefinitions (body x ()))
    (xs : List α) : KeepsDefinitions (forIn xs () body) := by
  induction xs with
  | nil => exact keeps_pure ()
  | cons x rest ih =>
    rw [List.forIn_cons]
    refine (h x).bind fun out => ?_
    cases out with
    | done => exact keeps_pure ()
    | yield => exact ih

theorem keeps_produceIf (c : Bool) (symbol : SymbolId) (v : Value) (he : e ≠ .exhausted) :
    KeepsDefinitions (if c then liftM (StoreM.produce symbol v) else throw e : Analysis Unit) := by
  cases c with
  | true => exact keeps_lift (StoreM.keeps_produce symbol v)
  | false => exact keeps_throw he

theorem keeps_mergeMember (members : TableId) (binding : SymbolId) :
    KeepsDefinitions (mergeMember members binding) := by
  refine keeps_get_bind fun s => (keeps_lift (StoreM.keeps_create _ _)).bind fun member => ?_
  exact keeps_get_bind fun s => keeps_produceIf _ member _ nofun

theorem keeps_mergeAll (members : TableId) (bindings : List SymbolId) :
    KeepsDefinitions (do for binding in bindings do mergeMember members binding) :=
  (keeps_forIn (fun binding => (keeps_mergeMember members binding).bind fun _ => keeps_pure _) bindings).bind
    fun _ => keeps_pure ()

theorem keeps_mergeMembers (c : ClassId) (body : TableId) : KeepsDefinitions (mergeMembers c body) :=
  keeps_get_bind fun _ => keeps_get_bind fun _ => keeps_mergeAll _ _

theorem keeps_produceIn (table : TableId) (name : String) (v : Value) :
    KeepsDefinitions (liftM (StoreM.produceIn table name v) : Analysis Unit) :=
  keeps_lift (StoreM.keeps_produceIn table name v)

/-- What the members of a model are made by. -/
theorem keeps_modelMembers (graph : Graph) (c : ClassId) : KeepsDefinitions (do
      let members := ((← get).classOf c).members
      StoreM.produceIn members "objects" (.synthetic (.orm .manager c))
      for (name, path) in ClassPolicy.modelExceptions do
        StoreM.produceIn members name (ClassPolicy.modelException ⟨graph, ← get, false⟩ path)
      for field in ["pk", "id"] do
        StoreM.produceIn members field (.int none)) := by
  refine keeps_get_bind fun s => (keeps_produceIn _ _ _).bind fun _ => ?_
  refine (keeps_forIn (fun e => ?_) _).bind fun _ => (keeps_forIn (fun field => ?_) _).bind fun _ => keeps_pure ()
  · exact keeps_get_bind fun s => (keeps_produceIn _ _ _).bind fun _ => keeps_pure _
  · exact (keeps_produceIn _ _ _).bind fun _ => keeps_pure _

theorem keeps_build {p : ClassPolicy} (hp : p.IsBundled) (graph : Graph) (c : ClassId) (body : TableId) :
    KeepsDefinitions (p.build graph c body) := by
  cases hp with
  | plain => exact keeps_mergeMembers c body
  | orm => exact (keeps_mergeMembers c body).bind fun _ => keeps_modelMembers graph c
  | marking name base member =>
    exact (keeps_mergeMembers c body).bind fun _ => keeps_get_bind fun s => keeps_produceIn _ _ _

theorem keeps_applyPolicies {policies : List ClassPolicy} (hp : ∀ p ∈ policies, p.IsBundled) (graph : Graph)
    (c : ClassId) (body : TableId) : KeepsDefinitions (applyPolicies graph policies c body) := by
  refine keeps_get_bind fun s => ?_
  dsimp only
  split
  · next policy hpolicy =>
    have hframework : KeepsDefinitions (liftM (StoreM.modifyClass c fun info =>
        { info with framework := some policy.name }) : Analysis Unit) :=
      keeps_lift (StoreM.keeps_modifyClass c fun _ => rfl)
    exact hframework.bind fun _ => keeps_build (hp policy (List.mem_of_find?_eq_some hpolicy)) graph c body
  · exact keeps_build .plain graph c body

end Analysis

end Surmise
