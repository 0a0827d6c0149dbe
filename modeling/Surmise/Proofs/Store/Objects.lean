import Surmise.Proofs.Store.Steps

/-!
# Making functions, classes and modules

An object of the analysed program is made in one go: a scope is opened, filled by steps of the store, and
handed to the new object.

* `opened`: the store with one more scope.
* `newFunction_spec`, `newClass_spec`, `newModule_spec`: the store after an object was made, as a store
  that steps lead to from the opened one.
* `Opens`: what all of these have in common.
-/

namespace Surmise.StoreM

open Store

variable {s : Store} {locals : TableId} {table : TableId}

/-! ## Opening a scope -/

/-- The store with one more scope, which binds nothing yet. -/
def opened (address : Address) (parent : Option TableId) (s : Store) : Store :=
  { s with tables := s.tables.push ⟨address, .empty, parent⟩ }

section Opened

variable (address : Address) (parent : Option TableId)

theorem newTable_eq (s : Store) : newTable address parent s = (⟨s.tables.size⟩, opened address parent s) := rfl

theorem table_opened (s : Store) (t : TableId) : (opened address parent s).table t =
      if t.index = s.tables.size then ⟨address, .empty, parent⟩ else s.table t :=
  getD_push _ _ _ _

theorem get?_opened (s : Store) (t : TableId) (name : String) :
    (opened address parent s).get? t name = s.get? t name := by
  unfold get?
  rw [table_opened]
  split
  · next ht =>
    unfold table
    rw [getD_of_size_le (Nat.le_of_eq ht.symm)]
    rfl
  · rfl

theorem extends_opened (s : Store) : s.Extends (opened address parent s) :=
  { Extends.refl s with
    tables := by simp [opened]
    table := fun t ht => by
      rw [table_opened, if_neg (Nat.ne_of_lt ht)]
      exact ⟨rfl, rfl⟩
    entry := fun t name id hid => by rwa [get?_opened] }

theorem consistent_opened (hs : s.Consistent) : (opened address parent s).Consistent := by
  refine ⟨{ hs.sound with }, fun t name id hid => ?_, fun t t' name name' id hid hid' => ?_⟩
  · rw [get?_opened] at hid
    obtain ⟨hlt, hname, haddr⟩ := hs.tidy.entry t name id hid
    refine ⟨hlt, hname, ?_⟩
    rw [table_opened, if_neg (Nat.ne_of_lt (lt_tables_of_get? hid))]
    exact haddr
  · rw [get?_opened] at hid hid'
    exact hs.tidy.once t t' name name' id hid hid'

/-- The later store has one more scope, and the same modules and packages. -/
structure Opens (s s' : Store) (address : Address) (parent : Option TableId) : Prop where
  extension : s.Extends s'
  consistent : s.Consistent → s'.Consistent
  modules : s'.modules = s.modules
  packages : s'.packages = s.packages
  tables : s'.tables.size = s.tables.size + 1
  address : (s'.table ⟨s.tables.size⟩).address = address
  parent : (s'.table ⟨s.tables.size⟩).parent = parent

theorem opens_opened (s : Store) : Opens s (opened address parent s) address parent where
  extension := extends_opened address parent s
  consistent hs := consistent_opened address parent hs
  modules := rfl
  packages := rfl
  tables := by simp [opened]
  address := by rw [table_opened, if_pos rfl]
  parent := by rw [table_opened, if_pos rfl]

end Opened

/-- Steps in the store do not close the scope. -/
theorem Opens.steps {s' s'' : Store} {address : Address} {parent : Option TableId} (h : Opens s s' address parent)
    (hsteps : Steps s' s'') : Opens s s'' address parent := by
  have hlt : s.tables.size < s'.tables.size := by
    rw [h.tables]
    exact Nat.lt_succ_self _
  obtain ⟨haddress, hparent⟩ := hsteps.extension.table ⟨s.tables.size⟩ hlt
  have hsame := hsteps.sameObjects
  exact
    { extension := h.extension.trans hsteps.extension
      consistent := fun hs => hsteps.consistent (h.consistent hs)
      modules := hsame.modules.trans h.modules
      packages := hsame.packages.trans h.packages
      tables := hsame.tables.trans h.tables
      address := haddress.trans h.address
      parent := hparent.trans h.parent }

/-! ## Steps before the last change -/

/-- Steps lead to a store `mid`, and the outcome is what `P` says of it. -/
def Ends {α : Type} (s : Store) (outcome : α × Store) (P : Store → α × Store → Prop) : Prop :=
  ∃ mid, Steps s mid ∧ P mid outcome

theorem ends_here {α : Type} {outcome : α × Store} {P : Store → α × Store → Prop} (h : P s outcome) :
    Ends s outcome P :=
  ⟨s, .refl, h⟩

theorem Does.ends {α β : Type} {act : StoreM α} {next : α → StoreM β} {Q : α → Store → Prop}
    {P : Store → β × Store → Prop} (h : Does s act Q) (hnext : ∀ a s', Steps s s' → Q a s' → Ends s' (next a s') P)
    : Ends s ((act >>= next) s) P := by
  obtain ⟨hsteps, hQ⟩ := h
  obtain ⟨mid, hmid, hP⟩ := hnext _ _ hsteps hQ
  exact ⟨mid, hsteps.trans hmid, hP⟩

theorem does_newKwargs : Does s newKwargs fun _ _ => True :=
  ⟨.single (.newKwargs s), trivial⟩

theorem does_newSymbol (name : String) (address : Address) (isPrivate : Bool) :
    Does s (newSymbol name address isPrivate) fun id s' =>
      id = ⟨s.symbols.size⟩ ∧ s'.tables = s.tables ∧ id.index < s'.symbols.size ∧
        (s'.symbol id).name = name ∧ (s'.symbol id).address = address := by
  refine ⟨.single (.newSymbol s name address isPrivate), rfl, rfl, ?_⟩
  show s.symbols.size < (s.symbols.push _).size ∧ ((s.symbols.push _).getD s.symbols.size default).name = name ∧
    ((s.symbols.push _).getD s.symbols.size default).address = address
  rw [getD_push, if_pos rfl]
  simp

/-! ## Functions -/

/-- The scope binds the parameters. -/
theorem does_newParams (h : ¬ s.IsPackageScope locals) (hlt : locals.index < s.tables.size)
    (params : List (Parameter Node)) :
    Does s (newParams locals params) fun ps s' => ∀ p ∈ ps, s'.get? locals p.name = some p.symbol := by
  induction params generalizing s with
  | nil => exact does_pure (by simp)
  | cons p rest ih =>
    refine (does_createPrivate h p.name false).bind fun symbol s' hs' hsymbol => ?_
    rw [← hs'.sameObjects.isPackageScope_iff] at h
    refine (ih h (Nat.lt_of_lt_of_le hlt hs'.extension.tables)).bind fun ps s'' hs'' hps => does_pure ?_
    exact List.forall_mem_cons.mpr ⟨hs''.extension.entry _ _ _ (hsymbol hlt), hps⟩

theorem does_newVararg (h : ¬ s.IsPackageScope locals) (hlt : locals.index < s.tables.size)
    (param : Option (VarParameter Node)) :
    Does s (newVararg locals param) fun id? s' => ∀ id ∈ id?, ∃ name, s'.get? locals name = some id := by
  cases param with
  | none => exact does_pure (by simp)
  | some p =>
    refine (does_createPrivate h p.name false).bind fun symbol s' _ hsymbol => does_pure fun id hid => ?_
    obtain rfl := Option.some.inj hid
    exact ⟨p.name, hsymbol hlt⟩

theorem does_newKwarg (h : ¬ s.IsPackageScope locals) (param : Option (VarParameter Node)) :
    Does s (newKwarg locals param) fun _ _ => True := by
  cases param with
  | none => exact does_pure trivial
  | some p =>
    refine does_newKwargs.bind fun dict s' hs' _ => ?_
    rw [← hs'.sameObjects.isPackageScope_iff] at h
    refine (does_createPrivate h p.name false).bind fun symbol s' _ _ => ?_
    exact (does_producePrivate symbol (by simp) false).bind fun _ _ _ _ => does_pure trivial

/-- What is recorded of a function when it is made in a store. -/
structure NewInfo (s mid : Store) (spec : FunctionSpec) (info : FunctionInfo) : Prop where
  name : info.name = spec.name
  locals : info.locals = ⟨s.tables.size⟩
  fresh : s.symbols.size ≤ info.returns.index
  known : info.returns.index < mid.symbols.size
  /-- No scope binds the symbol that collects what the function returns. -/
  unbound : s.Consistent → ∀ t name, mid.get? t name ≠ some info.returns
  returnName : (mid.symbol info.returns).name = Surmise.returnName
  returnAddress : (mid.symbol info.returns).address = spec.address.child Surmise.returnName
  params : ∀ p ∈ info.params, mid.get? info.locals p.name = some p.symbol
  vararg : ∀ id ∈ info.vararg, ∃ name, mid.get? info.locals name = some id

/-- **A new function** has the scope that was opened for it, and steps have filled the scope. -/
theorem newFunction_spec (spec : FunctionSpec) (hfree : ¬ s.IsPackageScope ⟨s.tables.size⟩) :
    ∃ mid info, Steps (opened spec.address (some spec.parent) s) mid ∧ NewInfo s mid spec info ∧ newFunction spec s =
        (⟨s.functions.size⟩, { mid with functions := s.functions.push info }) := by
  suffices h : Ends (opened spec.address (some spec.parent) s) (newFunction spec s) fun mid out =>
      ∃ info, NewInfo s mid spec info ∧
        out = (⟨mid.functions.size⟩, { mid with functions := mid.functions.push info }) by
    obtain ⟨mid, hsteps, info, hinfo, hout⟩ := h
    have hsame : mid.functions = s.functions := hsteps.sameObjects.functions
    rw [hsame] at hout
    exact ⟨mid, info, hsteps, hinfo, hout⟩
  unfold newFunction
  rw [bind_apply, newTable_eq]
  have hfree₀ : ¬ (opened spec.address (some spec.parent) s).IsPackageScope ⟨s.tables.size⟩ := hfree
  have hlt : s.tables.size < (opened spec.address (some spec.parent) s).tables.size := by simp [opened]
  refine (does_newVararg hfree₀ hlt _).ends fun vararg s₁ hs₁ hvararg => ?_
  have hfree₁ := (not_congr (hs₁.sameObjects.isPackageScope_iff _)).mpr hfree₀
  refine (does_newKwarg hfree₁ _).ends fun kwarg s₂ hs₂ _ => ?_
  have hfree₂ := (not_congr (hs₂.sameObjects.isPackageScope_iff _)).mpr hfree₁
  have hlt₂ := Nat.lt_of_lt_of_le hlt (Steps.extension (hs₁.trans hs₂)).tables
  refine (does_newParams hfree₂ hlt₂ _).ends fun params s₃ hs₃ hparams => ?_
  refine (does_newSymbol _ _ _).ends fun returns s₄ hs₄ hreturns => ?_
  obtain ⟨rfl, htables, hknown, hname, haddress⟩ := hreturns
  have hsteps := (hs₁.trans hs₂).trans hs₃
  have hgrown : s.symbols.size ≤ s₃.symbols.size := (Steps.extension hsteps).symbols
  have hunbound : s.Consistent → ∀ t name, s₄.get? t name ≠ some ⟨s₃.symbols.size⟩ := by
    intro hs t name hid
    have hs₃ := Steps.consistent hsteps (consistent_opened spec.address (some spec.parent) hs)
    unfold get? table at hid
    rw [htables] at hid
    exact Nat.lt_irrefl _ (hs₃.tidy.entry t name _ hid).1
  refine ends_here ⟨_, ⟨rfl, rfl, hgrown, hknown, hunbound, hname, haddress, fun p hp => ?_, fun id hid => ?_⟩, rfl⟩
  · exact hs₄.extension.entry _ _ _ (hparams p hp)
  · obtain ⟨name, hbound⟩ := hvararg id hid
    exact ⟨name, (Steps.extension ((hs₂.trans hs₃).trans hs₄)).entry _ _ _ hbound⟩

theorem extends_pushFunction (s : Store) (info : FunctionInfo) :
    s.Extends { s with functions := s.functions.push info } :=
  { Extends.refl s with
    functions := by simp
    function := fun f hf => by
      unfold function
      rw [getD_push, if_neg (Nat.ne_of_lt hf)] }

theorem opens_newFunction (spec : FunctionSpec) (hfree : ¬ s.IsPackageScope ⟨s.tables.size⟩) :
    Opens s (newFunction spec s).2 spec.address (some spec.parent) := by
  obtain ⟨mid, info, hsteps, -, heq⟩ := newFunction_spec spec hfree
  have hmid := (opens_opened spec.address (some spec.parent) s).steps hsteps
  have hsame : mid.functions = s.functions := hsteps.sameObjects.functions
  rw [heq, ← hsame]
  exact { hmid with
    extension := hmid.extension.trans (extends_pushFunction mid info)
    consistent := fun hs =>
      ⟨{ (hmid.consistent hs).sound with }, (hmid.consistent hs).tidy.entry, (hmid.consistent hs).tidy.once⟩ }

/-! ## Classes and modules -/

/-- A name that a scope does not bind yet gets a symbol with a first value. -/
theorem does_putIn (hfree : ¬ s.IsPackageScope table) {name : String}
    (hnone : s.get? table name = none) {v : Value} (hv : v.Sound s.nextSerial) :
    Does s (putIn table name v) fun _ s' => ∀ other ≠ name, s'.get? table other = s.get? table other := by
  have hcreate : createPrivate table name false s = (⟨s.symbols.size⟩, bound table name false s) := by
    rw [createPrivate_eq, hnone]
  have hempty : (bound table name false s).value ⟨s.symbols.size⟩ = .empty := by
    unfold Store.value Store.symbol bound
    rw [getD_push, if_pos rfl]
  have hput : putIn table name v s = (⟨s.symbols.size⟩, (put ⟨s.symbols.size⟩ v (bound table name false s)).2) := by
    show (createPrivate table name false >>= _) s = _
    rw [bind_apply, hcreate]
    rfl
  unfold Does
  rw [hput]
  refine ⟨.tail (.single ?_) (.init _ ⟨s.symbols.size⟩ hv hempty), fun other hother => ?_⟩
  · have hstep := Step.create s hfree name false
    rwa [hcreate] at hstep
  · unfold get? Store.table
    rw [tables_put]
    show (bound table name false s).get? table other = s.get? table other
    rw [get?_bound, if_neg]
    rintro ⟨-, -, rfl⟩
    exact hother rfl

theorem does_putAll (hfree : ¬ s.IsPackageScope table) {entries : List (String × Value)}
    (hnodup : (entries.map Prod.fst).Nodup) (hnone : ∀ e ∈ entries, s.get? table e.1 = none)
    (hv : ∀ e ∈ entries, e.2.Sound s.nextSerial) : Does s (putAll table entries) fun _ _ => True := by
  induction entries generalizing s with
  | nil => exact does_pure trivial
  | cons e rest ih =>
    obtain ⟨hnot, hnodup⟩ := List.nodup_cons.mp hnodup
    refine (does_putIn hfree (hnone e List.mem_cons_self) (hv e List.mem_cons_self)).bind fun _ s' hs' hsame => ?_
    rw [← hs'.sameObjects.isPackageScope_iff] at hfree
    refine ih hfree hnodup (fun e' he' => ?_) fun e' he' =>
      (hv e' (List.mem_cons_of_mem _ he')).mono hs'.extension.serial
    rw [hsame e'.1 fun heq => hnot (heq ▸ List.mem_map_of_mem he')]
    exact hnone e' (List.mem_cons_of_mem _ he')

/-- A scope that was just opened binds nothing. -/
theorem get?_of_size_le {t : TableId} (h : s.tables.size ≤ t.index) (name : String) : s.get? t name = none := by
  unfold get? table
  rw [getD_of_size_le h]
  rfl

/-- The store with one more class, whose members are in the last scope. -/
def classAdded (name : String) (address : Address) (s : Store) : Store :=
  { opened address none s with classes := s.classes.push ⟨name, ⟨s.tables.size⟩, [], none⟩ }

/-- **A new class** has the scope that was opened for it, and steps have filled the scope. -/
theorem newClass_spec (name : String) (address : Address) (moduleName : String)
    (hfree : ¬ s.IsPackageScope ⟨s.tables.size⟩) :
    ∃ s', Steps (classAdded name address s) s' ∧ newClass name address moduleName s = (⟨s.classes.size⟩, s') := by
  suffices h : Ends (classAdded name address s) (newClass name address moduleName s) fun mid out =>
      out = (⟨s.classes.size⟩, mid) from h
  unfold newClass
  rw [bind_apply, newTable_eq, bind_apply]
  have hfree₀ : ¬ (classAdded name address s).IsPackageScope ⟨s.tables.size⟩ := hfree
  have hnone : ∀ n, (classAdded name address s).get? ⟨s.tables.size⟩ n = none := by
    intro n
    show (opened address none s).get? ⟨s.tables.size⟩ n = none
    rw [get?_opened]
    exact get?_of_size_le (Nat.le_refl _) n
  refine (does_putAll hfree₀ (by simp) (fun e _ => hnone e.1) ?_).ends fun _ s₁ hs₁ _ => ?_
  · simp [Value.ofText, Value.ofType]
  have hfree₁ := (not_congr (hs₁.sameObjects.isPackageScope_iff _)).mpr hfree₀
  refine (does_createPrivate hfree₁ "__dict__" false).ends fun _ s₂ hs₂ _ => ?_
  have hfree₂ := (not_congr (hs₂.sameObjects.isPackageScope_iff _)).mpr hfree₁
  refine (does_createPrivate hfree₂ "__weakref__" false).ends fun _ _ _ _ => ?_
  exact ends_here rfl

theorem extends_classAdded (name : String) (address : Address) (s : Store) : s.Extends (classAdded name address s) :=
  { extends_opened address none s with
    classes := by simp [classAdded]
    classOf := fun c hc => by
      unfold classAdded classOf
      rw [getD_push, if_neg (Nat.ne_of_lt hc)]
      exact ⟨rfl, rfl⟩ }

theorem consistent_classAdded (hs : s.Consistent) (name : String) (address : Address) :
    (classAdded name address s).Consistent := by
  have hopened := consistent_opened address none hs
  refine ⟨{ hopened.sound with bases := fun c b hb => ?_ }, hopened.tidy.entry, hopened.tidy.once⟩
  unfold classAdded classOf at hb
  rw [getD_push] at hb
  split at hb
  · cases hb
  · exact hs.sound.bases c b hb

theorem opens_newClass (name : String) (address : Address) (moduleName : String)
    (hfree : ¬ s.IsPackageScope ⟨s.tables.size⟩) : Opens s (newClass name address moduleName s).2 address none := by
  obtain ⟨s', hsteps, heq⟩ := newClass_spec name address moduleName hfree
  rw [heq]
  refine Opens.steps ?_ hsteps
  exact { opens_opened address none s with
    extension := extends_classAdded name address s
    consistent := fun hs => consistent_classAdded hs name address }

theorem extends_pushModule (s : Store) (info : ModuleInfo) : s.Extends { s with modules := s.modules.push info } :=
  { Extends.refl s with
    modules := by simp
    module := fun m hm => by
      unfold module
      rw [getD_push, if_neg (Nat.ne_of_lt hm)] }

/-- **A new module** has the scope that was opened for it, and steps have filled the scope. -/
theorem newModule_spec (name : String) (path : Path) (builtins : TableId) (hfree : ¬ s.IsPackageScope ⟨s.tables.size⟩) :
    ∃ mid, Steps (opened (.ofFile path) (some builtins) s) mid ∧ newModule name path builtins s = (⟨s.modules.size⟩,
          { mid with modules := s.modules.push ⟨name, path, ⟨s.tables.size⟩⟩ }) := by
  suffices h : Ends (opened (.ofFile path) (some builtins) s) (newModule name path builtins s)
      fun mid out => out = (⟨mid.modules.size⟩,
        { mid with modules := mid.modules.push ⟨name, path, ⟨s.tables.size⟩⟩ }) by
    obtain ⟨mid, hsteps, hout⟩ := h
    have hsame : mid.modules = s.modules := hsteps.sameObjects.modules
    rw [hsame] at hout
    exact ⟨mid, hsteps, hout⟩
  unfold newModule
  rw [bind_apply, newTable_eq]
  have hfree₀ : ¬ (opened (.ofFile path) (some builtins) s).IsPackageScope ⟨s.tables.size⟩ := hfree
  have hnone : ∀ n, (opened (.ofFile path) (some builtins) s).get? ⟨s.tables.size⟩ n = none := by
    intro n
    rw [get?_opened]
    exact get?_of_size_le (Nat.le_refl _) n
  refine (does_putAll hfree₀ (by simp) (fun e _ => hnone e.1) ?_).ends fun _ _ _ _ => ?_
  · simp
  exact ends_here rfl

/-- A new module is the last one. -/
theorem lt_newModule (name : String) (path : Path) (builtins : TableId) (hfree : ¬ s.IsPackageScope ⟨s.tables.size⟩) :
    s.modules.size < (newModule name path builtins s).2.modules.size := by
  obtain ⟨mid, -, heq⟩ := newModule_spec name path builtins hfree
  rw [heq]
  simp

end Surmise.StoreM
