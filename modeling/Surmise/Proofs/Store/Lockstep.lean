import Surmise.Proofs.Query.Mirror

/-!
# Writes to corresponding stores

Two computations in lockstep: started in corresponding stores they give corresponding results and lead to
corresponding stores, as long as the first of them makes no symbol. So a binding that is asked for must have
been there already, and the second computation finds it too.

* `Store.Onward`: symbols are only added, and scopes too where no symbol is.
* `StoreM.Lockstep` with a rule for each way to put computations together, and a lemma for each write that
  evaluation is made of.
* `Analysis.lockstep_applyPolicies`: so does building a class by the policies that come with the analysis.
-/

namespace Surmise

open Value StoreM World

/-- No symbol is lost, and without a new symbol no scope is changed and no function is made. -/
structure Store.Onward (s t : Store) : Prop where
  symbols : s.symbols.size ≤ t.symbols.size
  tables : t.symbols.size = s.symbols.size → s.tables.toList <+: t.tables.toList
  functions : t.symbols.size = s.symbols.size → t.functions = s.functions

namespace Store

variable {s t u : Store}

theorem KeepsDefinitions.onward (h : s.KeepsDefinitions t) : s.Onward t :=
  ⟨h.symbols, h.tables, fun _ => h.functions⟩

theorem onward_of_lt (h : s.symbols.size < t.symbols.size) : s.Onward t :=
  ⟨Nat.le_of_lt h, fun hsame => absurd hsame (Nat.ne_of_gt h), fun hsame => absurd hsame (Nat.ne_of_gt h)⟩

theorem Onward.refl (s : Store) : s.Onward s := ⟨Nat.le_refl _, fun _ => List.prefix_rfl, fun _ => rfl⟩

theorem Onward.trans (h : s.Onward t) (h' : t.Onward u) : s.Onward u := by
  have hfirst := h.symbols
  have hsecond := h'.symbols
  refine ⟨Nat.le_trans hfirst hsecond, fun hsame => ?_, fun hsame => ?_⟩
  · exact (h.tables (by omega)).trans (h'.tables (by omega))
  · exact (h'.functions (by omega)).trans (h.functions (by omega))

/-- A run that comes to a store was in its course before, unless it has lost symbols. -/
theorem Onward.admitted {R : Course} (h : s.Onward t) (hcount : R.symbols ≤ s.symbols.size)
    (hend : R.AdmitsStore t) : R.AdmitsStore s := by
  have hle := h.symbols
  have hsame : s.symbols.size = R.symbols := by
    have := hend.count
    omega
  exact ⟨hsame, (h.tables (hend.count.trans hsame.symm)).trans hend.known⟩

end Store

/-- The second computation does in corresponding stores what the first one does. -/
structure StoreM.Lockstep {α β : Type} (R : Course) (g : α → β) (act : StoreM α) (act' : StoreM β) : Prop where
  keeps : KeepsDefinitions act
  follows : ∀ {s s' : Store}, s.Mirror R s' → R.AdmitsStore (act s).2 →
    (act' s').1 = g (act s).1 ∧ (act s).2.Mirror R (act' s').2

namespace StoreM

variable {R : Course} {α β γ δ : Type} {g : α → β} {k : γ → δ}

/-! ## Rules -/

theorem lockstep_pure (a : α) : Lockstep R g (pure a) (pure (g a)) :=
  ⟨keeps_pure a, fun h _ => ⟨rfl, h⟩⟩

theorem Lockstep.bind {act : StoreM α} {act' : StoreM β} {next : α → StoreM γ} {next' : β → StoreM δ}
    (h : Lockstep R g act act') (hnext : ∀ a, Lockstep R k (next a) (next' (g a))) :
    Lockstep R k (act >>= next) (act' >>= next') := by
  refine ⟨h.keeps.bind fun a => (hnext a).keeps, fun {s s'} hs hend => ?_⟩
  have hmid : R.AdmitsStore (act s).2 :=
    ((hnext (act s).1).keeps (act s).2).onward.admitted (hs.count ▸ (h.keeps s).symbols) hend
  obtain ⟨hvalue, hstore⟩ := h.follows hs hmid
  have hrest := (hnext (act s).1).follows hstore hend
  rw [← hvalue] at hrest
  exact hrest

/-- A look at what is the same in the stores. -/
theorem lockstep_look {next : α → StoreM γ} {next' : α → StoreM δ} (hnext : ∀ a, Lockstep R k (next a) (next' a))
    (d d' : Store → α) (hd : ∀ {s s' : Store}, s.Mirror R s' → d' s' = d s) :
    Lockstep R k (get >>= fun s => next (d s)) (get >>= fun s => next' (d' s)) := by
  refine ⟨keeps_get_bind fun s => (hnext (d s)).keeps, fun {s s'} hs hend => ?_⟩
  rw [bind_apply, bind_apply, get_apply, get_apply, hd hs]
  exact (hnext (d s)).follows hs hend

theorem lockstep_mapM {e : γ → δ} {f : γ → StoreM α} {f' : δ → StoreM β} {xs : List γ}
    (h : ∀ x ∈ xs, Lockstep R g (f x) (f' (e x))) : Lockstep R (List.map g) (xs.mapM f) ((xs.map e).mapM f') := by
  induction xs with
  | nil => exact lockstep_pure []
  | cons x rest ih =>
    rw [List.map_cons, List.mapM_cons, List.mapM_cons]
    refine (h x List.mem_cons_self).bind fun b => ?_
    exact (ih fun y hy => h y (List.mem_cons_of_mem x hy)).bind fun bs => lockstep_pure (b :: bs)

theorem Lockstep.map {act act' : StoreM α} (h : Lockstep R id act act') (f : α → β) :
    Lockstep R id (f <$> act) (f <$> act') :=
  ⟨h.keeps.map f, fun hs hend => (h.follows hs hend).imp_left (congrArg f)⟩

theorem lockstep_forIn {body body' : α → Unit → StoreM (ForInStep Unit)} {xs : List α}
    (h : ∀ x ∈ xs, Lockstep R id (body x ()) (body' x ())) :
    Lockstep R id (forIn xs () body) (forIn xs () body') := by
  induction xs with
  | nil => exact lockstep_pure ()
  | cons x rest ih =>
    rw [List.forIn_cons, List.forIn_cons]
    refine (h x List.mem_cons_self).bind fun out => ?_
    cases out with
    | done => exact lockstep_pure ()
    | yield => exact ih fun y hy => h y (List.mem_cons_of_mem x hy)

/-- A look at the stores, from which on their scopes are known. -/
theorem lockstep_get_based {next : Store → StoreM γ} {next' : Store → StoreM δ}
    (hkeeps : ∀ s : Store, s.KeepsDefinitions (next s s).2)
    (hnext : ∀ {s s' : Store}, s.Mirror R s' → Lockstep (R.rebase s s') k (next s) (next' s')) :
    Lockstep R k (get >>= next) (get >>= next') := by
  refine ⟨hkeeps, fun {s s'} hs hend => ?_⟩
  obtain ⟨hvalue, hstore⟩ := (hnext hs).follows hs.rebased ⟨hend.count, hend.known⟩
  exact ⟨hvalue, hs.unbased hstore⟩

end StoreM

/-! ## Symbols -/

theorem modify_map {α β : Type} (a : Array α) (f : α → β) (i : Nat) {g : α → α} {g' : β → β}
    (h : ∀ x, g' (f x) = f (g x)) : (a.map f).modify i g' = (a.modify i g).map f := by
  apply Array.ext_getElem?
  intro j
  rw [Array.getElem?_modify, Array.getElem?_map, Array.getElem?_map, Array.getElem?_modify]
  split
  · cases a[j]? with
    | none => rfl
    | some x => exact congrArg some (h x)
  · rfl

namespace StoreM

theorem tables_opened (address : Address) (parent : Option TableId) (s : Store) :
    (opened address parent s).tables.toList = s.tables.toList ++ [⟨address, .empty, parent⟩] :=
  Array.toList_push

theorem prefix_opened (address : Address) (parent : Option TableId) (s : Store) :
    s.tables.toList <+: (opened address parent s).tables.toList :=
  tables_opened address parent s ▸ List.prefix_append _ _

theorem getElem?_opened (address : Address) (parent : Option TableId) (s : Store) :
    (opened address parent s).tables.toList[s.tables.size]? = some ⟨address, .empty, parent⟩ := by
  simp [tables_opened]

/-- Names can be looked up from a new scope if they can be from the one it lies in. -/
theorem chained_opened (address : Address) {s : Store} {outer : TableId} (h : Chained s.tables.toList outer) :
    Chained (opened address (some outer) s).tables.toList ⟨s.tables.size⟩ :=
  .inner (getElem?_opened address (some outer) s) rfl h.lt_size (h.mono (prefix_opened address (some outer) s))

end StoreM

namespace Store.Mirror

variable {R : Course} {s s' : Store} (h : s.Mirror R s')

include h

/-- A value takes the same numbers in both stores, up to the shift. -/
theorem number (v : Value) : (v.shift R.shift).number s'.nextSerial =
    ((v.number s.nextSerial).1.shift R.shift, (v.number s.nextSerial).2 + R.shift.amount) := by
  rw [h.serial]
  exact number_shift R.shift v h.start

theorem publish (symbol : SymbolId) (isPrivate : Bool) :
    (StoreM.publish symbol isPrivate s).Mirror R (StoreM.publish symbol isPrivate s') := by
  refine { h with count := Array.size_modify.trans h.count, symbols := ?_ }
  unfold StoreM.publish
  dsimp only
  rw [h.symbols]
  exact modify_map s.symbols (Symbol.shift R.shift) symbol.index fun _ => rfl

/-! ## Scopes -/

/-- The first evaluation opens a scope. -/
theorem openScope (address : Address) (parent : Option TableId)
    (hknown : (StoreM.opened address parent s).tables.toList <+: R.tables) :
    (StoreM.opened address parent s).Mirror R s' := by
  have htables := StoreM.prefix_opened address parent s
  have hsize : s.tables.size ≤ (StoreM.opened address parent s).tables.size := by simpa using htables.length_le
  exact { h with
      known := hknown
      based := h.based.trans htables
      outermost := h.outermost.mono htables
      classScopes := fun info hinfo => Nat.lt_of_lt_of_le (h.classScopes info hinfo) hsize
      moduleScopes := fun info hinfo => (h.moduleScopes info hinfo).mono htables
      packageScopes := fun info hinfo => Nat.lt_of_lt_of_le (h.packageScopes info hinfo) hsize }

/-- The second evaluation opens a scope. -/
theorem openScopeAgain (address : Address) (parent : Option TableId) :
    s.Mirror R (StoreM.opened address parent s') := by
  have htables := StoreM.prefix_opened address parent s'
  exact { h with opened := h.opened.trans htables, based' := h.based'.trans htables }

end Store.Mirror

namespace StoreM

open Store

variable {R : Course} {table : TableId} {s : Store} {table' : TableId} {name : String}

theorem lockstep_numbered (v : Value) : Lockstep R (shift R.shift) (numbered v) (numbered (v.shift R.shift)) := by
  refine ⟨keeps_numbered v, fun {s s'} h _ => ?_⟩
  rw [numbered_eq, numbered_eq, h.number]
  exact ⟨rfl, { h with serial := rfl, start := Nat.le_trans h.start (le_number v s.nextSerial) }⟩

theorem lockstep_put (symbol : SymbolId) (v : Value) : Lockstep R id (put symbol v) (put symbol (v.shift R.shift)) := by
  refine ⟨keeps_put symbol v, fun {s s'} h _ => ?_⟩
  rw [put_eq, put_eq, h.number]
  refine ⟨rfl, { h with
    count := Array.size_modify.trans h.count, symbols := ?_, serial := rfl
    start := Nat.le_trans h.start (le_number v s.nextSerial) }⟩
  unfold withValue
  dsimp only
  rw [h.symbols]
  exact modify_map s.symbols (Symbol.shift R.shift) symbol.index fun _ => rfl

theorem lockstep_producePrivate (symbol : SymbolId) (v : Value) (isPrivate : Bool) :
    Lockstep R id (producePrivate symbol v isPrivate) (producePrivate symbol (v.shift R.shift) isPrivate) := by
  refine ⟨keeps_producePrivate symbol v isPrivate, fun {s s'} h hend => ?_⟩
  rw [producePrivate_eq] at hend ⊢
  rw [producePrivate_eq, isEmpty_shift]
  split at hend
  · next hv =>
    rw [if_pos hv, if_pos hv]
    exact ⟨rfl, h.publish symbol isPrivate⟩
  · next hv =>
    have hjoined : unite [s'.value symbol, v.shift R.shift] = (unite [s.value symbol, v]).shift R.shift := by
      rw [h.value, shift_unite]
      rfl
    rw [if_neg hv, if_neg hv, hjoined]
    exact (lockstep_put symbol _).follows (h.publish symbol isPrivate) hend

theorem lockstep_produce (symbol : SymbolId) (v : Value) :
    Lockstep R id (produce symbol v) (produce symbol (v.shift R.shift)) :=
  lockstep_producePrivate symbol v false

/-- A binding was there already, in both stores, because no symbol is made. -/
theorem lockstep_createPrivate
    (hget : ∀ {s s' : Store}, s.Mirror R s' → s'.get? table' name = s.get? table name) (isPrivate : Bool) :
    Lockstep R id (createPrivate table name isPrivate) (createPrivate table' name isPrivate) := by
  refine ⟨keeps_createPrivate table name isPrivate, fun {s s'} h hend => ?_⟩
  rw [createPrivate_eq] at hend ⊢
  rw [createPrivate_eq, hget h]
  cases hfound : s.get? table name with
  | some symbol => exact ⟨rfl, h⟩
  | none =>
    rw [hfound] at hend
    have hmade : (bound table name isPrivate s).symbols.size = s.symbols.size + 1 := Array.size_push _
    have hcount := hend.count
    rw [hmade, h.count] at hcount
    omega

/-- A scope that was there from the beginning. -/
theorem get?_of_based (ht : table.index < R.base.length) (name : String) {s' : Store} (h : s.Mirror R s') :
    s'.get? table name = s.get? table name := by
  refine h.get? (Nat.lt_of_lt_of_le ht ?_) name
  simpa using h.based.length_le

theorem lockstep_create (ht : table.index < R.base.length) (name : String) :
    Lockstep R id (create table name) (create table name) :=
  lockstep_createPrivate (get?_of_based ht name) false

theorem lockstep_produceIn (ht : table.index < R.base.length) (name : String) (v : Value) :
    Lockstep R id (produceIn table name v) (produceIn table name (v.shift R.shift)) :=
  (lockstep_create ht name).bind fun symbol => lockstep_produce symbol v

theorem lockstep_clearValues
    (hsame : ∀ {s s' : Store}, s.Mirror R s' → s'.table table' = s.table table) :
    Lockstep R id (clearValues table) (clearValues table') := by
  have hclear : ∀ symbols : List SymbolId, Lockstep R id (do for symbol in symbols do put symbol .empty)
      (do for symbol in symbols do put symbol .empty) := fun symbols =>
    (lockstep_forIn fun symbol _ => (lockstep_put symbol .empty).bind
      fun _ => lockstep_pure (ForInStep.yield ())).bind fun _ => lockstep_pure ()
  refine lockstep_look hclear (·.symbolsOf table) (·.symbolsOf table') fun h => ?_
  rw [symbolsOf, symbolsOf, hsame h]

/-! ## Keyword dictionaries -/

theorem lockstep_addKwarg (dict : KwargsId) (name : String) (v : Value) :
    Lockstep R id (addKwarg dict name v) (addKwarg dict name (v.shift R.shift)) := by
  refine ⟨keeps_addKwarg dict name v, fun {s s'} h _ => ?_⟩
  have hjoined : joinedKwarg s' dict name (v.shift R.shift) = (joinedKwarg s dict name v).shift R.shift := by
    rw [joinedKwarg, joinedKwarg, h.kwargsOf, OrderedMap.get?_shift]
    cases (s.kwargsOf dict).get? name with
    | none => rfl
    | some current => simp
  rw [addKwarg_eq, addKwarg_eq, hjoined, h.number]
  refine ⟨rfl, { h with
    kwargs := ?_, serial := rfl, start := Nat.le_trans h.start (le_number _ s.nextSerial) }⟩
  dsimp only
  rw [h.kwargs]
  exact modify_map s.kwargs (OrderedMap.shift R.shift) dict.index fun d => d.insert_shift R.shift name _

theorem lockstep_setIndexOne (key v d : Value) : Lockstep R (shift R.shift) (setIndexOne key v d)
      (setIndexOne (key.shift R.shift) (v.shift R.shift) (d.shift R.shift)) := by
  cases d
  case list e =>
    have hgrown : listOf (unite [e.shift R.shift, v.shift R.shift]) = (listOf (unite [e, v])).shift R.shift := by simp
    rw [shift, setIndexOne, setIndexOne, hgrown]
    exact lockstep_pure _
  case dict k w =>
    have hgrown : dictOf (unite [k.shift R.shift, (key.shift R.shift).widen])
        (unite [w.shift R.shift, (v.shift R.shift).widen]) =
        (dictOf (unite [k, key.widen]) (unite [w, v.widen])).shift R.shift := by simp
    rw [shift, setIndexOne, setIndexOne, hgrown]
    exact lockstep_pure _
  case kwargs dict =>
    simp only [shift, setIndexOne, text?_shift]
    cases key.text? with
    | none => exact lockstep_pure (kwargs dict)
    | some name => exact (lockstep_addKwarg dict name v).bind fun _ => lockstep_pure (kwargs dict)
  all_goals exact lockstep_pure _

theorem lockstep_setIndex (base key v : Value) : Lockstep R (shift R.shift) (setIndex base key v)
      (setIndex (base.shift R.shift) (key.shift R.shift) (v.shift R.shift)) := by
  unfold setIndex
  rw [disjuncts_shift]
  refine (lockstep_mapM fun d _ => lockstep_setIndexOne key v d).bind fun vs => ?_
  rw [← shift_unite]
  exact lockstep_pure _

/-! ## Members -/

theorem lockstep_madeSymbol {make : Bool} {table? : Option TableId} {found : Option SymbolId}
    (ht : ∀ t ∈ table?, t.index < R.base.length) :
    Lockstep R id (madeSymbol make name table? found) (madeSymbol make name table? found) := by
  unfold madeSymbol
  split
  · next table => exact (lockstep_create (ht table rfl) name).map some
  · exact lockstep_pure found

theorem lockstep_memberSymbol (graph : Graph) (make : Bool) (name : String) (v : Value) :
    Lockstep R id (memberSymbol graph make name v) (memberSymbol graph make name (v.shift R.shift)) := by
  refine lockstep_get_based (keeps_memberSymbol graph make name v) fun {s s'} h => ?_
  have hw : Mirror R ⟨graph, s, false⟩ ⟨graph, s', false⟩ := ⟨rfl, rfl, h⟩
  have ht : ∀ t ∈ memberTable? ⟨graph, s, false⟩ v, t.index < (R.rebase s s').base.length := by
    intro t ht
    simpa [Course.rebase] using hw.memberTable?_lt ht
  dsimp only
  rw [hw.memberSymbol?, hw.memberTable?]
  generalize memberTable? _ v = table? at ht ⊢
  generalize memberSymbol? _ name v = found
  cases v
  case packageRef p => exact lockstep_madeSymbol ht
  all_goals
    cases found with
    | some symbol => exact lockstep_pure (some symbol)
    | none => exact lockstep_madeSymbol ht

theorem lockstep_memberSymbols (graph : Graph) (make : Bool) (name : String) (symbols : List SymbolId)
    (vs : List Value) :
    Lockstep R id (memberSymbols graph make name symbols vs)
      (memberSymbols graph make name symbols (vs.map (shift R.shift))) := by
  induction vs generalizing symbols with
  | nil => exact lockstep_pure symbols
  | cons v rest ih =>
    refine (lockstep_memberSymbol graph make name v).bind fun found => ?_
    cases found with
    | some symbol => exact ih (addSymbol symbols symbol)
    | none => exact ih symbols

/-! ## Classes -/

theorem mirror_modifyClass (c : ClassId) {f f' : ClassInfo → ClassInfo}
    (hf : ∀ info, f' (info.shift R.shift) = (f info).shift R.shift) (hmembers : ∀ info, (f info).members = info.members)
    {s' : Store} (h : s.Mirror R s') : (modifyClass c f s).2.Mirror R (modifyClass c f' s').2 := by
  rw [modifyClass_eq, modifyClass_eq]
  refine { h with classes := ?_, classScopes := fun info hinfo => ?_ }
  · show s'.classes.modify c.index f' = _
    rw [h.classes]
    exact modify_map s.classes (ClassInfo.shift R.shift) c.index hf
  · obtain ⟨i, hi, rfl⟩ := Array.mem_iff_getElem.mp hinfo
    rw [Array.getElem_modify]
    have hmem := h.classScopes _ (Array.getElem_mem (Array.size_modify ▸ hi))
    split
    · rw [hmembers]
      exact hmem
    · exact hmem

theorem lockstep_addSubclass (c sub : ClassId) : Lockstep R id (addSubclass c sub) (addSubclass c sub) := by
  refine ⟨keeps_addSubclass c sub, fun {s s'} h _ => ⟨rfl, { h with subclassLinks := ?_ }⟩⟩
  show (if (c, sub) ∈ s'.subclassLinks then _ else _) = if (c, sub) ∈ s.subclassLinks then _ else _
  rw [h.subclassLinks]

/-! ## What is made with symbols -/

theorem symbols_lt_bind {α β : Type} {act : StoreM α} {next : α → StoreM β} (h : KeepsDefinitions act)
    (hnext : ∀ a t, t.symbols.size < (next a t).2.symbols.size) : s.symbols.size < ((act >>= next) s).2.symbols.size :=
  Nat.lt_of_le_of_lt (h s).symbols (hnext _ _)

/-- A function has at least a symbol for what it returns. -/
theorem symbols_lt_newFunction (spec : FunctionSpec) (s : Store) :
    s.symbols.size < (newFunction spec s).2.symbols.size := by
  refine symbols_lt_bind (keeps_newTable _ _) fun locals _ => ?_
  refine symbols_lt_bind (keeps_newVararg locals _) fun vararg _ => ?_
  refine symbols_lt_bind (keeps_newKwarg locals _) fun kwarg _ => ?_
  refine symbols_lt_bind (keeps_newParams locals _) fun params t => ?_
  show t.symbols.size < (t.symbols.push _).size
  rw [Array.size_push]
  exact Nat.lt_succ_self _

theorem symbols_lt_putAll (entry : String × Value) (rest : List (String × Value)) (hnone : s.get? table entry.1 = none)
    : s.symbols.size < (putAll table (entry :: rest) s).2.symbols.size := by
  have hcreate : create table entry.1 s = (⟨s.symbols.size⟩, bound table entry.1 false s) := by
    unfold create
    rw [createPrivate_eq, hnone]
  have hmade : (bound table entry.1 false s).symbols.size = s.symbols.size + 1 := Array.size_push _
  have hput : s.symbols.size < (putIn table entry.1 entry.2 s).2.symbols.size := by
    unfold putIn
    rw [bind_apply, hcreate]
    exact Nat.lt_of_lt_of_le (hmade ▸ Nat.lt_succ_self _) (keeps_put _ entry.2 _).symbols
  exact Nat.lt_of_lt_of_le hput (keeps_putAll table rest _).symbols

/-- A class has at least a member for its name. -/
theorem symbols_lt_newClass (name : String) (address : Address) (moduleName : String) (s : Store) :
    s.symbols.size < (newClass name address moduleName s).2.symbols.size := by
  have hnone : (classAdded name address s).get? ⟨s.tables.size⟩ "__name__" = none :=
    (get?_opened address none s _ _).trans (get?_of_size_le (Nat.le_refl _) _)
  have hmade : ∃ rest, newClass name address moduleName s =
      (putAll ⟨s.tables.size⟩ (("__name__", .ofText name) :: rest) >>= fun _ => create ⟨s.tables.size⟩ "__dict__" >>=
        fun _ => create ⟨s.tables.size⟩ "__weakref__" >>= fun _ => pure ⟨s.classes.size⟩)
        (classAdded name address s) := by
    apply Exists.intro
    unfold newClass
    rw [bind_apply, newTable_eq, bind_apply]
    rfl
  have hrest : ∀ (members : TableId) (id : ClassId), KeepsDefinitions (create members "__dict__" >>=
      fun _ => create members "__weakref__" >>= fun _ => pure id) := fun members id =>
    (keeps_create members _).bind fun _ => (keeps_create members _).bind fun _ => keeps_pure id
  obtain ⟨rest, heq⟩ := hmade
  rw [heq, bind_apply]
  exact Nat.lt_of_lt_of_le (symbols_lt_putAll (s := classAdded name address s) _ rest hnone) (hrest _ _ _).symbols

end StoreM

/-! ## Policies -/

/-- The second computation does in corresponding stores what the first one does, or fails alike. -/
abbrev Analysis.Lockstep {α : Type} (R : Course) (act act' : Analysis α) : Prop :=
  StoreM.Lockstep R id act.run act'.run

namespace Analysis

variable {R : Course} {α β : Type} {body body' : TableId} {p : ClassPolicy}

theorem lockstep_pure (a : α) : Lockstep R (pure a) (pure a) := StoreM.lockstep_pure (Except.ok a)

theorem lockstep_throw (e : AnalysisError) : Lockstep R (throw e : Analysis α) (throw e) :=
  StoreM.lockstep_pure (Except.error e)

theorem Lockstep.bind {act act' : Analysis α} {next next' : α → Analysis β} (h : Lockstep R act act')
    (hnext : ∀ a, Lockstep R (next a) (next' a)) : Lockstep R (act >>= next) (act' >>= next') := by
  show StoreM.Lockstep R id (act.run >>= ExceptT.bindCont next) (act'.run >>= ExceptT.bindCont next')
  refine StoreM.Lockstep.bind h fun out => ?_
  cases out with
  | error e => exact lockstep_throw e
  | ok a => exact hnext a

theorem lockstep_lift {act act' : StoreM α} (h : StoreM.Lockstep R id act act') :
    Lockstep R (liftM act : Analysis α) (liftM act') :=
  h.map Except.ok

theorem lockstep_get {next next' : Store → Analysis β} (hkeeps : KeepsDefinitions (get >>= next))
    (hnext : ∀ {s s' : Store}, s.Mirror R s' → Lockstep R (next s) (next' s')) :
    Lockstep R (get >>= next) (get >>= next') :=
  ⟨fun s => (hkeeps s).1, fun hs hend => (hnext hs).follows hs hend⟩

theorem lockstep_get_based {next next' : Store → Analysis β} (hkeeps : KeepsDefinitions (get >>= next))
    (hnext : ∀ {s s' : Store}, s.Mirror R s' → Lockstep (R.rebase s s') (next s) (next' s')) :
    Lockstep R (get >>= next) (get >>= next') :=
  have hrun : StoreM.Lockstep R id (get >>= fun s => (next s).run : StoreM _) (get >>= fun s => (next' s).run) :=
    StoreM.lockstep_get_based (fun s => (hkeeps s).1) hnext
  ⟨fun s => (hkeeps s).1, hrun.follows⟩

theorem lockstep_forIn {body body' : α → Unit → Analysis (ForInStep Unit)} {xs : List α}
    (h : ∀ x ∈ xs, Lockstep R (body x ()) (body' x ())) :
    Lockstep R (forIn xs () body) (forIn xs () body') := by
  induction xs with
  | nil => exact lockstep_pure ()
  | cons x rest ih =>
    rw [List.forIn_cons, List.forIn_cons]
    refine (h x List.mem_cons_self).bind fun out => ?_
    cases out with
    | done => exact lockstep_pure ()
    | yield => exact ih fun y hy => h y (List.mem_cons_of_mem x hy)

theorem lockstep_produceIf (c : Bool) (symbol : SymbolId) (v : Value) (e : AnalysisError) :
    Lockstep R (if c then liftM (produce symbol v) else throw e)
      (if c then liftM (produce symbol (v.shift R.shift)) else throw e) := by
  cases c with
  | true => exact lockstep_lift (lockstep_produce symbol v)
  | false => exact lockstep_throw e

/-- A binding of a class body becomes a member. -/
theorem lockstep_mergeMember {members : TableId} (ht : members.index < R.base.length) (binding : SymbolId) :
    Lockstep R (mergeMember members binding) (mergeMember members binding) := by
  refine lockstep_get (keeps_mergeMember members binding) fun {s s'} h => ?_
  rw [h.symbol]
  refine (lockstep_lift (lockstep_create ht _)).bind fun member => ?_
  refine lockstep_get (keeps_get_bind fun t => keeps_produceIf _ member _ nofun) fun {t t'} h => ?_
  rw [h.symbol]
  exact lockstep_produceIf _ member _ _

theorem lockstep_mergeMembers (c : ClassId) (hsame : ∀ {s s' : Store}, s.Mirror R s' → s'.table body' = s.table body) :
    Lockstep R (mergeMembers c body) (mergeMembers c body') := by
  refine lockstep_get_based (keeps_mergeMembers c body) fun {s s'} h => ?_
  have ht : (s.classOf c).members.index < (R.rebase s s').base.length := by
    simpa [Course.rebase] using h.members_lt c
  rw [h.members]
  refine lockstep_get (keeps_get_bind fun t => keeps_mergeAll _ _) fun {t t'} hstore => ?_
  have hsymbols : t'.symbolsOf body' = t.symbolsOf body := by
    rw [Store.symbolsOf, Store.symbolsOf, hsame (h.unbased hstore)]
  rw [hsymbols]
  exact (lockstep_forIn fun binding _ => (lockstep_mergeMember ht binding).bind
    fun _ => lockstep_pure (ForInStep.yield ())).bind fun _ => lockstep_pure ()

theorem lockstep_produceIn {table : TableId} (ht : table.index < R.base.length) (name : String) {v : Value}
    (hv : v.shift R.shift = v) :
    Lockstep R (liftM (StoreM.produceIn table name v) : Analysis Unit) (liftM (StoreM.produceIn table name v)) := by
  have hwrite := StoreM.lockstep_produceIn ht name v
  rw [hv] at hwrite
  exact lockstep_lift hwrite

theorem lockstep_build (hp : p.IsBundled) (graph : Graph) (c : ClassId)
    (hsame : ∀ {s s' : Store}, s.Mirror R s' → s'.table body' = s.table body) :
    Lockstep R (p.build graph c body) (p.build graph c body') := by
  cases hp with
  | plain => exact lockstep_mergeMembers c hsame
  | orm =>
    refine (lockstep_mergeMembers c hsame).bind fun _ => ?_
    refine lockstep_get_based (keeps_modelMembers graph c) fun {s s'} h => ?_
    have ht : (s.classOf c).members.index < (R.rebase s s').base.length := by
      simpa [Course.rebase] using h.members_lt c
    rw [h.members]
    refine (lockstep_produceIn ht "objects" rfl).bind fun _ => ?_
    refine (lockstep_forIn fun entry _ => ?_).bind fun _ => (lockstep_forIn fun field _ => ?_).bind
      fun _ => lockstep_pure ()
    · -- what an exception is taken from stands in the graph
      refine lockstep_get (keeps_get_bind fun t => (keeps_produceIn _ _ _).bind fun _ => keeps_pure _) fun _ => ?_
      exact (lockstep_produceIn ht entry.1 (shift_of_sound _ (ClassPolicy.sound_modelException _ _))).bind
        fun _ => lockstep_pure _
    · exact (lockstep_produceIn ht field rfl).bind fun _ => lockstep_pure _
  | marking name base member =>
    refine (lockstep_mergeMembers c hsame).bind fun _ => ?_
    refine lockstep_get_based (keeps_get_bind fun _ => keeps_produceIn _ _ _) fun {s s'} h => ?_
    rw [h.members]
    exact lockstep_produceIn (by simpa [Course.rebase] using h.members_lt c) member rfl

theorem find?_congr {p q : α → Bool} {xs : List α} (h : ∀ x ∈ xs, p x = q x) : xs.find? p = xs.find? q := by
  induction xs with
  | nil => rfl
  | cons x rest ih =>
    rw [List.find?_cons, List.find?_cons, h x List.mem_cons_self, ih fun y hy => h y (List.mem_cons_of_mem x hy)]

/-- A policy applies to a class by what its bases are, which no shift changes. -/
theorem applies_shift (hp : p.IsBundled) {w w' : World} (h : w.Mirror R w') (bases : List Value) :
    p.applies w' (bases.map (shift R.shift)) = p.applies w bases := by
  have hany : ∀ {test test' : Value → Bool}, (∀ v : Value, test' (v.shift R.shift) = test v) →
      (flatten (bases.map (shift R.shift))).any test' = (flatten bases).any test := by
    intro test test' htest
    rw [flatten_map_shift, List.any_map]
    exact congrArg (List.any (flatten bases)) (funext htest)
  cases hp with
  | plain => rfl
  | orm =>
    refine hany fun v => ?_
    cases v
    case external path => simp only [shift, h.graph]
    case classRef c =>
      simp only [shift, h.store.classOf]
      rfl
    all_goals rfl
  | marking name base member =>
    refine hany fun v => ?_
    cases v
    case classRef c =>
      simp only [shift, h.store.classOf]
      rfl
    all_goals rfl

theorem lockstep_applyPolicies {policies : List ClassPolicy} (hp : ∀ p ∈ policies, p.IsBundled) (graph : Graph)
    (c : ClassId) (hsame : ∀ {s s' : Store}, s.Mirror R s' → s'.table body' = s.table body) :
    Lockstep R (applyPolicies graph policies c body) (applyPolicies graph policies c body') := by
  refine lockstep_get (keeps_applyPolicies hp graph c body) fun {s s'} h => ?_
  have hfind : policies.find? (fun p => p.applies ⟨graph, s', false⟩ (s'.classOf c).bases) =
      policies.find? fun p => p.applies ⟨graph, s, false⟩ (s.classOf c).bases := by
    have hw : World.Mirror R ⟨graph, s, false⟩ ⟨graph, s', false⟩ := ⟨rfl, rfl, h⟩
    rw [h.bases]
    exact find?_congr fun p hmem => applies_shift (hp p hmem) hw _
  dsimp only
  rw [hfind]
  split
  · next policy hfound =>
    have hnote : StoreM.Lockstep R id (StoreM.modifyClass c fun info => { info with framework := some policy.name })
        (StoreM.modifyClass c fun info => { info with framework := some policy.name }) := by
      refine ⟨StoreM.keeps_modifyClass c fun _ => rfl, fun h _ => ⟨rfl, ?_⟩⟩
      refine StoreM.mirror_modifyClass c ?_ ?_ h <;> exact fun _ => rfl
    have hpolicy := hp policy (List.mem_of_find?_eq_some hfound)
    exact (lockstep_lift hnote).bind fun _ => lockstep_build hpolicy graph c hsame
  · exact lockstep_build .plain graph c hsame

end Analysis

end Surmise
