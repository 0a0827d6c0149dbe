import Surmise.Proofs.Propagation.Lockstep.Resumption
import Surmise.Proofs.Store.Productions

/-!
# Passes over an assignment

An assignment to a name that is bound joins a value into a symbol. If evaluating the value does not look at that
symbol and changes nothing, further passes join shifts of the same value.

* `Session.holding`, `Run.Overlooks`: a symbol holds something else, and a computation does not look at it.
* `Run.repeatedly_keeps`: what one pass keeps, all further passes keep.
* `Evaluator.pass_assign`: what a single pass does.
* `Evaluator.passes_assign`: what any number of passes does.
-/

namespace Surmise

open Value Session Store

/-! ## A symbol that holds something else -/

/-- The store in which a symbol holds something else. -/
def Store.holding (s : Store) (id : SymbolId) (v : Value) (isPrivate : Bool) : Store :=
  { s with symbols := s.symbols.modify id.index fun symbol => { symbol with value := v, isPrivate } }

theorem modify_modify {α : Type} (a : Array α) (i : Nat) (f g : α → α) :
    (a.modify i f).modify i g = a.modify i (g ∘ f) := by
  rw [← Array.toList_inj, Array.toList_modify, Array.toList_modify, Array.toList_modify, List.modify_modify_eq]

namespace Store

variable (s : Store) (id : SymbolId) (v : Value) (isPrivate : Bool)

theorem symbol_holding (other : SymbolId) : (s.holding id v isPrivate).symbol other =
    if id.index = other.index ∧ other.index < s.symbols.size then { s.symbol other with value := v, isPrivate }
    else s.symbol other :=
  getD_modify s.symbols id.index other.index _ default

theorem value_holding (hid : id.index < s.symbols.size) : (s.holding id v isPrivate).value id = v := by
  rw [value, symbol_holding, if_pos ⟨rfl, hid⟩]

theorem name_holding (other : SymbolId) : ((s.holding id v isPrivate).symbol other).name = (s.symbol other).name := by
  rw [symbol_holding]
  split <;> rfl

theorem holding_self : s.holding id (s.value id) (s.symbol id).isPrivate = s := by
  have hsame : s.symbols.modify id.index (fun symbol =>
      { symbol with value := s.value id, isPrivate := (s.symbol id).isPrivate }) = s.symbols := by
    refine Array.ext_getElem? fun i => ?_
    rw [Array.getElem?_modify]
    split
    · next heq =>
      subst heq
      cases hget : s.symbols[id.index]? with
      | none => rfl
      | some symbol =>
        have hsymbol : s.symbol id = symbol := by rw [Store.symbol, Array.getD_eq_getD_getElem?, hget]; rfl
        rw [Option.map_some, value, hsymbol]
    · rfl
  rw [holding, hsame]

/-- The stores bind the same names to the same symbols, whatever these hold. -/
structure SameNames (s t : Store) : Prop where
  tables : t.tables = s.tables
  modules : t.modules = s.modules
  names : ∀ id, (t.symbol id).name = (s.symbol id).name

theorem sameNames_holding : s.SameNames (s.holding id v isPrivate) :=
  ⟨rfl, rfl, s.name_holding id v isPrivate⟩

namespace SameNames

variable {s} {t : Store} (h : s.SameNames t)

include h

theorem table (table : TableId) : t.table table = s.table table := by rw [Store.table, Store.table, h.tables]

theorem get? (table : TableId) (name : String) : t.get? table name = s.get? table name := by
  rw [Store.get?, Store.get?, h.table]

theorem module (m : ModuleId) : t.module m = s.module m := by rw [Store.module, Store.module, h.modules]

theorem isBuiltin (builtins : TableId) : t.isBuiltin builtins = s.isBuiltin builtins := by
  funext symbol
  rw [Store.isBuiltin, Store.isBuiltin, h.names, h.get?]

theorem lookup? (table : TableId) (name : String) : t.lookup? table name = s.lookup? table name := by
  have hwithin : ∀ fuel table, t.lookupWithin name fuel table = s.lookupWithin name fuel table := by
    intro fuel
    induction fuel with
    | zero => exact fun table => h.get? table name
    | succ fuel ih => exact fun table => by simp only [lookupWithin, h.get?, h.table, ih]
  rw [Store.lookup?, Store.lookup?, hwithin, h.tables]

end SameNames

theorem get?_of_lookup? {s : Store} {t : TableId} {name : String} {id : SymbolId} (h : s.lookup? t name = some id) :
    ∃ t', s.get? t' name = some id := by
  have hwithin : ∀ fuel t, s.lookupWithin name fuel t = some id → ∃ t', s.get? t' name = some id := by
    intro fuel
    induction fuel with
    | zero => exact fun t h => ⟨t, h⟩
    | succ fuel ih =>
      intro t h
      rw [lookupWithin] at h
      split at h
      · next symbol hget => exact ⟨t, hget.trans h⟩
      · split at h
        · exact ih _ h
        · cases h
  exact hwithin _ t h

end Store

/-- A write changes nothing but the symbol and the counter. -/
theorem StoreM.producePrivate_holding (s : Store) (id : SymbolId) (v : Value) (isPrivate : Bool) (w : Value)
    (isPrivate' : Bool) :
    ∃ nextSerial v' now, s.nextSerial ≤ nextSerial ∧ (producePrivate id w isPrivate' (s.holding id v isPrivate)).2 =
        ({ s with nextSerial } : Store).holding id v' now := by
  rw [producePrivate_eq]
  split
  · refine ⟨s.nextSerial, v, isPrivate && isPrivate', Nat.le_refl _, ?_⟩
    simp only [publish, holding, modify_modify]
    rfl
  · let joined := (unite [(s.holding id v isPrivate).value id, w]).number s.nextSerial
    refine ⟨joined.2, joined.1, isPrivate && isPrivate', le_number _ _, ?_⟩
    rw [put_eq]
    simp only [publish, holding, withValue, modify_modify]
    rfl

def Session.holding (s : Session) (id : SymbolId) (v : Value) (isPrivate : Bool) : Session :=
  { s with store := s.store.holding id v isPrivate }

theorem Session.holding_self (s : Session) (id : SymbolId) :
    s.holding id (s.store.value id) (s.store.symbol id).isPrivate = s := by
  rw [Session.holding, Store.holding_self]

theorem Session.OnlyOpens.unchanged_holding {s t : Session} (h : s.OnlyOpens t) (id : SymbolId) (v : Value)
    (isPrivate : Bool) : s.Unchanged [id] (t.holding id v isPrivate) := by
  have hsame := h.unchanged [id]
  refine ⟨?_, fun other hother => ?_, hsame.classes, hsame.subclassLinks, hsame.kwargs⟩
  · exact (Array.size_modify ..).trans hsame.count
  · refine (symbol_holding ..).trans ?_
    rw [if_neg fun heq => hother (List.mem_singleton.mpr (congrArg SymbolId.mk heq.1.symm))]
    exact hsame.symbols other hother

/-- The symbol around the scope that a name is declared to refer to. -/
def Frame.around? (f : Frame) (builtins : TableId) (s : Store) (name : String) : Option SymbolId :=
  if f.nonlocals.contains name then
    ((s.table f.scope).parent.bind fun parent => s.lookup? parent name).filter fun symbol =>
      !s.isBuiltin builtins symbol
  else none

namespace Run

variable {id : SymbolId}

variable {σ : Setting} {s : Session} {f : Frame} {name : String}

/--
The computation does not look at what a symbol holds: in the state, and in those in which only more scopes are
opened, it does the same with anything else in the symbol.
-/
def Overlooks {α : Type} (σ : Setting) (id : SymbolId) (s : Session) (act : Run α) : Prop :=
  ∀ t, s.OnlyOpens t → ∀ v isPrivate,
    act σ (t.holding id v isPrivate) = ((act σ t).1, (act σ t).2.holding id v isPrivate)

/-! ## Bound names -/

theorem around?_of_sameNames {s t : Store} (h : s.SameNames t) (builtins : TableId) :
    f.around? builtins t name = f.around? builtins s name := by
  have hlookup : (fun parent => t.lookup? parent name) = fun parent => s.lookup? parent name :=
    funext fun parent => h.lookup? parent name
  rw [Frame.around?, Frame.around?, h.table, h.isBuiltin, hlookup]

theorem get?_of_around? {s : Store} {builtins : TableId} (h : f.around? builtins s name = some id) :
    ∃ table, s.get? table name = some id := by
  rw [Frame.around?] at h
  split at h
  · obtain ⟨parent, -, hparent⟩ := Option.bind_eq_some_iff.mp (Option.eq_some_of_filter_eq_some h)
    exact get?_of_lookup? hparent
  · cases h

theorem binding_of_global (h : f.globals.contains name = true) :
    binding f name σ s = inStore (StoreM.create (s.store.module f.home).members name) σ s := by
  unfold binding
  rw [if_pos h]
  rfl

theorem binding_of_local (h : ¬ f.globals.contains name = true) :
    binding f name σ s = (match f.around? σ.builtins s.store name with
      | some symbol => return symbol
      | none => inStore (StoreM.create f.scope name) : Run SymbolId) σ s := by
  unfold binding Frame.around?
  rw [if_neg h]
  split <;> rfl

theorem binding_of_get? (hdeclared : f.isDeclared name = false) (hget : s.store.get? f.scope name = some id) :
    binding f name σ s = (.ok id, s) := by
  unfold Frame.isDeclared at hdeclared
  obtain ⟨hglobal, hnonlocal⟩ := Bool.or_eq_false_iff.mp hdeclared
  rw [binding_of_local (by rw [hglobal]; exact Bool.false_ne_true), Frame.around?, hnonlocal, if_neg Bool.false_ne_true]
  dsimp only
  rw [inStore_apply, StoreM.create, StoreM.createPrivate_eq, hget]

/-- A name is bound to a symbol, which is found whatever symbols hold, or a table gets a new symbol for it. -/
theorem binding_cases (f : Frame) (name : String) (σ : Setting) (s : Session) :
    (∃ id table, s.store.get? table name = some id ∧
      ∀ t : Session, s.store.SameNames t.store → binding f name σ t = (.ok id, t)) ∨
    ∃ table, binding f name σ s =
      (.ok ⟨s.store.symbols.size⟩, { s with store := StoreM.bound table name false s.store }) := by
  have hcreate : ∀ table, (∃ id, s.store.get? table name = some id ∧ ∀ t : Session, s.store.SameNames t.store →
        inStore (StoreM.create table name) σ t = (.ok id, t)) ∨
      inStore (StoreM.create table name) σ s =
        (.ok ⟨s.store.symbols.size⟩, { s with store := StoreM.bound table name false s.store }) := by
    intro table
    cases hget : s.store.get? table name with
    | some id =>
      refine .inl ⟨id, rfl, fun t ht => ?_⟩
      rw [inStore_apply, StoreM.create, StoreM.createPrivate_eq, ht.get?, hget]
    | none =>
      right
      rw [inStore_apply, StoreM.create, StoreM.createPrivate_eq, hget]
  by_cases hglobal : f.globals.contains name = true
  · rw [binding_of_global hglobal]
    rcases hcreate (s.store.module f.home).members with ⟨id, hget, hfound⟩ | hnew
    · refine .inl ⟨id, _, hget, fun t ht => ?_⟩
      rw [binding_of_global hglobal, ht.module, hfound t ht]
    · exact .inr ⟨_, hnew⟩
  · rw [binding_of_local hglobal]
    cases haround : f.around? σ.builtins s.store name with
    | some id =>
      obtain ⟨table, hget⟩ := get?_of_around? haround
      refine .inl ⟨id, table, hget, fun t ht => ?_⟩
      rw [binding_of_local hglobal, around?_of_sameNames ht, haround]
      rfl
    | none =>
      rcases hcreate f.scope with ⟨id, hget, hfound⟩ | hnew
      · refine .inl ⟨id, _, hget, fun t ht => ?_⟩
        rw [binding_of_local hglobal, around?_of_sameNames ht, haround]
        exact hfound t ht
      · exact .inr ⟨_, hnew⟩

/-- A name that is bound stays bound to its symbol as long as only scopes are opened, whatever symbols hold. -/
theorem binding_later (hσ : σ.InOrder) (hs : Placed σ s f) (hbound : binding f name σ s = (.ok id, s)) {t : Session}
    (ht : s.OnlyOpens t) (hhandle : t.handle = s.handle) :
    id.index < s.store.symbols.size ∧ ∀ u : Session, t.store.SameNames u.store → binding f name σ u = (.ok id, u) := by
  have hagain := (Evaluator.repeatable_binding hσ f name).again hs (t := t)
  rw [hbound] at hagain
  refine ⟨?_, ?_⟩
  · rcases binding_cases f name σ s with ⟨found, table, hget, hfound⟩ | ⟨table, hnew⟩
    · cases (hfound s ⟨rfl, rfl, fun _ => rfl⟩).symm.trans hbound
      exact (hs.inv.consistent.tidy.entry table name id hget).1
    · have hsize := congrArg (fun out => out.2.store.symbols.size) (hnew.symm.trans hbound)
      simp [StoreM.bound] at hsize
  · rcases binding_cases f name σ t with ⟨found, table, hget, hfound⟩ | ⟨table, hnew⟩
    · have hsame := hfound t ⟨rfl, rfl, fun _ => rfl⟩
      obtain ⟨hresult, -⟩ := hagain (.refl s) rfl ht hhandle (by rw [hsame])
      rw [hsame] at hresult
      cases hresult
      exact hfound
    · obtain ⟨-, hopens⟩ := hagain (.refl s) rfl ht hhandle (by rw [hnew])
      have hsize := (hopens.unchanged []).count
      rw [hnew] at hsize
      simp [StoreM.bound] at hsize

/-- An assignment to a name that is bound joins the value into its symbol. -/
theorem assignName_of_bound (hbound : binding f name σ s = (.ok id, s)) (v : Value) :
    ∃ trace, assignName f name v false σ s =
      (.ok (), { s with store := (StoreM.producePrivate id v false s.store).2, trace }) := by
  have hassign : assignName f name v false = (do
      let symbol ← binding f name
      inStore (StoreM.producePrivate symbol v false)
      say fun s => (s.symbol symbol).address.pieces ++ " <- " :: s.pieces v) := by
    unfold assignName
    split
    · rfl
    · next hdeclared =>
      unfold Frame.isDeclared at hdeclared
      rw [Bool.or_eq_true, not_or] at hdeclared
      unfold binding
      rw [if_neg hdeclared.1, if_neg hdeclared.2]
      rfl
  rw [hassign, bind_apply, hbound]
  dsimp only
  rw [bind_apply, inStore_apply]
  dsimp only
  rw [say_apply]
  exact ⟨_, rfl⟩

/-! ## Passes -/

/-- A computation a number of times, one after another. -/
def repeatedly (act : Run Unit) : Nat → Run Unit
  | 0 => pure ()
  | n + 1 => do
    repeatedly act n
    act

variable {α β : Type} {d : Difference}

/-- What was not cancelled in the end was not cancelled before. -/
theorem not_cancelled_before {act : Run α} {next : α → Run β} (hnext : ∀ a, Unheeding d (next a))
    (hend : ((act >>= next) σ s).2.handle.isCancelled = false) : (act σ s).2.handle.isCancelled = false := by
  rw [bind_apply] at hend
  generalize act σ s = out at hend
  obtain ⟨_ | a, t⟩ := out
  · exact hend
  · rwa [← (hnext a).handle_eq hend]

/-- **What further passes keep is kept by any number of them**, as long as they are not cancelled. -/
theorem repeatedly_keeps {act : Run Unit} (hact : Unheeding d act) {P : Session → Prop}
    (hfirst : (act σ s).2.handle.isCancelled = false → (act σ s).1 = .ok () ∧ P (act σ s).2)
    (hstep : ∀ u, P u → (act σ u).2.handle.isCancelled = false → (act σ u).1 = .ok () ∧ P (act σ u).2) (n : Nat)
    (hend : (repeatedly act (n + 1) σ s).2.handle.isCancelled = false) :
    (repeatedly act (n + 1) σ s).1 = .ok () ∧ P (repeatedly act (n + 1) σ s).2 := by
  induction n with
  | zero => exact hfirst hend
  | succ n ih =>
    obtain ⟨hok, hkept⟩ := ih (not_cancelled_before (fun _ => hact) hend)
    have hrun : repeatedly act (n + 2) σ s = act σ (repeatedly act (n + 1) σ s).2 := by
      show (repeatedly act (n + 1) >>= fun _ => act) σ s = _
      rw [bind_apply]
      generalize repeatedly act (n + 1) σ s = out at hok
      obtain ⟨_, t⟩ := out
      obtain rfl := hok
      rfl
    rw [hrun] at hend ⊢
    exact hstep _ hkept hend

end Run

namespace Evaluator

open Run

variable {σ : Setting} {s t u : Session} {f : Frame} {x : String} {e : Node} {depth : Nat} {id : SymbolId}
  {v : Value} {items : Option (List Value)}

/-- A pass over an assignment to a name. -/
abbrev passOver (depth : Nat) (f : Frame) (x : String) (e : Node) : Run Unit :=
  (ofDepth (depth + 2)).exec f (.assign [.ident x] e)

theorem passOver_eq (depth : Nat) (f : Frame) (x : String) (e : Node) : passOver depth f x e = (do
      check
      let assigned ← (ofDepth (depth + 1)).evalAssigned f e
      assignName f x assigned.1 false
      recordAssignment f [.ident x] e) := by
  show (check >>= fun _ => (ofDepth (depth + 1)).assignment f [.ident x] e) = _
  rw [assignment_ident]
  rfl

theorem isNumbered_numbered {w : Value} (h : numbered w σ s = (.ok v, t)) : v.isNumbered = true := by
  rw [numbered, inStore_apply, StoreM.numbered_eq] at h
  cases h
  exact isNumbered_number _ _

/-- The value of an expression has its numbers. -/
theorem isNumbered_eval (h : (ofDepth depth).eval f e σ s = (.ok v, t)) : v.isNumbered = true := by
  cases depth with
  | zero => cases h
  | succ depth =>
    obtain ⟨_, s₁, -, heval⟩ := bind_eq_ok h
    obtain ⟨_, s₂, -, heval⟩ := bind_eq_ok heval
    obtain ⟨_, s₃, hv, heval⟩ := bind_eq_ok heval
    obtain ⟨_, s₄, -, heval⟩ := bind_eq_ok heval
    obtain ⟨_, s₅, -, heval⟩ := bind_eq_ok heval
    cases heval
    exact isNumbered_numbered hv

/-- So has the value of what is assigned. -/
theorem isNumbered_evalAssigned (h : (ofDepth (depth + 1)).evalAssigned f e σ s = (.ok (v, items), t)) :
    v.isNumbered = true := by
  unfold evalAssigned at h
  cases hplain : e.plainElements? with
  | some elements =>
    rw [hplain] at h
    obtain ⟨values, s₁, -, hrest⟩ := bind_eq_ok h
    obtain ⟨whole, s₂, hwhole, hseen⟩ := bind_eq_ok hrest
    obtain ⟨_, s₃, -, hpure⟩ := bind_eq_ok hseen
    cases hpure
    exact isNumbered_numbered hwhole
  | none =>
    rw [hplain] at h
    obtain ⟨w, s₁, heval, hpure⟩ := bind_eq_ok h
    cases hpure
    exact isNumbered_eval heval

theorem passOver_of_bound (hlive : u.handle.isCancelled = false)
    (heval : (ofDepth (depth + 1)).evalAssigned f e σ u = (.ok (v, items), t))
    (hbound : binding f x σ t = (.ok id, t)) : ∃ recorder trace, passOver depth f x e σ u =
      (.ok (), { t with store := (StoreM.producePrivate id v false t.store).2, recorder, trace }) := by
  obtain ⟨trace, hassign⟩ := assignName_of_bound hbound v
  obtain ⟨_, recorder, -, hrecord⟩ := idle_recordAssignment f [.ident x] e σ
    { t with store := (StoreM.producePrivate id v false t.store).2, trace }
  refine ⟨recorder, trace, ?_⟩
  rw [passOver_eq, bind_apply, check_of_live σ hlive]
  dsimp only
  rw [bind_apply, heval]
  dsimp only
  rw [bind_apply, hassign]
  exact hrecord trace t.observer

/-- **A pass over an assignment** joins the value into the symbol and takes numbers. -/
theorem pass_assign (hu : Ready σ u f) (hlive : u.handle.isCancelled = false) {held : Value} {isPrivate : Bool}
    (heval : (ofDepth (depth + 1)).evalAssigned f e σ u = (.ok (v, items), t.holding id held isPrivate))
    (hbound : binding f x σ (t.holding id held isPrivate) = (.ok id, t.holding id held isPrivate))
    (hid : id.index < t.store.symbols.size) :
    ∃ w held' isPrivate', passOver depth f x e σ u = (.ok (), w.holding id held' isPrivate') ∧
      t.OnlyOpens w ∧ w.handle = t.handle ∧ held'.byParts = unite [held, v] := by
  obtain ⟨recorder, trace, hrun⟩ := passOver_of_bound hlive heval hbound
  obtain ⟨nextSerial, held', isPrivate', hserial, hstore⟩ :=
    StoreM.producePrivate_holding t.store id held isPrivate v false
  have hwritten : (StoreM.producePrivate id v false (t.holding id held isPrivate).store).2 =
      ({ t.store with nextSerial } : Store).holding id held' isPrivate' := hstore
  refine ⟨{ t with store := { t.store with nextSerial }, recorder, trace }, held', isPrivate', ?_,
    ⟨⟨_, _, rfl⟩, ⟨_, _, rfl⟩, List.prefix_rfl, List.prefix_rfl, hserial⟩, rfl, ?_⟩
  · rw [hrun, hwritten]
    rfl
  · have hdoes := does_evalAssigned (depth + 1) hu e
    unfold Does at hdoes
    rw [heval] at hdoes
    obtain ⟨hsteps, hv, -⟩ := hdoes
    have hjoined : ((StoreM.producePrivate id v false (t.holding id held isPrivate).store).2.value id).byParts =
        unite [(t.holding id held isPrivate).store.value id, v] :=
      byParts_value_producePrivate (hu.inv.after hsteps).consistent.sound
        (Nat.lt_of_lt_of_eq hid (Array.size_modify ..).symm) ⟨hv, isNumbered_evalAssigned heval⟩ false
    have hbefore : (t.holding id held isPrivate).store.value id = held := value_holding _ _ _ _ hid
    have hafter : (({ t.store with nextSerial } : Store).holding id held' isPrivate').value id = held' :=
      value_holding _ _ _ _ hid
    rwa [hwritten, hbefore, hafter] at hjoined

/-- A pass that is not cancelled in the end has evaluated the value without being cancelled. -/
theorem handle_evalAssigned (hlive : u.handle.isCancelled = false)
    (hend : (passOver depth f x e σ u).2.handle.isCancelled = false) :
    ((ofDepth (depth + 1)).evalAssigned f e σ u).2.handle = u.handle := by
  have heval : Unheeding ⟨true, true, true⟩ ((ofDepth (depth + 1)).evalAssigned f e) :=
    (regular_of_walk fun hf => walk_evalAssigned (walks_ofDepth σ .any (depth + 1)) hf .any).unheeding
  have hrest : ∀ assigned : Value × Option (List Value), Unheeding ⟨true, true, true⟩ (do
      assignName f x assigned.1 false
      recordAssignment f [.ident x] e) := fun assigned =>
    (regular_of_walk (σ := σ) fun hf => walk_assignName hf x assigned.1 false : Regular .any true _).unheeding.bind
      fun _ => unheeding_idle (idle_recordAssignment f [.ident x] e)
  rw [passOver_eq, bind_apply, check_of_live σ hlive] at hend
  exact heval.handle_eq (not_cancelled_before hrest hend)

/--
What is known of a state after passes over an assignment: up to opened scopes and the symbol, it is the state after
the value was evaluated first.
-/
structure Passed (σ : Setting) (f : Frame) (id : SymbolId) (s t : Session) (joined : Value) (u : Session) : Prop where
  ready : Ready σ u f
  kept : t.handle = s.handle
  handle : u.handle = s.handle
  state : ∃ w held isPrivate, u = w.holding id held isPrivate ∧ t.OnlyOpens w ∧ held.byParts = joined

section Passes

variable (hσ : σ.InOrder) (hs : Placed σ s f) (hbound : binding f x σ s = (.ok id, s)) (hopens : s.OnlyOpens t)

include hσ hs hbound hopens

/-- A pass in which the value is evaluated without a change. -/
theorem passed_of_pass (hu : Ready σ u f) (hlive : u.handle.isCancelled = false) {v held : Value} {isPrivate : Bool}
    {items : Option (List Value)} {w : Session}
    (heval : (ofDepth (depth + 1)).evalAssigned f e σ u = (.ok (v, items), w.holding id held isPrivate))
    (hkept : t.handle = s.handle) (hw : t.OnlyOpens w) (hhandle : w.handle = s.handle) :
    (passOver depth f x e σ u).1 = .ok () ∧ Passed σ f id s t (unite [held, v]) (passOver depth f x e σ u).2 := by
  have hready : Ready σ (passOver depth f x e σ u).2 f := hu.after ((sound_ofDepth σ _).exec u f _ hu).1
  obtain ⟨hid, hfound⟩ := binding_later hσ hs hbound (hopens.trans hw) hhandle
  have hcount := ((hopens.trans hw).unchanged []).count
  obtain ⟨w', held', isPrivate', hrun, hw', hhandle', hjoined⟩ := pass_assign hu hlive heval
    (hfound _ (w.store.sameNames_holding id held isPrivate)) (hcount ▸ hid)
  rw [hrun] at hready ⊢
  exact ⟨rfl, hready, hkept, hhandle'.trans hhandle, w', held', isPrivate', rfl, hw.trans hw', hjoined⟩

variable {v : Value} {items : Option (List Value)}
  (heval : (ofDepth (depth + 1)).evalAssigned f e σ s = (.ok (v, items), t))

include heval

theorem passed_first (hend : (passOver depth f x e σ s).2.handle.isCancelled = false) :
    (passOver depth f x e σ s).1 = .ok () ∧
      Passed σ f id s t (unite [s.store.value id, v]) (passOver depth f x e σ s).2 := by
  have hlive : s.handle.isCancelled = false := by
    rwa [← (repeatable_exec hσ (depth + 2) f (.assign [.ident x] e)).unheeding.handle_eq hend]
  have hkept : t.handle = s.handle := by
    rw [← handle_evalAssigned hlive hend, heval]
  have hvalue : t.store.value id = s.store.value id := by
    rw [value, value, (hopens.unchanged []).symbols id List.not_mem_nil]
  have hpassed := passed_of_pass hσ hs hbound hopens hs.toReady hlive
    (heval.trans (congrArg (Prod.mk _) (t.holding_self id).symm)) hkept (.refl t) hkept
  rwa [hvalue] at hpassed

theorem passed_again (hoverlooks : Overlooks σ id s ((ofDepth (depth + 1)).evalAssigned f e))
    (hsteady : v.steady s.store.nextSerial = true) (hu : Passed σ f id s t (unite [s.store.value id, v]) u)
    (hend : (passOver depth f x e σ u).2.handle.isCancelled = false) :
    (passOver depth f x e σ u).1 = .ok () ∧
      Passed σ f id s t (unite [s.store.value id, v]) (passOver depth f x e σ u).2 := by
  obtain ⟨hready, hkept, hhandle, w, held, isPrivate, rfl, hw, hheld⟩ := hu
  have hlive : (w.holding id held isPrivate).handle.isCancelled = false := by
    rwa [← (repeatable_exec hσ (depth + 2) f (.assign [.ident x] e)).unheeding.handle_eq hend]
  have hdone := handle_evalAssigned hlive hend
  -- the symbol is not looked at, so the value is that of the first evaluation with other numbers
  have hover := hoverlooks w (hopens.trans hw) held isPrivate
  rw [hover] at hdone
  have hagain := (repeatable_evalAssigned hσ (depth + 1) f e).again hs (t := w)
  rw [heval] at hagain
  obtain ⟨hresult, hlater⟩ := hagain hopens hkept hw hhandle hdone
  have heval' : (ofDepth (depth + 1)).evalAssigned f e σ (w.holding id held isPrivate) = (.ok (_, _), _) :=
    hover.trans (congrArg (·, _) hresult)
  have hpassed := passed_of_pass hσ hs hbound hopens hready hlive heval' hkept (hw.trans hlater) (hdone.trans hhandle)
  have hjoined : unite [held, v.shift ⟨s.store.nextSerial, w.store.nextSerial - s.store.nextSerial⟩] =
      unite [s.store.value id, v] := by
    have hv := (does_evalAssigned (depth + 1) hs.toReady e).2
    rw [heval] at hv
    have hid := (binding_later hσ hs hbound (hopens.trans hw) hhandle).1
    have hwell : held.WellFormed := by
      have hsound := hready.inv.consistent.sound.value id
      have hheld : (w.holding id held isPrivate).store.value id = held :=
        w.store.value_holding id held isPrivate (((hopens.trans hw).unchanged []).count ▸ hid)
      rw [hheld] at hsound
      exact hsound.wellFormed
    exact unite_shift_of_steady _ (hs.inv.consistent.sound.value id).wellFormed hv.1.wellFormed hwell hsteady hheld
  rwa [hjoined] at hpassed

end Passes

/--
**Further passes over an assignment do not change what the name holds**, if evaluating the value does not look at it
and changes nothing, and if the value is steady.
-/
theorem passes_assign (hσ : σ.InOrder) (hs : Placed σ s f) (hbound : binding f x σ s = (.ok id, s))
    (heval : (ofDepth (depth + 1)).evalAssigned f e σ s = (.ok (v, items), t)) (hsame : s.Unchanged [] t)
    (hoverlooks : Overlooks σ id s ((ofDepth (depth + 1)).evalAssigned f e))
    (hsteady : v.steady s.store.nextSerial = true) (n : Nat)
    (hend : (repeatedly (passOver depth f x e) (n + 1) σ s).2.handle.isCancelled = false) :
    let passes := repeatedly (passOver depth f x e) (n + 1) σ s
    passes.1 = .ok () ∧ (passes.2.store.value id).byParts = unite [s.store.value id, v] ∧
      s.Unchanged [id] passes.2 := by
  have hopens : s.OnlyOpens t := by
    have hfirst := (repeatable_evalAssigned hσ (depth + 1) f e).onlyOpens (does_evalAssigned (depth + 1) hs.toReady e).1
    rw [heval] at hfirst
    exact hfirst hsame
  have hexec := (repeatable_exec hσ (depth + 2) f (.assign [.ident x] e)).unheeding
  obtain ⟨hok, hpassed⟩ := repeatedly_keeps hexec (passed_first hσ hs hbound hopens heval)
    (fun u => passed_again hσ hs hbound hopens heval hoverlooks hsteady) n hend
  obtain ⟨w, held, isPrivate, hstate, hw, hheld⟩ := hpassed.state
  obtain ⟨hid, -⟩ := binding_later hσ hs hbound hopens hpassed.kept
  intro passes
  have hvalue : passes.2.store.value id = held := by
    rw [show passes.2 = w.holding id held isPrivate from hstate]
    exact w.store.value_holding id held isPrivate (((hopens.trans hw).unchanged []).count ▸ hid)
  refine ⟨hok, by rw [hvalue, hheld], ?_⟩
  rw [show passes.2 = w.holding id held isPrivate from hstate]
  exact (hopens.trans hw).unchanged_holding id held isPrivate

end Evaluator

end Surmise
