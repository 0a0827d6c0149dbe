import Surmise.Proofs.Store.Sound

/-!
# Writes to the store

What each write changes, as an equation between stores, and what it leaves alone.

* `numbered_eq`, `put_eq`, `createPrivate_eq`: the store after a write.
* `Store.Extends`: a later store keeps the places, the addresses and the bindings of an earlier one. Every
  write extends the store.
-/

namespace Surmise

open StoreM Value Store

variable {α : Type}

theorem getD_push (a : Array α) (x d : α) (i : Nat) : (a.push x).getD i d = if i = a.size then x else a.getD i d := by
  simp only [Array.getD_eq_getD_getElem?, Array.getElem?_push]
  split <;> rfl

theorem getD_modify (a : Array α) (i j : Nat) (f : α → α) (d : α) :
    (a.modify i f).getD j d = if i = j ∧ j < a.size then f (a.getD j d) else a.getD j d := by
  simp only [Array.getD_eq_getD_getElem?, Array.getElem?_modify]
  by_cases hij : i = j
  · by_cases hj : j < a.size
    · simp [hij, hj]
    · simp [hij, hj]
  · simp [hij]

theorem getD_of_size_le {a : Array α} {i : Nat} (h : a.size ≤ i) (d : α) : a.getD i d = d := by
  rw [Array.getD_eq_getD_getElem?, Array.getElem?_eq_none h, Option.getD_none]

/-- What holds of all elements and of the default holds at every place. -/
theorem getD_of_forall {P : α → Prop} {a : Array α} {d : α} (h : ∀ x ∈ a, P x) (hd : P d) (i : Nat) :
    P (a.getD i d) := by
  rw [Array.getD_eq_getD_getElem?]
  cases hx : a[i]? with
  | none => exact hd
  | some x => exact h x (Array.mem_of_getElem? hx)

theorem map_eq_of_getD_eq {β : Type} {f : α → β} {a b : Array α} {d : α} (hsize : b.size = a.size)
    (h : ∀ i < a.size, f (b.getD i d) = f (a.getD i d)) : b.toList.map f = a.toList.map f := by
  refine List.ext_getElem (by simp [hsize]) fun i hi hi' => ?_
  have hlt : i < a.size := by simpa using hi'
  have hlt' : i < b.size := by simpa using hi
  simpa [Array.getD_eq_getD_getElem?, hlt, hlt'] using h i hlt

/-! ## The store after a write -/

namespace StoreM

/-- A sequence runs its second part in the store that the first part leaves. -/
theorem bind_apply {α β : Type} (act : StoreM α) (next : α → StoreM β) (s : Store) :
    (act >>= next) s = next (act s).1 (act s).2 := rfl

theorem get_apply (s : Store) : (get : StoreM Store) s = (s, s) := rfl

theorem numbered_eq (v : Value) (s : Store) : numbered v s =
      ((v.number s.nextSerial).1, { s with nextSerial := (v.number s.nextSerial).2 }) := by
  unfold numbered
  split
  · next h => rw [number_of_isNumbered h]; rfl
  · rfl

/-- The symbols after a value was written to one of them. -/
def withValue (symbols : Array Symbol) (symbol : SymbolId) (v : Value) : Array Symbol :=
  symbols.modify symbol.index fun sym => { sym with value := v }

theorem put_eq (symbol : SymbolId) (v : Value) (s : Store) : put symbol v s = ((), { s with
        nextSerial := (v.number s.nextSerial).2
        symbols := withValue s.symbols symbol (v.number s.nextSerial).1 }) := by
  unfold put
  rw [bind_apply, numbered_eq]
  rfl

/-- The store after a write through which a symbol may stop to be private. -/
def publish (symbol : SymbolId) (isPrivate : Bool) (s : Store) : Store :=
  { s with symbols := s.symbols.modify symbol.index fun sym =>
      { sym with isPrivate := sym.isPrivate && isPrivate } }

theorem value_publish (symbol id : SymbolId) (isPrivate : Bool) (s : Store) :
    (publish symbol isPrivate s).value id = s.value id := by
  unfold publish Store.value Store.symbol
  rw [getD_modify]
  split <;> rfl

theorem producePrivate_eq (symbol : SymbolId) (v : Value) (isPrivate : Bool) (s : Store) :
    producePrivate symbol v isPrivate s =
      if v.isEmpty then ((), publish symbol isPrivate s)
      else put symbol (.unite [s.value symbol, v]) (publish symbol isPrivate s) := by
  rw [← value_publish symbol symbol isPrivate s]
  unfold producePrivate
  rw [bind_apply]
  split <;> rfl

/-- The store after a table got a new symbol. -/
def bound (table : TableId) (name : String) (isPrivate : Bool) (s : Store) : Store :=
  { s with
    symbols := s.symbols.push ⟨name, (s.table table).address.child name, .empty, isPrivate⟩
    tables := s.tables.modify table.index fun t =>
      { t with entries := t.entries.insert name ⟨s.symbols.size⟩ } }

theorem createPrivate_eq (table : TableId) (name : String) (isPrivate : Bool) (s : Store) :
    createPrivate table name isPrivate s =
      match s.get? table name with
      | some symbol => (symbol, s)
      | none => (⟨s.symbols.size⟩, bound table name isPrivate s) := by
  unfold createPrivate
  rw [bind_apply, get_apply]
  cases s.get? table name <;> rfl

/-- What an entry of a keyword dictionary holds after a write. -/
def joinedKwarg (s : Store) (dict : KwargsId) (name : String) (v : Value) : Value :=
  match (s.kwargsOf dict).get? name with
  | some current => .unite [current, v]
  | none => v

theorem addKwarg_eq (dict : KwargsId) (name : String) (v : Value) (s : Store) : addKwarg dict name v s = ((), { s with
        nextSerial := ((joinedKwarg s dict name v).number s.nextSerial).2
        kwargs := s.kwargs.modify dict.index fun d =>
          d.insert name ((joinedKwarg s dict name v).number s.nextSerial).1 }) := by
  show (numbered (joinedKwarg s dict name v) >>= fun merged => modify fun s =>
    { s with kwargs := s.kwargs.modify dict.index fun d => d.insert name merged }) s = _
  rw [bind_apply, numbered_eq]
  rfl

theorem modifyClass_eq (c : ClassId) (f : ClassInfo → ClassInfo) (s : Store) :
    modifyClass c f s = ((), { s with classes := s.classes.modify c.index f }) := rfl

end StoreM

/-! ## Stores that keep what was there -/

namespace Store

/-- A later store: places, addresses, scopes and bindings of the earlier one are still there. -/
structure Extends (s s' : Store) : Prop where
  serial : s.nextSerial ≤ s'.nextSerial
  symbols : s.symbols.size ≤ s'.symbols.size
  symbol : ∀ id : SymbolId, id.index < s.symbols.size →
    (s'.symbol id).name = (s.symbol id).name ∧ (s'.symbol id).address = (s.symbol id).address
  tables : s.tables.size ≤ s'.tables.size
  table : ∀ t : TableId, t.index < s.tables.size →
    (s'.table t).address = (s.table t).address ∧ (s'.table t).parent = (s.table t).parent
  entry : ∀ t name id, s.get? t name = some id → s'.get? t name = some id
  functions : s.functions.size ≤ s'.functions.size
  function : ∀ f : FunctionId, f.index < s.functions.size → s'.function f = s.function f
  classes : s.classes.size ≤ s'.classes.size
  classOf : ∀ c : ClassId, c.index < s.classes.size →
    (s'.classOf c).name = (s.classOf c).name ∧ (s'.classOf c).members = (s.classOf c).members
  modules : s.modules.size ≤ s'.modules.size
  module : ∀ m : ModuleId, m.index < s.modules.size → s'.module m = s.module m
  packages : s.packages.size ≤ s'.packages.size
  package : ∀ p : PackageId, p.index < s.packages.size →
    (s'.package p).dir = (s.package p).dir ∧ (s'.package p).entries = (s.package p).entries
  kwargs : s.kwargs.size ≤ s'.kwargs.size

namespace Extends

theorem refl (s : Store) : s.Extends s := by
  constructor <;> simp

theorem pair_trans {β : Type} {a b c : α} {x y z : β} (h : b = a ∧ y = x) (h' : c = b ∧ z = y) : c = a ∧ z = x :=
  ⟨h'.1.trans h.1, h'.2.trans h.2⟩

theorem trans {s s' s'' : Store} (h : s.Extends s') (h' : s'.Extends s'') : s.Extends s'' where
  serial := Nat.le_trans h.serial h'.serial
  symbols := Nat.le_trans h.symbols h'.symbols
  symbol id hid := pair_trans (h.symbol id hid) (h'.symbol id (Nat.lt_of_lt_of_le hid h.symbols))
  tables := Nat.le_trans h.tables h'.tables
  table t ht := pair_trans (h.table t ht) (h'.table t (Nat.lt_of_lt_of_le ht h.tables))
  entry t name id hid := h'.entry t name id (h.entry t name id hid)
  functions := Nat.le_trans h.functions h'.functions
  function f hf := (h'.function f (Nat.lt_of_lt_of_le hf h.functions)).trans (h.function f hf)
  classes := Nat.le_trans h.classes h'.classes
  classOf c hc := pair_trans (h.classOf c hc) (h'.classOf c (Nat.lt_of_lt_of_le hc h.classes))
  modules := Nat.le_trans h.modules h'.modules
  module m hm := (h'.module m (Nat.lt_of_lt_of_le hm h.modules)).trans (h.module m hm)
  packages := Nat.le_trans h.packages h'.packages
  package p hp := pair_trans (h.package p hp) (h'.package p (Nat.lt_of_lt_of_le hp h.packages))
  kwargs := Nat.le_trans h.kwargs h'.kwargs

end Extends

/-- A change of the values of symbols only. -/
theorem extends_of_symbols (s : Store) {symbols : Array Symbol} {n : Nat} (hn : s.nextSerial ≤ n)
    (hsize : symbols.size = s.symbols.size)
    (h : ∀ i, (symbols.getD i default).name = (s.symbols.getD i default).name ∧
      (symbols.getD i default).address = (s.symbols.getD i default).address) :
    s.Extends { s with nextSerial := n, symbols } :=
  { Extends.refl s with
    serial := hn
    symbols := Nat.le_of_eq hsize.symm
    symbol := fun id _ => h id.index }

theorem extends_publish (s : Store) (symbol : SymbolId) (isPrivate : Bool) :
    s.Extends (publish symbol isPrivate s) := by
  refine extends_of_symbols s (Nat.le_refl _) (Array.size_modify ..) fun i => ?_
  rw [getD_modify]
  split <;> exact ⟨rfl, rfl⟩

theorem extends_put (s : Store) (symbol : SymbolId) (v : Value) : s.Extends (put symbol v s).2 := by
  rw [put_eq]
  refine extends_of_symbols s (le_number v _) (Array.size_modify ..) fun i => ?_
  rw [withValue, getD_modify]
  split <;> exact ⟨rfl, rfl⟩

theorem extends_producePrivate (s : Store) (symbol : SymbolId) (v : Value) (isPrivate : Bool) :
    s.Extends (producePrivate symbol v isPrivate s).2 := by
  rw [producePrivate_eq]
  split
  · exact extends_publish s symbol isPrivate
  · exact (extends_publish s symbol isPrivate).trans (extends_put _ _ _)

variable {table : TableId} {name : String} {isPrivate : Bool}

theorem get?_bound {s : Store} (t : TableId) (other : String) :
    (StoreM.bound table name isPrivate s).get? t other =
      if table = t ∧ t.index < s.tables.size ∧ name = other then some ⟨s.symbols.size⟩
      else s.get? t other := by
  unfold get? Store.table StoreM.bound
  rw [getD_modify]
  by_cases ht : table.index = t.index ∧ t.index < s.tables.size
  · obtain ⟨hi, hlt⟩ := ht
    obtain rfl : table = t := congrArg TableId.mk hi
    rw [if_pos ⟨rfl, hlt⟩, OrderedMap.get?_insert]
    by_cases hn : name = other
    · rw [if_pos hn, if_pos ⟨rfl, hlt, hn⟩]
    · rw [if_neg hn, if_neg fun h => hn h.2.2]
  · rw [if_neg ht, if_neg fun h => ht ⟨congrArg _ h.1, h.2.1⟩]

theorem extends_bound {s : Store}
    (h : s.get? table name = none) : s.Extends (StoreM.bound table name isPrivate s) :=
  { Extends.refl s with
    symbols := by simp [StoreM.bound]
    symbol := fun id hid => by
      unfold StoreM.bound Store.symbol
      rw [getD_push, if_neg (Nat.ne_of_lt hid)]
      exact ⟨rfl, rfl⟩
    tables := by simp [StoreM.bound]
    table := fun t _ => by
      unfold StoreM.bound Store.table
      rw [getD_modify]
      split <;> exact ⟨rfl, rfl⟩
    entry := fun t other id hid => by
      rw [get?_bound, if_neg, hid]
      rintro ⟨rfl, -, rfl⟩
      rw [h] at hid
      cases hid }

theorem extends_createPrivate (s : Store) (table : TableId) (name : String) (isPrivate : Bool) :
    s.Extends (createPrivate table name isPrivate s).2 := by
  rw [createPrivate_eq]
  split
  · exact Extends.refl s
  · next h => exact extends_bound h

theorem extends_addKwarg (s : Store) (dict : KwargsId) (name : String) (v : Value) :
    s.Extends (addKwarg dict name v s).2 := by
  rw [addKwarg_eq]
  exact { Extends.refl s with
    serial := le_number _ _
    kwargs := by simp }

theorem extends_modifyClass (s : Store) (c : ClassId) {f : ClassInfo → ClassInfo}
    (hf : ∀ info, (f info).name = info.name ∧ (f info).members = info.members) :
    s.Extends (modifyClass c f s).2 := by
  rw [modifyClass_eq]
  exact { Extends.refl s with
    classes := by simp
    classOf := fun d _ => by
      unfold classOf
      rw [getD_modify]
      split
      · exact hf _
      · exact ⟨rfl, rfl⟩ }

theorem extends_newSymbol (s : Store) (name : String) (address : Address) (isPrivate : Bool) :
    s.Extends (newSymbol name address isPrivate s).2 := by
  show s.Extends { s with symbols := s.symbols.push _ }
  exact { Extends.refl s with
    symbols := by simp
    symbol := fun id hid => by
      unfold symbol
      rw [getD_push, if_neg (Nat.ne_of_lt hid)]
      exact ⟨rfl, rfl⟩ }

theorem extends_newKwargs (s : Store) : s.Extends (newKwargs s).2 := by
  show s.Extends { s with kwargs := s.kwargs.push .empty }
  exact { Extends.refl s with kwargs := by simp }

/-! ## Writes keep the values sound -/

namespace Sound

variable {s : Store} {v : Value} (h : s.Sound)

include h

theorem raise {n : Nat} (hn : s.nextSerial ≤ n) : ({ s with nextSerial := n } : Store).Sound where
  value id := (h.value id).mono hn
  numbered := h.numbered
  bases c b hb := (h.bases c b hb).mono hn
  kwargs dict v hv := ⟨(h.kwargs dict v hv).1.mono hn, (h.kwargs dict v hv).2⟩
  labelled index entry he := (h.labelled index entry he).mono hn

/-- Symbols may be replaced by others with sound values. -/
theorem withSymbols {symbols : Array Symbol}
    (hv : ∀ i, (symbols.getD i default).value.Sound s.nextSerial ∧ (symbols.getD i default).value.isNumbered = true) :
    ({ s with symbols } : Store).Sound where
  value id := (hv id.index).1
  numbered id := (hv id.index).2
  bases := h.bases
  kwargs := h.kwargs
  labelled := h.labelled

theorem publish (symbol : SymbolId) (isPrivate : Bool) : (publish symbol isPrivate s).Sound := by
  refine h.withSymbols fun i => ?_
  rw [getD_modify]
  split <;> exact ⟨h.value ⟨i⟩, h.numbered ⟨i⟩⟩

theorem put (symbol : SymbolId) (hv : v.Sound s.nextSerial) : (put symbol v s).2.Sound := by
  rw [put_eq]
  have h' := h.raise (le_number v s.nextSerial)
  refine h'.withSymbols fun i => ?_
  rw [withValue, getD_modify]
  split
  · exact ⟨sound_number hv, isNumbered_number v _⟩
  · exact ⟨h'.value ⟨i⟩, h'.numbered ⟨i⟩⟩

theorem producePrivate (symbol : SymbolId) (hv : v.Sound s.nextSerial) (isPrivate : Bool) :
    (producePrivate symbol v isPrivate s).2.Sound := by
  rw [producePrivate_eq]
  split
  · exact h.publish symbol isPrivate
  · refine (h.publish symbol isPrivate).put symbol (sound_unite ?_)
    simpa using ⟨h.value symbol, hv⟩

theorem createPrivate (table : TableId) (name : String) (isPrivate : Bool) :
    (StoreM.createPrivate table name isPrivate s).2.Sound := by
  rw [StoreM.createPrivate_eq]
  split
  · exact h
  · have hsymbols : ∀ i, ((StoreM.bound table name isPrivate s).symbols.getD i default).value.Sound s.nextSerial ∧
        ((StoreM.bound table name isPrivate s).symbols.getD i default).value.isNumbered = true := by
      intro i
      unfold StoreM.bound
      rw [getD_push]
      split
      · exact ⟨Value.sound_empty, rfl⟩
      · exact ⟨h.value ⟨i⟩, h.numbered ⟨i⟩⟩
    exact { h.withSymbols hsymbols with }

theorem newSymbol (name : String) (address : Address) (isPrivate : Bool) :
    (StoreM.newSymbol name address isPrivate s).2.Sound := by
  refine h.withSymbols fun i => ?_
  rw [getD_push]
  split
  · exact ⟨Value.sound_empty, rfl⟩
  · exact ⟨h.value ⟨i⟩, h.numbered ⟨i⟩⟩

theorem newKwargs : (newKwargs s).2.Sound := by
  show Sound { s with kwargs := s.kwargs.push .empty }
  refine { h with kwargs := fun d v hv => ?_ }
  unfold kwargsOf at hv
  rw [getD_push] at hv
  split at hv
  · cases hv
  · exact h.kwargs d v hv

theorem joinedKwarg (dict : KwargsId) (name : String) (hv : v.Sound s.nextSerial) :
    (StoreM.joinedKwarg s dict name v).Sound s.nextSerial := by
  unfold StoreM.joinedKwarg
  split
  · next current hcurrent =>
    have := (h.kwargs dict current (OrderedMap.mem_values_of_get? hcurrent)).1
    exact Value.sound_unite (by simpa using ⟨this, hv⟩)
  · exact hv

theorem addKwarg (dict : KwargsId) (name : String) (hv : v.Sound s.nextSerial) :
    (StoreM.addKwarg dict name v s).2.Sound := by
  rw [StoreM.addKwarg_eq]
  have hj := h.joinedKwarg dict name hv
  have h' := h.raise (Value.le_number (StoreM.joinedKwarg s dict name v) s.nextSerial)
  refine { h' with kwargs := fun d w hw => ?_ }
  unfold kwargsOf at hw
  rw [getD_modify] at hw
  split at hw
  · rcases OrderedMap.mem_values_insert hw with rfl | hw
    · exact ⟨Value.sound_number hj, Value.isNumbered_number _ _⟩
    · exact h'.kwargs d w hw
  · exact h'.kwargs d w hw

theorem modifyClass (c : ClassId) {f : ClassInfo → ClassInfo}
    (hf : ∀ b ∈ (f (s.classOf c)).bases, b.Sound s.nextSerial) : (modifyClass c f s).2.Sound := by
  rw [modifyClass_eq]
  refine { h with bases := fun d b hb => ?_ }
  unfold classOf at hb
  rw [getD_modify] at hb
  split at hb
  · next hd =>
    obtain ⟨hi, -⟩ := hd
    obtain rfl : c = d := congrArg ClassId.mk hi
    exact hf b hb
  · exact h.bases d b hb

end Sound

end Store

end Surmise
