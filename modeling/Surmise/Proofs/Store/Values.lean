import Surmise.Proofs.Store.Growth

/-!
# The values of symbols after a write

What a symbol holds after a write to it or to another one, and the store after a function with a single
parameter was made.

* `Store.symbol_producePrivate`: a write joins into one symbol.
* `StoreM.newFunction_plain`: the store with one more function.
-/

namespace Surmise

open StoreM

/-! ## Writes to symbols -/

namespace Store

variable {s : Store}

theorem size_producePrivate (symbol : SymbolId) (v : Value) (isPrivate : Bool) :
    (producePrivate symbol v isPrivate s).2.symbols.size = s.symbols.size := by
  rw [producePrivate_eq]
  split
  · exact Array.size_modify ..
  · rw [put_eq]
    exact (Array.size_modify ..).trans (Array.size_modify ..)

theorem symbol_put (s : Store) (id other : SymbolId) (v : Value) : (put id v s).2.symbol other =
      if id.index = other.index ∧ other.index < s.symbols.size then
        { s.symbol other with value := (v.number s.nextSerial).1 }
      else s.symbol other := by
  rw [put_eq]
  exact getD_modify ..

/-- What is held once a value is joined into what was held before. -/
def joined (s : Store) (old v : Value) : Value :=
  if v.isEmpty then old else ((Value.unite [old, v]).number s.nextSerial).1

/-- **A write** joins the value into one symbol. -/
theorem symbol_producePrivate (id other : SymbolId) (v : Value) (isPrivate : Bool) :
    (producePrivate id v isPrivate s).2.symbol other =
      if id.index = other.index ∧ other.index < s.symbols.size then
        { s.symbol other with
          value := s.joined (s.value other) v, isPrivate := (s.symbol other).isPrivate && isPrivate }
      else s.symbol other := by
  have hpublish : (publish id isPrivate s).symbol other =
      if id.index = other.index ∧ other.index < s.symbols.size then
        { s.symbol other with isPrivate := (s.symbol other).isPrivate && isPrivate }
      else s.symbol other := getD_modify ..
  have hsize : (publish id isPrivate s).symbols.size = s.symbols.size := Array.size_modify ..
  rw [producePrivate_eq, joined]
  split
  · rw [hpublish]
    rfl
  · rw [symbol_put, hsize, hpublish]
    split
    · next hsame =>
      obtain rfl : id = other := congrArg SymbolId.mk hsame.1
      rfl
    · rfl

theorem value_producePrivate_of_ne {symbol id : SymbolId} (h : symbol ≠ id) (v : Value) (isPrivate : Bool) :
    (producePrivate symbol v isPrivate s).2.value id = s.value id := by
  rw [value, symbol_producePrivate, if_neg fun hsame => h (congrArg SymbolId.mk hsame.1)]
  rfl

theorem value_producePrivate {symbol : SymbolId} {v joined : Value} (hsymbol : symbol.index < s.symbols.size)
    (hv : v.isEmpty = false) (hjoined : .unite [s.value symbol, v] = joined) (hnumbered : joined.isNumbered)
    (isPrivate : Bool) : (producePrivate symbol v isPrivate s).2.value symbol = joined := by
  rw [value, symbol_producePrivate, if_pos ⟨rfl, hsymbol⟩, Store.joined, hv, hjoined,
    Value.number_of_isNumbered hnumbered]
  rfl

theorem value_producePrivate_empty (symbol id : SymbolId) (isPrivate : Bool) :
    (producePrivate symbol .empty isPrivate s).2.value id = s.value id := by
  rw [producePrivate_eq]
  exact value_publish ..

theorem value_bound {table : TableId} {name : String} {isPrivate : Bool} (id : SymbolId) :
    (bound table name isPrivate s).value id =
      if id.index = s.symbols.size then .empty else s.value id := by
  unfold bound value symbol
  rw [getD_push]
  split <;> rfl

end Store

/-! ## Making functions -/

theorem modify_push {α : Type} (a : Array α) (x : α) (f : α → α) : (a.push x).modify a.size f = a.push (f x) := by
  apply Array.ext_getElem?
  intro i
  rw [Array.getElem?_modify, Array.getElem?_push, Array.getElem?_push]
  by_cases hi : a.size = i
  · rw [if_pos hi, if_pos hi.symm, if_pos hi.symm]
    rfl
  · rw [if_neg hi, if_neg (Ne.symm hi), if_neg (Ne.symm hi)]

namespace StoreM

open Store

/-- The store with one more function, which has one parameter. -/
def withPlainFunction (spec : FunctionSpec) (param : Parameter Node) (s : Store) : Store :=
  { s with
    tables := s.tables.push
      ⟨spec.address, OrderedMap.empty.insert param.name ⟨s.symbols.size⟩, some spec.parent⟩
    symbols := (s.symbols.push ⟨param.name, spec.address.child param.name, .empty, false⟩).push
      ⟨returnName, spec.address.child returnName, .empty, false⟩
    functions := s.functions.push
      { name := spec.name, node := spec.node, origin := spec.origin, locals := ⟨s.tables.size⟩
        params := [⟨param.name, ⟨s.symbols.size⟩, param.keywordOnly⟩], vararg := none, kwarg := none
        kwargs := none, returns := ⟨s.symbols.size + 1⟩, receiver := spec.receiver, owner := spec.owner
        home := spec.home } }

theorem newFunction_plain {spec : FunctionSpec} {param : Parameter Node}
    (hparams : spec.params = ⟨[param], none, none⟩) (s : Store) :
    newFunction spec s = (⟨s.functions.size⟩, withPlainFunction spec param s) := by
  have hnone : (opened spec.address (some spec.parent) s).get? ⟨s.tables.size⟩ param.name = none := by
    rw [get?_opened]
    exact get?_of_size_le (Nat.le_refl _) _
  have hcreated := createPrivate_eq ⟨s.tables.size⟩ param.name false (opened spec.address (some spec.parent) s)
  rw [hnone] at hcreated
  have htables : (bound ⟨s.tables.size⟩ param.name false (opened spec.address (some spec.parent) s)).tables =
      s.tables.push ⟨spec.address, OrderedMap.empty.insert param.name ⟨s.symbols.size⟩, some spec.parent⟩ :=
    modify_push s.tables ⟨spec.address, .empty, some spec.parent⟩ fun t =>
      { t with entries := t.entries.insert param.name ⟨s.symbols.size⟩ }
  have hsymbols : (bound ⟨s.tables.size⟩ param.name false (opened spec.address (some spec.parent) s)).symbols =
      s.symbols.push ⟨param.name, spec.address.child param.name, .empty, false⟩ := by
    have haddress : ((opened spec.address (some spec.parent) s).table ⟨s.tables.size⟩).address = spec.address := by
      rw [table_opened, if_pos rfl]
    unfold bound
    rw [haddress]
    rfl
  obtain ⟨name, node, origin, params, address, parent, receiver, owner, home⟩ := spec
  obtain rfl : params = ⟨[param], none, none⟩ := hparams
  have hrun : newFunction ⟨name, node, origin, ⟨[param], none, none⟩, address, parent, receiver, owner, home⟩ s =
      (let created := createPrivate ⟨s.tables.size⟩ param.name false (opened address (some parent) s)
       (⟨created.2.functions.size⟩, { created.2 with
          symbols := created.2.symbols.push ⟨returnName, address.child returnName, .empty, false⟩
          functions := created.2.functions.push
            { name, node, origin, locals := ⟨s.tables.size⟩
              params := [⟨param.name, created.1, param.keywordOnly⟩], vararg := none, kwarg := none
              kwargs := none, returns := ⟨created.2.symbols.size⟩, receiver, owner, home } })) := rfl
  rw [hrun, hcreated]
  dsimp only at htables hsymbols ⊢
  rw [htables, hsymbols, Array.size_push]
  rfl

section PlainFunction

variable {spec : FunctionSpec} {param : Parameter Node} {s : Store}

theorem value_withPlainFunction (id : SymbolId) : (withPlainFunction spec param s).value id =
      if id.index = s.symbols.size ∨ id.index = s.symbols.size + 1 then .empty else s.value id := by
  unfold withPlainFunction value symbol
  rw [getD_push, getD_push, Array.size_push]
  by_cases hresult : id.index = s.symbols.size + 1
  · rw [if_pos hresult, if_pos (.inr hresult)]
  · rw [if_neg hresult]
    by_cases hparam : id.index = s.symbols.size
    · rw [if_pos hparam, if_pos (.inl hparam)]
    · rw [if_neg hparam, if_neg fun h => h.elim hparam hresult]

theorem table_withPlainFunction (t : TableId) : (withPlainFunction spec param s).table t =
      if t.index = s.tables.size then
        ⟨spec.address, OrderedMap.empty.insert param.name ⟨s.symbols.size⟩, some spec.parent⟩
      else s.table t :=
  getD_push _ _ _ _

theorem get?_withPlainFunction (t : TableId) (name : String) : (withPlainFunction spec param s).get? t name =
      if t.index = s.tables.size then (if param.name = name then some ⟨s.symbols.size⟩ else none)
      else s.get? t name := by
  unfold get?
  rw [table_withPlainFunction]
  split
  · rw [OrderedMap.get?_insert]
    rfl
  · rfl

end PlainFunction

end StoreM

end Surmise
