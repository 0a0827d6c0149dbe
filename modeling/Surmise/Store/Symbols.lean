import Surmise.Store.Basic

/-!
# Symbols and tables

Binding names, looking them up, and writing to them. An ordinary write joins the new value with the old
one, so what is known of a symbol grows.
-/

namespace Surmise

namespace Store

def get? (s : Store) (table : TableId) (name : String) : Option SymbolId :=
  (s.table table).entries.get? name

/-- The symbol that the table, or the nearest of the `fuel` tables around it, binds to a name. -/
def lookupWithin (s : Store) (name : String) : Nat → TableId → Option SymbolId
  | 0, table => s.get? table name
  | fuel + 1, table =>
    match s.get? table name with
    | some symbol => some symbol
    | none =>
      match (s.table table).parent with
      | some parent => s.lookupWithin name fuel parent
      | none => none

/-- The symbol that the table, or the nearest table around it, binds to a name. -/
def lookup? (s : Store) (table : TableId) (name : String) : Option SymbolId :=
  s.lookupWithin name s.tables.size table

def names (s : Store) (table : TableId) : List String :=
  (s.table table).entries.keys

def symbolsOf (s : Store) (table : TableId) : List SymbolId :=
  (s.table table).entries.values

/-- The value that a table binds to a name, or the empty value. -/
def valueIn (s : Store) (table : TableId) (name : String) : Value :=
  match s.get? table name with
  | some symbol => s.value symbol
  | none => .empty

end Store

namespace StoreM

/-- Numbers the parts of a value that have no serial number yet. -/
def numbered (v : Value) : StoreM Value :=
  if v.isNumbered then return v
  else modifyGet fun s =>
    let (v, next) := v.number s.nextSerial
    (v, { s with nextSerial := next })

def newTable (address : Address) (parent : Option TableId) : StoreM TableId :=
  modifyGet fun s =>
    (⟨s.tables.size⟩, { s with tables := s.tables.push ⟨address, .empty, parent⟩ })

def newSymbol (name : String) (address : Address) (isPrivate : Bool) : StoreM SymbolId :=
  modifyGet fun s =>
    (⟨s.symbols.size⟩, { s with symbols := s.symbols.push ⟨name, address, .empty, isPrivate⟩ })

/-- The symbol that the table itself binds to a name; it is made if there is none. -/
def createPrivate (table : TableId) (name : String) (isPrivate : Bool) : StoreM SymbolId := do
  match (← get).get? table name with
  | some symbol => return symbol
  | none =>
    let symbol ← newSymbol name (((← get).table table).address.child name) isPrivate
    modify fun s =>
      { s with tables := s.tables.modify table.index fun t =>
          { t with entries := t.entries.insert name symbol } }
    return symbol

def create (table : TableId) (name : String) : StoreM SymbolId :=
  createPrivate table name false

def put (symbol : SymbolId) (v : Value) : StoreM Unit := do
  let v ← numbered v
  modify fun s => { s with symbols := s.symbols.modify symbol.index fun sym => { sym with value := v } }

/--
Joins a value with the one of the symbol. The symbol stays private only if every write to it was. The
empty value adds nothing.
-/
def producePrivate (symbol : SymbolId) (v : Value) (isPrivate : Bool) : StoreM Unit := do
  modify fun s =>
    { s with symbols := s.symbols.modify symbol.index fun sym =>
        { sym with isPrivate := sym.isPrivate && isPrivate } }
  unless v.isEmpty do
    put symbol (.unite [(← get).value symbol, v])

def produce (symbol : SymbolId) (v : Value) : StoreM Unit :=
  producePrivate symbol v false

def putIn (table : TableId) (name : String) (v : Value) : StoreM SymbolId := do
  let symbol ← create table name
  put symbol v
  return symbol

def putAll (table : TableId) : List (String × Value) → StoreM Unit
  | [] => return ()
  | (name, v) :: rest => do
    let _ ← putIn table name v
    putAll table rest

/-- Joins a value with the one that the table binds to a name. -/
def produceIn (table : TableId) (name : String) (v : Value) : StoreM Unit := do
  produce (← create table name) v

def clearValues (table : TableId) : StoreM Unit := do
  for symbol in (← get).symbolsOf table do
    put symbol .empty

/-! ## Keyword dictionaries -/

def newKwargs : StoreM KwargsId :=
  modifyGet fun s => (⟨s.kwargs.size⟩, { s with kwargs := s.kwargs.push .empty })

/-- Joins a value with the one of an entry. -/
def addKwarg (dict : KwargsId) (name : String) (v : Value) : StoreM Unit := do
  let merged := match ((← get).kwargsOf dict).get? name with
    | some current => .unite [current, v]
    | none => v
  let merged ← numbered merged
  modify fun s => { s with kwargs := s.kwargs.modify dict.index fun d => d.insert name merged }

end StoreM

def Store.kwargsValues (s : Store) (dict : KwargsId) : Value :=
  .unite (s.kwargsOf dict).values

end Surmise
