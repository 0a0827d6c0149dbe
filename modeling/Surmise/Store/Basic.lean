import Surmise.Address
import Surmise.OrderedMap
import Surmise.Tree.Basic
import Surmise.Value.Bound

/-!
# The store

All symbols, tables and objects of an analysis. Each is referred to by the place it was given when it
was made and keeps that place; a place that was never given out reads as an empty object.
-/

namespace Surmise

structure Symbol where
  name : String
  address : Address
  value : Value
  isPrivate : Bool
  deriving Inhabited

/-- The bindings of a scope, and the scope around it. -/
structure Table where
  address : Address
  entries : OrderedMap SymbolId
  parent : Option TableId
  deriving Inhabited

/-- How the first parameter of a function is bound when it is reached through a class. -/
inductive Receiver where
  | unbound
  | onInstance
  | onClass
  deriving DecidableEq, Repr, Inhabited

structure Param where
  name : String
  symbol : SymbolId
  keywordOnly : Bool
  deriving Repr, Inhabited

/-- The source text that a definition comes from: a file, or a text that the program evaluates. -/
inductive Origin where
  | file (index : Nat)
  | evaluated (text : String)
  deriving DecidableEq, Repr, Inhabited

structure FunctionInfo where
  name : String
  node : Node
  origin : Origin
  locals : TableId
  params : List Param
  vararg : Option SymbolId
  kwarg : Option SymbolId
  kwargs : Option KwargsId
  returns : SymbolId
  receiver : Receiver
  owner : Option ClassId
  home : ModuleId
  deriving Inhabited

structure ClassInfo where
  name : String
  members : TableId
  bases : List Value
  framework : Option String
  deriving Inhabited

structure ModuleInfo where
  name : String
  path : Path
  members : TableId
  deriving Inhabited

/-- A directory of the analysed program; its `__init__` module stands before its entries. -/
structure PackageInfo where
  dir : Path
  entries : TableId
  init : Option ModuleId
  deriving Inhabited

structure Store where
  symbols : Array Symbol
  tables : Array Table
  functions : Array FunctionInfo
  classes : Array ClassInfo
  /-- The direct subclasses that have become known, in that order, each behind the class it derives from. -/
  subclassLinks : List (ClassId × ClassId)
  modules : Array ModuleInfo
  packages : Array PackageInfo
  kwargs : Array (OrderedMap Value)
  /-- The members of labelled values. -/
  labelled : Array (List (String × Value))
  /-- The next serial number. -/
  nextSerial : Nat
  deriving Inhabited

abbrev StoreM := StateM Store

namespace Store

def empty : Store := ⟨#[], #[], #[], #[], [], #[], #[], #[], #[], 0⟩

def symbol (s : Store) (id : SymbolId) : Symbol := s.symbols.getD id.index default

def table (s : Store) (id : TableId) : Table := s.tables.getD id.index default

def function (s : Store) (id : FunctionId) : FunctionInfo := s.functions.getD id.index default

def classOf (s : Store) (id : ClassId) : ClassInfo := s.classes.getD id.index default

def module (s : Store) (id : ModuleId) : ModuleInfo := s.modules.getD id.index default

def package (s : Store) (id : PackageId) : PackageInfo := s.packages.getD id.index default

def kwargsOf (s : Store) (id : KwargsId) : OrderedMap Value := s.kwargs.getD id.index .empty

def labelledMembers (s : Store) (index : Nat) : List (String × Value) := s.labelled.getD index []

def value (s : Store) (id : SymbolId) : Value := (s.symbol id).value

end Store

end Surmise
