import Surmise.Value.Basic

/-!
# Structural keys

When two alternatives of a union are the same. The key of a value is its spelling as a word of marks,
each part after the mark of the whole, so that equality of keys is decidable and an equivalence.

Below `maxDepth` levels a key no longer tells scalars apart. A collection there is not spelled: the nearest
tuple, method or `super` object around it stands for itself, by its serial number.
-/

namespace Surmise

/-- The deepest nesting of collections, and the deepest level of a key that tells scalars apart. -/
def maxDepth : Nat := 6

/-- A letter of a key. A mark that opens a sequence carries its length. -/
inductive Mark where
  | null
  | bool (constant : Option Bool)
  | int (constant : Option Int)
  | float
  | complex
  | str (constant : Option String)
  | bytes
  | object
  | list
  | set
  | dict
  | tuple (size : Nat)
  | generator
  | kwargs (dict : KwargsId)
  | builtin (b : Builtin)
  | method (name : String)
  | property
  /-- A part that is known by its serial number. -/
  | numbered (serial : Nat)
  | super (size : Nat)
  | external (path : String)
  | externalInstance (path : String)
  | functionRef (id : FunctionId)
  | classRef (id : ClassId)
  | instanceOf (id : ClassId)
  | moduleRef (id : ModuleId)
  | packageRef (id : PackageId)
  | labelled (label : String)
  | labelledAt (index : Nat)
  | orm (role : OrmRole) (model : ClassId)
  | union (size : Nat)
  /-- Any scalar below the deepest level. -/
  | deep
  /-- A collection below the deepest level. -/
  | lost
  deriving DecidableEq, Repr

abbrev Key := List Mark

/-- The key of a scalar at some level. -/
def Mark.scalar (level : Nat) (mark : Mark) : Key :=
  if maxDepth < level then [.deep] else [mark]

/-- The key of a collection at some level, from the spelling of its parts. -/
def Mark.collection (level : Nat) (mark : Mark) (parts : Key) : Key :=
  if maxDepth < level then [.lost] else mark :: parts

/-- The key of a part with a serial number: its number, where the spelling of its parts is lost. -/
def Mark.serial (level : Nat) (serial : Option Nat) (mark : Mark) (parts : Key) : Key :=
  if level ≤ maxDepth && !parts.contains .lost then mark :: parts
  else match serial with
    | some serial => [.numbered serial]
    | none => mark.collection level parts

mutual

/-- The key of a value at some level of nesting. -/
def Value.keyAt (level : Nat) : Value → Key
  | .null => Mark.null.scalar level
  | .bool b => (Mark.bool b).scalar level
  | .int n => (Mark.int n).scalar level
  | .float => Mark.float.scalar level
  | .complex => Mark.complex.scalar level
  | .str s => (Mark.str s).scalar level
  | .bytes => Mark.bytes.scalar level
  | .object => Mark.object.scalar level
  | .list e => Mark.list.collection level (e.keyAt (level + 1))
  | .set e => Mark.set.collection level (e.keyAt (level + 1))
  | .dict k v => Mark.dict.collection level (k.keyAt (level + 1) ++ v.keyAt (level + 1))
  | .tuple serial items =>
    (Mark.tuple items.length).serial level serial (Value.keysAt (level + 1) items)
  | .generator e => Mark.generator.collection level (e.keyAt (level + 1))
  | .kwargs d => [.kwargs d]
  | .builtin b => (Mark.builtin b).scalar level
  | .method serial receiver name =>
    (Mark.method name).serial level serial (receiver.keyAt (level + 1))
  | .property (some serial) _ _ _ => [.numbered serial]
  | .property none g s d =>
    .property :: (g.keyAt (level + 1) ++ s.keyAt (level + 1) ++ d.keyAt (level + 1))
  | .super serial bases =>
    (Mark.super bases.length).serial level serial (Value.keysAt (level + 1) bases)
  | .external path => (Mark.external path).scalar level
  | .externalInstance path => (Mark.externalInstance path).scalar level
  | .functionRef id => [.functionRef id]
  | .classRef id => [.classRef id]
  | .instanceOf id => [.instanceOf id]
  | .moduleRef id => [.moduleRef id]
  | .packageRef id => [.packageRef id]
  | .synthetic (.labelled label index) =>
    if maxDepth < level then [.labelledAt index] else [.labelled label]
  | .synthetic (.orm role model) => if maxDepth < level then [.lost] else [.orm role model]
  | .union alternatives =>
    (Mark.union alternatives.length).collection level (Value.keysAt (level + 1) alternatives)

def Value.keysAt (level : Nat) : List Value → Key
  | [] => []
  | v :: rest => v.keyAt level ++ Value.keysAt level rest

end

def Value.key (v : Value) : Key := v.keyAt 0

/-- Two values that were made apart from each other compare equal. -/
def Value.same (v w : Value) : Bool := v.key == w.key && !v.key.contains .lost

end Surmise
