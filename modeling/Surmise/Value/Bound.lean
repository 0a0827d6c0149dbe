import Surmise.Value.Unite

/-!
# Bounded collections

Collections are nested at most `maxDepth` deep: a collection whose parts would be deeper keeps only
what is not a collection at the bottom. The constructors here keep that bound.
-/

namespace Surmise.Value

mutual

/-- How deep collections are nested in a value. -/
def depth : Value → Nat
  | .list e | .set e | .generator e => e.depth + 1
  | .dict k v => max k.depth v.depth + 1
  | .tuple _ items => depthAll items + 1
  | .union alternatives => depthAll alternatives
  | _ => 0

def depthAll : List Value → Nat
  | [] => 0
  | v :: rest => max v.depth (depthAll rest)

end

mutual

/-- The value without the collections that are nested deeper than `limit`. -/
def truncate (limit : Nat) (v : Value) : Value :=
  match limit, v with
  | 0, v => unite (v.disjuncts.filter fun d => !d.isCollection)
  | limit + 1, .list e => .list (truncate limit e)
  | limit + 1, .set e => .set (truncate limit e)
  | limit + 1, .generator e => .generator (truncate limit e)
  | limit + 1, .dict k w => .dict (truncate limit k) (truncate limit w)
  | limit + 1, .tuple _ items => .tuple none (truncateAll limit items)
  | limit + 1, .union alternatives => unite (truncateAll (limit + 1) alternatives)
  | _ + 1, other => other
termination_by structural v

def truncateAll (limit : Nat) (vs : List Value) : List Value :=
  match vs with
  | [] => []
  | v :: rest => truncate limit v :: truncateAll limit rest
termination_by structural vs

end

/-- A value that may become part of a collection. -/
def clamp (v : Value) : Value :=
  if maxDepth ≤ v.depth then v.truncate (maxDepth - 1) else v

def listOf (e : Value) : Value := .list e.clamp

def setOf (e : Value) : Value := .set e.clamp

def dictOf (k v : Value) : Value := .dict k.clamp v.clamp

def tupleOf (items : List Value) : Value := .tuple none (items.map clamp)

def generatorOf (e : Value) : Value := .generator e.clamp

/-- A bound method that has no serial number yet. -/
def methodOf (receiver : Value) (name : String) : Value := .method none receiver name

/-- A `super` object that has no serial number yet. -/
def superOf (bases : List Value) : Value := .super none bases

/-- A property that has no serial number yet. -/
def propertyOf (getter setter deleter : Value) : Value := .property none getter setter deleter

mutual

/-- The value without its constants: the constant 3 becomes any integer. -/
def widen : Value → Value
  | .bool (some _) => .bool none
  | .int (some _) => .int none
  | .str (some _) => .str none
  | .tuple _ items => tupleOf (widenAll items)
  | .union alternatives => unite (widenAll alternatives)
  | other => other

def widenAll : List Value → List Value
  | [] => []
  | v :: rest => v.widen :: widenAll rest

end

/-! ## Serial numbers -/

mutual

/-- Everything in the value that takes a serial number has one. -/
def isNumbered : Value → Bool
  | .list e | .set e | .generator e => e.isNumbered
  | .dict k v => k.isNumbered && v.isNumbered
  | .tuple serial items => serial.isSome && areNumbered items
  | .method serial receiver _ => serial.isSome && receiver.isNumbered
  | .property serial g s d => serial.isSome && g.isNumbered && s.isNumbered && d.isNumbered
  | .super serial bases => serial.isSome && areNumbered bases
  | .union alternatives => areNumbered alternatives
  | _ => true

def areNumbered : List Value → Bool
  | [] => true
  | v :: rest => v.isNumbered && areNumbered rest

end

/-- A serial number, taken from the counter if there is none yet. -/
def keepSerial : Option Nat → StateM Nat (Option Nat)
  | some serial => return some serial
  | none => modifyGet fun next => (some next, next + 1)

mutual

/-- Numbers the parts of a value that have no serial number yet. -/
def number : Value → StateM Nat Value
  | .list e => return .list (← e.number)
  | .set e => return .set (← e.number)
  | .generator e => return .generator (← e.number)
  | .dict k v => do
    let k ← k.number
    return .dict k (← v.number)
  | .tuple serial items => do
    let items ← numberAll items
    return .tuple (← keepSerial serial) items
  | .method serial receiver name => do
    let receiver ← receiver.number
    return .method (← keepSerial serial) receiver name
  | .property serial g s d => do
    let g ← g.number
    let s ← s.number
    let d ← d.number
    return .property (← keepSerial serial) g s d
  | .super serial bases => do
    let bases ← numberAll bases
    return .super (← keepSerial serial) bases
  | .union alternatives => return .union (← numberAll alternatives)
  | other => return other

def numberAll : List Value → StateM Nat (List Value)
  | [] => return []
  | v :: rest => do
    let v ← v.number
    return v :: (← numberAll rest)

end

end Surmise.Value
