import Surmise.Value.Key

/-!
# Union of values

The join of several values. Lists are merged into one list of the joined elements, and likewise sets,
dictionaries, generators and properties; any other alternative is kept the first time its key occurs.
At most `maxDisjuncts` alternatives are kept, in order of first occurrence.
-/

namespace Surmise

def maxDisjuncts : Nat := 25

/-- The place of an alternative in a union: one for each mergeable sort, else one for each key. -/
inductive Slot where
  | list
  | set
  | dict
  | generator
  | property
  | other (key : Key)
  deriving DecidableEq

namespace Value

def slot : Value → Slot
  | .list _ => .list
  | .set _ => .set
  | .dict _ _ => .dict
  | .generator _ => .generator
  | .property .. => .property
  | v => .other v.key

/-- Adds an alternative to the group of its slot, or opens a group for it at the end. -/
def addTo (v : Value) : List (Slot × List Value) → List (Slot × List Value)
  | [] => [(v.slot, [v])]
  | (s, members) :: rest =>
    if s = v.slot then (s, members ++ [v]) :: rest else (s, members) :: addTo v rest

/-- The alternatives by slot, slots in order of first occurrence. -/
def grouped (flat : List Value) : List (Slot × List Value) :=
  flat.foldl (fun groups v => v.addTo groups) []

def elem? : Value → Option Value
  | .list e | .set e | .generator e => some e
  | _ => none

def dictKey? : Value → Option Value
  | .dict k _ => some k
  | _ => none

def dictValue? : Value → Option Value
  | .dict _ v => some v
  | _ => none

def getter? : Value → Option Value
  | .property _ g _ _ => some g
  | _ => none

def setter? : Value → Option Value
  | .property _ _ s _ => some s
  | _ => none

def deleter? : Value → Option Value
  | .property _ _ _ d => some d
  | _ => none

/-- The alternative that a group makes, with a join for the parts of its members. -/
def mergeGroup (join : List Value → Value) : Slot × List Value → Value
  | (.list, members) => .list (join (members.filterMap elem?))
  | (.set, members) => .set (join (members.filterMap elem?))
  | (.generator, members) => .generator (join (members.filterMap elem?))
  | (.dict, members) =>
    .dict (join (members.filterMap dictKey?)) (join (members.filterMap dictValue?))
  | (.property, members) =>
    .property none (join (members.filterMap getter?)) (join (members.filterMap setter?))
      (join (members.filterMap deleter?))
  | (.other _, members) => members.headD empty

/-- A union of alternatives; one alternative stands for itself. -/
def ofDisjuncts : List Value → Value
  | [one] => one
  | alternatives => .union alternatives

def flatten (vs : List Value) : List Value := vs.flatMap disjuncts

/-- The join of values whose mergeable parts are nested at most `n` deep. -/
def uniteWithin : Nat → List Value → Value
  | 0, vs => ofDisjuncts (((grouped (flatten vs)).take maxDisjuncts).map (mergeGroup fun _ => empty))
  | n + 1, vs => ofDisjuncts (((grouped (flatten vs)).take maxDisjuncts).map (mergeGroup (uniteWithin n)))

mutual

/-- How deep mergeable parts are nested in a value. -/
def nesting : Value → Nat
  | .list e | .set e | .generator e => e.nesting + 1
  | .dict k v => max k.nesting v.nesting + 1
  | .property _ g s d => max g.nesting (max s.nesting d.nesting) + 1
  | .union alternatives => nestingAll alternatives
  | _ => 0

def nestingAll : List Value → Nat
  | [] => 0
  | v :: rest => max v.nesting (nestingAll rest)

end

/-- The join of values. -/
def unite (vs : List Value) : Value := uniteWithin (nestingAll vs) vs

end Value

end Surmise
