import Surmise.Toml.Basic

/-!
# Tables of TOML

A table is defined once: by its header, by the dotted keys that lead into it, or as a value. Until a
header or a dotted key defines it, a table that a longer header passes through is only implied.
-/

namespace Surmise.Toml

/-- What a key of a table under construction stands for. -/
inductive Item where
  | value (value : Toml)
  /-- A table. It is implied until its own header stands in the document, and dotted if keys made it. -/
  | table (implied dotted : Bool) (entries : List (String × Item))
  /-- Tables under one doubled header, the last one first. -/
  | tables (elements : List (List (String × Item)))
  deriving Inhabited

abbrev Entries := List (String × Item)

namespace Entries

/-- Puts an item for a key, in the place of the one it has. -/
def put (key : String) (item : Item) : Entries → Entries
  | [] => [(key, item)]
  | (k, old) :: rest => if k = key then (key, item) :: rest else (k, old) :: put key item rest

/-- Changes the table that a header's path leads to. Missing tables are implied on the way, and of the
tables under a doubled header the last one is meant. -/
def within (change : Entries → Option Entries) : List String → Entries → Option Entries
  | [], entries => change entries
  | key :: path, entries => do
    match entries.lookup key with
    | none => return entries.put key (.table true false (← within change path []))
    | some (.table implied dotted inner) =>
      return entries.put key (.table implied dotted (← within change path inner))
    | some (.tables (last :: others)) =>
      return entries.put key (.tables ((← within change path last) :: others))
    | some (.tables []) | some (.value _) => none

/-- Defines the table of a header: one that is new, or that was only implied. -/
def define (key : String) (entries : Entries) : Option Entries :=
  match entries.lookup key with
  | none => some (entries.put key (.table false false []))
  | some (.table true false inner) => some (entries.put key (.table false false inner))
  | some _ => none

/-- Adds a table under a doubled header. -/
def extend (key : String) (entries : Entries) : Option Entries :=
  match entries.lookup key with
  | none => some (entries.put key (.tables [[]]))
  | some (.tables elements) => some (entries.put key (.tables ([] :: elements)))
  | some _ => none

def insert (key : String) (value : Toml) (entries : Entries) : Option Entries :=
  match entries.lookup key with
  | none => some (entries.put key (.value value))
  | some _ => none

/-- Gives the key at the end of a dotted path its value. The path leads through tables that no header has
defined, and the key goes into a table that dotted keys have made. -/
def insertAt (key : String) (value : Toml) : List String → Entries → Option Entries
  | [], entries => entries.insert key value
  | step :: path, entries => do
    match entries.lookup step with
    | none => return entries.put step (.table true true (← insertAt key value path []))
    | some (.table implied dotted inner) =>
      if !implied || (path.isEmpty && !dotted) then none
      else return entries.put step (.table implied dotted (← insertAt key value path inner))
    | some (.tables (last :: others)) =>
      if path.isEmpty then none
      else return entries.put step (.tables ((← insertAt key value path last) :: others))
    | some (.tables []) | some (.value _) => none

end Entries

mutual

def Item.toToml : Item → Toml
  | .value value => value
  | .table _ _ entries => .table (entriesOf entries)
  | .tables elements => .array (elementsOf elements).reverse

def entriesOf : List (String × Item) → List (String × Toml)
  | [] => []
  | (key, item) :: rest => (key, item.toToml) :: entriesOf rest

def elementsOf : List (List (String × Item)) → List Toml
  | [] => []
  | element :: rest => .table (entriesOf element) :: elementsOf rest

end

end Surmise.Toml
