/-!
# Maps in order of insertion

A map from names whose entries keep the order in which their names came first: writing to a name that
is there already changes its value and not its place.
-/

namespace Surmise

structure OrderedMap (α : Type) where
  entries : List (String × α)
  nodup : (entries.map Prod.fst).Nodup

namespace OrderedMap

variable {α : Type}

def put (name : String) (a : α) : List (String × α) → List (String × α)
  | [] => [(name, a)]
  | (key, b) :: rest => if key = name then (key, a) :: rest else (key, b) :: put name a rest

theorem map_fst_put (name : String) (a : α) (entries : List (String × α)) :
    (put name a entries).map Prod.fst =
      if name ∈ entries.map Prod.fst then entries.map Prod.fst
      else entries.map Prod.fst ++ [name] := by
  induction entries with
  | nil => simp [put]
  | cons entry rest ih =>
    obtain ⟨key, b⟩ := entry
    by_cases h : key = name
    · simp [put, h]
    · have h' : name ≠ key := fun e => h e.symm
      simp only [put, h, if_false, List.map_cons, ih, List.mem_cons, h', false_or]
      split <;> simp

theorem nodup_put {entries : List (String × α)} (h : (entries.map Prod.fst).Nodup) (name : String)
    (a : α) : ((put name a entries).map Prod.fst).Nodup := by
  rw [map_fst_put]
  split
  · exact h
  · next hm =>
    refine List.nodup_append.2 ⟨h, by simp, ?_⟩
    intro x hx y hy e
    simp only [List.mem_singleton] at hy
    exact hm (hy ▸ e ▸ hx)

def empty : OrderedMap α := ⟨[], List.nodup_nil⟩

instance : Inhabited (OrderedMap α) := ⟨empty⟩

def get? (m : OrderedMap α) (name : String) : Option α :=
  (m.entries.find? fun entry => entry.1 == name).map Prod.snd

def contains (m : OrderedMap α) (name : String) : Bool :=
  m.entries.any fun entry => entry.1 == name

/-- Gives a name a value, at its place or at the end. -/
def insert (m : OrderedMap α) (name : String) (a : α) : OrderedMap α :=
  ⟨put name a m.entries, nodup_put m.nodup name a⟩

def keys (m : OrderedMap α) : List String := m.entries.map Prod.fst

def values (m : OrderedMap α) : List α := m.entries.map Prod.snd

def size (m : OrderedMap α) : Nat := m.entries.length

def isEmpty (m : OrderedMap α) : Bool := m.entries.isEmpty

/-- The map that the entries make when they are written one after another. -/
def ofList (entries : List (String × α)) : OrderedMap α :=
  entries.foldl (fun m entry => m.insert entry.1 entry.2) empty

end OrderedMap

end Surmise
