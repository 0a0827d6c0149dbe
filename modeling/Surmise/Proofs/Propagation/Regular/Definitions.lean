import Surmise.Proofs.Propagation.Definitions

/-!
# What a definition does

The state after a function, a lambda, a class or the scope of a comprehension was asked for by its place: as it
was if there is one already, and otherwise with one more. A function is put on the list of what is visited.
-/

namespace Surmise

open StoreM Evaluator

namespace Run

variable {σ : Setting} {s : Session}

/-- What a function is made from where it is defined. -/
def specOf (f : Frame) (signature : Signature) (s : Session) : StoreM.FunctionSpec :=
  { name := signature.name, node := signature.node, origin := f.origin, params := signature.params,
    address := freeFor s ((s.store.table f.scope).address.child signature.name), parent := f.inherited,
    receiver := signature.receiver, owner := f.owner, home := f.home }

/-- The store with the function, whose `*` parameter holds a list. -/
def definedStore (f : Frame) (signature : Signature) (s : Session) : Store :=
  let made := StoreM.newFunction (specOf f signature s) s.store
  match (made.2.function made.1).vararg with
  | some symbol => (StoreM.produce symbol (.listOf .empty) made.2).2
  | none => made.2

def defined (f : Frame) (signature : Signature) (s : Session) : Session :=
  { s with
    store := definedStore f signature s
    assembly := { s.assembly with
      reserved := (specOf f signature s).address :: s.assembly.reserved
      order := s.assembly.order.push (.function ⟨s.store.functions.size⟩) } }

theorem define_apply (f : Frame) (signature : Signature) :
    define f signature σ s = (.ok ⟨s.store.functions.size⟩, defined f signature s) := by
  have hfresh := (adds_newFunction (specOf f signature s) s.store).1
  have hmake : makeFunction f signature σ s = (.ok (newFunction (specOf f signature s) s.store).1,
        { s.reserving (specOf f signature s).address with
          store := (newFunction (specOf f signature s) s.store).2 }) := rfl
  unfold define defined definedStore
  rw [bind_apply, hmake]
  dsimp only
  rw [hfresh]
  generalize (newFunction (specOf f signature s) s.store).2 = st
  rw [getStore_bind_apply]
  cases (st.function ⟨s.store.functions.size⟩).vararg <;> rfl

/-- One function was added, with the node it was made from. -/
theorem addsFunctionTo_definedStore (f : Frame) (signature : Signature) (s : Session) :
    AddsFunctionTo s.store (definedStore f signature s) signature.node f.origin := by
  have hadds := (adds_newFunction (specOf f signature s) s.store).2
  unfold definedStore
  dsimp only
  split
  · exact hadds.then (keeps_produce _ _ _)
  · exact hadds

/-! ## Places -/

def withDefinition (form : Form) (f : Frame) (id : Nat) (signature : Signature) (s : Session) : Session :=
  { defined f signature s with
    assembly := form.place (f.site id, ⟨s.store.functions.size⟩) (defined f signature s).assembly }

theorem definedAt_apply (form : Form) (f : Frame) (id : Nat) (signature : Signature) (σ : Setting) (s : Session) :
    definedAt form f id signature σ s =
      match (form.places s.assembly).lookup (f.site id) with
      | some g => (.ok g, s)
      | none => (.ok ⟨s.store.functions.size⟩, withDefinition form f id signature s) := by
  unfold definedAt
  rw [get_bind_apply]
  cases (form.places s.assembly).lookup (f.site id) with
  | some g => rfl
  | none =>
    dsimp only
    rw [bind_apply, define_apply]
    rfl

/-- What the class of a place is made as. -/
@[irreducible] def classMade (f : Frame) (name : String) (s : Session) : ClassId × Store :=
  StoreM.newClass name (freeFor s ((s.store.table f.scope).address.child name)) (s.store.module f.home).name s.store

def withClass (f : Frame) (id : Nat) (name : String) (s : Session) : Session :=
  { s with
    store := (classMade f name s).2
    assembly := { s.assembly with
      reserved := freeFor s ((s.store.table f.scope).address.child name) :: s.assembly.reserved
      classes := s.assembly.classes ++ [(f.site id, (classMade f name s).1)] } }

theorem classAt_apply (f : Frame) (id : Nat) (name : String) (σ : Setting) (s : Session) : classAt f id name σ s =
      match s.assembly.classes.lookup (f.site id) with
      | some c => (.ok c, s)
      | none => (.ok (classMade f name s).1, withClass f id name s) := by
  have hmake : makeClass f name σ s = (.ok (classMade f name s).1,
      { s.reserving (freeFor s ((s.store.table f.scope).address.child name)) with
        store := (classMade f name s).2 }) := by
    rw [makeClass_apply, inStore_apply]
    unfold classMade
    rfl
  unfold classAt
  rw [get_bind_apply]
  cases s.assembly.classes.lookup (f.site id) with
  | some c => rfl
  | none =>
    dsimp only
    rw [bind_apply, hmake]
    rfl

def withComprehension (f : Frame) (node : Nat) (s : Session) : Session :=
  let address := freeFor s ((s.store.table f.scope).address.child "[comprehension]")
  { s with
    store := StoreM.opened address (some f.inherited) s.store
    assembly := { s.assembly with
      reserved := address :: s.assembly.reserved
      comprehensions := s.assembly.comprehensions ++ [(f.site node, ⟨s.store.tables.size⟩)] } }

theorem comprehensionTable_apply (f : Frame) (node : Nat) (σ : Setting) (s : Session) : comprehensionTable f node σ s =
      match s.assembly.comprehensions.lookup (f.site node) with
      | some t => (.ok t, s)
      | none => (.ok ⟨s.store.tables.size⟩, withComprehension f node s) := by
  unfold comprehensionTable
  rw [get_bind_apply]
  cases s.assembly.comprehensions.lookup (f.site node) <;> rfl

end Run

end Surmise
