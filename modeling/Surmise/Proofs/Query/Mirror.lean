import Surmise.Proofs.Query.Imports
import Surmise.Proofs.Store.Mirror

/-!
# Queries to corresponding stores

A query that is asked of corresponding stores about shifted values gives shifted answers.
-/

namespace Surmise

open Value World

/-- What queries of the second evaluation look at corresponds to what those of the first look at. -/
structure World.Mirror (R : Course) (w w' : World) : Prop where
  graph : w'.graph = w.graph
  cancelled : w'.cancelled = w.cancelled
  store : w.store.Mirror R w'.store

namespace World.Mirror

variable {R : Course} {w w' : World} (h : w.Mirror R w')

include h

theorem reads : w.Reads R.shift w' := ⟨h.graph, h.cancelled, h.store.reads⟩

/-! ## Answers -/

section Answers

variable (budget : Nat) (v : Value)

theorem member (name : String) : w'.member budget (v.shift R.shift) name = shift R.shift <$> w.member budget v name :=
  (h.reads.member False.elim budget False.elim name).same

theorem call (args : Args) :
    w'.call budget (v.shift R.shift) (args.shift R.shift) = shift R.shift <$> w.call budget v args :=
  ((h.reads.queries False.elim budget).call False.elim False.elim).same

theorem elem : w'.elem budget (v.shift R.shift) = shift R.shift <$> w.elem budget v :=
  ((h.reads.queries False.elim budget).elem False.elim).same

theorem index (key : Value) :
    w'.index budget (v.shift R.shift) (key.shift R.shift) = shift R.shift <$> w.index budget v key :=
  ((h.reads.queries False.elim budget).index False.elim False.elim).same

theorem slice : w'.slice budget (v.shift R.shift) = shift R.shift <$> w.slice budget v :=
  (h.reads.slice False.elim budget False.elim).same

end Answers

/-! ## Symbols and names of members -/

theorem classSymbolFrom (name : String) (steps : Nat) (visited : List ClassId) (c : ClassId) :
    w'.classSymbolFrom name steps visited c = w.classSymbolFrom name steps visited c := by
  have hsearch : ∀ (next next' : List ClassId → ClassId → List ClassId × Option SymbolId),
      (∀ visited c, next' visited c = next visited c) → ∀ (visited : List ClassId) (vs : List Value),
      World.classSymbolFrom.search next' visited (vs.map (Value.shift R.shift)) =
        World.classSymbolFrom.search next visited vs := by
    intro next next' hnext visited vs
    induction vs generalizing visited with
    | nil => rfl
    | cons v rest ih =>
      rw [List.map_cons]
      cases v
      case classRef parent =>
        simp only [Value.shift, World.classSymbolFrom.search, hnext]
        obtain ⟨visited', _ | symbol⟩ := next visited parent
        · exact ih visited'
        · rfl
      case external path => rfl
      all_goals exact ih visited
  induction steps generalizing visited c with
  | zero => rfl
  | succ steps ih =>
    rw [World.classSymbolFrom, World.classSymbolFrom, h.store.members, h.store.get? (h.store.members_lt c),
      h.store.reads.flatten_bases, hsearch _ _ ih]

theorem classSymbol? (c : ClassId) (name : String) : w'.classSymbol? c name = w.classSymbol? c name := by
  rw [World.classSymbol?, World.classSymbol?, h.store.classes, Array.size_map, h.classSymbolFrom]

theorem memberSymbol? (name : String) (v : Value) :
    w'.memberSymbol? name (v.shift R.shift) = w.memberSymbol? name v := by
  cases v
  case instanceOf c | classRef c => exact h.classSymbol? c name
  case moduleRef m =>
    simp only [Value.shift, World.memberSymbol?, h.store.module, h.store.get? (h.store.module_lt m)]
  case packageRef p =>
    simp only [Value.shift, World.memberSymbol?, h.store.package, h.store.get? (h.store.package_lt p)]
    cases (w.store.package p).init with
    | none => rfl
    | some m => simp only [h.store.module, h.store.get? (h.store.module_lt m)]
  all_goals rfl

theorem memberTable? (v : Value) : w'.memberTable? (v.shift R.shift) = w.memberTable? v := by
  cases v
  case instanceOf c | classRef c => simp only [Value.shift, World.memberTable?, h.store.members]
  case moduleRef m => simp only [Value.shift, World.memberTable?, h.store.module]
  case packageRef p => simp only [Value.shift, World.memberTable?, h.store.package, h.store.module]
  all_goals rfl

theorem memberTable?_lt {v : Value} {t : TableId} (ht : w.memberTable? v = some t) : t.index < w.store.tables.size := by
  cases v <;> simp only [World.memberTable?, reduceCtorEq, Option.some.injEq, Option.map_eq_some_iff] at ht
  case instanceOf c | classRef c => exact ht ▸ h.store.members_lt c
  case moduleRef m => exact ht ▸ h.store.module_lt m
  case packageRef p =>
    obtain ⟨m, -, rfl⟩ := ht
    exact h.store.module_lt m

theorem namesOf (v : Value) : w'.namesOf (v.shift R.shift) = w.namesOf v := by
  cases v
  case moduleRef m => simp only [Value.shift, World.namesOf, h.store.module, h.store.names (h.store.module_lt m)]
  case packageRef p =>
    simp only [Value.shift, World.namesOf, h.store.package, h.store.names (h.store.package_lt p)]
    cases (w.store.package p).init with
    | none => rfl
    | some m => simp only [h.store.module, h.store.names (h.store.module_lt m)]
  case classRef c | instanceOf c =>
    simp only [Value.shift, World.namesOf, h.store.lineage, h.store.members]
    exact congrArg (List.flatMap · _) (funext fun c => h.store.names (h.store.members_lt c))
  case external path | externalInstance path => simp only [Value.shift, World.namesOf, h.graph]
  case synthetic t =>
    cases t with
    | labelled label i =>
      simp only [Value.shift, World.namesOf, Store.syntheticNames, h.store.labelledMembers, map_fst_shiftEntries]
    | orm role model => cases role <;> rfl
  all_goals rfl

theorem dir (v : Value) : w'.dir (v.shift R.shift) = w.dir v := by
  simp only [World.dir, World.check, h.cancelled, disjuncts_shift, List.flatMap_map, h.namesOf]

end World.Mirror

end Surmise
