import Surmise.Proofs.Refinement.Runs
import Surmise.Proofs.Value.Decidable

/-!
# Refinement of ambiguous symbols

A symbol with several alternatives is narrowed to those that support best what the code does with it.

* `refine_keeps_best`: which alternatives are left.
* `refine_again_and_reordered`: refinement does nothing the second time, and the order of the record does not matter.
* `refine_count`: what the number counts that refinement gives back.
* `refine_counts_unchanged_symbol`: a symbol that is counted and keeps all alternatives.

Values are compared up to the identity of their properties, which every join makes anew; where a value has
no property they are equal.
-/

namespace Surmise

open Recorder World Value Store

/-! ## Which alternatives are left -/

/-- A query for a member that is not cancelled tells whether the alternative supports it. -/
theorem World.hasMember_eq_ok (graph : Graph) (s : Store) (d : Value) (name : String) :
    hasMember ⟨graph, s, false⟩ d name = .ok (supports ⟨graph, s, false⟩ name d) := rfl

/--
**Refinement keeps the best supported alternatives.** If the handle is not aborted, refinement goes through. A
symbol on which no member is used, that has one alternative, or whose alternatives no such member tells apart
keeps its value. Otherwise it then has, in their order, those of its alternatives that support the most of the
members which tell them apart. There is always one.
-/
theorem refine_keeps_best (graph : Graph) (events : List Event) (s : Store) (hs : s.Given) :
    ∃ n s', (refineSymbols graph false (ofEvents events).attrs 0).run s = (.ok n, s') ∧
      (∀ d name, World.hasMember ⟨graph, s, false⟩ d name = .ok (World.supports ⟨graph, s, false⟩ name d)) ∧
      ∀ id,
        (usedOn events id = ∅ ∨ (s.value id).disjuncts.length < 2 ∨ telling graph events s id = ∅ →
          s'.value id = s.value id) ∧
        (s'.value id).disjuncts.map Value.byParts = (bestOf graph events s id).map Value.byParts ∧
        ((∀ d ∈ bestOf graph events s id, d.byParts = d) → (s'.value id).disjuncts = bestOf graph events s id) ∧
        ((s.value id).disjuncts ≠ [] → (s'.value id).disjuncts ≠ []) := by
  obtain ⟨s', hrun, hrefined⟩ := exists_refined graph events s
  refine ⟨_, s', hrun, World.hasMember_eq_ok graph s, fun id => ⟨?_, hrefined.disjuncts hs id, ?_, ?_⟩⟩
  · rintro (hunused | hone | htelling)
    · exact hrefined.unchanged id (telling_of_usedOn hunused)
    · exact hrefined.unchanged id (World.informative_of_length hone _)
    · exact hrefined.unchanged id htelling
  · intro hparts
    have hflat : ∀ d ∈ bestOf graph events s id, d.isUnion = false := fun d hd =>
      (hs id).sound.wellFormed.alternatives.flat d ((bestOf_sublist graph events s id).subset hd)
    rw [hrefined.value_eq hs hparts, Value.disjuncts_ofDisjuncts hflat]
  · intro hsome hnone
    have hbest := hrefined.disjuncts hs id
    rw [hnone, List.map_nil, eq_comm, List.map_eq_nil_iff] at hbest
    exact World.best_ne_nil hsome hbest

/-! ## Refinement again, and in another order -/

section Stability

variable {graph : Graph} {events events' : List Event} {s s' s'' : Store} {id : SymbolId}

theorem Value.byParts_of_mem_disjuncts {v d : Value} (h : v.byParts = v) (hd : d ∈ v.disjuncts) : d.byParts = d := by
  cases v
  case union alternatives =>
    rw [byParts, byPartsAll_eq_map, union.injEq] at h
    exact List.map_inj_left.mp (h.trans (List.map_id alternatives).symm) d hd
  all_goals
    obtain rfl := List.mem_singleton.mp hd
    exact h

theorem Recorder.Refined.byParts_value (h : Refined graph events s s') (hs : s.Given)
    (id : SymbolId) : (s'.value id).byParts = .ofDisjuncts ((bestOf graph events s id).map byParts) := by
  rw [byParts_eq_ofDisjuncts (h.given hs id).sound.wellFormed, h.disjuncts hs id]

/-- The alternatives that are left are all kept when they are refined again. -/
theorem Recorder.Refined.bestOf_again (h : Refined graph events s s') (hs : s.Given) (id : SymbolId) :
    (bestOf graph events s' id).map byParts = (s'.value id).disjuncts.map byParts := by
  rw [bestOf, best_revalued h.revalued, ← best_map_byParts, h.disjuncts hs id, best_map_byParts, bestOf, best_best]

/-- What is the best of a symbol depends only on the members that are used on it. -/
theorem Recorder.bestOf_congr (h : ∀ name, .attr id name ∈ events' ↔ .attr id name ∈ events) :
    bestOf graph events' s id = bestOf graph events s id := by
  have hused : usedOn events' id = usedOn events id := by
    ext name
    rw [mem_usedOn, mem_usedOn, h]
  rw [bestOf, bestOf, hused]

/--
**Refinement is stable.** To refine with the same recorder again leaves every symbol as it is, and two
recorders of the same uses, in any order and among any flows, give every symbol the same value.
-/
theorem refine_again_and_reordered (graph : Graph) (events : List Event) (s : Store) (hs : s.Given) :
    (∃ n s' n' s'', (refineSymbols graph false (ofEvents events).attrs 0).run s = (.ok n, s') ∧
      (refineSymbols graph false (ofEvents events).attrs 0).run s' = (.ok n', s'') ∧
      ∀ id, (s''.value id).byParts = (s'.value id).byParts ∧
        ((s'.value id).byParts = s'.value id → s''.value id = s'.value id)) ∧
    ∀ events' : List Event, (∀ id name, .attr id name ∈ events' ↔ .attr id name ∈ events) →
      ∃ n s₁ n' s₂, (refineSymbols graph false (ofEvents events).attrs 0).run s = (.ok n, s₁) ∧
        (refineSymbols graph false (ofEvents events').attrs 0).run s = (.ok n', s₂) ∧
        ∀ id, (s₂.value id).byParts = (s₁.value id).byParts ∧
          ((s.value id).byParts = s.value id → s₂.value id = s₁.value id) := by
  obtain ⟨s', hrun, hrefined⟩ := exists_refined graph events s
  constructor
  · have hs' := hrefined.given hs
    obtain ⟨s'', hrun', hrefined'⟩ := exists_refined graph events s'
    refine ⟨_, s', _, s'', hrun, hrun', fun id => ⟨?_, fun hparts => ?_⟩⟩
    · rw [hrefined'.byParts_value hs' id, hrefined.bestOf_again hs id,
        ← Value.byParts_eq_ofDisjuncts (hs' id).sound.wellFormed]
    · -- without properties the alternatives themselves are all kept
      have hself : ∀ d ∈ (s'.value id).disjuncts, d.byParts = d := fun d hd =>
        Value.byParts_of_mem_disjuncts hparts hd
      have hbest : ∀ d ∈ bestOf graph events s' id, d.byParts = d := fun d hd =>
        hself d ((bestOf_sublist graph events s' id).subset hd)
      have hall : bestOf graph events s' id = (s'.value id).disjuncts := by
        have hagain := hrefined.bestOf_again hs id
        rwa [List.map_congr_left hbest, List.map_congr_left hself, List.map_id', List.map_id'] at hagain
      rw [hrefined'.value_eq hs' hbest, hall]
      exact (Value.eq_ofDisjuncts (hs' id).sound.wellFormed).symm
  · intro events' hsame
    obtain ⟨s₂, hrun₂, hrefined₂⟩ := exists_refined graph events' s
    refine ⟨_, s', _, s₂, hrun, hrun₂, fun id => ⟨?_, fun hparts => ?_⟩⟩
    · rw [hrefined₂.byParts_value hs id, hrefined.byParts_value hs id, bestOf_congr (hsame id)]
    · have hbest : ∀ d ∈ bestOf graph events s id, d.byParts = d := fun d hd =>
        Value.byParts_of_mem_disjuncts hparts ((bestOf_sublist graph events s id).subset hd)
      rw [hrefined.value_eq hs hbest, ← bestOf_congr (hsame id), hrefined₂.value_eq hs]
      rwa [bestOf_congr (hsame id)]

end Stability

/-! ## What is counted -/

/-- The alternatives of the value of a symbol all support as many of the members that tell them apart. -/
def Recorder.Tied (graph : Graph) (events : List Event) (s : Store) (id : SymbolId) : Prop :=
  ∀ d ∈ (s.value id).disjuncts, ∀ e ∈ (s.value id).disjuncts,
    World.merit ⟨graph, s, false⟩ (s.value id).disjuncts (usedOn events id) e ≤
      World.merit ⟨graph, s, false⟩ (s.value id).disjuncts (usedOn events id) d

instance (graph : Graph) (events : List Event) (s : Store) (id : SymbolId) : Decidable (Tied graph events s id) :=
  inferInstanceAs (Decidable (∀ d ∈ (s.value id).disjuncts, ∀ e ∈ (s.value id).disjuncts, _ ≤ _))

/-- A symbol has fewer alternatives in the second store than in the first. -/
def Store.Fewer (s s' : Store) (id : SymbolId) : Prop :=
  (s'.value id).disjuncts.length < (s.value id).disjuncts.length

instance (s s' : Store) (id : SymbolId) : Decidable (s.Fewer s' id) :=
  inferInstanceAs (Decidable (_ < _))

/-- A symbol has fewer alternatives than before unless they are tied. -/
theorem Recorder.Refined.fewer_iff {graph : Graph} {events : List Event} {s s' : Store}
    (h : Refined graph events s s') (hs : s.Given) (id : SymbolId) :
    s.Fewer s' id ↔ ¬Tied graph events s id := by
  have hlength : (s'.value id).disjuncts.length = (bestOf graph events s id).length := by
    rw [← List.length_map byParts, h.disjuncts hs id, List.length_map]
  rw [Fewer, hlength, bestOf, best, List.length_filter_lt_length_iff_exists, Tied]
  simp only [decide_eq_true_eq, not_forall, exists_prop]

/--
**What refinement counts.** The number is that of the symbols on which a member is used that tells their
alternatives apart. Every symbol that has fewer alternatives afterwards is one of them. The others keep all
their alternatives because these are tied; they are counted as well.
-/
theorem refine_count (graph : Graph) (events : List Event) (s : Store) :
    ∃ n s', (refineSymbols graph false (ofEvents events).attrs 0).run s = (.ok n, s') ∧
      n = (toldApart graph events s).card ∧
      (∀ id, s.Fewer s' id → id ∈ toldApart graph events s) ∧
      (s.Given →
        (∀ id, s.Fewer s' id ↔ ¬Tied graph events s id) ∧
          n = ((toldApart graph events s).filter (s.Fewer s')).card +
            ((toldApart graph events s).filter (Tied graph events s)).card) := by
  obtain ⟨s', hrun, hrefined⟩ := exists_refined graph events s
  refine ⟨_, s', hrun, rfl, fun id hfewer => ?_, fun hs => ⟨hrefined.fewer_iff hs, ?_⟩⟩
  · refine mem_toldApart.mpr fun htelling => ?_
    rw [Store.Fewer, hrefined.unchanged id htelling] at hfewer
    exact Nat.lt_irrefl _ hfewer
  · rw [Finset.filter_congr fun id _ => hrefined.fewer_iff hs id, Nat.add_comm, Finset.card_filter_add_card_filter_not]

/-! ## A symbol that may be a string or a list -/

/-- A store with one symbol, which holds a string or a list of integers. -/
def ambiguousStore : Store :=
  { Store.empty with
    symbols := #[⟨"x", ⟨⟨"/a.py"⟩, "x"⟩, .unite [.str none, .listOf (.int none)], false⟩] }

theorem given_ambiguousStore (id : SymbolId) : (ambiguousStore.value id).Given ambiguousStore.nextSerial := by
  obtain ⟨index⟩ := id
  cases index with
  | zero => exact ⟨by simp [ambiguousStore, value, symbol], by decide⟩
  | succ index =>
    have hnull : ambiguousStore.value ⟨index + 1⟩ = .null := rfl
    rw [hnull]
    exact ⟨by simp, rfl⟩

/-- A string method leaves the string. -/
theorem refine_keeps_best_string :
    ambiguousStore.Given ∧
      ∃ n s', (refineSymbols .empty false (ofEvents [.attr ⟨0⟩ "upper"]).attrs 0).run ambiguousStore = (.ok n, s') ∧
        (s'.value ⟨0⟩).disjuncts = [.str none] := by
  obtain ⟨n, s', hrun, -, hvalues⟩ := refine_keeps_best .empty [.attr ⟨0⟩ "upper"] ambiguousStore given_ambiguousStore
  have hbest : bestOf .empty [.attr ⟨0⟩ "upper"] ambiguousStore ⟨0⟩ = [.str none] := by decide
  refine ⟨given_ambiguousStore, n, s', hrun, ?_⟩
  rw [(hvalues ⟨0⟩).2.2.1 (by rw [hbest]; decide), hbest]

/-- A string method and a list method, recorded in two orders. -/
theorem refine_again_and_reordered_methods :
    ambiguousStore.Given ∧
      (∀ id name, .attr id name ∈ [.attr ⟨0⟩ "append", .flow ⟨0⟩ ⟨1⟩, Event.attr ⟨0⟩ "upper"] ↔
        .attr id name ∈ [.attr ⟨0⟩ "upper", Event.attr ⟨0⟩ "append"]) ∧
      ∃ n s₁ n' s₂,
        (refineSymbols .empty false (ofEvents [.attr ⟨0⟩ "upper", .attr ⟨0⟩ "append"]).attrs 0).run ambiguousStore =
          (.ok n, s₁) ∧
        (refineSymbols .empty false
          (ofEvents [.attr ⟨0⟩ "append", .flow ⟨0⟩ ⟨1⟩, .attr ⟨0⟩ "upper"]).attrs 0).run ambiguousStore = (.ok n', s₂) ∧
        ∀ id, (s₂.value id).byParts = (s₁.value id).byParts := by
  have hsame : ∀ id name, .attr id name ∈ [.attr ⟨0⟩ "append", .flow ⟨0⟩ ⟨1⟩, Event.attr ⟨0⟩ "upper"] ↔
      .attr id name ∈ [.attr ⟨0⟩ "upper", Event.attr ⟨0⟩ "append"] := by
    intro id name
    simp [or_comm]
  obtain ⟨n, s₁, n', s₂, hrun₁, hrun₂, hvalues⟩ := (refine_again_and_reordered .empty
    [.attr ⟨0⟩ "upper", .attr ⟨0⟩ "append"] ambiguousStore given_ambiguousStore).2 _ hsame
  exact ⟨given_ambiguousStore, hsame, n, s₁, n', s₂, hrun₁, hrun₂, fun id => (hvalues id).1⟩

/-- With the string method alone the symbol is counted and has fewer alternatives. -/
theorem refine_count_string :
    ambiguousStore.Given ∧
      ∃ n s', (refineSymbols .empty false (ofEvents [.attr ⟨0⟩ "upper"]).attrs 0).run ambiguousStore = (.ok n, s') ∧
        n = 1 ∧ ambiguousStore.Fewer s' ⟨0⟩ := by
  obtain ⟨n, s', hrun, hn, -, hfewer⟩ := refine_count .empty [.attr ⟨0⟩ "upper"] ambiguousStore
  have htold : (toldApart .empty [.attr ⟨0⟩ "upper"] ambiguousStore).card = 1 := by decide
  have huntied : ¬Tied .empty [.attr ⟨0⟩ "upper"] ambiguousStore ⟨0⟩ := by decide
  exact ⟨given_ambiguousStore, n, s', hrun, hn.trans htold, ((hfewer given_ambiguousStore).1 ⟨0⟩).mpr huntied⟩

/-- **A symbol that is counted and not narrowed**: one member is for strings, the other one for lists. -/
theorem refine_counts_unchanged_symbol :
    ambiguousStore.Given ∧
      (refineSymbols .empty false (ofEvents [.attr ⟨0⟩ "upper", .attr ⟨0⟩ "append"]).attrs 0).run ambiguousStore =
        (.ok 1, ambiguousStore) :=
  ⟨given_ambiguousStore, by rfl⟩

end Surmise
