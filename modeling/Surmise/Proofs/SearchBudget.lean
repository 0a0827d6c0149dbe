import Surmise.Proofs.MemberSearch
import Surmise.Proofs.Store.Productions

/-!
# The budget of a search for a member

A search that runs out of budget below a base goes on with the next one, as if the first one had nothing. So a small
budget may not only hide the member of a class but also bring up that of a base which comes later.

* `World.Deeper`: a chain of bases along which a search runs out of budget.
* `World.classMemberFrom_enough`, `World.classMemberFrom_single`: a search along no such chain, and one along single
  bases.
* `World.member_under_budgets`: the main statement.
-/

namespace Surmise.World

open Traversal Value

variable {w : World} {name : String} {c : ClassId} {visited : List ClassId} {budget : Nat}

/--
From a class, a chain of bases goes the given number of levels up, to a class that has bases too. It avoids the given
classes and meets none twice, and none of them has the member itself.
-/
inductive Deeper (w : World) (name : String) : Nat → List ClassId → ClassId → Prop
  | here {avoid : List ClassId} {c : ClassId} (hnew : c ∉ avoid) (hown : w.ownMember? c name = none)
      (hbases : Value.flatten (w.store.classOf c).bases ≠ []) : Deeper w name 0 avoid c
  | up {avoid : List ClassId} {c base : ClassId} {levels : Nat} (hnew : c ∉ avoid) (hown : w.ownMember? c name = none)
      (hbase : base ∈ w.store.sourceBases c) (h : Deeper w name levels (c :: avoid) base) :
      Deeper w name (levels + 1) avoid c

theorem Deeper.mono {levels : Nat} {avoid avoid' : List ClassId} (h : w.Deeper name levels avoid' c)
    (hsub : avoid ⊆ avoid') : w.Deeper name levels avoid c := by
  induction h generalizing avoid with
  | here hnew hown hbases => exact .here (fun hmem => hnew (hsub hmem)) hown hbases
  | up hnew hown hbase _ ih =>
    exact .up (fun hmem => hnew (hsub hmem)) hown hbase (ih (List.cons_subset_cons _ hsub))

/-! ## Enough budget -/

/-- Searches that agree wherever at least the given classes are visited find the same. -/
theorem firstFound_congr {search search' : List ClassId → Value → Except AnalysisError (List ClassId × Value)}
    {start : List ClassId} {bases : List Value}
    (hsame : ∀ base ∈ bases, ∀ visited, start ⊆ visited → search visited base = search' visited base)
    (hgrows : ∀ visited base, ∃ r, search visited base = .ok r ∧ visited ⊆ r.1) (hstart : start ⊆ visited) :
    firstFound search visited bases = firstFound search' visited bases := by
  induction bases generalizing visited with
  | nil => rfl
  | cons base rest ih =>
    obtain ⟨r, heq, hgrown⟩ := hgrows visited base
    have hrest := ih (fun b hb => hsame b (List.mem_cons_of_mem _ hb)) (List.Subset.trans hstart hgrown)
    rw [firstFound, firstFound, ← hsame base List.mem_cons_self visited hstart, heq]
    exact if_congr Iff.rfl hrest rfl

theorem searchBase_grows (hopen : w.cancelled = false) (budget : Nat) (visited : List ClassId) (base : Value) :
    ∃ r, w.searchBase name budget visited base = .ok r ∧ visited ⊆ r.1 := by
  unfold searchBase
  split
  · next parent =>
    obtain ⟨r, heq, hr⟩ := classMemberFrom_gives hopen name budget visited parent
    exact ⟨r, heq, hr.visited⟩
  · exact ⟨_, rfl, List.Subset.refl _⟩

/-- More budget changes nothing where no chain is deeper than it. -/
theorem classMemberFrom_enough (hopen : w.cancelled = false) (h : ¬ w.Deeper name budget visited c)
    (more : Nat) : w.classMemberFrom name (budget + more) visited c = w.classMemberFrom name budget visited c := by
  induction budget generalizing visited c with
  | zero =>
    obtain ⟨-, heq⟩ | ⟨hnew, ⟨v, -, heq⟩ | ⟨hown, hzero, hsucc⟩⟩ := classMemberFrom_cases hopen name visited c
    · rw [heq, heq]
    · rw [heq, heq]
    · have hbases : flatten (w.store.classOf c).bases = [] := by
        by_contra hne
        exact h (.here hnew hown hne)
      cases more with
      | zero => rfl
      | succ more =>
        rw [Nat.zero_add, hsucc, hzero, hbases]
        rfl
  | succ budget ih =>
    obtain ⟨-, heq⟩ | ⟨hnew, ⟨v, -, heq⟩ | ⟨hown, -, hsucc⟩⟩ := classMemberFrom_cases hopen name visited c
    · rw [heq, heq]
    · rw [heq, heq]
    · have hsame : ∀ base ∈ flatten (w.store.classOf c).bases, ∀ visited', c :: visited ⊆ visited' →
          w.searchBase name (budget + more) visited' base = w.searchBase name budget visited' base := by
        intro base hbase visited' hsub
        unfold searchBase
        split
        · next parent =>
          exact ih fun hdeeper => h (.up hnew hown (Store.mem_sourceBases.mpr hbase) (hdeeper.mono hsub))
        · rfl
      rw [Nat.add_right_comm, hsucc, hsucc]
      exact firstFound_congr hsame (searchBase_grows hopen _) (List.Subset.refl _)

/-! ## Single bases -/

theorem firstFound_singleton {search : List ClassId → Value → Except AnalysisError (List ClassId × Value)}
    {base : Value} {r : List ClassId × Value} (h : search visited base = .ok r) :
    firstFound search visited [base] = .ok r := by
  rw [firstFound, h]
  change (if r.2.isEmpty = true then _ else _) = _
  split
  · next hempty => rw [firstFound, ← eq_empty_of_isEmpty hempty]
  · rfl

/-- Where no class has more than one base, a smaller budget gives the same or nothing. -/
theorem classMemberFrom_single (hopen : w.cancelled = false)
    (hsingle : ∀ a, Reaches w.store.sourceBases c a → (flatten (w.store.classOf a).bases).length ≤ 1)
    {more : Nat} {r r' : List ClassId × Value} (h : w.classMemberFrom name budget visited c = .ok r)
    (h' : w.classMemberFrom name (budget + more) visited c = .ok r') : r.2.isEmpty = true ∨ r.2 = r'.2 := by
  induction budget generalizing visited c r r' with
  | zero =>
    obtain ⟨-, heq⟩ | ⟨-, ⟨v, -, heq⟩ | ⟨-, hzero, -⟩⟩ := classMemberFrom_cases hopen name visited c
    · cases (heq 0).symm.trans h
      exact .inl rfl
    · cases (heq 0).symm.trans h
      cases (heq _).symm.trans h'
      exact .inr rfl
    · cases hzero.symm.trans h
      exact .inl rfl
  | succ budget ih =>
    obtain ⟨-, heq⟩ | ⟨-, ⟨v, -, heq⟩ | ⟨-, -, hsucc⟩⟩ := classMemberFrom_cases hopen name visited c
    · cases (heq _).symm.trans h
      exact .inl rfl
    · cases (heq _).symm.trans h
      cases (heq _).symm.trans h'
      exact .inr rfl
    · rw [hsucc] at h
      rw [Nat.add_right_comm, hsucc] at h'
      have hlength := hsingle c .refl
      have hparent : ∀ parent, .classRef parent ∈ flatten (w.store.classOf c).bases →
          ∀ a, Reaches w.store.sourceBases parent a → (flatten (w.store.classOf a).bases).length ≤ 1 :=
        fun parent hmem a ha => hsingle a (.head (Store.mem_sourceBases.mpr hmem) ha)
      generalize flatten (w.store.classOf c).bases = bases at h h' hlength hparent
      obtain _ | ⟨base, _ | ⟨other, rest⟩⟩ := bases
      · cases h
        exact .inl rfl
      · obtain ⟨q, hq, -⟩ := searchBase_grows hopen budget (c :: visited) base
        obtain ⟨q', hq', -⟩ := searchBase_grows hopen (budget + more) (c :: visited) base
        cases (firstFound_singleton hq).symm.trans h
        cases (firstFound_singleton hq').symm.trans h'
        unfold searchBase at hq hq'
        split at hq
        · next parent => exact ih (hparent parent List.mem_cons_self) hq hq'
        · next hforeign =>
          split at hq'
          · exact absurd rfl (hforeign _)
          · exact .inr (congrArg (·.2) (Except.ok.inj (hq.symm.trans hq')))
      · simp only [List.length_cons] at hlength
        omega

/-! ## All classes -/

/--
**What a search finds with less budget.** With any budget there is an answer, and a value that is not empty comes
from a class that can be reached or one of its bases. Two budgets give the same unless a chain of bases is deeper than
the smaller one. If no class has more than one base, the smaller one gives the same or nothing.
-/
theorem member_under_budgets (graph : Graph) (s : Store) (c : ClassId) (name : String) {budget' : Nat}
    (hle : budget ≤ budget') :
    ∃ v v', classMember ⟨graph, s, false⟩ budget c name = .ok v ∧
      classMember ⟨graph, s, false⟩ budget' c name = .ok v' ∧
      (v.isEmpty = false → Provides ⟨graph, s, false⟩ c name v) ∧
      (¬ Deeper ⟨graph, s, false⟩ name budget [] c → v = v') ∧
      ((∀ a, Reaches s.sourceBases c a → (Value.flatten (s.classOf a).bases).length ≤ 1) →
        v.isEmpty = true ∨ v = v') := by
  obtain ⟨more, rfl⟩ := Nat.exists_eq_add_of_le hle
  obtain ⟨r, heq, hr⟩ := classMemberFrom_gives (w := ⟨graph, s, false⟩) rfl name budget [] c
  obtain ⟨r', heq', -⟩ := classMemberFrom_gives (w := ⟨graph, s, false⟩) rfl name (budget + more) [] c
  refine ⟨r.2, r'.2, ?_, ?_, hr.value, fun hnone => ?_, fun hsingle => ?_⟩
  · rw [classMember, heq]
    rfl
  · rw [classMember, heq']
    rfl
  · rw [classMemberFrom_enough rfl hnone, heq] at heq'
    cases heq'
    rfl
  · exact classMemberFrom_single rfl hsingle heq heq'

/-- A class with two bases. Both of them have the member, but the first one only from its own base. -/
def forked : Store :=
  { Store.empty with
    symbols := #[⟨"x", ⟨⟨"/a.py"⟩, "E.x"⟩, .int (some 1), false⟩, ⟨"x", ⟨⟨"/a.py"⟩, "B.x"⟩, .int (some 2), false⟩]
    tables := #[⟨⟨⟨"/a.py"⟩, "C"⟩, .empty, none⟩, ⟨⟨⟨"/a.py"⟩, "A"⟩, .empty, none⟩,
      ⟨⟨⟨"/a.py"⟩, "B"⟩, .ofList [("x", ⟨1⟩)], none⟩, ⟨⟨⟨"/a.py"⟩, "E"⟩, .ofList [("x", ⟨0⟩)], none⟩]
    classes := #[⟨"C", ⟨0⟩, [.classRef ⟨1⟩, .classRef ⟨2⟩], none⟩, ⟨"A", ⟨1⟩, [.classRef ⟨3⟩], none⟩,
      ⟨"B", ⟨2⟩, [], none⟩, ⟨"E", ⟨3⟩, [], none⟩] }

/-- The first base has single bases. Without budget it has nothing, and otherwise the member of its own base. -/
theorem member_under_budgets_forked :
    0 ≤ 1 ∧ (∀ a, Reaches forked.sourceBases ⟨1⟩ a → (Value.flatten (forked.classOf a).bases).length ≤ 1) ∧
      ∃ v, classMember ⟨.empty, forked, false⟩ 0 ⟨1⟩ "x" = .ok v ∧
        (v.isEmpty = true ∨ classMember ⟨.empty, forked, false⟩ 1 ⟨1⟩ "x" = .ok v) := by
  have hsingle : ∀ a, Reaches forked.sourceBases ⟨1⟩ a → (Value.flatten (forked.classOf a).bases).length ≤ 1 := by
    intro a ha
    have hall : ∀ a ∈ forked.lineage ⟨1⟩, (Value.flatten (forked.classOf a).bases).length ≤ 1 := by decide
    exact hall a (Store.mem_lineage_iff.mpr ha)
  refine ⟨Nat.zero_le 1, hsingle, ?_⟩
  obtain ⟨v, v', heq, heq', -, -, hvalue⟩ := member_under_budgets .empty forked ⟨1⟩ "x" (Nat.zero_le 1)
  refine ⟨v, heq, (hvalue hsingle).imp_right fun hsame => ?_⟩
  rw [hsame]
  exact heq'

/-- With less budget, the class has the member of its second base in place of the first one. -/
theorem small_budget_finds_other_member :
    classMember ⟨.empty, forked, false⟩ 1 ⟨0⟩ "x" = .ok (.int (some 2)) ∧
      classMember ⟨.empty, forked, false⟩ 2 ⟨0⟩ "x" = .ok (.int (some 1)) :=
  ⟨rfl, rfl⟩

end Surmise.World
