import Mathlib.Algebra.BigOperators.Intervals
import Mathlib.Data.List.Nodup

/-!
# How far a constant gets along a chain of calls

A constant that is handed to the outermost of `depth` functions goes down through the parameters to the
innermost one and comes back through the results. The places on its way are numbered from 0: the parameters
from the outermost to the innermost, the results from the innermost to the outermost, and last the variable
that gets the value of the call. Functions are numbered from the innermost on, and the module counts as
number `depth`. A visit to a function hands the constant on to the next place, once down and once up.

* `lt_progress_iff`: which places are reached in the course of the passes.
* `out_lt_progress_iff`: the last place is reached in the pass after as many as there are functions,
  whatever the order of visits. Of two neighbours one is visited before the other: the constant waits for
  the next pass between them either on its way down or on its way up.
-/

namespace Surmise.CallChain

variable {depth : Nat} {written : List Nat} {i k : Nat}

/-- In a list that names everything once, something stands behind as many as are in front of it. -/
theorem idxOf_append_cons {before rest : List Nat} (h : (before ++ i :: rest).Nodup) :
    (before ++ i :: rest).idxOf i = before.length := by
  have hnew : i ∉ before := fun hbefore => (List.disjoint_of_nodup_append h) hbefore List.mem_cons_self
  rw [List.idxOf_append_of_notMem hnew, List.idxOf_cons_self, Nat.add_zero]

/-- How many places are reached after the constant was handed on to place `k`. -/
def handOn (k reached : Nat) : Nat := if reached = k then reached + 1 else reached

/-- How many places are reached after a visit to a function, or to the module. -/
def visited (depth reached i : Nat) : Nat := handOn (depth + i) (handOn (depth - i) reached)

/-- How many places are reached after a pass, which visits the module first. -/
def passed (depth : Nat) (written : List Nat) (reached : Nat) : Nat :=
  written.foldl (visited depth) (visited depth reached depth)

/-- How many places are reached after some passes. -/
def progress (depth : Nat) (written : List Nat) : (passes : Nat) → Nat
  | 0 => 0
  | passes + 1 => passed depth written (progress depth written passes)

/-- The function whose visit hands the constant on to a place. -/
def hander (depth k : Nat) : Nat := (depth - k) + (k - depth)

theorem visited_eq (hi : i ≤ depth) (reached : Nat) : visited depth reached i =
      if reached ≤ 2 * depth ∧ hander depth reached = i then reached + 1 else reached := by
  unfold visited handOn hander
  split_ifs <;> omega

theorem hander_le (hk : k ≤ 2 * depth) : hander depth k ≤ depth := by
  unfold hander
  omega

theorem hander_succ_ne (depth k : Nat) : hander depth (k + 1) ≠ hander depth k := by
  unfold hander
  omega

section Order

variable (depth : Nat) (order : List Nat)

/-- The place after `k` has to wait for another pass. -/
def waits (k : Nat) : Nat :=
  if order.idxOf (hander depth (k + 1)) < order.idxOf (hander depth k) then 1 else 0

/-- The pass in which a place is reached, counted from 0. -/
def passOf (k : Nat) : Nat := ∑ j ∈ Finset.range k, waits depth order j

theorem passOf_succ (k : Nat) : passOf depth order (k + 1) = passOf depth order k + waits depth order k :=
  Finset.sum_range_succ _ _

/-- In the pass `p`, of which `t` visits have been made, these places are reached. -/
def Reached (p t reached : Nat) : Prop :=
  ∀ k ≤ 2 * depth, k < reached ↔
    passOf depth order k < p ∨ passOf depth order k = p ∧ order.idxOf (hander depth k) < t

variable {depth order} (hmem : ∀ i, i ∈ order ↔ i ≤ depth)
include hmem

theorem idxOf_hander_ne {k : Nat} (hk : k < 2 * depth) :
    order.idxOf (hander depth k) ≠ order.idxOf (hander depth (k + 1)) := by
  intro hsame
  have hk : hander depth k ∈ order := (hmem _).mpr (hander_le (by omega))
  exact hander_succ_ne depth k ((List.idxOf_inj hk).mp hsame).symm

/-- What a visit adds: the place that it hands the constant on to, if that is the next one. -/
theorem Reached.visit {p t reached i : Nat} (h : Reached depth order p t reached) (hi : i ≤ depth)
    (hvisit : order.idxOf i = t) : Reached depth order p (t + 1) (visited depth reached i) := by
  have hsame : ∀ k, order.idxOf (hander depth k) = t ↔ hander depth k = i := fun k => by
    rw [← hvisit, eq_comm, List.idxOf_inj ((hmem i).mpr hi), eq_comm]
  rw [visited_eq hi]
  intro k hk
  constructor
  · intro hlt
    by_cases hold : k < reached
    · rcases (h k hk).mp hold with hearlier | ⟨hnow, hbefore⟩
      · exact .inl hearlier
      · exact .inr ⟨hnow, Nat.lt_succ_of_lt hbefore⟩
    · -- the place is the one that this visit has added
      split_ifs at hlt with hmoves
      · obtain rfl : k = reached := by omega
        have hpos := (hsame k).mpr hmoves.2
        have hpass : passOf depth order k ≤ p := by
          cases k with
          | zero => exact Nat.zero_le p
          | succ m =>
            have hprevious := (h m (by omega)).mp (Nat.lt_succ_self m)
            rw [passOf_succ, waits]
            split_ifs <;> omega
        omega
      · exact absurd hlt hold
  · intro htime
    by_cases hnow : passOf depth order k = p ∧ order.idxOf (hander depth k) = t
    · -- all earlier places are reached, so this one is reached already or is the next one
      have hle : k ≤ reached := by
        cases k with
        | zero => exact Nat.zero_le _
        | succ m =>
          have hne := idxOf_hander_ne hmem (k := m) (by omega)
          have hpass := passOf_succ depth order m
          refine (h m (by omega)).mpr ?_
          unfold waits at hpass
          split_ifs at hpass <;> omega
      have hmoves := (hsame k).mp hnow.2
      rcases Nat.lt_or_eq_of_le hle with hlt | rfl
      · split_ifs <;> omega
      · rw [if_pos ⟨hk, hmoves⟩]
        exact Nat.lt_succ_self _
    · have hold := (h k hk).mpr (by omega)
      split_ifs <;> omega

/-- What a whole pass adds. -/
theorem Reached.pass (hnodup : order.Nodup) {p reached : Nat} (h : Reached depth order p 0 reached) :
    Reached depth order (p + 1) 0 (order.foldl (visited depth) reached) := by
  have hvisits : ∀ done rest, done ++ rest = order → ∀ reached, Reached depth order p done.length reached →
      Reached depth order p order.length (rest.foldl (visited depth) reached) := by
    intro done rest
    induction rest generalizing done with
    | nil =>
      intro horder reached hreached
      obtain rfl : done = order := (List.append_nil done).symm.trans horder
      exact hreached
    | cons i rest ih =>
      intro horder reached hreached
      have hi : i ∈ order := by
        rw [← horder]
        exact List.mem_append_right _ List.mem_cons_self
      have hindex : order.idxOf i = done.length := by
        rw [← horder] at hnodup ⊢
        exact idxOf_append_cons hnodup
      have hvisit := hreached.visit hmem ((hmem i).mp hi) hindex
      refine ih (done ++ [i]) ((List.append_assoc ..).trans horder) _ ?_
      rw [List.length_append, List.length_singleton]
      exact hvisit
  have hend := hvisits [] order rfl reached h
  intro k hk
  have hvisited := List.idxOf_lt_length_of_mem ((hmem _).mpr (hander_le hk))
  rw [hend k hk]
  omega

/-- Between two neighbours the constant waits either on its way down or on its way up. -/
theorem passOf_out : passOf depth order (2 * depth) = depth := by
  have hdown : ∑ j ∈ Finset.range depth, waits depth order j =
      ∑ i ∈ Finset.range depth, if order.idxOf i < order.idxOf (i + 1) then 1 else 0 := by
    rw [← Finset.sum_range_reflect]
    refine Finset.sum_congr rfl fun i hi => ?_
    rw [Finset.mem_range] at hi
    have hfrom : hander depth (depth - 1 - i) = i + 1 := by unfold hander; omega
    have hto : hander depth (depth - 1 - i + 1) = i := by unfold hander; omega
    rw [waits, hfrom, hto]
  have hup : ∑ i ∈ Finset.range depth, waits depth order (depth + i) =
      ∑ i ∈ Finset.range depth, if order.idxOf (i + 1) < order.idxOf i then 1 else 0 := by
    refine Finset.sum_congr rfl fun i _ => ?_
    have hfrom : hander depth (depth + i) = i := by unfold hander; omega
    have hto : hander depth (depth + i + 1) = i + 1 := by unfold hander; omega
    rw [waits, hfrom, hto]
  have hone : ∀ i ∈ Finset.range depth, (if order.idxOf i < order.idxOf (i + 1) then 1 else 0) +
      (if order.idxOf (i + 1) < order.idxOf i then 1 else 0) = 1 := by
    intro i hi
    rw [Finset.mem_range] at hi
    have hne : order.idxOf i ≠ order.idxOf (i + 1) := fun hsame =>
      Nat.succ_ne_self i ((List.idxOf_inj ((hmem i).mpr (by omega))).mp hsame).symm
    split_ifs <;> omega
  rw [passOf, Nat.two_mul, Finset.sum_range_add, hdown, hup, ← Finset.sum_add_distrib,
    Finset.sum_congr rfl hone, Finset.sum_const, Finset.card_range, Nat.nsmul_eq_mul, Nat.mul_one]

end Order

/-- A pass visits the module and all functions. -/
theorem mem_order (hwritten : written.Perm (List.range depth)) (i : Nat) : i ∈ depth :: written ↔ i ≤ depth := by
  rw [List.mem_cons, hwritten.mem_iff, List.mem_range]
  omega

/-- Which places are reached in the course of the passes. -/
theorem lt_progress_iff (hwritten : written.Perm (List.range depth)) (passes : Nat) (hk : k ≤ 2 * depth) :
    k < progress depth written passes ↔ passOf depth (depth :: written) k < passes := by
  have hnodup : (depth :: written).Nodup := by
    refine List.nodup_cons.mpr ⟨fun hdepth => ?_, hwritten.nodup_iff.mpr List.nodup_range⟩
    exact Nat.lt_irrefl _ (List.mem_range.mp (hwritten.mem_iff.mp hdepth))
  have hreached : Reached depth (depth :: written) passes 0 (progress depth written passes) := by
    induction passes with
    | zero => exact fun k _ => by simp [progress]
    | succ passes ih => exact ih.pass (mem_order hwritten) hnodup
  rw [hreached k hk]
  omega

/-- **The last place is reached in the pass after as many as there are functions.** -/
theorem out_lt_progress_iff (hwritten : written.Perm (List.range depth)) (passes : Nat) :
    2 * depth < progress depth written passes ↔ depth < passes := by
  rw [lt_progress_iff hwritten passes (Nat.le_refl _), passOf_out (mem_order hwritten)]

end Surmise.CallChain
