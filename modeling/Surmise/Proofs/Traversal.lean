import Surmise.Traversal
import Mathlib.Logic.Relation
import Mathlib.Data.List.Nodup

/-!
# What a search visits

A depth-first search with enough steps ends with nothing pending. What it has visited by then is what can be
reached from where it began, each point once.

* `Traversal.Search`: a search in progress, with what one step keeps of it.
* `Traversal.Entries`: links that are listed somewhere, so that their number bounds the steps.
* `Traversal.search_depthFirst`: a search is carried through.
* `Traversal.mem_depthFirst_iff`: so it visits what can be reached.
-/

namespace Surmise.Traversal

variable {α : Type} {links : α → List α} {start : α} {visited pending : List α}

/-- The second point can be reached from the first one by following links. -/
abbrev Reaches (links : α → List α) : α → α → Prop := Relation.ReflTransGen fun a b => b ∈ links a

/-- A search that began at `start`. -/
structure Search (links : α → List α) (start : α) (visited pending : List α) : Prop where
  begun : start ∈ visited ∨ start ∈ pending
  nodup : visited.Nodup
  reached : ∀ a, a ∈ visited ∨ a ∈ pending → Reaches links start a
  /-- The links of a visited point have been followed, or will be. -/
  frontier : ∀ a ∈ visited, ∀ b ∈ links a, b ∈ visited ∨ b ∈ pending

theorem search_begins (links : α → List α) (start : α) : Search links start [] [start] where
  begun := .inr List.mem_cons_self
  nodup := List.nodup_nil
  reached a ha := by
    obtain rfl := List.mem_singleton.mp (ha.resolve_left List.not_mem_nil)
    exact .refl
  frontier := nofun

/-- A point that was visited before is left out. -/
theorem Search.skip {point : α} (h : Search links start visited (point :: pending)) (hseen : point ∈ visited) :
    Search links start visited pending := by
  have hpending : ∀ {a}, a ∈ visited ∨ a ∈ point :: pending → a ∈ visited ∨ a ∈ pending := by
    rintro a (ha | ha)
    · exact .inl ha
    · rcases List.mem_cons.mp ha with rfl | ha
      · exact .inl hseen
      · exact .inr ha
  exact ⟨hpending h.begun, h.nodup, fun a ha => h.reached a (ha.imp_right (List.mem_cons_of_mem _)),
    fun a ha b hb => hpending (h.frontier a ha b hb)⟩

/-- A new point is visited, and its links become pending. -/
theorem Search.visit {point : α} (h : Search links start visited (point :: pending)) (hnew : point ∉ visited) :
    Search links start (visited ++ [point]) (links point ++ pending) := by
  have hreached := h.reached point (.inr List.mem_cons_self)
  have hpending : ∀ {a}, a ∈ visited ∨ a ∈ point :: pending → a ∈ visited ++ [point] ∨ a ∈ links point ++ pending := by
    rintro a (ha | ha)
    · exact .inl (List.mem_append_left _ ha)
    · rcases List.mem_cons.mp ha with rfl | ha
      · exact .inl (List.mem_append_right _ List.mem_cons_self)
      · exact .inr (List.mem_append_right _ ha)
  refine ⟨hpending h.begun, ?_, ?_, ?_⟩
  · refine List.nodup_append.mpr ⟨h.nodup, List.nodup_singleton point, ?_⟩
    rintro a ha b hb rfl
    exact hnew (List.mem_singleton.mp hb ▸ ha)
  · rintro a (ha | ha)
    · rcases List.mem_append.mp ha with ha | ha
      · exact h.reached a (.inl ha)
      · exact List.mem_singleton.mp ha ▸ hreached
    · rcases List.mem_append.mp ha with ha | ha
      · exact hreached.tail ha
      · exact h.reached a (.inr (List.mem_cons_of_mem _ ha))
  · intro a ha b hb
    rcases List.mem_append.mp ha with ha | ha
    · exact hpending (h.frontier a ha b hb)
    · obtain rfl := List.mem_singleton.mp ha
      exact .inr (List.mem_append_left _ hb)

/-- A search with nothing pending has visited what can be reached. -/
theorem Search.mem_iff (h : Search links start visited []) {a : α} : a ∈ visited ↔ Reaches links start a := by
  refine ⟨fun ha => h.reached a (.inl ha), fun hreaches => ?_⟩
  induction hreaches with
  | refl => exact h.begun.resolve_right List.not_mem_nil
  | tail _ hlink ih => exact (h.frontier _ ih _ hlink).resolve_right List.not_mem_nil

section Steps

variable [DecidableEq α] {β : Type}

/-- Each link of a point is listed as an entry of this point. -/
def Entries (links : α → List α) (entries : List (α × β)) : Prop :=
  ∀ a, (links a).length ≤ entries.countP fun e => e.1 = a

/-- How many entries are those of points that have not been visited. -/
def unvisited (entries : List (α × β)) (visited : List α) : Nat :=
  entries.countP fun e => e.1 ∉ visited

/-- Visiting a point uses up its entries. -/
theorem unvisited_visit (entries : List (α × β)) {point : α} (hnew : point ∉ visited) :
    unvisited entries (visited ++ [point]) + entries.countP (fun e => e.1 = point) = unvisited entries visited := by
  unfold unvisited
  induction entries with
  | nil => rfl
  | cons e rest ih =>
    simp only [List.countP_cons, decide_eq_true_eq, List.mem_append, List.mem_singleton, not_or] at ih ⊢
    by_cases heq : e.1 = point
    · simp only [heq, hnew, not_false_eq_true, not_true_eq_false, and_false, if_true, if_false]
      omega
    · simp only [heq, not_false_eq_true, and_true, if_false]
      omega

/--
**A search with enough steps ends with nothing pending.** Each step takes one pending point away, and the points
that become pending are among the entries of points not visited until then.
-/
theorem search_depthFirst {entries : List (α × β)} (hentries : Entries links entries) {steps : Nat}
    (hsteps : pending.length + unvisited entries visited ≤ steps) (h : Search links start visited pending) :
    Search links start (depthFirst links steps visited pending) [] := by
  fun_induction depthFirst links steps visited pending with
  | case1 pending visited =>
    obtain rfl : pending = [] := List.length_eq_zero_iff.mp (by omega)
    exact h
  | case2 steps visited => exact h
  | case3 steps visited point pending hseen ih =>
    rw [List.length_cons] at hsteps
    exact ih (by omega) (h.skip hseen)
  | case4 steps visited point pending hnew ih =>
    have huses := unvisited_visit entries hnew
    have hlisted := hentries point
    rw [List.length_cons] at hsteps
    refine ih ?_ (h.visit hnew)
    rw [List.length_append]
    omega

theorem prefix_depthFirst (links : α → List α) (steps : Nat) (visited pending : List α) :
    visited <+: depthFirst links steps visited pending := by
  fun_induction depthFirst links steps visited pending with
  | case1 | case2 => exact List.prefix_refl _
  | case3 steps visited point pending hseen ih => exact ih
  | case4 steps visited point pending hnew ih => exact (List.prefix_append _ _).trans ih

/-- Where a search begins is visited first. -/
theorem depthFirst_eq_cons (links : α → List α) (steps : Nat) (start : α) :
    ∃ rest, depthFirst links (steps + 1) [] [start] = start :: rest := by
  obtain ⟨rest, hrest⟩ := prefix_depthFirst links steps [start] (links start ++ [])
  refine ⟨rest, ?_⟩
  rw [depthFirst, if_neg List.not_mem_nil]
  exact hrest.symm

variable {entries : List (α × β)} (hentries : Entries links entries) {steps : Nat} (hsteps : entries.length < steps)

include hentries hsteps

theorem search_from (start : α) : Search links start (depthFirst links steps [] [start]) [] := by
  refine search_depthFirst hentries ?_ (search_begins links start)
  have hle : unvisited entries [] ≤ entries.length := List.countP_le_length
  rw [List.length_singleton]
  omega

theorem nodup_depthFirst (start : α) : (depthFirst links steps [] [start]).Nodup :=
  (search_from hentries hsteps start).nodup

/-- **The points that are visited are those that can be reached.** -/
theorem mem_depthFirst_iff {start a : α} : a ∈ depthFirst links steps [] [start] ↔ Reaches links start a :=
  (search_from hentries hsteps start).mem_iff

end Steps

end Surmise.Traversal
