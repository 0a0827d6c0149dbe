import Surmise.Proofs.Traversal

/-!
# Breadth-first search

A breadth-first search with enough steps ends with nothing pending. A point may be pending more than once, and is
looked up only when its turn comes; still what is visited by the end is what can be reached, the nearest first.

* `Traversal.Exhausts`: a search that comes to its end; `Traversal.exhausts_breadthFirst`: with enough steps it
  does.
* `Traversal.ReachesIn`: what can be reached by following so many links.
* `Traversal.Spread`: a search in progress, each point with the number of links that lead to it.
* `Traversal.exists_spread`: what one step keeps of this, the whole search keeps.
* `Traversal.Spread.exists_nearest`: so the first point that has what is looked for is a nearest one.
-/

namespace Surmise.Traversal

variable {α : Type} {links : α → List α} {start : α}

/-! ## The end of a search -/

/--
The search through the pending points, the first one next and its links last, comes to an end, and has visited
`result` by then.
-/
inductive Exhausts (links : α → List α) : (visited pending result : List α) → Prop
  | done (visited : List α) : Exhausts links visited [] visited
  | skip {visited pending result : List α} {point : α} (hseen : point ∈ visited)
      (hrest : Exhausts links visited pending result) : Exhausts links visited (point :: pending) result
  | visit {visited pending result : List α} {point : α} (hnew : point ∉ visited)
      (hrest : Exhausts links (visited ++ [point]) (pending ++ links point) result) :
      Exhausts links visited (point :: pending) result

/-- **A search with enough steps comes to its end**, for the same reason as a depth-first one does. -/
theorem exhausts_breadthFirst [DecidableEq α] {β : Type} {entries : List (α × β)} (hentries : Entries links entries)
    {steps : Nat} {visited pending : List α} (hsteps : pending.length + unvisited entries visited ≤ steps) :
    Exhausts links visited pending (breadthFirst links steps visited pending) := by
  fun_induction breadthFirst links steps visited pending with
  | case1 pending visited =>
    obtain rfl : pending = [] := List.length_eq_zero_iff.mp (by omega)
    exact .done visited
  | case2 steps visited => exact .done visited
  | case3 steps visited point pending hseen ih =>
    rw [List.length_cons] at hsteps
    exact .skip hseen (ih (by omega))
  | case4 steps visited point pending hnew ih =>
    have huses := unvisited_visit entries hnew
    have hlisted := hentries point
    rw [List.length_cons] at hsteps
    refine .visit hnew (ih ?_)
    rw [List.length_append]
    omega

/-! ## Distance -/

/-- A point can be reached by following so many links. -/
inductive ReachesIn (links : α → List α) (start : α) : Nat → α → Prop
  | here : ReachesIn links start 0 start
  | follow {n : Nat} {a b : α} (h : ReachesIn links start n a) (hlink : b ∈ links a) : ReachesIn links start (n + 1) b

theorem reaches_iff_reachesIn {a : α} : Reaches links start a ↔ ∃ n, ReachesIn links start n a := by
  constructor
  · intro h
    induction h with
    | refl => exact ⟨0, .here⟩
    | tail _ hlink ih =>
      obtain ⟨n, hn⟩ := ih
      exact ⟨n + 1, hn.follow hlink⟩
  · rintro ⟨n, h⟩
    induction h with
    | here => exact .refl
    | follow _ hlink ih => exact ih.tail hlink

/-! ## A search in progress -/

/-- The entry lies no further away than the other one. -/
abbrev Nearer (e e' : α × Nat) : Prop := e.2 ≤ e'.2

/--
A search that began at `start`: what has been visited and what is pending, each point with the length of a way to
it. The ways get longer, and those of the pending points differ by one at most.
-/
structure Spread (links : α → List α) (start : α) (seen queue : List (α × Nat)) : Prop where
  begun : (start, 0) ∈ seen ∨ (start, 0) ∈ queue
  nodup : (seen.map Prod.fst).Nodup
  reached : ∀ e, e ∈ seen ∨ e ∈ queue → ReachesIn links start e.2 e.1
  /-- A link of a visited point leads to a visited one that is at most one further, or it is pending. -/
  frontier : ∀ e ∈ seen, ∀ b ∈ links e.1, (∃ n ≤ e.2 + 1, (b, n) ∈ seen) ∨ (b, e.2 + 1) ∈ queue
  ordered : (seen ++ queue).Pairwise Nearer
  level : ∀ e ∈ queue, ∀ e' ∈ queue, e'.2 ≤ e.2 + 1

theorem spread_begins (links : α → List α) (start : α) : Spread links start [] [(start, 0)] where
  begun := .inr List.mem_cons_self
  nodup := List.nodup_nil
  reached e he := by
    obtain rfl := List.mem_singleton.mp (he.resolve_left List.not_mem_nil)
    exact .here
  frontier e he := absurd he List.not_mem_nil
  ordered := List.pairwise_singleton _ _
  level e he e' he' := by
    obtain rfl := List.mem_singleton.mp he
    obtain rfl := List.mem_singleton.mp he'
    exact Nat.le_succ _

namespace Spread

variable {seen queue : List (α × Nat)} {point : α} {n : Nat}

theorem seen_nearer (h : Spread links start seen queue) {e e' : α × Nat} (he : e ∈ seen) (he' : e' ∈ queue) :
    e.2 ≤ e'.2 :=
  (List.pairwise_append.mp h.ordered).2.2 e he e' he'

/-- A point that was visited before is left out: it was visited at no greater distance. -/
theorem skip (h : Spread links start seen ((point, n) :: queue)) (hseen : point ∈ seen.map Prod.fst) :
    Spread links start seen queue := by
  obtain ⟨⟨_, m⟩, hm, rfl⟩ := List.mem_map.mp hseen
  have hle : m ≤ n := h.seen_nearer hm List.mem_cons_self
  refine ⟨?_, h.nodup, fun e he => h.reached e (he.imp_right (List.mem_cons_of_mem _)), ?_, ?_, ?_⟩
  · rcases h.begun with hstart | hstart
    · exact .inl hstart
    · rcases List.mem_cons.mp hstart with heq | hstart
      · cases heq
        exact .inl (Nat.le_zero.mp hle ▸ hm)
      · exact .inr hstart
  · intro e he b hb
    rcases h.frontier e he b hb with hvisited | hpending
    · exact .inl hvisited
    · rcases List.mem_cons.mp hpending with heq | hpending
      · cases heq
        exact .inl ⟨m, hle, hm⟩
      · exact .inr hpending
  · exact h.ordered.sublist ((List.sublist_cons_self _ _).append_left _)
  · exact fun e he e' he' => h.level e (List.mem_cons_of_mem _ he) e' (List.mem_cons_of_mem _ he')

/-- A new point is visited, and its links become pending, one further away. -/
theorem visit (h : Spread links start seen ((point, n) :: queue)) (hnew : point ∉ seen.map Prod.fst) :
    Spread links start (seen ++ [(point, n)]) (queue ++ (links point).map fun b => (b, n + 1)) := by
  have hreached : ReachesIn links start n point := h.reached (point, n) (.inr List.mem_cons_self)
  have hlevel : ∀ e ∈ queue, e.2 ≤ n + 1 := fun e he =>
    h.level (point, n) List.mem_cons_self e (List.mem_cons_of_mem _ he)
  have hordered : ((seen ++ [(point, n)]) ++ queue).Pairwise Nearer := by
    rw [List.append_assoc]
    exact h.ordered
  have hbefore : ∀ e ∈ (seen ++ [(point, n)]) ++ queue, e.2 ≤ n + 1 := by
    intro e he
    rcases List.mem_append.mp he with he | he
    · rcases List.mem_append.mp he with he | he
      · exact Nat.le_succ_of_le (h.seen_nearer he List.mem_cons_self)
      · obtain rfl := List.mem_singleton.mp he
        exact Nat.le_succ n
    · exact hlevel e he
  have hafter : ∀ e ∈ queue, n ≤ e.2 := fun e he =>
    List.rel_of_pairwise_cons (List.pairwise_append.mp h.ordered).2.1 he
  refine ⟨?_, ?_, ?_, ?_, ?_, ?_⟩
  · rcases h.begun with hstart | hstart
    · exact .inl (List.mem_append_left _ hstart)
    · rcases List.mem_cons.mp hstart with heq | hstart
      · exact .inl (List.mem_append_right _ (List.mem_singleton.mpr heq))
      · exact .inr (List.mem_append_left _ hstart)
  · rw [List.map_append, List.nodup_append]
    refine ⟨h.nodup, List.nodup_singleton point, ?_⟩
    rintro a ha b hb rfl
    obtain rfl : a = point := List.mem_singleton.mp hb
    exact hnew ha
  · rintro e (he | he)
    · rcases List.mem_append.mp he with he | he
      · exact h.reached e (.inl he)
      · exact List.mem_singleton.mp he ▸ hreached
    · rcases List.mem_append.mp he with he | he
      · exact h.reached e (.inr (List.mem_cons_of_mem _ he))
      · obtain ⟨b, hb, rfl⟩ := List.mem_map.mp he
        exact hreached.follow hb
  · intro e he b hb
    rcases List.mem_append.mp he with he | he
    · rcases h.frontier e he b hb with ⟨m, hm, hvisited⟩ | hpending
      · exact .inl ⟨m, hm, List.mem_append_left _ hvisited⟩
      · rcases List.mem_cons.mp hpending with heq | hpending
        · exact .inl ⟨e.2 + 1, Nat.le_refl _, List.mem_append_right _ (List.mem_singleton.mpr heq)⟩
        · exact .inr (List.mem_append_left _ hpending)
    · obtain rfl := List.mem_singleton.mp he
      exact .inr (List.mem_append_right _ (List.mem_map_of_mem hb))
  · rw [← List.append_assoc, List.pairwise_append]
    refine ⟨hordered, List.pairwise_map.mpr (List.pairwise_of_forall fun _ _ => Nat.le_refl _), fun e he e' he' => ?_⟩
    obtain ⟨b, -, rfl⟩ := List.mem_map.mp he'
    exact hbefore e he
  · intro e he e' he'
    have hbounds : ∀ x ∈ queue ++ (links point).map fun b => (b, n + 1), n ≤ x.2 ∧ x.2 ≤ n + 1 := by
      intro x hx
      rcases List.mem_append.mp hx with hx | hx
      · exact ⟨hafter x hx, hlevel x hx⟩
      · obtain ⟨b, -, rfl⟩ := List.mem_map.mp hx
        exact ⟨Nat.le_succ n, Nat.le_refl _⟩
    have hfirst := hbounds e he
    have hsecond := hbounds e' he'
    omega

/-- What can be reached has been visited at no greater distance, unless something that near is pending. -/
theorem visited_or_pending (h : Spread links start seen queue) {a : α} (hin : ReachesIn links start n a) :
    (∃ m ≤ n, (a, m) ∈ seen) ∨ ∃ e ∈ queue, e.2 ≤ n := by
  induction hin with
  | here =>
    rcases h.begun with hstart | hstart
    · exact .inl ⟨0, Nat.le_refl _, hstart⟩
    · exact .inr ⟨_, hstart, Nat.le_refl _⟩
  | @follow n a b _ hlink ih =>
    rcases ih with ⟨m, hm, ha⟩ | ⟨e, he, hle⟩
    · rcases h.frontier _ ha b hlink with ⟨k, hk, hb⟩ | hb
      · exact .inl ⟨k, Nat.le_trans hk (Nat.succ_le_succ hm), hb⟩
      · exact .inr ⟨_, hb, Nat.succ_le_succ hm⟩
    · exact .inr ⟨e, he, Nat.le_succ_of_le hle⟩

end Spread

/-- **A search spreads from where it began until nothing is pending.** -/
theorem exists_spread {visited pending result : List α} (h : Exhausts links visited pending result)
    {seen queue : List (α × Nat)} (hseen : seen.map Prod.fst = visited) (hqueue : queue.map Prod.fst = pending)
    (hspread : Spread links start seen queue) :
    ∃ all, all.map Prod.fst = result ∧ Spread links start all [] := by
  induction h generalizing seen queue with
  | done visited =>
    obtain rfl := List.map_eq_nil_iff.mp hqueue
    exact ⟨seen, hseen, hspread⟩
  | skip hvisited _ ih =>
    obtain ⟨⟨point, n⟩, queue, rfl, rfl, hrest⟩ := List.map_eq_cons_iff.mp hqueue
    exact ih hseen hrest (hspread.skip (hseen ▸ hvisited))
  | @visit visited pending result point hnew _ ih =>
    obtain ⟨⟨point, n⟩, queue, rfl, rfl, hrest⟩ := List.map_eq_cons_iff.mp hqueue
    refine ih ?_ ?_ (hspread.visit (hseen ▸ hnew))
    · rw [List.map_append, hseen]
      rfl
    · rw [List.map_append, hrest, List.map_map]
      exact congrArg (pending ++ ·) (List.map_id _)

/-! ## A search that has come to its end -/

namespace Spread

variable {seen : List (α × Nat)}

theorem mem_iff (h : Spread links start seen []) {a : α} : a ∈ seen.map Prod.fst ↔ Reaches links start a := by
  rw [reaches_iff_reachesIn]
  constructor
  · intro ha
    obtain ⟨⟨_, n⟩, he, rfl⟩ := List.mem_map.mp ha
    exact ⟨n, h.reached _ (.inl he)⟩
  · rintro ⟨n, hn⟩
    rcases h.visited_or_pending hn with ⟨m, -, ha⟩ | ⟨e, he, -⟩
    · exact List.mem_map_of_mem (f := Prod.fst) ha
    · cases he

/-- **What is found first is nearest**: nothing else that can be found is reached by fewer links. -/
theorem exists_nearest (h : Spread links start seen []) {β : Type} {own : α → Option β} {b : β}
    (hfound : (seen.map Prod.fst).findSome? own = some b) :
    ∃ a n, ReachesIn links start n a ∧ own a = some b ∧
      ∀ a' n', ReachesIn links start n' a' → (own a').isSome → n ≤ n' := by
  rw [List.findSome?_map] at hfound
  obtain ⟨before, ⟨a, n⟩, after, rfl, ha, hbefore⟩ := List.findSome?_eq_some_iff.mp hfound
  refine ⟨a, n, h.reached (a, n) (.inl (by simp)), ha, fun a' n' hin hown => ?_⟩
  rcases h.visited_or_pending hin with ⟨m, hm, hmem⟩ | ⟨e, he, -⟩
  · rcases List.mem_append.mp hmem with hearlier | hlater
    · -- what was visited before has nothing
      have hnone : own a' = none := hbefore (a', m) hearlier
      rw [hnone] at hown
      cases hown
    · rcases List.mem_cons.mp hlater with heq | hlater
      · cases heq
        exact hm
      · have hordered := (List.pairwise_append.mp (List.pairwise_append.mp h.ordered).1).2.1
        exact Nat.le_trans (List.rel_of_pairwise_cons hordered hlater) hm
  · cases he

end Spread

end Surmise.Traversal
