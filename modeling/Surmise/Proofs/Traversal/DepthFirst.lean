import Surmise.Proofs.Traversal
import Mathlib.Data.Finset.Card

/-!
# Depth-first search

A search that keeps a stack of pending points visits them in the order of a recursive one, which passes the visited
points on from branch to branch. So to look for something recursively is to take the first point of that order that
has it.

* `Traversal.Walk`: the points that a recursive search visits; `Traversal.walk_depthFirst`: a search with a stack
  visits the same ones.
* `Traversal.seek`: a recursive search for something, at most so many levels deep.
* `Traversal.Walk.finds`: with enough levels it finds what the first point of the walk has.
-/

namespace Surmise.Traversal

variable {α β : Type} {links : α → List α} {visited pending found : List α}

/--
A walk through the pending points, one after another: a point that is new, then what is new behind it. What is
visited on the way is listed in `found`.
-/
inductive Walk (links : α → List α) : (visited pending found : List α) → Prop
  | done (visited : List α) : Walk links visited [] []
  | skip {visited pending found : List α} {point : α} (hseen : point ∈ visited)
      (hrest : Walk links visited pending found) : Walk links visited (point :: pending) found
  | visit {visited pending below rest : List α} {point : α} (hnew : point ∉ visited)
      (hbelow : Walk links (visited ++ [point]) (links point) below)
      (hrest : Walk links (visited ++ [point] ++ below) pending rest) :
      Walk links visited (point :: pending) (point :: (below ++ rest))

/-- A walk through two lists of points goes through the first one, and on through the second one. -/
theorem Walk.split {first second : List α} (h : Walk links visited (first ++ second) found) :
    ∃ found₁ found₂, found = found₁ ++ found₂ ∧ Walk links visited first found₁ ∧
      Walk links (visited ++ found₁) second found₂ := by
  generalize hpending : first ++ second = pending at h
  induction h generalizing first with
  | done visited =>
    obtain ⟨rfl, rfl⟩ := List.append_eq_nil_iff.mp hpending
    exact ⟨[], [], rfl, .done _, .done _⟩
  | @skip visited pending found point hseen hrest ih =>
    cases first with
    | nil =>
      obtain rfl : second = point :: pending := hpending
      exact ⟨[], found, rfl, .done _, (List.append_nil visited).symm ▸ .skip hseen hrest⟩
    | cons head first =>
      obtain ⟨rfl, hbehind⟩ := List.cons.inj hpending
      obtain ⟨found₁, found₂, rfl, h₁, h₂⟩ := ih hbehind
      exact ⟨found₁, found₂, rfl, .skip hseen h₁, h₂⟩
  | @visit visited pending below rest point hnew hbelow hrest _ ih =>
    cases first with
    | nil =>
      obtain rfl : second = point :: pending := hpending
      exact ⟨[], _, rfl, .done _, (List.append_nil visited).symm ▸ .visit hnew hbelow hrest⟩
    | cons head first =>
      obtain ⟨rfl, hbehind⟩ := List.cons.inj hpending
      obtain ⟨found₁, found₂, rfl, h₁, h₂⟩ := ih hbehind
      refine ⟨head :: (below ++ found₁), found₂, by simp, .visit hnew hbelow h₁, ?_⟩
      simpa using h₂

/-- **A search with a stack walks recursively**: what it adds to the visited points is a walk. -/
theorem walk_depthFirst [DecidableEq α] {γ : Type} {entries : List (α × γ)} (hentries : Entries links entries)
    {steps : Nat} (hsteps : pending.length + unvisited entries visited ≤ steps) :
    ∃ found, depthFirst links steps visited pending = visited ++ found ∧ Walk links visited pending found := by
  fun_induction depthFirst links steps visited pending with
  | case1 pending visited =>
    obtain rfl : pending = [] := List.length_eq_zero_iff.mp (by omega)
    exact ⟨[], (List.append_nil visited).symm, .done visited⟩
  | case2 steps visited => exact ⟨[], (List.append_nil visited).symm, .done visited⟩
  | case3 steps visited point pending hseen ih =>
    rw [List.length_cons] at hsteps
    obtain ⟨found, heq, hwalk⟩ := ih (by omega)
    exact ⟨found, heq, .skip hseen hwalk⟩
  | case4 steps visited point pending hnew ih =>
    have huses := unvisited_visit entries hnew
    have hlisted := hentries point
    rw [List.length_cons] at hsteps
    obtain ⟨found, heq, hwalk⟩ := ih (by rw [List.length_append]; omega)
    obtain ⟨below, rest, rfl, hbelow, hrest⟩ := hwalk.split
    exact ⟨point :: (below ++ rest), by rw [heq]; simp, .visit hnew hbelow hrest⟩

/-! ## Recursive search -/

/-- Tries the points one after another, passing the visited ones on, until one gives something. -/
def firstOf (next : List α → α → List α × Option β) : (visited pending : List α) → List α × Option β
  | visited, [] => (visited, none)
  | visited, point :: rest =>
    match next visited point with
    | (visited, some b) => (visited, some b)
    | (visited, none) => firstOf next visited rest

section

variable {next : List α → α → List α × Option β}

theorem firstOf_singleton (visited : List α) (point : α) : firstOf next visited [point] = next visited point := by
  unfold firstOf
  split
  · next h => exact h.symm
  · next h => exact h.symm

theorem firstOf_congr {next' : List α → α → List α × Option β}
    (h : ∀ point ∈ pending, ∀ visited, next visited point = next' visited point) (visited : List α) :
    firstOf next visited pending = firstOf next' visited pending := by
  induction pending generalizing visited with
  | nil => rfl
  | cons point rest ih =>
    rw [firstOf, firstOf, h point List.mem_cons_self]
    split
    · rfl
    · exact ih (fun p hp => h p (List.mem_cons_of_mem _ hp)) _

theorem exists_of_firstOf {b : β} (h : (firstOf next visited pending).2 = some b) :
    ∃ visited point, (next visited point).2 = some b := by
  induction pending generalizing visited with
  | nil => cases h
  | cons point rest ih =>
    rw [firstOf] at h
    split at h
    · next hnext => exact ⟨visited, point, by rw [hnext]; exact h⟩
    · exact ih h

end

variable [DecidableEq α] {own : α → Option β} {levels : Nat} {scope : Finset α}

/-- What a point has, or else a point behind it that is not visited, at most so many levels deep. -/
def seek (links : α → List α) (own : α → Option β) :
    (levels : Nat) → (visited : List α) → α → List α × Option β
  | 0, visited, _ => (visited, none)
  | levels + 1, visited, point =>
    if point ∈ visited then (visited, none)
    else match own point with
      | some b => (point :: visited, some b)
      | none => firstOf (seek links own levels) (point :: visited) (links point)

/-- A search of no levels finds nothing. -/
theorem firstOf_seek_zero (visited pending : List α) :
    firstOf (seek links own 0) visited pending = (visited, none) := by
  induction pending with
  | nil => rfl
  | cons point rest ih => exact ih

/-- What is found belongs to some point. -/
theorem exists_own_of_seek {point : α} {b : β} (h : (seek links own levels visited point).2 = some b) :
    ∃ a, own a = some b := by
  induction levels generalizing visited point with
  | zero => cases h
  | succ levels ih =>
    rw [seek] at h
    split at h
    · cases h
    · split at h
      · next b' hown => exact ⟨point, hown.trans h⟩
      · obtain ⟨_, _, hnext⟩ := exists_of_firstOf h
        exact ih hnext

/-- The more points have been visited, the fewer are left in the scope. -/
theorem filter_unvisited_subset (scope : Finset α) (visited more : List α) :
    scope.filter (· ∉ visited ++ more) ⊆ scope.filter (· ∉ visited) :=
  Finset.monotone_filter_right scope fun _ _ hnew hmem => hnew (List.mem_append_left _ hmem)

theorem card_unvisited_lt {point : α} (hscope : point ∈ scope) (hnew : point ∉ visited) :
    (scope.filter (· ∉ visited ++ [point])).card < (scope.filter (· ∉ visited)).card := by
  refine Finset.card_lt_card ((Finset.ssubset_iff_of_subset (filter_unvisited_subset scope visited _)).mpr ?_)
  exact ⟨point, by simp [hscope, hnew], by simp⟩

/--
**A recursive search finds what the first point of the walk has.** As long as it finds nothing, it has visited what
the walk has. The levels are enough if there are more of them than points in `scope` that are not visited, where
`scope` has all points with links: to go down from a point uses it up.
-/
theorem Walk.finds (h : Walk links visited pending found) (hscope : ∀ a ∈ found, links a ≠ [] → a ∈ scope)
    (hlevels : (scope.filter (· ∉ visited)).card < levels) {known : List α} (hknown : ∀ a, a ∈ known ↔ a ∈ visited) :
    (firstOf (seek links own levels) known pending).2 = found.findSome? own ∧ (found.findSome? own = none →
        ∀ a, a ∈ (firstOf (seek links own levels) known pending).1 ↔ a ∈ visited ++ found) := by
  induction h generalizing levels known with
  | done visited => exact ⟨rfl, fun _ a => by simpa [firstOf] using hknown a⟩
  | @skip visited pending found point hseen _ ih =>
    have hnone : seek links own levels known point = (known, none) := by
      cases levels with
      | zero => rfl
      | succ levels => exact if_pos ((hknown point).mpr hseen)
    rw [firstOf, hnone]
    exact ih hscope hlevels hknown
  | @visit visited pending below rest point hnew hbelow hrest ihbelow ihrest =>
    obtain ⟨levels, rfl⟩ : ∃ n, levels = n + 1 := Nat.exists_eq_add_one.mpr (by omega)
    have hunknown : point ∉ known := fun hmem => hnew ((hknown point).mp hmem)
    have hknown' : ∀ a, a ∈ point :: known ↔ a ∈ visited ++ [point] := by
      intro a
      rw [List.mem_cons, hknown, List.mem_append, List.mem_singleton, or_comm]
    rw [firstOf, seek, if_neg hunknown]
    cases hown : own point with
    | some b => exact ⟨by simp [hown], fun hnone => by simp [hown] at hnone⟩
    | none =>
      dsimp only
      rw [List.findSome?_cons, hown]
      dsimp only
      have hbehind : (firstOf (seek links own levels) (point :: known) (links point)).2 = below.findSome? own ∧
          (below.findSome? own = none → ∀ a, a ∈ (firstOf (seek links own levels) (point :: known) (links point)).1 ↔
            a ∈ visited ++ [point] ++ below) := by
        by_cases hleaf : links point = []
        · rw [hleaf] at hbelow ⊢
          cases hbelow
          exact ⟨rfl, fun _ a => by simpa [firstOf] using hknown' a⟩
        · have hless := card_unvisited_lt (hscope point List.mem_cons_self hleaf) hnew
          exact ihbelow (fun a ha => hscope a (by simp [ha])) (by omega) hknown'
      generalize firstOf (seek links own levels) (point :: known) (links point) = out at hbehind
      obtain ⟨known', result⟩ := out
      obtain ⟨hresult, hvisited⟩ := hbehind
      dsimp only at hresult hvisited
      rw [List.findSome?_append, ← hresult]
      cases result with
      | some b => exact ⟨rfl, fun hnone => by cases hnone⟩
      | none =>
        have hfewer := Finset.card_le_card (filter_unvisited_subset scope visited ([point] ++ below))
        rw [← List.append_assoc] at hfewer
        have hlater := ihrest (fun a ha => hscope a (by simp [ha])) (Nat.lt_of_le_of_lt hfewer hlevels)
          (hvisited hresult.symm)
        simpa using hlater

theorem Walk.seek_eq {start : α} (h : Walk links [] [start] found) (hscope : ∀ a ∈ found, links a ≠ [] → a ∈ scope)
    (hlevels : scope.card < levels) : (seek links own levels [] start).2 = found.findSome? own := by
  have hstart : firstOf (seek links own levels) [] [start] = _ := firstOf_singleton [] start
  rw [← hstart]
  exact (h.finds hscope (Nat.lt_of_le_of_lt (Finset.card_filter_le _ _) hlevels) fun _ => Iff.rfl).1

end Surmise.Traversal
