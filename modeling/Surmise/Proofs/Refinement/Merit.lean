import Mathlib.Data.Finset.Max
import Surmise.Capability
import Surmise.Proofs.Tree.Nodes
import Surmise.Proofs.Value.Joins

/-!
# The merit of an alternative

An alternative is kept if none supports more of the names that tell the alternatives apart. The
alternatives that are kept are all of the same merit, also when only they are left: a name that still tells
them apart did so before, and one that no longer does is supported by all of them or by none.

* `World.best`: the alternatives that are kept.
* `World.refined?_eq`: narrowing a value gives the join of them.
* `World.best_best`: narrowing again keeps them all.
-/

namespace Surmise.World

/-- The names that some of the alternatives support, but not all of them. -/
def informative (w : World) (alternatives : List Value) (names : Finset String) : Finset String :=
  names.filter fun name =>
    (∃ d ∈ alternatives, w.supports name d = true) ∧ ∃ d ∈ alternatives, w.supports name d = false

/-- How many informative names an alternative supports. -/
def merit (w : World) (alternatives : List Value) (names : Finset String) (d : Value) : Nat :=
  ((w.informative alternatives names).filter fun name => w.supports name d = true).card

/-- The alternatives that support the most of the informative names, in their order. -/
def best (w : World) (names : Finset String) (alternatives : List Value) : List Value :=
  alternatives.filter fun d => ∀ e ∈ alternatives, w.merit alternatives names e ≤ w.merit alternatives names d

variable {w : World} {alternatives : List Value} {names : Finset String} {name : String} {d e : Value}

theorem mem_informative : name ∈ w.informative alternatives names ↔
    name ∈ names ∧ (∃ d ∈ alternatives, w.supports name d = true) ∧ ∃ d ∈ alternatives, w.supports name d = false :=
  Finset.mem_filter

theorem mem_best : d ∈ w.best names alternatives ↔
    d ∈ alternatives ∧ ∀ e ∈ alternatives, w.merit alternatives names e ≤ w.merit alternatives names d := by
  rw [best, List.mem_filter, decide_eq_true_eq]

/-- It takes two alternatives to tell them apart. -/
theorem informative_of_length (h : alternatives.length < 2) (names : Finset String) :
    w.informative alternatives names = ∅ := by
  refine Finset.eq_empty_of_forall_notMem fun name hname => ?_
  obtain ⟨-, ⟨d, hd, hsome⟩, e, he, hnone⟩ := mem_informative.mp hname
  have hsame : d = e := by
    cases alternatives with
    | nil => cases hd
    | cons first rest =>
      rw [List.length_cons] at h
      obtain rfl : rest = [] := List.length_eq_zero_iff.mp (by omega)
      rw [List.mem_singleton.mp hd, List.mem_singleton.mp he]
  rw [hsame, hnone] at hsome
  cases hsome

/-- Where no name tells the alternatives apart, all are kept. -/
theorem best_of_informative (h : w.informative alternatives names = ∅) : w.best names alternatives = alternatives := by
  have hmerit : ∀ d, w.merit alternatives names d = 0 := by
    intro d
    rw [merit, h, Finset.filter_empty, Finset.card_empty]
  refine List.filter_eq_self.mpr fun d _ => decide_eq_true fun e _ => ?_
  rw [hmerit, hmerit]

/-- There is a best alternative if there is any. -/
theorem best_ne_nil (h : alternatives ≠ []) : w.best names alternatives ≠ [] := by
  classical
  obtain ⟨first, hfirst⟩ := List.exists_mem_of_ne_nil _ h
  obtain ⟨d, hd, hmax⟩ := alternatives.toFinset.exists_max_image (w.merit alternatives names)
    ⟨first, List.mem_toFinset.mpr hfirst⟩
  refine List.ne_nil_of_mem (mem_best.mpr ⟨List.mem_toFinset.mp hd, fun e he => ?_⟩)
  exact hmax e (List.mem_toFinset.mpr he)

/-! ## Narrowing a value -/

section Refined

variable {names : List String}

/-- A number of a list is the greatest exactly if none is greater. -/
theorem eq_foldl_max_iff {xs : List Nat} {x : Nat} (h : x ∈ xs) : x = xs.foldl max 0 ↔ ∀ y ∈ xs, y ≤ x := by
  have hle := (Node.foldl_max_le_iff.mp (Nat.le_refl (xs.foldl max 0))).2
  constructor
  · rintro rfl
    exact hle
  · exact fun hmax => Nat.le_antisymm (hle x h) (Node.foldl_max_le_iff.mpr ⟨Nat.zero_le x, hmax⟩)

theorem toFinset_telling (w : World) (names : List String) (alternatives : List Value) :
    (names.filter (w.isTelling alternatives)).toFinset = w.informative alternatives names.toFinset := by
  ext name
  simp [mem_informative, isTelling]

theorem score_telling (hnames : names.Nodup) (d : Value) :
    w.score (names.filter (w.isTelling alternatives)) d = w.merit alternatives names.toFinset d := by
  have hnodup : (names.filter (w.isTelling alternatives)).Nodup := hnames.filter _
  rw [score, List.countP_eq_length_filter, merit, ← toFinset_telling, ← List.toFinset_filter,
    List.toFinset_card_of_nodup (hnodup.filter _)]

/-- **Narrowing a value** joins its best alternatives, if there is a name that tells its alternatives apart. -/
theorem refined?_eq (hnames : names.Nodup) (v : Value) : w.refined? names v =
      if w.informative v.disjuncts names.toFinset = ∅ then none
      else some (.unite (w.best names.toFinset v.disjuncts)) := by
  have htelling : (names.filter (w.isTelling v.disjuncts)).isEmpty = true ↔
      w.informative v.disjuncts names.toFinset = ∅ := by
    rw [List.isEmpty_iff, ← toFinset_telling, List.toFinset_eq_empty_iff]
  unfold refined?
  by_cases hinformative : w.informative v.disjuncts names.toFinset = ∅
  · rw [if_pos hinformative, if_pos]
    rw [htelling.mpr hinformative, Bool.or_true]
  · have hmany : ¬v.disjuncts.length < 2 := fun h => hinformative (informative_of_length h _)
    have hsome : ¬(names.filter (w.isTelling v.disjuncts)).isEmpty = true := fun h => hinformative (htelling.mp h)
    rw [if_neg hinformative, if_neg (by simp [hmany, hsome])]
    refine congrArg (fun ds => some (Value.unite ds)) (List.filter_congr fun d hd => decide_eq_decide.mpr ?_)
    -- the greatest score is that of an alternative which no other one exceeds
    have hscores : v.disjuncts.map (w.score (names.filter (w.isTelling v.disjuncts))) =
        v.disjuncts.map (w.merit v.disjuncts names.toFinset) :=
      List.map_congr_left fun e _ => score_telling hnames e
    rw [hscores, score_telling hnames, eq_foldl_max_iff (List.mem_map_of_mem hd), List.forall_mem_map]

end Refined

/-! ## Narrowing again -/

/-- A name that tells the best alternatives apart tells all of them apart. -/
theorem informative_best_subset (w : World) (names : Finset String) (alternatives : List Value) :
    w.informative (w.best names alternatives) names ⊆ w.informative alternatives names := by
  intro name hname
  obtain ⟨hmem, ⟨d, hd, hsome⟩, e, he, hnone⟩ := mem_informative.mp hname
  exact mem_informative.mpr ⟨hmem, ⟨d, (mem_best.mp hd).1, hsome⟩, e, (mem_best.mp he).1, hnone⟩

/-- The best alternatives do not differ in the names that no longer tell them apart. -/
theorem supports_of_mem_best (hd : d ∈ w.best names alternatives) (he : e ∈ w.best names alternatives)
    (hname : name ∈ names) (hnot : name ∉ w.informative (w.best names alternatives) names) :
    w.supports name d = true → w.supports name e = true := by
  intro hsome
  by_contra hnone
  exact hnot (mem_informative.mpr ⟨hname, ⟨d, hd, hsome⟩, e, he, Bool.eq_false_iff.mpr hnone⟩)

/-- The merit of an alternative counts the names of two sets apart. -/
theorem merit_eq_add {part : Finset String} (h : part ⊆ w.informative alternatives names) (d : Value) :
    w.merit alternatives names d =
      ((w.informative alternatives names \ part).filter fun name => w.supports name d = true).card +
        (part.filter fun name => w.supports name d = true).card := by
  have hdisjoint := Finset.disjoint_filter_filter (p := fun name => w.supports name d = true)
    (q := fun name => w.supports name d = true)
    (Finset.sdiff_disjoint (s := part) (t := w.informative alternatives names))
  rw [merit, ← Finset.card_union_of_disjoint hdisjoint, ← Finset.filter_union, Finset.sdiff_union_of_subset h]

/-- **The best alternatives are the best of themselves.** -/
theorem best_best (w : World) (names : Finset String) (alternatives : List Value) :
    w.best names (w.best names alternatives) = w.best names alternatives := by
  refine List.filter_eq_self.mpr fun d hd => decide_eq_true fun e he => ?_
  have hsame : w.merit alternatives names e = w.merit alternatives names d :=
    Nat.le_antisymm ((mem_best.mp hd).2 e (mem_best.mp he).1) ((mem_best.mp he).2 d (mem_best.mp hd).1)
  -- the names that do not tell any more count for all of them or for none
  have hrest : (w.informative alternatives names \ w.informative (w.best names alternatives) names).filter
        (fun name => w.supports name e = true) =
      (w.informative alternatives names \ w.informative (w.best names alternatives) names).filter
        fun name => w.supports name d = true := by
    refine Finset.filter_congr fun name hname => ?_
    obtain ⟨hname, hnot⟩ := Finset.mem_sdiff.mp hname
    have hmem := (mem_informative.mp hname).1
    exact ⟨supports_of_mem_best he hd hmem hnot, supports_of_mem_best hd he hmem hnot⟩
  have hsubset := informative_best_subset w names alternatives
  rw [merit_eq_add hsubset, merit_eq_add hsubset, hrest] at hsame
  exact Nat.le_of_eq (Nat.add_left_cancel hsame)

/-! ## Alternatives up to the identity of their properties -/

theorem supports_byParts (w : World) (name : String) (d : Value) : w.supports name d.byParts = w.supports name d := by
  cases d <;> rfl

theorem informative_map_byParts (w : World) (names : Finset String) (alternatives : List Value) :
    w.informative (alternatives.map .byParts) names = w.informative alternatives names := by
  ext name
  simp [mem_informative, supports_byParts]

theorem merit_map_byParts (w : World) (names : Finset String) (alternatives : List Value) (d : Value) :
    w.merit (alternatives.map .byParts) names d.byParts = w.merit alternatives names d := by
  simp [merit, informative_map_byParts, supports_byParts]

theorem best_map_byParts (w : World) (names : Finset String) (alternatives : List Value) :
    w.best names (alternatives.map .byParts) = (w.best names alternatives).map .byParts := by
  rw [best, best, List.filter_map]
  refine congrArg (List.map Value.byParts) (List.filter_congr fun d _ => decide_eq_decide.mpr ?_)
  rw [List.forall_mem_map, merit_map_byParts]
  exact forall₂_congr fun e _ => by rw [merit_map_byParts]

end Surmise.World
