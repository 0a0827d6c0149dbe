import Surmise.Proofs.Value.Decidable
import Surmise.Proofs.Value.Order
import Surmise.Proofs.Value.Sight

/-!
# When two values are taken for the same

Joins drop an alternative if another one with the same key is kept. A key ends below the deepest level, and
there it does not tell scalars apart. So two different values may be taken for the same, but if a comparison comes
to the end of their collections, then only if all that differs are scalars that lie deeper than that; objects down
there are known by their identity.

* `Built.comparison_by_sight`: what two values have in common that compare equal, and what a join drops.
* `nested_constants_compare_equal`: two values that differ in a constant and compare equal.
-/

namespace Surmise.Value

/-- No scalar of the value is hidden from a comparison. -/
def Clear (v : Value) : Prop := ∀ u ∈ v.layer sight, u.isScalar = false

/-- An alternative that is not merged has its key among those of the join, unless the join is full. -/
theorem exists_kept {vs : List Value} (h : ∀ v ∈ vs, v.WellFormed) {a : Value} (ha : a ∈ flatten vs)
    (hmerged : a.isMerged = false) :
    (∃ b ∈ (unite vs).disjuncts, b ∈ flatten vs ∧ b.key = a.key) ∨
      (unite vs).disjuncts.length = maxDisjuncts := by
  have hslot : a.slot ∈ (flatten vs).map slot := List.mem_map_of_mem ha
  rw [disjuncts_unite h, merged_eq]
  -- the join is cut only if there are more slots than it may have alternatives
  rcases Nat.le_total ((flatten vs).map slot).eraseDups.length maxDisjuncts with hfew | hmany
  · have hkept : a.slot ∈ keptSlots (flatten vs) := by
      rw [keptSlots, List.take_of_length_le hfew]
      exact List.mem_eraseDups.mpr hslot
    have hgroup := isGroup_atSlot hslot
    refine .inl ⟨_, List.mem_map_of_mem hkept, ?_⟩
    rw [slot_of_isMerged hmerged] at hgroup ⊢
    have hmem := mergeGroup_other unite (k := a.key) hgroup.nonempty
    exact ⟨hgroup.subset _ hmem, (isMerged_of_slot (hgroup.slot_eq _ hmem)).2⟩
  · refine .inr ?_
    rw [List.length_map, keptSlots, List.length_take, Nat.min_eq_left hmany]

variable {labels : Nat → String} {n : Nat} {pool : List Value}

/--
**What a comparison of values tells.** Of the shallow values that constructors and joins make, two compare equal
exactly if they look the same; if no scalar of them is hidden, they then have the same tree. A join of shallow
alternatives that is not full drops one that is not merged only if it keeps another one that looks the same.
-/
theorem Built.comparison_by_sight (h : Built labels n pool) :
    (∀ v ∈ pool, ∀ w ∈ pool, v.Shallow → w.Shallow →
      (v.same w = true ↔ v.seen sight = w.seen sight) ∧
      (v.Clear → w.Clear → v.same w = true → v.tree = w.tree)) ∧
    ∀ vs : List Value, (∀ v ∈ vs, v ∈ pool) → (∀ d ∈ flatten vs, d.Shallow) →
      ∀ a ∈ flatten vs, a.isMerged = false →
        (∃ b ∈ (unite vs).disjuncts, b ∈ flatten vs ∧ b.seen sight = a.seen sight) ∨
          (unite vs).disjuncts.length = maxDisjuncts := by
  obtain ⟨objects, hpool⟩ := h.exists_objects
  refine ⟨fun v hv w hw hvopen hwopen => ?_, fun vs hvs hopen a ha hmerged => ?_⟩
  · have hsame := same_iff (hpool v hv).2 (hpool w hw).2 hvopen hwopen
    refine ⟨hsame, fun hvclear hwclear heq => ?_⟩
    rw [← tree_seen hvclear, hsame.mp heq, tree_seen hwclear]
  · have hwell : ∀ v ∈ vs, v.WellFormed := fun v hv => (hpool v (hvs v hv)).1.wellFormed
    have hkept : ∀ d ∈ flatten vs, d.Kept objects labels := by
      intro d hd
      obtain ⟨v, hv, hdv⟩ := mem_flatten hd
      exact (hpool v (hvs v hv)).2.of_mem_disjuncts hdv
    refine (exists_kept hwell ha hmerged).imp_left ?_
    rintro ⟨b, hb, hbflat, hkey⟩
    exact ⟨b, hb, hbflat, (key_eq_iff (hkept b hbflat) (hkept a ha) (hopen b hbflat) (hopen a ha)).mp hkey⟩

/-! ## A constant too deep to be seen -/

/-- Tuples of one item around a value, numbered from `k` on. -/
def nested (v : Value) (k : Nat) : Nat → Value
  | 0 => v
  | m + 1 => .tuple (some (k + m)) [nested v k m]

theorem depth_nested (v : Value) (k m : Nat) : (nested v k m).depth = v.depth + m := by
  induction m with
  | zero => rfl
  | succ m ih => simp [nested, depth, depthAll, ih, Nat.add_assoc]

theorem isNumbered_nested {v : Value} (hv : v.isNumbered = true) (k m : Nat) : (nested v k m).isNumbered = true := by
  induction m with
  | zero => exact hv
  | succ m ih => simp [nested, isNumbered, areNumbered, ih]

theorem Built.exists_nested {v : Value} {k m : Nat} (h : Built labels k pool) (hv : v ∈ pool)
    (hnumbered : v.isNumbered = true) (hdepth : v.depth + m ≤ maxDepth) :
    ∃ pool', Built labels (k + m) pool' ∧ (∀ w ∈ pool, w ∈ pool') ∧ v.nested k m ∈ pool' := by
  induction m with
  | zero => exact ⟨pool, h, fun _ hw => hw, hv⟩
  | succ m ih =>
    obtain ⟨pool', hbuilt, hsub, hmem⟩ := ih (by omega)
    have hclamp : (v.nested k m).clamp = v.nested k m := if_neg (by rw [depth_nested]; omega)
    have htuple : (tupleOf [v.nested k m]).number (k + m) = (v.nested k (m + 1), k + m + 1) := by
      have hitem := number_of_isNumbered (isNumbered_nested hnumbered k m) (k + m)
      rw [tupleOf, List.map_singleton, hclamp, number_tuple, numberAll_of_fixed (by simpa using hitem)]
      rfl
    have hnext := Built.keep hbuilt (.tuple (List.forall_mem_singleton.mpr hmem))
    rw [htuple] at hnext
    exact ⟨_, hnext, fun w hw => List.mem_cons_of_mem _ (hsub w hw), List.mem_cons_self⟩

/-- A constant or nothing, inside six tuples that are numbered from `k` on. -/
def nestedConstant (constant : Int) (k : Nat) : Value :=
  (unite [ofInt constant, .null]).nested k maxDepth

theorem built_nestedConstants :
    ∃ pool, Built (fun _ => "") 12 pool ∧ nestedConstant 1 0 ∈ pool ∧ nestedConstant 2 6 ∈ pool := by
  have hnull : Built (fun _ => "") 0 [.null] := .keep .nil (.atom (v := .null) rfl (by simp))
  have hone : Built (fun _ => "") 0 [ofInt 1, .null] := hnull.keep (.int 1)
  have htwo : Built (fun _ => "") 0 [ofInt 2, ofInt 1, .null] := hone.keep (.int 2)
  have hfirst := htwo.keep (v := unite [ofInt 1, .null]) (.unite (by decide))
  have hboth := hfirst.keep (v := unite [ofInt 2, .null]) (.unite (by decide))
  obtain ⟨pool, hpool, hsub, hfirst⟩ := hboth.exists_nested (v := unite [ofInt 1, .null]) (k := 0) (m := maxDepth)
    (by decide) (by decide) (by decide)
  obtain ⟨pool', hpool', hsub', hsecond⟩ := hpool.exists_nested (v := unite [ofInt 2, .null]) (m := maxDepth)
    (hsub _ (by decide)) (by decide) (by decide)
  exact ⟨pool', hpool', hsub' _ hfirst, hsecond⟩

/-- The two values look the same, and they are compared by what is seen. -/
theorem comparison_by_sight_nestedConstants :
    ∃ pool, Built (fun _ => "") 12 pool ∧ nestedConstant 1 0 ∈ pool ∧ nestedConstant 2 6 ∈ pool ∧
      (nestedConstant 1 0).Shallow ∧ (nestedConstant 2 6).Shallow ∧
      ((nestedConstant 1 0).same (nestedConstant 2 6) = true ↔
        (nestedConstant 1 0).seen sight = (nestedConstant 2 6).seen sight) := by
  obtain ⟨pool, hpool, hfirst, hsecond⟩ := built_nestedConstants
  have hone : (nestedConstant 1 0).Shallow := by decide
  have htwo : (nestedConstant 2 6).Shallow := by decide
  exact ⟨pool, hpool, hfirst, hsecond, hone, htwo, (hpool.comparison_by_sight.1 _ hfirst _ hsecond hone htwo).1⟩

/-- **Two different values that are taken for the same**: a join of them drops the second. -/
theorem nested_constants_compare_equal :
    (∃ pool, Built (fun _ => "") 12 pool ∧ nestedConstant 1 0 ∈ pool ∧ nestedConstant 2 6 ∈ pool) ∧
      (nestedConstant 1 0).same (nestedConstant 2 6) = true ∧
      (nestedConstant 1 0).tree ≠ (nestedConstant 2 6).tree ∧
      unite [nestedConstant 1 0, nestedConstant 2 6] = nestedConstant 1 0 :=
  ⟨built_nestedConstants, by decide, by decide, by decide⟩

end Surmise.Value
