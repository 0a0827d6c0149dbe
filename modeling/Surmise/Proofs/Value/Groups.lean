import Surmise.Value.Bound
import Mathlib.Data.List.Nodup
import Mathlib.Data.List.Induction

/-!
# Groups of alternatives

A join sorts alternatives by slot: every slot that occurs has one group, which holds the alternatives of the slot in
order, and the groups stand in the order in which their slots occur first.

* `grouped_eq`: the groups.
* `keptSlots`: the slots that a join keeps.
-/

namespace Surmise

/-- A function that goes through a list element by element maps it. -/
theorem eq_map_of_cons {α β : Type} {f : α → β} {g : List α → List β} (hnil : g [] = [])
    (hcons : ∀ x rest, g (x :: rest) = f x :: g rest) (xs : List α) : g xs = xs.map f := by
  induction xs with
  | nil => exact hnil
  | cons x rest ih => rw [hcons, ih, List.map_cons]

/-! ## First occurrences -/

section FirstOccurrences

variable {α : Type} [DecidableEq α]

theorem nodup_eraseDups (as : List α) : as.eraseDups.Nodup := by
  match as with
  | [] => exact List.nodup_nil
  | a :: rest =>
    rw [List.eraseDups_cons, List.nodup_cons]
    refine ⟨fun ha => ?_, nodup_eraseDups _⟩
    simp at ha
termination_by as.length
decreasing_by exact Nat.lt_succ_of_le (List.length_filter_le _ _)

theorem eraseDups_of_nodup {as : List α} (h : as.Nodup) : as.eraseDups = as := by
  induction as with
  | nil => rfl
  | cons a rest ih =>
    obtain ⟨ha, hrest⟩ := List.nodup_cons.mp h
    have hkeep : (rest.filter fun b => !b == a) = rest := by
      refine List.filter_eq_self.mpr fun b hb => ?_
      have hne : b ≠ a := fun hba => ha (hba ▸ hb)
      simpa using hne
    rw [List.eraseDups_cons, hkeep, ih hrest]

theorem removeAll_congr {as as' : List α} (bs : List α) (h : ∀ a, a ∈ as ↔ a ∈ as') :
    bs.removeAll as = bs.removeAll as' := by
  unfold List.removeAll
  refine List.filter_congr fun b _ => ?_
  simp [h b]

theorem removeAll_eq_nil {as bs : List α} (h : ∀ b ∈ bs, b ∈ as) : bs.removeAll as = [] := by
  unfold List.removeAll
  refine List.filter_eq_nil_iff.mpr fun b hb => ?_
  simpa using h b hb

/-- The first `n` first occurrences of a list are found from those of a beginning of it. -/
theorem take_eraseDups_append (n : Nat) (as bs : List α) :
    (as.eraseDups.take n ++ bs).eraseDups.take n = (as ++ bs).eraseDups.take n := by
  have hnodup : (as.eraseDups.take n).Nodup := (nodup_eraseDups as).sublist (List.take_sublist _ _)
  rw [List.eraseDups_append, List.eraseDups_append, eraseDups_of_nodup hnodup]
  rcases Nat.le_total as.eraseDups.length n with hfew | hmany
  · have hall : as.eraseDups.take n = as.eraseDups := List.take_of_length_le hfew
    rw [hall, removeAll_congr bs fun a => List.mem_eraseDups]
  · have hfull : (as.eraseDups.take n).length = n := List.length_take_of_le hmany
    rw [List.take_append_of_le_length (Nat.le_of_eq hfull.symm), List.take_append_of_le_length hmany,
      List.take_take, Nat.min_self]

/-- An element that is kept and did not come with the beginning does not occur in it. -/
theorem not_mem_of_mem_take_eraseDups {n : Nat} {as bs : List α} {a : α}
    (h : a ∈ (as ++ bs).eraseDups.take n) (hfirst : a ∉ as.eraseDups.take n) : a ∉ as := by
  intro ha
  have hmem : a ∈ as.eraseDups := List.mem_eraseDups.mpr ha
  rcases Nat.le_total as.eraseDups.length n with hfew | hmany
  · rw [List.take_of_length_le hfew] at hfirst
    exact hfirst hmem
  · rw [List.eraseDups_append, List.take_append_of_le_length hmany] at h
    exact hfirst h

end FirstOccurrences

namespace Value

variable {s : Slot} {flat : List Value} {v : Value}

/-- A group made of these alternatives. -/
structure IsGroup (flat : List Value) (g : Slot × List Value) : Prop where
  nonempty : g.2 ≠ []
  slot_eq : ∀ m ∈ g.2, m.slot = g.1
  subset : ∀ m ∈ g.2, m ∈ flat

/-- The alternatives of a slot, in order. -/
def atSlot (s : Slot) (flat : List Value) : List Value := flat.filter fun v => v.slot = s

theorem mem_atSlot : v ∈ atSlot s flat ↔ v ∈ flat ∧ v.slot = s := by
  unfold atSlot
  rw [List.mem_filter, decide_eq_true_eq]

theorem atSlot_append (s : Slot) (as bs : List Value) : atSlot s (as ++ bs) = atSlot s as ++ atSlot s bs :=
  List.filter_append ..

theorem atSlot_eq_nil (h : s ∉ flat.map slot) : atSlot s flat = [] := by
  refine List.eq_nil_iff_forall_not_mem.mpr fun v hv => h ?_
  obtain ⟨hmem, hslot⟩ := mem_atSlot.mp hv
  exact hslot ▸ List.mem_map_of_mem hmem

theorem isGroup_atSlot (h : s ∈ flat.map slot) : IsGroup flat (s, atSlot s flat) where
  nonempty := by
    obtain ⟨v, hv, hslot⟩ := List.mem_map.mp h
    exact List.ne_nil_of_mem (mem_atSlot.mpr ⟨hv, hslot⟩)
  slot_eq := fun _ hm => (mem_atSlot.mp hm).2
  subset := fun _ hm => (mem_atSlot.mp hm).1

/-- An alternative of a new slot opens a group at the end. -/
theorem addTo_of_not_mem (h : v.slot ∉ groups.map Prod.fst) : v.addTo groups = groups ++ [(v.slot, [v])] := by
  induction groups with
  | nil => rfl
  | cons first rest ih =>
    obtain ⟨slot, own⟩ := first
    rw [List.map_cons, List.mem_cons, not_or] at h
    rw [addTo, if_neg (Ne.symm h.1), ih h.2]
    rfl

theorem addTo_eq_map {groups : List (Slot × List Value)} (hnodup : (groups.map Prod.fst).Nodup)
    (h : v.slot ∈ groups.map Prod.fst) :
    v.addTo groups = groups.map fun g => (g.1, if g.1 = v.slot then g.2 ++ [v] else g.2) := by
  induction groups with
  | nil => cases h
  | cons first rest ih =>
    obtain ⟨s, members⟩ := first
    obtain ⟨hs, hrest⟩ := List.nodup_cons.mp hnodup
    rw [addTo, List.map_cons]
    by_cases hslot : s = v.slot
    · have hkeep : (rest.map fun g => (g.1, if g.1 = v.slot then g.2 ++ [v] else g.2)) = rest := by
        refine (List.map_congr_left fun g hg => ?_).trans (List.map_id rest)
        have hne : g.1 ≠ v.slot := by
          intro hg'
          refine hs (List.mem_map.mpr ⟨g, hg, ?_⟩)
          rw [hg', hslot]
        rw [if_neg hne]
        rfl
      rw [if_pos hslot, hkeep, if_pos hslot]
    · rw [if_neg hslot, if_neg hslot, ih hrest ((List.mem_cons.mp h).resolve_left (Ne.symm hslot))]

/-- Every slot that occurs has a group, which holds the alternatives of the slot. -/
theorem grouped_eq (flat : List Value) : grouped flat = (flat.map slot).eraseDups.map fun s => (s, atSlot s flat) := by
  induction flat using List.reverseRecOn with
  | nil => rfl
  | append_singleton flat v ih =>
    have hlast : grouped (flat ++ [v]) = v.addTo (grouped flat) := by
      unfold grouped
      rw [List.foldl_append]
      rfl
    have hslots : (grouped flat).map Prod.fst = (flat.map slot).eraseDups := by
      rw [ih, List.map_map]
      exact List.map_id _
    have hat : ∀ s, atSlot s (flat ++ [v]) = if s = v.slot then atSlot s flat ++ [v] else atSlot s flat := by
      intro s
      rw [atSlot_append]
      by_cases hs : s = v.slot
      · simp [atSlot, hs]
      · simp [atSlot, hs, Ne.symm hs]
    rw [hlast, List.map_append, List.eraseDups_append]
    by_cases hv : v.slot ∈ flat.map slot
    · rw [addTo_eq_map (hslots ▸ nodup_eraseDups _) (by rwa [hslots, List.mem_eraseDups]),
        removeAll_eq_nil (by simpa using hv), List.eraseDups_nil, List.append_nil, ih, List.map_map]
      refine List.map_congr_left fun s _ => ?_
      rw [hat]
      rfl
    · have hnew : v.slot ∉ (grouped flat).map Prod.fst := by rwa [hslots, List.mem_eraseDups]
      have hone : (List.map slot [v]).removeAll (flat.map slot) = [v.slot] := by
        unfold List.removeAll
        simpa using hv
      rw [addTo_of_not_mem hnew, hone, List.map_append, ih]
      congr 1
      · refine List.map_congr_left fun s hs => ?_
        have hne : s ≠ v.slot := by
          rintro rfl
          exact hv (List.mem_eraseDups.mp hs)
        rw [hat, if_neg hne]
      · show [(v.slot, [v])] = [(v.slot, atSlot v.slot (flat ++ [v]))]
        rw [hat, if_pos rfl, atSlot_eq_nil hv]
        rfl

theorem atSlot_of_nodup (h : (flat.map slot).Nodup) (hv : v ∈ flat) : atSlot v.slot flat = [v] := by
  induction flat with
  | nil => cases hv
  | cons w rest ih =>
    obtain ⟨hw, hrest⟩ := List.nodup_cons.mp h
    rcases List.mem_cons.mp hv with rfl | hv
    · rw [atSlot, List.filter_cons_of_pos (by simp)]
      exact congrArg (v :: ·) (atSlot_eq_nil hw)
    · have hne : w.slot ≠ v.slot := fun hs => hw (hs ▸ List.mem_map_of_mem hv)
      rw [atSlot, List.filter_cons_of_neg (by simpa using hne)]
      exact ih hrest hv

/-- Alternatives of different slots make a group each. -/
theorem grouped_of_nodup (h : (flat.map slot).Nodup) : grouped flat = flat.map fun v => (v.slot, [v]) := by
  rw [grouped_eq, eraseDups_of_nodup h, List.map_map]
  exact List.map_congr_left fun v hv => congrArg (Prod.mk v.slot) (atSlot_of_nodup h hv)

/-- The slots that a join keeps. -/
def keptSlots (flat : List Value) : List Slot := (flat.map slot).eraseDups.take maxDisjuncts

theorem nodup_keptSlots (flat : List Value) : (keptSlots flat).Nodup :=
  (nodup_eraseDups _).sublist (List.take_sublist _ _)

theorem mem_slots_of_mem_keptSlots (h : s ∈ keptSlots flat) : s ∈ flat.map slot :=
  List.mem_eraseDups.mp (List.mem_of_mem_take h)

end Value

end Surmise
