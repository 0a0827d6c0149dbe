import Surmise.Proofs.Value.Groups

/-!
# Well-formed values

What every value that is kept looks like, and that the operations on values keep it so.

* `Value.Everywhere`: a property of a value and of everything inside it, decidable where the property is.
* `Value.WellFormed`: a union has no alternative that is a union, never exactly one and at most
  `maxDisjuncts` of them, each in a slot of its own; integer constants are in range; collections are
  nested at most `maxDepth` deep.
* `Value.Formed`: a well-formed value with a further property everywhere in it.
* `formed_unite`, `formed_truncate`, `formed_clamp`, `formed_widen`: the operations that regroup and cut, each by
  induction along its recursion, keep a property that nothing outside a value decides on.
-/

namespace Surmise.Value

variable {d e p v : Value} {P : Value → Prop} {flat vs : List Value} {n : Nat}
    {groups : List (Slot × List Value)} {g : Slot × List Value} {join : List Value → Value}
    {serial : Option Nat}

/-! ## Parts and induction on them -/

/-- The values that a value is directly made of. -/
def parts : Value → List Value
  | .list e | .set e | .generator e => [e]
  | .dict k v => [k, v]
  | .tuple _ items => items
  | .method _ receiver _ => [receiver]
  | .property _ g s d => [g, s, d]
  | .super _ bases => bases
  | .union alternatives => alternatives
  | _ => []

theorem sizeOf_lt_of_mem_parts (h : p ∈ v.parts) : sizeOf p < sizeOf v := by
  cases v <;> simp only [parts, List.mem_cons, List.not_mem_nil, or_false] at h
  case tuple | super | union => have := List.sizeOf_lt_of_mem h; simp; omega
  case dict => rcases h with rfl | rfl <;> (simp only [dict.sizeOf_spec]; omega)
  case property => rcases h with rfl | rfl | rfl <;> (simp only [property.sizeOf_spec]; omega)
  case method => subst h; simp; omega
  all_goals subst h; simp

/-- What holds of a value as soon as it holds of its parts holds of every value. -/
@[elab_as_elim, induction_eliminator]
theorem parts_induction {motive : Value → Prop}
    (step : ∀ v : Value, (∀ p ∈ v.parts, motive p) → motive v) (v : Value) : motive v :=
  step v fun p _ => parts_induction step p
termination_by sizeOf v
decreasing_by exact sizeOf_lt_of_mem_parts ‹_›

mutual

/-- A property holds of a value and of everything inside it. -/
def Everywhere (P : Value → Prop) (v : Value) : Prop :=
  P v ∧ match v with
    | .list e | .set e | .generator e => e.Everywhere P
    | .dict k w => k.Everywhere P ∧ w.Everywhere P
    | .tuple _ items => EverywhereAll P items
    | .method _ receiver _ => receiver.Everywhere P
    | .property _ g s d => g.Everywhere P ∧ s.Everywhere P ∧ d.Everywhere P
    | .super _ bases => EverywhereAll P bases
    | .union alternatives => EverywhereAll P alternatives
    | _ => True

def EverywhereAll (P : Value → Prop) : List Value → Prop
  | [] => True
  | v :: rest => v.Everywhere P ∧ EverywhereAll P rest

end

theorem everywhereAll_iff : EverywhereAll P vs ↔ ∀ v ∈ vs, v.Everywhere P := by
  induction vs with
  | nil => simp [EverywhereAll]
  | cons v rest ih => simp [EverywhereAll, ih]

theorem everywhere_iff : v.Everywhere P ↔ P v ∧ ∀ p ∈ v.parts, p.Everywhere P := by
  cases v <;> rw [Everywhere] <;> simp [parts, everywhereAll_iff]

theorem Everywhere.here (h : v.Everywhere P) : P v :=
  (everywhere_iff.mp h).1

theorem Everywhere.part (h : v.Everywhere P) (hp : p ∈ v.parts) : p.Everywhere P :=
  (everywhere_iff.mp h).2 p hp

theorem Everywhere.imp {Q : Value → Prop} (hPQ : ∀ v, P v → Q v) (h : v.Everywhere P) : v.Everywhere Q := by
  induction v with
  | step v ih => exact everywhere_iff.mpr ⟨hPQ v h.here, fun p hp => ih p hp (h.part hp)⟩

theorem everywhere_of_forall (h : ∀ v, P v) : v.Everywhere P := by
  induction v with
  | step v ih => exact everywhere_iff.mpr ⟨h v, ih⟩

theorem Everywhere.of_mem_disjuncts (h : v.Everywhere P) (hd : d ∈ v.disjuncts) : d.Everywhere P := by
  cases v
  case union => exact h.part hd
  all_goals exact List.mem_singleton.mp hd ▸ h

/-! ## Alternatives of a union -/

def isUnion : Value → Bool
  | .union _ => true
  | _ => false

/-- Alternatives that may stand in one union: none is a union, each has a slot of its own, and there are
not too many. -/
structure Alternatives (alternatives : List Value) : Prop where
  flat : ∀ a ∈ alternatives, a.isUnion = false
  distinct : (alternatives.map slot).Nodup
  few : alternatives.length ≤ maxDisjuncts

/-- What is asked of a value apart from its parts. -/
def Proper : Value → Prop
  | .int (some n) => 0 ≤ n ∧ n ≤ maxInt
  | .union alternatives => Alternatives alternatives ∧ alternatives.length ≠ 1
  | _ => True

/-- The value and everything in it is proper and no collection is nested too deep. -/
def WellFormed : Value → Prop :=
  Everywhere fun v => v.Proper ∧ v.depth ≤ maxDepth

theorem WellFormed.proper (h : v.WellFormed) : v.Proper :=
  (Everywhere.here h).1

theorem WellFormed.depth_le (h : v.WellFormed) : v.depth ≤ maxDepth :=
  (Everywhere.here h).2

theorem WellFormed.of_mem_parts (h : v.WellFormed) (hp : p ∈ v.parts) : p.WellFormed :=
  Everywhere.part h hp

theorem wellFormed_iff : v.WellFormed ↔ (v.Proper ∧ v.depth ≤ maxDepth) ∧ ∀ p ∈ v.parts, p.WellFormed :=
  everywhere_iff

/-- An alternative of a value is the value itself or, of a union, one of its parts. -/
theorem eq_or_mem_parts (h : d ∈ v.disjuncts) : d = v ∨ v.isUnion = true ∧ d ∈ v.parts := by
  cases v
  case union => exact .inr ⟨rfl, h⟩
  all_goals exact .inl (List.mem_singleton.mp h)

/-- The alternatives of a well-formed value may stand in one union. -/
theorem WellFormed.alternatives (h : v.WellFormed) : Alternatives v.disjuncts := by
  cases v
  case union => exact h.proper.1
  all_goals exact ⟨by simp [disjuncts, isUnion], by simp [disjuncts], by simp [disjuncts, maxDisjuncts]⟩

theorem WellFormed.of_mem_disjuncts (h : v.WellFormed) (hd : d ∈ v.disjuncts) : d.WellFormed :=
  Everywhere.of_mem_disjuncts h hd

/-! ## Depth -/

theorem depthAll_le_iff : depthAll vs ≤ n ↔ ∀ v ∈ vs, v.depth ≤ n := by
  induction vs with
  | nil => simp [depthAll]
  | cons v rest ih => rw [depthAll, Nat.max_le, ih, List.forall_mem_cons]

theorem depth_le_of_mem_disjuncts (h : d ∈ v.disjuncts) : d.depth ≤ v.depth := by
  cases v
  case union => exact depthAll_le_iff.mp (Nat.le_refl _) d h
  all_goals
    simp only [disjuncts, List.mem_singleton] at h
    exact h ▸ Nat.le_refl _

theorem depth_ofDisjuncts (alternatives : List Value) : (ofDisjuncts alternatives).depth = depthAll alternatives := by
  unfold ofDisjuncts
  split <;> simp [depth, depthAll]

theorem depth_le_succ_iff (h : v.isCollection = true) : v.depth ≤ n + 1 ↔ ∀ p ∈ v.parts, p.depth ≤ n := by
  cases v
  case dict => rw [depth, Nat.add_le_add_iff_right, Nat.max_le, parts, List.forall_mem_cons, List.forall_mem_singleton]
  all_goals simp_all [isCollection, depth, parts, depthAll_le_iff]

theorem depth_pos (h : v.isCollection = true) : 0 < v.depth := by
  cases v <;> simp_all [isCollection, depth]

/-! ## What a group makes -/

/-- How the parts that merging joins are taken out of the alternatives of a slot. -/
def partGetters : Slot → List (Value → Option Value)
  | .list | .set | .generator => [elem?]
  | .dict => [dictKey?, dictValue?]
  | .property => [getter?, setter?, deleter?]
  | .other _ => []

theorem mem_parts_of_getter {s : Slot} {f : Value → Option Value} (hf : f ∈ partGetters s) (h : f v = some e) :
    e ∈ v.parts := by
  cases s <;> simp only [partGetters, List.mem_cons, List.not_mem_nil, or_false] at hf
  case dict => rcases hf with rfl | rfl <;> cases v <;> simp_all [dictKey?, dictValue?, parts]
  case property => rcases hf with rfl | rfl | rfl <;> cases v <;> simp_all [getter?, setter?, deleter?, parts]
  all_goals
    subst hf
    cases v <;> simp_all [elem?, parts]

theorem parts_mergeGroup (hs : ∀ k, g.1 ≠ .other k) :
    (mergeGroup join g).parts = (partGetters g.1).map fun f => join (g.2.filterMap f) := by
  obtain ⟨s, members⟩ := g
  cases s with
  | other k => exact absurd rfl (hs k)
  | _ => rfl

/-- The parts of a merged alternative are joins of parts of the members. -/
theorem mem_parts_mergeGroup (hs : ∀ k, g.1 ≠ .other k) (hp : p ∈ (mergeGroup join g).parts) :
    ∃ vs, p = join vs ∧ ∀ v ∈ vs, ∃ m ∈ g.2, v ∈ m.parts := by
  rw [parts_mergeGroup hs] at hp
  obtain ⟨f, hf, rfl⟩ := List.mem_map.mp hp
  refine ⟨_, rfl, fun v hv => ?_⟩
  obtain ⟨m, hm, hmv⟩ := List.mem_filterMap.mp hv
  exact ⟨m, hm, mem_parts_of_getter hf hmv⟩

/-- A group of a slot for one key stands for its first member. -/
theorem mergeGroup_other (join : List Value → Value) {k : Key} {members : List Value} (h : members ≠ []) :
    mergeGroup join (.other k, members) ∈ members := by
  cases members with
  | nil => exact absurd rfl h
  | cons m rest => exact List.mem_cons_self

theorem slot_mergeGroup (join : List Value → Value) (hg : IsGroup flat g) : (mergeGroup join g).slot = g.1 := by
  obtain ⟨s, members⟩ := g
  cases s with
  | other k => exact hg.slot_eq _ (mergeGroup_other join hg.nonempty)
  | _ => rfl

theorem isUnion_mergeGroup (join : List Value → Value) (hg : IsGroup flat g)
    (hflat : ∀ v ∈ flat, v.isUnion = false) : (mergeGroup join g).isUnion = false := by
  obtain ⟨s, members⟩ := g
  cases s with
  | other k => exact hflat _ (hg.subset _ (mergeGroup_other join hg.nonempty))
  | _ => rfl

theorem isCollection_of_slot {s : Slot} (h : v.slot = s) (hs : s = .list ∨ s = .set ∨ s = .dict ∨ s = .generator)
    : v.isCollection = true := by
  subst h
  cases v <;> simp_all [slot, isCollection]

/-- Merging makes nothing deeper, with a join that makes nothing deeper. -/
theorem depth_mergeGroup (hj : ∀ (k : Nat) (vs : List Value), (∀ v ∈ vs, v.depth ≤ k) → (join vs).depth ≤ k)
    (hg : IsGroup flat g) (hflat : ∀ v ∈ flat, v.depth ≤ n) : (mergeGroup join g).depth ≤ n := by
  obtain ⟨s, members⟩ := g
  cases s with
  | other k => exact hflat _ (hg.subset _ (mergeGroup_other join hg.nonempty))
  | property => simp [mergeGroup, depth]
  | list | set | dict | generator =>
    -- A part of the merged collection joins parts of members, and each lies strictly inside its member.
    have hmembers : ∀ m ∈ members, m.isCollection = true := fun m hm =>
      isCollection_of_slot (hg.slot_eq m hm) (by simp)
    obtain ⟨first, hfirst⟩ := List.exists_mem_of_ne_nil _ hg.nonempty
    have hpos := Nat.lt_of_lt_of_le (depth_pos (hmembers first hfirst)) (hflat first (hg.subset first hfirst))
    obtain ⟨k, rfl⟩ := Nat.exists_eq_succ_of_ne_zero (Nat.ne_of_gt hpos)
    refine (depth_le_succ_iff rfl).mpr fun p hp => ?_
    obtain ⟨vs, rfl, hvs⟩ := mem_parts_mergeGroup (by simp) hp
    refine hj k vs fun v hv => ?_
    obtain ⟨m, hm, hvm⟩ := hvs v hv
    exact (depth_le_succ_iff (hmembers m hm)).mp (hflat m (hg.subset m hm)) v hvm

/-! ## Joins -/

/-- The alternatives that a join makes, with a join for their parts. -/
def merged (join : List Value → Value) (vs : List Value) : List Value :=
  ((grouped (flatten vs)).take maxDisjuncts).map (mergeGroup join)

theorem uniteWithin_zero (vs : List Value) : uniteWithin 0 vs = ofDisjuncts (merged (fun _ => empty) vs) := by
  rw [uniteWithin, merged]

theorem uniteWithin_succ (n : Nat) (vs : List Value) :
    uniteWithin (n + 1) vs = ofDisjuncts (merged (uniteWithin n) vs) := by
  rw [uniteWithin, merged]

theorem merged_eq (join : List Value → Value) (vs : List Value) :
    merged join vs = (keptSlots (flatten vs)).map fun s => mergeGroup join (s, atSlot s (flatten vs)) := by
  rw [merged, grouped_eq, ← List.map_take, List.map_map]
  rfl

theorem mem_merged {a : Value} (h : a ∈ merged join vs) : ∃ g, IsGroup (flatten vs) g ∧ a = mergeGroup join g := by
  rw [merged_eq] at h
  obtain ⟨s, hs, rfl⟩ := List.mem_map.mp h
  exact ⟨_, isGroup_atSlot (mem_slots_of_mem_keptSlots hs), rfl⟩

theorem mem_flatten (h : d ∈ flatten vs) : ∃ v ∈ vs, d ∈ v.disjuncts :=
  List.mem_flatMap.mp h

/-- The merged alternatives are those of the slots that are kept. -/
theorem map_slot_merged (join : List Value → Value) (vs : List Value) :
    (merged join vs).map slot = keptSlots (flatten vs) := by
  rw [merged_eq, List.map_map]
  refine (List.map_congr_left fun s hs => ?_).trans (List.map_id _)
  exact slot_mergeGroup join (isGroup_atSlot (mem_slots_of_mem_keptSlots hs))

theorem alternatives_merged (join : List Value → Value) (h : ∀ v ∈ flatten vs, v.isUnion = false) :
    Alternatives (merged join vs) where
  flat := by
    intro a ha
    obtain ⟨g, hg, rfl⟩ := mem_merged ha
    exact isUnion_mergeGroup join hg h
  distinct := by
    rw [map_slot_merged]
    exact nodup_keptSlots _
  few := by
    rw [merged, List.length_map]
    exact List.length_take_le _ _

theorem depth_merged (hj : ∀ (k : Nat) (vs : List Value), (∀ v ∈ vs, v.depth ≤ k) → (join vs).depth ≤ k)
    (hvs : ∀ v ∈ vs, v.depth ≤ n) : depthAll (merged join vs) ≤ n := by
  refine depthAll_le_iff.mpr fun a ha => ?_
  obtain ⟨g, hg, rfl⟩ := mem_merged ha
  refine depth_mergeGroup hj hg fun d hd => ?_
  obtain ⟨v, hv, hdv⟩ := mem_flatten hd
  exact Nat.le_trans (depth_le_of_mem_disjuncts hdv) (hvs v hv)

/-- **A join is no deeper than its arguments.** -/
theorem depth_uniteWithin (n k : Nat) (vs : List Value) (h : ∀ v ∈ vs, v.depth ≤ k) : (uniteWithin n vs).depth ≤ k := by
  induction n generalizing k vs with
  | zero =>
    rw [uniteWithin_zero, depth_ofDisjuncts]
    exact depth_merged (fun _ _ _ => Nat.zero_le _) h
  | succ n ih =>
    rw [uniteWithin_succ, depth_ofDisjuncts]
    exact depth_merged ih h

theorem depth_unite {k : Nat} (h : ∀ v ∈ vs, v.depth ≤ k) : (unite vs).depth ≤ k :=
  depth_uniteWithin _ k vs h

/-! ## Cutting and widening -/

theorem truncateAll_eq_map (limit : Nat) (vs : List Value) : truncateAll limit vs = vs.map (truncate limit) :=
  eq_map_of_cons rfl (fun _ _ => rfl) vs

theorem widenAll_eq_map (vs : List Value) : widenAll vs = vs.map widen :=
  eq_map_of_cons rfl (fun _ _ => rfl) vs

theorem truncate_zero (v : Value) : v.truncate 0 = unite (v.disjuncts.filter fun d => !d.isCollection) := by
  cases v <;> rfl

theorem depth_eq_zero (hu : v.isUnion = false) (hc : v.isCollection = false) : v.depth = 0 := by
  cases v <;> simp_all [isUnion, isCollection, depth]

/-- Cutting a collection cuts its parts, and leaves what is neither a collection nor a union. -/
theorem parts_truncate (limit : Nat) (h : v.isCollection = true) :
    (v.truncate (limit + 1)).isCollection = true ∧ (v.truncate (limit + 1)).parts = v.parts.map (truncate limit) := by
  cases v <;> simp_all [isCollection, truncate, parts, truncateAll_eq_map]

theorem truncate_of_isUnion (limit : Nat) (h : v.isUnion = true) :
    v.truncate (limit + 1) = unite (v.parts.map (truncate (limit + 1))) := by
  cases v <;> cases h
  rw [truncate, truncateAll_eq_map, parts]

theorem truncate_of_single (limit : Nat) (hu : v.isUnion = false) (hc : v.isCollection = false) :
    v.truncate (limit + 1) = v := by
  cases v <;> simp_all [isUnion, isCollection, truncate]

theorem depth_truncate (limit : Nat) (h : v.WellFormed) : (v.truncate limit).depth ≤ limit := by
  induction v generalizing limit with
  | step v ih =>
    cases limit with
    | zero =>
      rw [truncate_zero]
      refine depth_unite fun d hd => ?_
      obtain ⟨hd, hc⟩ := List.mem_filter.mp hd
      exact Nat.le_of_eq (depth_eq_zero (h.alternatives.flat d hd) (by simpa using hc))
    | succ limit =>
      have part := fun p hp k => ih p hp k (h.of_mem_parts hp)
      by_cases hc : v.isCollection = true
      · obtain ⟨hcut, hparts⟩ := parts_truncate limit hc
        rw [depth_le_succ_iff hcut, hparts]
        exact List.forall_mem_map.mpr fun p hp => part p hp limit
      · by_cases hu : v.isUnion = true
        · rw [truncate_of_isUnion limit hu]
          exact depth_unite (List.forall_mem_map.mpr fun p hp => part p hp (limit + 1))
        · rw [Bool.not_eq_true] at hc hu
          rw [truncate_of_single limit hu hc, depth_eq_zero hu hc]
          exact Nat.zero_le _

/-! ## Formed values -/

/-- The value is well formed, and `P` holds of it and of everything inside it. -/
structure Formed (P : Value → Prop) (v : Value) : Prop where
  wellFormed : v.WellFormed
  everywhere : v.Everywhere P

theorem formed_iff : v.Formed P ↔ ((v.Proper ∧ v.depth ≤ maxDepth) ∧ P v) ∧ ∀ p ∈ v.parts, p.Formed P := by
  refine ⟨fun h => ⟨⟨h.wellFormed.here, h.everywhere.here⟩, fun p hp => ⟨h.wellFormed.part hp, h.everywhere.part hp⟩⟩,
    fun h => ⟨wellFormed_iff.mpr ⟨h.1.1, fun p hp => (h.2 p hp).wellFormed⟩, ?_⟩⟩
  exact everywhere_iff.mpr ⟨h.1.2, fun p hp => (h.2 p hp).everywhere⟩

theorem WellFormed.formed (h : v.WellFormed) : v.Formed fun _ => True :=
  ⟨h, everywhere_of_forall fun _ => trivial⟩

theorem Formed.part (h : v.Formed P) (hp : p ∈ v.parts) : p.Formed P :=
  (formed_iff.mp h).2 p hp

theorem Formed.of_mem_disjuncts (h : v.Formed P) (hd : d ∈ v.disjuncts) : d.Formed P :=
  ⟨h.wellFormed.of_mem_disjuncts hd, h.everywhere.of_mem_disjuncts hd⟩

/-- Nothing outside the value decides on it: it has no serial number and no label. -/
def isPlain : Value → Bool
  | .tuple serial _ | .method serial .. | .property serial .. | .super serial _ => serial.isNone
  | .synthetic _ => false
  | _ => true

/-- A value that is neither a collection nor a union nor an integer constant asks only for its parts. -/
theorem formed_of_parts (hu : v.isUnion = false) (hc : v.isCollection = false) (hi : v.int? = none) (hv : P v)
    (h : ∀ p ∈ v.parts, p.Formed P) : v.Formed P := by
  refine formed_iff.mpr ⟨⟨⟨?_, depth_eq_zero hu hc ▸ Nat.zero_le _⟩, hv⟩, h⟩
  cases v <;> simp_all [isUnion, int?, Proper]

/-- The value has no parts and is not an integer constant. -/
def isAtom : Value → Bool
  | .int constant => constant.isNone
  | .list _ | .set _ | .dict .. | .tuple .. | .generator _ | .method .. | .property .. | .super .. => false
  | .union _ => false
  | _ => true

theorem formed_of_isAtom (h : v.isAtom = true) (hv : P v) : v.Formed P := by
  refine formed_of_parts ?_ ?_ ?_ hv ?_ <;> cases v <;> simp_all [isAtom, isUnion, isCollection, int?, parts]

section Formed

variable (plain : ∀ v : Value, v.isPlain = true → P v)

include plain

theorem formed_ofDisjuncts {alternatives : List Value} (h : Alternatives alternatives)
    (hall : ∀ a ∈ alternatives, a.Formed P) (hdepth : depthAll alternatives ≤ maxDepth) :
    (ofDisjuncts alternatives).Formed P := by
  unfold ofDisjuncts
  split
  · exact hall _ (List.mem_singleton_self _)
  · next hone =>
    refine formed_iff.mpr ⟨⟨⟨⟨h, fun hlen => ?_⟩, hdepth⟩, plain _ rfl⟩, hall⟩
    obtain ⟨one, rfl⟩ := List.length_eq_one_iff.mp hlen
    exact hone one rfl

theorem formed_mergeGroup (hj : ∀ vs, (∀ v ∈ vs, v.Formed P) → (join vs).Formed P)
    (hd : ∀ (k : Nat) (vs : List Value), (∀ v ∈ vs, v.depth ≤ k) → (join vs).depth ≤ k) (hg : IsGroup flat g)
    (hflat : ∀ v ∈ flat, v.Formed P) : (mergeGroup join g).Formed P := by
  by_cases hs : ∃ k, g.1 = .other k
  · obtain ⟨s, members⟩ := g
    obtain ⟨k, rfl⟩ := hs
    exact hflat _ (hg.subset _ (mergeGroup_other join hg.nonempty))
  · have hs : ∀ k, g.1 ≠ .other k := fun k h => hs ⟨k, h⟩
    have hmade : (mergeGroup join g).Proper ∧ (mergeGroup join g).isPlain = true := by
      obtain ⟨s, members⟩ := g
      cases s <;> simp_all [mergeGroup, Proper, isPlain]
    have hdepth := depth_mergeGroup hd hg fun v hv => (hflat v hv).wellFormed.depth_le
    refine formed_iff.mpr ⟨⟨⟨hmade.1, hdepth⟩, plain _ hmade.2⟩, fun p hp => ?_⟩
    obtain ⟨vs, rfl, hvs⟩ := mem_parts_mergeGroup hs hp
    refine hj vs fun v hv => ?_
    obtain ⟨m, hm, hvm⟩ := hvs v hv
    exact (hflat m (hg.subset m hm)).part hvm

theorem formed_merged (hj : ∀ vs, (∀ v ∈ vs, v.Formed P) → (join vs).Formed P)
    (hd : ∀ (k : Nat) (vs : List Value), (∀ v ∈ vs, v.depth ≤ k) → (join vs).depth ≤ k)
    (hvs : ∀ v ∈ vs, v.Formed P) : (ofDisjuncts (merged join vs)).Formed P := by
  have hflat : ∀ d ∈ flatten vs, d.Formed P ∧ d.isUnion = false := by
    intro d hd
    obtain ⟨v, hv, hdv⟩ := mem_flatten hd
    exact ⟨(hvs v hv).of_mem_disjuncts hdv, (hvs v hv).wellFormed.alternatives.flat d hdv⟩
  refine formed_ofDisjuncts plain (alternatives_merged join fun d hd => (hflat d hd).2) (fun a ha => ?_)
    (depth_merged hd fun v hv => (hvs v hv).wellFormed.depth_le)
  obtain ⟨g, hg, rfl⟩ := mem_merged ha
  exact formed_mergeGroup plain hj hd hg fun d hd => (hflat d hd).1

theorem formed_empty : empty.Formed P := by
  refine formed_iff.mpr ⟨⟨⟨⟨⟨?_, ?_, ?_⟩, ?_⟩, ?_⟩, plain _ rfl⟩, ?_⟩ <;> simp [empty, parts, depth, depthAll]

theorem formed_uniteWithin (n : Nat) (vs : List Value) (h : ∀ v ∈ vs, v.Formed P) : (uniteWithin n vs).Formed P := by
  induction n generalizing vs with
  | zero =>
    rw [uniteWithin_zero]
    exact formed_merged plain (fun _ _ => formed_empty plain) (fun _ _ _ => Nat.zero_le _) h
  | succ n ih =>
    rw [uniteWithin_succ]
    exact formed_merged plain ih (depth_uniteWithin n) h

/-- **A join of formed values is formed.** -/
theorem formed_unite (h : ∀ v ∈ vs, v.Formed P) : (unite vs).Formed P :=
  formed_uniteWithin plain _ vs h

/-- A collection over formed parts that leave room for it. -/
theorem formed_of_collection (hv : v.isCollection = true) (hplain : v.isPlain = true)
    (hparts : ∀ p ∈ v.parts, p.Formed P ∧ p.depth < maxDepth) : v.Formed P := by
  refine formed_iff.mpr ⟨⟨⟨?_, ?_⟩, plain v hplain⟩, fun p hp => (hparts p hp).1⟩
  · cases v <;> simp_all [isCollection, Proper]
  · exact (depth_le_succ_iff hv).mpr fun p hp => Nat.le_pred_of_lt (hparts p hp).2

/-- **Cutting a formed value leaves it formed.** -/
theorem formed_truncate {limit : Nat} (hlimit : limit ≤ maxDepth) (h : v.Formed P) : (v.truncate limit).Formed P := by
  induction v generalizing limit with
  | step v ih =>
    cases limit with
    | zero =>
      rw [truncate_zero]
      exact formed_unite plain fun d hd => h.of_mem_disjuncts (List.mem_filter.mp hd).1
    | succ limit =>
      have cut : ∀ p ∈ v.parts, (p.truncate limit).Formed P ∧ (p.truncate limit).depth < maxDepth := fun p hp =>
        ⟨ih p hp (by omega) (h.part hp), Nat.lt_of_le_of_lt (depth_truncate limit (h.part hp).wellFormed) (by omega)⟩
      by_cases hc : v.isCollection = true
      · obtain ⟨hcut, hparts⟩ := parts_truncate limit hc
        have hplain : (v.truncate (limit + 1)).isPlain = true := by
          cases v <;> simp_all [isCollection, truncate, isPlain]
        refine formed_of_collection plain hcut hplain ?_
        rw [hparts]
        exact List.forall_mem_map.mpr cut
      · by_cases hu : v.isUnion = true
        · rw [truncate_of_isUnion limit hu]
          exact formed_unite plain (List.forall_mem_map.mpr fun p hp => ih p hp hlimit (h.part hp))
        · rw [Bool.not_eq_true] at hc hu
          rwa [truncate_of_single limit hu hc]

/-- A formed value, cut where needed, may become part of a collection. -/
theorem formed_clamp (h : v.Formed P) : v.clamp.Formed P ∧ v.clamp.depth < maxDepth := by
  unfold clamp
  split
  · exact ⟨formed_truncate plain (by decide) h, Nat.lt_succ_of_le (depth_truncate (maxDepth - 1) h.wellFormed)⟩
  · next hd => exact ⟨h, Nat.lt_of_not_le hd⟩

/-! ### Constructors -/

theorem formed_ofInt (n : Int) : (ofInt n).Formed P := by
  unfold ofInt
  split
  · next h => exact formed_iff.mpr ⟨⟨⟨h, by simp [depth]⟩, plain _ rfl⟩, by simp [parts]⟩
  · exact formed_of_isAtom rfl (plain _ rfl)

theorem formed_listOf (h : e.Formed P) : (listOf e).Formed P :=
  formed_of_collection plain rfl rfl (by simpa [listOf, parts] using formed_clamp plain h)

theorem formed_setOf (h : e.Formed P) : (setOf e).Formed P :=
  formed_of_collection plain rfl rfl (by simpa [setOf, parts] using formed_clamp plain h)

theorem formed_generatorOf (h : e.Formed P) : (generatorOf e).Formed P :=
  formed_of_collection plain rfl rfl (by simpa [generatorOf, parts] using formed_clamp plain h)

theorem formed_dictOf {k : Value} (hk : k.Formed P) (hv : v.Formed P) : (dictOf k v).Formed P :=
  formed_of_collection plain rfl rfl
    (by simpa [dictOf, parts] using And.intro (formed_clamp plain hk) (formed_clamp plain hv))

theorem formed_tupleOf {items : List Value} (h : ∀ v ∈ items, v.Formed P) : (tupleOf items).Formed P :=
  formed_of_collection plain rfl rfl (List.forall_mem_map.mpr fun v hv => formed_clamp plain (h v hv))

theorem formed_methodOf {name : String} (h : v.Formed P) : (methodOf v name).Formed P :=
  formed_of_parts rfl rfl rfl (plain _ rfl) (by simpa [methodOf, parts] using h)

theorem formed_propertyOf {g s : Value} (hg : g.Formed P) (hs : s.Formed P) (hd : d.Formed P) :
    (propertyOf g s d).Formed P :=
  formed_of_parts rfl rfl rfl (plain _ rfl) (by simpa [propertyOf, parts] using And.intro hg (And.intro hs hd))

theorem formed_superOf {bases : List Value} (h : ∀ b ∈ bases, b.Formed P) : (superOf bases).Formed P :=
  formed_of_parts rfl rfl rfl (plain _ rfl) h

/-- **Widening a formed value leaves it formed.** -/
theorem formed_widen (h : v.Formed P) : v.widen.Formed P := by
  induction v with
  | step v ih =>
    have part := fun p hp => ih p hp (h.part hp)
    cases v
    case bool constant | int constant | str constant => cases constant <;> exact formed_of_isAtom rfl (plain _ rfl)
    case tuple serial items =>
      rw [widen, widenAll_eq_map]
      exact formed_tupleOf plain (List.forall_mem_map.mpr part)
    case union alternatives =>
      rw [widen, widenAll_eq_map]
      exact formed_unite plain (List.forall_mem_map.mpr part)
    all_goals exact h

end Formed

theorem wellFormed_of_isAtom (h : v.isAtom = true) : v.WellFormed :=
  (formed_of_isAtom (P := fun _ => True) h trivial).wellFormed

theorem wellFormed_ofInt (n : Int) : (ofInt n).WellFormed :=
  (formed_ofInt (fun _ _ => trivial) n).wellFormed

theorem wellFormed_listOf (h : e.WellFormed) : (listOf e).WellFormed :=
  (formed_listOf (fun _ _ => trivial) h.formed).wellFormed

theorem wellFormed_unite (h : ∀ v ∈ vs, v.WellFormed) : (unite vs).WellFormed :=
  (formed_unite (fun _ _ => trivial) fun v hv => (h v hv).formed).wellFormed

end Surmise.Value
