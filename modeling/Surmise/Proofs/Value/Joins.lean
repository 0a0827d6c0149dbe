import Surmise.Proofs.Value.Serial

/-!
# Laws of joins

The join of several values sorts their alternatives by slot, keeps the slots that occur first and merges
the alternatives of each. It can be made in steps, and what was joined before adds nothing.

* `unite_eq`: a join merges the groups of its alternatives by joins of their parts.
* `unite_append`: joining some of the values first makes no difference, whatever is cut off.
* `unite_singleton`: a well-formed value is its own join, up to the identity of its properties.
-/

namespace Surmise.Value

open Value

variable {s : Slot} {flat vs : List Value} {d v : Value} {join : List Value → Value} {m p : Value}
  {join' : List Value → Value} {ms ns alternatives : List Value}

/-! ## Alternatives that are merged by their parts -/

/-- The value is of a sort of which a union has one alternative that stands for all. -/
def isMerged : Value → Bool
  | .list _ | .set _ | .dict .. | .generator _ | .property .. => true
  | _ => false

/-- The value is a part that merging its group joins with others. -/
def IsMergedPart (p m : Value) : Prop := m.isMerged = true ∧ p ∈ m.parts

theorem isMergedPart_of_getter {s : Slot} {f : Value → Option Value} (hf : f ∈ partGetters s)
    (h : f m = some p) : IsMergedPart p m := by
  refine ⟨?_, mem_parts_of_getter hf h⟩
  cases s <;> simp only [partGetters, List.mem_cons, List.not_mem_nil, or_false] at hf
  case dict => rcases hf with rfl | rfl <;> cases m <;> first | rfl | cases h
  case property => rcases hf with rfl | rfl | rfl <;> cases m <;> first | rfl | cases h
  all_goals
    subst hf
    cases m <;> first | rfl | cases h

theorem disjuncts_of_isUnion (h : v.isUnion = false) : v.disjuncts = [v] := by
  cases v <;> first | rfl | cases h

section PartGetters

variable {f : Value → Option Value} (hf : f ∈ partGetters s)

include hf

/-- Every alternative of the slot has the part. -/
theorem exists_part {m : Value} (h : m.slot = s) : ∃ p, f m = some p := by
  subst h
  cases m <;> simp only [slot, partGetters, List.mem_cons, List.not_mem_nil, or_false] at hf
  case dict => rcases hf with rfl | rfl <;> exact ⟨_, rfl⟩
  case property => rcases hf with rfl | rfl | rfl <;> exact ⟨_, rfl⟩
  all_goals exact hf ▸ ⟨_, rfl⟩

theorem getter_mergeGroup (join : List Value → Value) (members : List Value) :
    f (mergeGroup join (s, members)) = some (join (members.filterMap f)) := by
  cases s <;> simp only [partGetters, List.mem_cons, List.not_mem_nil, or_false] at hf
  case dict => rcases hf with rfl | rfl <;> rfl
  case property => rcases hf with rfl | rfl | rfl <;> rfl
  all_goals
    subst hf
    rfl

/-- A group has parts to join. -/
theorem filterMap_getter_ne_nil {flat members : List Value} (h : IsGroup flat (s, members)) :
    members.filterMap f ≠ [] := by
  obtain ⟨m, hm⟩ := List.exists_mem_of_ne_nil _ h.nonempty
  obtain ⟨p, hp⟩ := exists_part hf (h.slot_eq m hm)
  exact List.ne_nil_of_mem (List.mem_filterMap.mpr ⟨m, hm, hp⟩)

theorem exists_of_mem_filterMap_getter {flat members : List Value} (hsub : ∀ m ∈ members, m ∈ flat) :
    ∀ p ∈ members.filterMap f, ∃ m ∈ flat, IsMergedPart p m := by
  intro p hp
  obtain ⟨m, hm, hmp⟩ := List.mem_filterMap.mp hp
  exact ⟨m, hsub m hm, isMergedPart_of_getter hf hmp⟩

end PartGetters

/-- Two alternatives of one merged sort whose parts are related one by one. -/
theorem merged_cases {R : Value → Value → Prop} {a b : Value} (ha : a.isMerged = true) (hslot : a.slot = b.slot)
    (h : ∀ f ∈ partGetters a.slot, ∀ p q, f a = some p → f b = some q → R p q) :
    (∃ e e', R e e' ∧ (a = .list e ∧ b = .list e' ∨ a = .set e ∧ b = .set e' ∨ a = .generator e ∧ b = .generator e')) ∨
    (∃ k k' v v', R k k' ∧ R v v' ∧ a = .dict k v ∧ b = .dict k' v') ∨
    ∃ serial serial' g g' s s' d d', R g g' ∧ R s s' ∧ R d d' ∧
      a = .property serial g s d ∧ b = .property serial' g' s' d' := by
  cases a <;> cases ha <;> cases b <;> cases hslot <;>
    simp_all [slot, partGetters, elem?, dictKey?, dictValue?, getter?, setter?, deleter?]

/-- Groups of one slot make the same alternative if their parts have the same joins. -/
theorem mergeGroup_congr
    (hparts : ∀ f ∈ partGetters s, join (ms.filterMap f) = join' (ns.filterMap f))
    (hfirst : partGetters s = [] → ms.headD empty = ns.headD empty) :
    mergeGroup join (s, ms) = mergeGroup join' (s, ns) := by
  cases s with
  | other k => exact hfirst rfl
  | dict => simp only [mergeGroup, hparts _ (show dictKey? ∈ partGetters .dict by simp [partGetters]),
      hparts _ (show dictValue? ∈ partGetters .dict by simp [partGetters])]
  | property => simp only [mergeGroup, hparts _ (show getter? ∈ partGetters .property by simp [partGetters]),
      hparts _ (show setter? ∈ partGetters .property by simp [partGetters]),
      hparts _ (show deleter? ∈ partGetters .property by simp [partGetters])]
  | list | set | generator => simp only [mergeGroup, hparts elem? List.mem_cons_self]

/-! ## Induction along joins -/

theorem nestingAll_le_iff {n : Nat} : nestingAll vs ≤ n ↔ ∀ v ∈ vs, v.nesting ≤ n := by
  induction vs with
  | nil => simp [nestingAll]
  | cons v rest ih => rw [nestingAll, Nat.max_le, ih, List.forall_mem_cons]

theorem nesting_le_of_mem_disjuncts (h : d ∈ v.disjuncts) : d.nesting ≤ v.nesting := by
  cases v
  case union => exact nestingAll_le_iff.mp (Nat.le_refl _) d h
  all_goals
    obtain rfl := List.mem_singleton.mp h
    exact Nat.le_refl _

theorem IsMergedPart.nesting_lt (h : IsMergedPart p m) : p.nesting < m.nesting := by
  obtain ⟨hm, hp⟩ := h
  cases m <;> cases hm
  case list | set | generator =>
    obtain rfl := List.mem_singleton.mp hp
    exact Nat.lt_succ_self _
  case dict =>
    simp only [parts, List.mem_cons, List.not_mem_nil, or_false] at hp
    rcases hp with rfl | rfl <;> simp only [nesting] <;> omega
  case property =>
    simp only [parts, List.mem_cons, List.not_mem_nil, or_false] at hp
    rcases hp with rfl | rfl | rfl <;> simp only [nesting] <;> omega

theorem nestingAll_parts_lt {ps : List Value} (hne : ps ≠ [])
    (hps : ∀ p ∈ ps, ∃ m ∈ flatten vs, IsMergedPart p m) : nestingAll ps < nestingAll vs := by
  have hlt : ∀ p ∈ ps, p.nesting < nestingAll vs := by
    intro p hp
    obtain ⟨m, hm, hpm⟩ := hps p hp
    obtain ⟨v, hv, hmv⟩ := mem_flatten hm
    have hle := nestingAll_le_iff.mp (Nat.le_refl (nestingAll vs)) v hv
    exact Nat.lt_of_lt_of_le hpm.nesting_lt (Nat.le_trans (nesting_le_of_mem_disjuncts hmv) hle)
  obtain ⟨p, hp⟩ := List.exists_mem_of_ne_nil _ hne
  have hpos := hlt p hp
  have hall : nestingAll ps ≤ nestingAll vs - 1 :=
    nestingAll_le_iff.mpr fun q hq => Nat.le_pred_of_lt (hlt q hq)
  omega

/-- What holds of a list of values as soon as it holds of the lists of parts that joining them joins. -/
@[elab_as_elim]
theorem unite_induction {motive : List Value → Prop}
    (step : ∀ vs, (∀ ps, ps ≠ [] → (∀ p ∈ ps, ∃ m ∈ flatten vs, IsMergedPart p m) → motive ps) → motive vs)
    (vs : List Value) : motive vs :=
  step vs fun ps _ _ => unite_induction step ps
termination_by nestingAll vs
decreasing_by exact nestingAll_parts_lt ‹_› ‹_›

/-- Joins of the parts decide what merging makes. -/
theorem merged_congr
    (h : ∀ ps, ps ≠ [] → (∀ p ∈ ps, ∃ m ∈ flatten vs, IsMergedPart p m) → join ps = join' ps) :
    merged join vs = merged join' vs := by
  rw [merged_eq, merged_eq]
  refine List.map_congr_left fun s hs => mergeGroup_congr (fun f hf => ?_) fun _ => rfl
  have hgroup := isGroup_atSlot (mem_slots_of_mem_keptSlots hs)
  exact h _ (filterMap_getter_ne_nil hf hgroup) (exists_of_mem_filterMap_getter hf hgroup.subset)

/-- More depth than is needed makes no difference. -/
theorem uniteWithin_eq_unite {n : Nat} (h : nestingAll vs ≤ n) : uniteWithin n vs = unite vs := by
  induction vs using unite_induction generalizing n with
  | step vs ih =>
    have hsucc : ∀ k, nestingAll vs ≤ k → uniteWithin k vs = ofDisjuncts (merged unite vs) := by
      intro k hk
      cases k with
      | zero =>
        rw [uniteWithin_zero, merged_congr fun ps hne hps => ?_]
        exact absurd (nestingAll_parts_lt hne hps) (by omega)
      | succ k =>
        rw [uniteWithin_succ, merged_congr fun ps hne hps => ?_]
        exact ih ps hne hps (by have := nestingAll_parts_lt hne hps; omega)
    rw [hsucc n h, unite, hsucc _ (Nat.le_refl _)]

/-- **A join merges the groups of its alternatives by joins of their parts.** -/
theorem unite_eq (vs : List Value) : unite vs = ofDisjuncts (merged unite vs) := by
  rw [← uniteWithin_eq_unite (Nat.le_succ (nestingAll vs)), uniteWithin_succ,
    merged_congr fun ps hne hps => uniteWithin_eq_unite (Nat.le_of_lt (nestingAll_parts_lt hne hps))]

theorem disjuncts_ofDisjuncts (h : ∀ a ∈ alternatives, a.isUnion = false) :
    (ofDisjuncts alternatives).disjuncts = alternatives := by
  unfold ofDisjuncts
  split
  · exact disjuncts_of_isUnion (h _ List.mem_cons_self)
  · rfl

theorem flat_flatten (h : ∀ v ∈ vs, v.WellFormed) : ∀ d ∈ flatten vs, d.isUnion = false := by
  intro d hd
  obtain ⟨v, hv, hdv⟩ := mem_flatten hd
  exact (h v hv).alternatives.flat d hdv

theorem disjuncts_unite (h : ∀ v ∈ vs, v.WellFormed) : (unite vs).disjuncts = merged unite vs := by
  rw [unite_eq, disjuncts_ofDisjuncts (alternatives_merged unite (flat_flatten h)).flat]

theorem wellFormed_of_isMergedPart (h : ∀ v ∈ vs, v.WellFormed) (hm : m ∈ flatten vs)
    (hp : IsMergedPart p m) : p.WellFormed := by
  obtain ⟨v, hv, hmv⟩ := mem_flatten hm
  exact ((h v hv).of_mem_disjuncts hmv).of_mem_parts hp.2

/-- Merging leaves alternatives as they are that may stand in one union and that nothing is merged into. -/
theorem merged_of_alternatives (join : List Value → Value) (h : Alternatives vs)
    (hplain : ∀ v ∈ vs, v.isMerged = false) : merged join vs = vs := by
  have hflat : flatten vs = vs := by
    unfold flatten
    rw [List.flatMap_congr fun v hv => disjuncts_of_isUnion (h.flat v hv)]
    exact List.flatMap_singleton' vs
  have hfew : (vs.map fun v => (v.slot, [v])).length ≤ maxDisjuncts := by
    rw [List.length_map]
    exact h.few
  rw [merged, hflat, grouped_of_nodup h.distinct, List.take_of_length_le hfew, List.map_map]
  refine (List.map_congr_left fun v hv => ?_).trans (List.map_id vs)
  have hv := hplain v hv
  cases v <;> first | rfl | cases hv

theorem unite_of_alternatives (h : Alternatives vs) (hplain : ∀ v ∈ vs, v.isMerged = false) :
    unite vs = ofDisjuncts vs := by
  unfold unite
  cases nestingAll vs with
  | zero => rw [uniteWithin_zero, merged_of_alternatives _ h hplain]
  | succ n => rw [uniteWithin_succ, merged_of_alternatives _ h hplain]

theorem isNumbered_ofDisjuncts (h : ∀ v ∈ vs, v.isNumbered = true) : (ofDisjuncts vs).isNumbered = true := by
  unfold ofDisjuncts
  split
  · exact h _ List.mem_cons_self
  · exact areNumbered_iff.mpr h

/-! ## Joins in steps -/

theorem flatten_append (xs ys : List Value) : flatten (xs ++ ys) = flatten xs ++ flatten ys :=
  List.flatMap_append ..

/-- Merging leaves one alternative of each slot that is kept. -/
theorem atSlot_merged (join : List Value → Value) (h : s ∈ keptSlots (flatten vs)) :
    atSlot s (merged join vs) = [mergeGroup join (s, atSlot s (flatten vs))] := by
  have honly : (keptSlots (flatten vs)).filter (fun t => t = s) = [s] := by
    rw [List.filter_eq, List.count_eq_one_of_mem (nodup_keptSlots _) h]
    rfl
  rw [merged_eq, atSlot, List.filter_map, List.filter_congr fun t ht => ?_, honly]
  · rfl
  · exact congrArg (fun t' => decide (t' = s)) (slot_mergeGroup join (isGroup_atSlot (mem_slots_of_mem_keptSlots ht)))

/-- Merging some members of a group first makes no difference, if joining their parts first makes none. -/
theorem mergeGroup_append (hms : IsGroup flat (s, ms))
    (hjoin : ∀ f ∈ partGetters s, join (ms.filterMap f ++ ns.filterMap f) =
      join (join (ms.filterMap f) :: ns.filterMap f)) :
    mergeGroup join (s, ms ++ ns) = mergeGroup join (s, mergeGroup join (s, ms) :: ns) := by
  refine mergeGroup_congr (fun f hf => ?_) fun hnone => ?_
  · rw [List.filterMap_append, hjoin f hf, List.filterMap_cons_some (getter_mergeGroup hf join ms)]
  · obtain ⟨m, rest, rfl⟩ := List.exists_cons_of_ne_nil hms.nonempty
    cases s with
    | other k => rfl
    | _ => cases hnone

/-- **Joining some of the values first makes no difference**, also where alternatives are cut off. -/
theorem unite_append_eq {zs xs ys : List Value} (hzs : zs = xs ++ ys) (hxs : ∀ x ∈ xs, x.WellFormed) :
    unite zs = unite (unite xs :: ys) := by
  induction zs using unite_induction generalizing xs ys with
  | step zs ih =>
    subst hzs
    have hflat : flatten (unite xs :: ys) = merged unite xs ++ flatten ys := by
      show (unite xs).disjuncts ++ flatten ys = _
      rw [disjuncts_unite hxs]
    have hslots : keptSlots (merged unite xs ++ flatten ys) = keptSlots (flatten xs ++ flatten ys) := by
      unfold keptSlots
      rw [List.map_append, map_slot_merged, List.map_append]
      exact take_eraseDups_append ..
    rw [unite_eq, unite_eq (unite xs :: ys), merged_eq, merged_eq, hflat, hslots, flatten_append]
    refine congrArg ofDisjuncts (List.map_congr_left fun s hs => ?_)
    rw [atSlot_append, atSlot_append]
    by_cases hfirst : s ∈ keptSlots (flatten xs)
    · have hgroup := isGroup_atSlot (mem_slots_of_mem_keptSlots hfirst)
      rw [atSlot_merged unite hfirst]
      refine mergeGroup_append hgroup fun f hf => ?_
      have hsub : ∀ m ∈ atSlot s (flatten xs) ++ atSlot s (flatten ys), m ∈ flatten (xs ++ ys) := by
        rw [← atSlot_append, flatten_append]
        exact fun m hm => (mem_atSlot.mp hm).1
      refine ih (List.filterMap f (atSlot s (flatten xs)) ++ List.filterMap f (atSlot s (flatten ys))) ?_ ?_ rfl
        fun p hp => ?_
      · exact List.append_ne_nil_of_left_ne_nil (filterMap_getter_ne_nil hf hgroup) _
      · rw [← List.filterMap_append]
        exact exists_of_mem_filterMap_getter hf hsub
      · obtain ⟨m, hm, hpm⟩ := exists_of_mem_filterMap_getter hf hgroup.subset p hp
        exact wellFormed_of_isMergedPart hxs hm hpm
    · -- what is kept now and was not kept before has no alternative among the first values
      have hnone : s ∉ (flatten xs).map slot := by
        unfold keptSlots at hs hfirst
        rw [List.map_append] at hs
        exact not_mem_of_mem_take_eraseDups hs hfirst
      have hmerged : s ∉ (merged unite xs).map slot := by rwa [map_slot_merged]
      rw [atSlot_eq_nil hnone, atSlot_eq_nil hmerged]

theorem unite_append (xs ys : List Value) (hxs : ∀ x ∈ xs, x.WellFormed) : unite (xs ++ ys) = unite (unite xs :: ys) :=
  unite_append_eq rfl hxs

/-! ## Values up to the identity of their properties -/

mutual

/-- The value with the properties that merging makes anew taken by their three parts. -/
def byParts : Value → Value
  | .list e => .list e.byParts
  | .set e => .set e.byParts
  | .generator e => .generator e.byParts
  | .dict k v => .dict k.byParts v.byParts
  | .property _ g s d => .property none g.byParts s.byParts d.byParts
  | .union alternatives => .union (byPartsAll alternatives)
  | v => v

def byPartsAll : List Value → List Value
  | [] => []
  | v :: rest => v.byParts :: byPartsAll rest

end

theorem byPartsAll_eq_map (vs : List Value) : byPartsAll vs = vs.map byParts :=
  eq_map_of_cons rfl (fun _ _ => rfl) vs

theorem byParts_ofDisjuncts (h : alternatives.length ≠ 1) :
    ofDisjuncts (alternatives.map byParts) = (union alternatives).byParts := by
  unfold ofDisjuncts
  split
  · next hone =>
    refine absurd ?_ h
    rw [← List.length_map byParts, hone]
    rfl
  · rw [byParts, byPartsAll_eq_map]

/-- The join of one alternative is made of the joins of its parts. -/
theorem mergeGroup_singleton (hu : d.isUnion = false)
    (hparts : ∀ p, IsMergedPart p d → unite [p] = p.byParts) : mergeGroup unite (d.slot, [d]) = d.byParts := by
  cases d
  case list e => exact congrArg list (hparts e ⟨rfl, by simp [parts]⟩)
  case set e => exact congrArg set (hparts e ⟨rfl, by simp [parts]⟩)
  case generator e => exact congrArg generator (hparts e ⟨rfl, by simp [parts]⟩)
  case dict k w =>
    exact congrArg₂ dict (hparts k ⟨rfl, by simp [parts]⟩) (hparts w ⟨rfl, by simp [parts]⟩)
  case property serial g s d =>
    show property none (unite [g]) (unite [s]) (unite [d]) = _
    rw [hparts g ⟨rfl, by simp [parts]⟩, hparts s ⟨rfl, by simp [parts]⟩, hparts d ⟨rfl, by simp [parts]⟩]
    rfl
  case union => cases hu
  all_goals rfl

theorem unite_singleton_eq (hvs : vs = [v]) (h : v.WellFormed) : unite vs = v.byParts := by
  induction vs using unite_induction generalizing v with
  | step vs ih =>
    subst hvs
    have halternatives := h.alternatives
    have hflat : flatten [v] = v.disjuncts := List.append_nil _
    have hfew : (v.disjuncts.map fun d => (d.slot, [d])).length ≤ maxDisjuncts := by
      rw [List.length_map]
      exact halternatives.few
    have halternative : ∀ d ∈ v.disjuncts, mergeGroup unite (d.slot, [d]) = d.byParts := by
      intro d hd
      refine mergeGroup_singleton (halternatives.flat d hd) fun p hp => ?_
      refine ih [p] (List.cons_ne_nil _ _) ?_ rfl ((h.of_mem_disjuncts hd).of_mem_parts hp.2)
      intro q hq
      obtain rfl := List.mem_singleton.mp hq
      exact ⟨d, hflat ▸ hd, hp⟩
    rw [unite_eq, merged, hflat, grouped_of_nodup halternatives.distinct, List.take_of_length_le hfew, List.map_map]
    refine (congrArg ofDisjuncts (List.map_congr_left halternative)).trans ?_
    cases v
    case union alternatives => exact byParts_ofDisjuncts h.proper.2
    all_goals rfl

/-- **A well-formed value is its own join**, up to the identity of its properties. -/
theorem unite_singleton (h : v.WellFormed) : unite [v] = v.byParts :=
  unite_singleton_eq rfl h

/-- Joins do not depend on the identity of properties. -/
theorem unite_byParts_cons (h : v.WellFormed) (vs : List Value) : unite (v.byParts :: vs) = unite (v :: vs) := by
  rw [← unite_singleton h]
  exact (unite_append [v] vs (by simpa using h)).symm

theorem byParts_unite (h : ∀ v ∈ vs, v.WellFormed) : (unite vs).byParts = unite vs := by
  rw [← unite_singleton (wellFormed_unite h), ← unite_append vs [] h, List.append_nil]

/-! ## Numbering of joins

A join of numbered values lacks only the serial numbers of the properties that merging made anew.
-/

/-- Whatever merging would keep as it is has its serial numbers. -/
inductive Settled : Value → Prop
  | numbered {v : Value} (h : v.isNumbered = true) : Settled v
  | made {v : Value} (h : v.isMerged = true ∨ v.isUnion = true) (hparts : ∀ p ∈ v.parts, Settled p) : Settled v

theorem Settled.part (h : v.Settled) (hp : p ∈ v.parts) : p.Settled := by
  cases h with
  | numbered h => exact .numbered ((isNumbered_iff.mp h).2 p hp)
  | made _ hparts => exact hparts p hp

theorem Settled.of_mem_disjuncts (h : v.Settled) (hd : d ∈ v.disjuncts) : d.Settled := by
  rcases eq_or_mem_parts hd with rfl | ⟨-, hd⟩
  · exact h
  · exact h.part hd

/-- The parts of a merged alternative are the joins of the parts of its members. -/
theorem mergeGroup_cases (join : List Value → Value) {members : List Value} (h : IsGroup flat (s, members)) :
    mergeGroup join (s, members) ∈ members ∨ (mergeGroup join (s, members)).isMerged = true ∧
      ∀ p ∈ (mergeGroup join (s, members)).parts, ∃ f ∈ partGetters s, p = join (members.filterMap f) := by
  cases s with
  | other k => exact .inl (mergeGroup_other join h.nonempty)
  | _ => exact .inr ⟨rfl, by simp [mergeGroup, parts, partGetters]⟩

theorem settled_unite (h : ∀ v ∈ vs, v.Settled) : (unite vs).Settled := by
  induction vs using unite_induction with
  | step vs ih =>
    have hflat : ∀ d ∈ flatten vs, d.Settled := by
      intro d hd
      obtain ⟨v, hv, hdv⟩ := mem_flatten hd
      exact (h v hv).of_mem_disjuncts hdv
    have hmerged : ∀ a ∈ merged unite vs, a.Settled := by
      intro a ha
      obtain ⟨⟨s, members⟩, hgroup, rfl⟩ := mem_merged ha
      rcases mergeGroup_cases unite hgroup with hmem | ⟨hmade, hparts⟩
      · exact hflat _ (hgroup.subset _ hmem)
      · refine .made (.inl hmade) fun p hp => ?_
        obtain ⟨f, hf, rfl⟩ := hparts p hp
        have hsub := exists_of_mem_filterMap_getter hf hgroup.subset
        refine ih _ (filterMap_getter_ne_nil hf hgroup) hsub fun q hq => ?_
        obtain ⟨m, hm, hqm⟩ := hsub q hq
        exact (hflat m hm).part hqm.2
    rw [unite_eq]
    unfold ofDisjuncts
    split
    · next a hone => exact hmerged a (hone ▸ List.mem_cons_self)
    · exact .made (.inr rfl) hmerged

theorem byParts_numberAll (h : ∀ v ∈ vs, ∀ n, (v.number n).1.byParts = v.byParts) (n : Nat) :
    (numberAll vs n).1.map byParts = vs.map byParts := by
  induction vs generalizing n with
  | nil => rfl
  | cons v rest ih =>
    rw [numberAll_cons, List.map_cons, List.map_cons, h v List.mem_cons_self,
      ih fun w hw => h w (List.mem_cons_of_mem _ hw)]

/-- Serial numbers change nothing in a join but the identity of its properties. -/
theorem byParts_number (h : v.Settled) (n : Nat) : (v.number n).1.byParts = v.byParts := by
  induction h generalizing n with
  | numbered h => rw [number_of_isNumbered h]
  | @made v hv hparts ih =>
    cases v
    case list e => exact congrArg list (ih e List.mem_cons_self n)
    case set e => exact congrArg set (ih e List.mem_cons_self n)
    case generator e => exact congrArg generator (ih e List.mem_cons_self n)
    case dict k w => exact congrArg₂ dict (ih k (by simp [parts]) _) (ih w (by simp [parts]) _)
    case property serial g s d =>
      rw [number_property, byParts, byParts, ih g (by simp [parts]), ih s (by simp [parts]), ih d (by simp [parts])]
    case union alternatives =>
      have hall : (numberAll alternatives n).1.map byParts = alternatives.map byParts := byParts_numberAll ih n
      rw [number_union, byParts, byParts, byPartsAll_eq_map, byPartsAll_eq_map, hall]
    all_goals simp [isMerged, isUnion] at hv

end Surmise.Value
