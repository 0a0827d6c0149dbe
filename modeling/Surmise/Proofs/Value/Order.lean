import Surmise.Proofs.Value.Joins
import Mathlib.Data.List.Perm.Subperm
import Mathlib.Order.Defs.PartialOrder

/-!
# The order of values

A value is below another if each of its alternatives has one in the other that stands for it: one with the
same key, or one of the same merged sort with parts above its parts. Joins are least upper bounds in this
order as long as nothing is cut off.

* `Value.Le`: the order, a preorder on all values.
* `Value.Uncut`: joining the values cuts nothing off, at any level. This is so exactly if they have a
  well-formed upper bound (`uncut_of_le`, `le_unite_of_mem`).
* `unite_le`: a join is below every well-formed upper bound.
* `unite_append_of_le`: values below what was joined before add nothing, also where something is cut off.
* `Value.Joined`: a value made from others by joins, in any grouping.
-/

namespace Surmise.Value

variable {vs : List Value} {a b u v w : Value} {xs ys : List Value}

mutual

/-- Every alternative of the first value has one in the second that stands for it. -/
inductive Le : Value → Value → Prop
  | intro {v w : Value} (h : LeAll v.disjuncts w.disjuncts) : Le v w

inductive LeAll : List Value → List Value → Prop
  | nil (ws : List Value) : LeAll [] ws
  | cons {a b : Value} {vs ws : List Value} (hb : b ∈ ws) (h : Fits a b) (hs : LeAll vs ws) : LeAll (a :: vs) ws

/-- The second alternative stands for the first. Properties are compared by their parts. -/
inductive Fits : Value → Value → Prop
  | same {a b : Value} (ha : a.isMerged = false) (hb : b.isMerged = false) (h : a.key = b.key) : Fits a b
  | list {e e' : Value} (h : Le e e') : Fits (.list e) (.list e')
  | set {e e' : Value} (h : Le e e') : Fits (.set e) (.set e')
  | generator {e e' : Value} (h : Le e e') : Fits (.generator e) (.generator e')
  | dict {k k' v v' : Value} (hk : Le k k') (hv : Le v v') : Fits (.dict k v) (.dict k' v')
  | property {serial serial' : Option Nat} {g g' s s' d d' : Value} (hg : Le g g') (hs : Le s s')
      (hd : Le d d') : Fits (.property serial g s d) (.property serial' g' s' d')

end

theorem leAll_iff {ws : List Value} : LeAll vs ws ↔ ∀ a ∈ vs, ∃ b ∈ ws, Fits a b := by
  constructor
  · intro h a ha
    induction vs with
    | nil => cases ha
    | cons first rest ih =>
      cases h with
      | cons hb hfits hrest =>
        rcases List.mem_cons.mp ha with rfl | ha
        · exact ⟨_, hb, hfits⟩
        · exact ih hrest ha
  · intro h
    induction vs with
    | nil => exact .nil ws
    | cons first rest ih =>
      obtain ⟨b, hb, hfits⟩ := h first List.mem_cons_self
      exact .cons hb hfits (ih fun a ha => h a (List.mem_cons_of_mem _ ha))

theorem le_iff : Le v w ↔ ∀ a ∈ v.disjuncts, ∃ b ∈ w.disjuncts, Fits a b :=
  ⟨fun ⟨h⟩ => leAll_iff.mp h, fun h => ⟨leAll_iff.mpr h⟩⟩

theorem slot_of_isMerged (h : a.isMerged = false) : a.slot = .other a.key := by
  cases a <;> first | rfl | cases h

theorem isMerged_of_slot {k : Key} (h : a.slot = .other k) : a.isMerged = false ∧ a.key = k := by
  cases a <;> cases h <;> exact ⟨rfl, rfl⟩

/-- One alternative stands for another if it has the same slot and its parts are above. -/
theorem fits_iff :
    Fits a b ↔ a.slot = b.slot ∧ ∀ f ∈ partGetters a.slot, ∀ p q, f a = some p → f b = some q → Le p q := by
  constructor
  · intro h
    cases h with
    | same ha hb hkey =>
      rw [slot_of_isMerged ha, slot_of_isMerged hb, hkey]
      exact ⟨rfl, by simp [partGetters]⟩
    | list h | set h | generator h => simpa [slot, partGetters, elem?] using h
    | dict hk hv => simpa [slot, partGetters, dictKey?, dictValue?] using ⟨hk, hv⟩
    | property hg hs hd => simpa [slot, partGetters, getter?, setter?, deleter?] using ⟨hg, hs, hd⟩
  · rintro ⟨hslot, hparts⟩
    by_cases ha : a.isMerged = false
    · rw [slot_of_isMerged ha] at hslot
      obtain ⟨hb, hkey⟩ := isMerged_of_slot hslot.symm
      exact .same ha hb hkey.symm
    · obtain ⟨e, e', h, ⟨rfl, rfl⟩ | ⟨rfl, rfl⟩ | ⟨rfl, rfl⟩⟩ | ⟨_, _, _, _, hk, hv, rfl, rfl⟩ |
        ⟨_, _, _, _, _, _, _, _, hg, hs, hd, rfl, rfl⟩ := merged_cases (Bool.not_eq_false _ ▸ ha) hslot hparts
      · exact .list h
      · exact .set h
      · exact .generator h
      · exact .dict hk hv
      · exact .property hg hs hd

theorem Fits.slot_eq (h : Fits a b) : a.slot = b.slot := (fits_iff.mp h).1

/-! ## A preorder -/

theorem fits_refl_and_le_refl (v : Value) : Fits v v ∧ Le v v := by
  induction v with
  | step v ih =>
    have hself : Fits v v := by
      refine fits_iff.mpr ⟨rfl, fun f hf p q hp hq => ?_⟩
      obtain rfl : p = q := Option.some.inj (hp.symm.trans hq)
      exact (ih p (isMergedPart_of_getter hf hp).2).2
    refine ⟨hself, le_iff.mpr fun a ha => ⟨a, ha, ?_⟩⟩
    rcases eq_or_mem_parts ha with rfl | ⟨-, ha⟩
    · exact hself
    · exact (ih a ha).1

theorem fits_trans_and_le_trans (u : Value) :
    (∀ v w, Fits u v → Fits v w → Fits u w) ∧ ∀ v w, Le u v → Le v w → Le u w := by
  induction u with
  | step u ih =>
    have hfits : ∀ v w, Fits u v → Fits v w → Fits u w := by
      intro v w h h'
      obtain ⟨hslot, hparts⟩ := fits_iff.mp h
      obtain ⟨hslot', hparts'⟩ := fits_iff.mp h'
      refine fits_iff.mpr ⟨hslot.trans hslot', fun f hf p r hp hr => ?_⟩
      obtain ⟨q, hq⟩ := exists_part hf hslot.symm
      have hpart := ih p (isMergedPart_of_getter hf hp).2
      exact hpart.2 q r (hparts f hf p q hp hq) (hparts' f (hslot ▸ hf) q r hq hr)
    refine ⟨hfits, fun v w h h' => le_iff.mpr fun a ha => ?_⟩
    obtain ⟨b, hb, hab⟩ := le_iff.mp h a ha
    obtain ⟨c, hc, hbc⟩ := le_iff.mp h' b hb
    refine ⟨c, hc, ?_⟩
    rcases eq_or_mem_parts ha with rfl | ⟨-, ha⟩
    · exact hfits b c hab hbc
    · exact (ih a ha).1 b c hab hbc

instance : Preorder Value where
  le := Le
  le_refl v := (fits_refl_and_le_refl v).2
  le_trans u v w := (fits_trans_and_le_trans u).2 v w

theorem le_def : v ≤ w ↔ ∀ a ∈ v.disjuncts, ∃ b ∈ w.disjuncts, Fits a b := le_iff

/-! ## Joins are upper bounds where nothing is cut off -/

/-- Joining the values makes no union with too many alternatives, at any level. -/
inductive Uncut : List Value → Prop
  | intro {vs : List Value} (few : (grouped (flatten vs)).length ≤ maxDisjuncts)
      (parts : ∀ g ∈ grouped (flatten vs), ∀ f ∈ partGetters g.1, Uncut (g.2.filterMap f)) : Uncut vs

theorem uncut_iff : Uncut vs ↔ ((flatten vs).map slot).eraseDups.length ≤ maxDisjuncts ∧
      ∀ s ∈ (flatten vs).map slot, ∀ f ∈ partGetters s, Uncut ((atSlot s (flatten vs)).filterMap f) := by
  constructor
  · rintro ⟨hfew, hparts⟩
    rw [grouped_eq] at hfew hparts
    refine ⟨by simpa using hfew, fun s hs f hf => ?_⟩
    exact hparts (s, atSlot s (flatten vs)) (List.mem_map.mpr ⟨s, List.mem_eraseDups.mpr hs, rfl⟩) f hf
  · rintro ⟨hfew, hparts⟩
    constructor
    · rw [grouped_eq, List.length_map]
      exact hfew
    · intro g hg f hf
      rw [grouped_eq] at hg
      obtain ⟨s, hs, rfl⟩ := List.mem_map.mp hg
      exact hparts s (List.mem_eraseDups.mp hs) f hf

/-- **A join is above each of its values**, if nothing is cut off. -/
theorem le_unite_of_mem (hvs : ∀ v ∈ vs, v.WellFormed) (huncut : Uncut vs) (hv : v ∈ vs) : v ≤ unite vs := by
  induction vs using unite_induction generalizing v with
  | step vs ih =>
    obtain ⟨hfew, hparts⟩ := uncut_iff.mp huncut
    refine le_def.mpr fun a ha => ?_
    have hflat : a ∈ flatten vs := List.mem_flatMap.mpr ⟨v, hv, ha⟩
    have hslot : a.slot ∈ (flatten vs).map slot := List.mem_map_of_mem hflat
    have hgroup := isGroup_atSlot hslot
    have hown : a ∈ atSlot a.slot (flatten vs) := mem_atSlot.mpr ⟨hflat, rfl⟩
    -- every slot is kept, so the group of the alternative makes one of the join
    have hkept : a.slot ∈ keptSlots (flatten vs) := by
      unfold keptSlots
      rw [List.take_of_length_le hfew]
      exact List.mem_eraseDups.mpr hslot
    refine ⟨mergeGroup unite (a.slot, atSlot a.slot (flatten vs)), ?_, fits_iff.mpr ⟨?_, ?_⟩⟩
    · rw [disjuncts_unite hvs, merged_eq]
      exact List.mem_map.mpr ⟨a.slot, hkept, rfl⟩
    · exact (slot_mergeGroup unite hgroup).symm
    · intro f hf p q hp hq
      rw [getter_mergeGroup hf] at hq
      obtain rfl := Option.some.inj hq
      have hmembers := exists_of_mem_filterMap_getter hf hgroup.subset
      refine ih _ (filterMap_getter_ne_nil hf hgroup) hmembers ?_ (hparts _ hslot f hf)
        (List.mem_filterMap.mpr ⟨a, hown, hp⟩)
      intro r hr
      obtain ⟨m, hm, hrm⟩ := hmembers r hr
      exact wellFormed_of_isMergedPart hvs hm hrm

/-! ## Joins are below all upper bounds -/

/-- The alternatives of well-formed values stand for others by their slots alone. -/
theorem eq_of_slot_eq {c : Value} (hw : w.WellFormed) (hb : b ∈ w.disjuncts) (hc : c ∈ w.disjuncts)
    (h : b.slot = c.slot) : b = c :=
  List.inj_on_of_nodup_map hw.alternatives.distinct hb hc h

/-- An upper bound has an alternative for every slot, which stands for all alternatives of the slot. -/
theorem exists_bound (hw : w.WellFormed) (h : ∀ v ∈ vs, v ≤ w) {s : Slot} (hs : s ∈ (flatten vs).map slot) :
    ∃ b ∈ w.disjuncts, b.slot = s ∧ ∀ a ∈ atSlot s (flatten vs), Fits a b := by
  have hfits : ∀ a ∈ flatten vs, ∃ b ∈ w.disjuncts, Fits a b := by
    intro a ha
    obtain ⟨v, hv, hav⟩ := mem_flatten ha
    exact le_def.mp (h v hv) a hav
  obtain ⟨a, ha, rfl⟩ := List.mem_map.mp hs
  obtain ⟨b, hb, hab⟩ := hfits a ha
  refine ⟨b, hb, hab.slot_eq.symm, fun a' ha' => ?_⟩
  obtain ⟨ha', hslot⟩ := mem_atSlot.mp ha'
  obtain ⟨b', hb', hab'⟩ := hfits a' ha'
  have hsame : b' = b := eq_of_slot_eq hw hb' hb (by rw [← hab'.slot_eq, hslot, hab.slot_eq])
  exact hsame ▸ hab'

/-- The parts of the alternatives of a slot are below the part of the one that stands for them. -/
theorem parts_le_of_fits {s : Slot} {flat : List Value} {q : Value} (h : ∀ a ∈ atSlot s flat, Fits a b)
    {f : Value → Option Value} (hf : f ∈ partGetters s) (hq : f b = some q) :
    ∀ p ∈ (atSlot s flat).filterMap f, p ≤ q := by
  intro p hp
  obtain ⟨a, ha, hap⟩ := List.mem_filterMap.mp hp
  have hslot := (mem_atSlot.mp ha).2
  exact (fits_iff.mp (h a ha)).2 f (hslot ▸ hf) p q hap hq

/-- **A join is below every well-formed upper bound** of its values, whatever is cut off. -/
theorem unite_le (hvs : ∀ v ∈ vs, v.WellFormed) (hw : w.WellFormed) (h : ∀ v ∈ vs, v ≤ w) : unite vs ≤ w := by
  induction vs using unite_induction generalizing w with
  | step vs ih =>
    refine le_def.mpr fun a ha => ?_
    rw [disjuncts_unite hvs, merged_eq] at ha
    obtain ⟨s, hs, rfl⟩ := List.mem_map.mp ha
    have hslot := mem_slots_of_mem_keptSlots hs
    have hgroup := isGroup_atSlot hslot
    obtain ⟨b, hb, hbs, hfits⟩ := exists_bound hw h hslot
    have hmade : (mergeGroup unite (s, atSlot s (flatten vs))).slot = s := slot_mergeGroup unite hgroup
    refine ⟨b, hb, fits_iff.mpr ⟨hmade.trans hbs.symm, fun f hf p q hp hq => ?_⟩⟩
    rw [hmade] at hf
    rw [getter_mergeGroup hf] at hp
    obtain rfl := Option.some.inj hp
    have hmembers := exists_of_mem_filterMap_getter hf hgroup.subset
    refine ih _ (filterMap_getter_ne_nil hf hgroup) hmembers (fun r hr => ?_) ?_ (parts_le_of_fits hfits hf hq)
    · obtain ⟨m, hm, hrm⟩ := hmembers r hr
      exact wellFormed_of_isMergedPart hvs hm hrm
    · exact (hw.of_mem_disjuncts hb).of_mem_parts (isMergedPart_of_getter hf hq).2

/-- **Nothing is cut off** when values are joined that have a well-formed upper bound. -/
theorem uncut_of_le (hw : w.WellFormed) (h : ∀ v ∈ vs, v ≤ w) : Uncut vs := by
  induction vs using unite_induction generalizing w with
  | step vs ih =>
    refine uncut_iff.mpr ⟨?_, fun s hs f hf => ?_⟩
    · -- each slot is one of an alternative of the bound, and those are few
      have hsub : ((flatten vs).map slot).eraseDups ⊆ w.disjuncts.map slot := by
        intro s hs
        obtain ⟨b, hb, hbs, -⟩ := exists_bound hw h (List.mem_eraseDups.mp hs)
        exact hbs ▸ List.mem_map_of_mem hb
      have hlength := (List.subperm_of_subset (nodup_eraseDups _) hsub).length_le
      rw [List.length_map] at hlength
      exact Nat.le_trans hlength hw.alternatives.few
    · have hgroup := isGroup_atSlot hs
      obtain ⟨b, hb, hbs, hfits⟩ := exists_bound hw h hs
      obtain ⟨q, hq⟩ := exists_part hf hbs
      exact ih _ (filterMap_getter_ne_nil hf hgroup) (exists_of_mem_filterMap_getter hf hgroup.subset)
        ((hw.of_mem_disjuncts hb).of_mem_parts (isMergedPart_of_getter hf hq).2) (parts_le_of_fits hfits hf hq)

/-! ## Values that add nothing -/

/-- **A value below one that was joined before adds nothing**, also where that one was cut off. -/
theorem unite_append_of_le (h : ∀ y ∈ ys, ∃ x ∈ xs, y ≤ x) : unite (xs ++ ys) = unite xs := by
  induction xs using unite_induction generalizing ys with
  | step xs ih =>
    have hflat : ∀ d ∈ flatten ys, ∃ b ∈ flatten xs, Fits d b := by
      intro d hd
      obtain ⟨y, hy, hdy⟩ := mem_flatten hd
      obtain ⟨x, hx, hle⟩ := h y hy
      obtain ⟨b, hb, hfits⟩ := le_def.mp hle d hdy
      exact ⟨b, List.mem_flatMap.mpr ⟨x, hx, hb⟩, hfits⟩
    have hslots : keptSlots (flatten xs ++ flatten ys) = keptSlots (flatten xs) := by
      unfold keptSlots
      rw [List.map_append, List.eraseDups_append, removeAll_eq_nil, List.eraseDups_nil, List.append_nil]
      intro s hs
      obtain ⟨d, hd, rfl⟩ := List.mem_map.mp hs
      obtain ⟨b, hb, hfits⟩ := hflat d hd
      exact hfits.slot_eq ▸ List.mem_map_of_mem hb
    rw [unite_eq, unite_eq xs, merged_eq, merged_eq, flatten_append, hslots]
    refine congrArg ofDisjuncts (List.map_congr_left fun s hs => ?_)
    have hgroup := isGroup_atSlot (mem_slots_of_mem_keptSlots hs)
    rw [atSlot_append]
    refine mergeGroup_congr (fun f hf => ?_) fun _ => ?_
    · rw [List.filterMap_append]
      refine ih _ (filterMap_getter_ne_nil hf hgroup) (exists_of_mem_filterMap_getter hf hgroup.subset) ?_
      intro p hp
      obtain ⟨m, hm, hmp⟩ := List.mem_filterMap.mp hp
      obtain ⟨hm, hslot⟩ := mem_atSlot.mp hm
      -- the part is below that of the alternative that stands for the whole
      obtain ⟨b, hb, hfits⟩ := hflat m hm
      have hslot' : b.slot = s := hfits.slot_eq.symm.trans hslot
      obtain ⟨q, hq⟩ := exists_part hf hslot'
      exact ⟨q, List.mem_filterMap.mpr ⟨b, mem_atSlot.mpr ⟨hb, hslot'⟩, hq⟩,
        (fits_iff.mp hfits).2 f (hslot ▸ hf) p q hmp hq⟩
    · obtain ⟨m, rest, hcons⟩ := List.exists_cons_of_ne_nil hgroup.nonempty
      rw [show atSlot s (flatten xs) = m :: rest from hcons]
      rfl

/-- **Values that occur before add nothing**, also where they were cut off. -/
theorem unite_append_of_subset (h : ∀ y ∈ ys, y ∈ xs) : unite (xs ++ ys) = unite xs :=
  unite_append_of_le fun y hy => ⟨y, h y hy, le_refl y⟩

/-! ## Order and grouping -/

/-- The value is made by joins from these values, each taken once, in this order and in some grouping. -/
inductive Joined : List Value → Value → Prop
  | value (v : Value) : Joined [v] v
  | join (groups : List (List Value × Value)) (h : ∀ g ∈ groups, Joined g.1 g.2) :
      Joined (groups.flatMap Prod.fst) (unite (groups.map Prod.snd))

theorem Joined.wellFormed (h : Joined vs u) (hvs : ∀ v ∈ vs, v.WellFormed) : u.WellFormed := by
  induction h with
  | value v => exact hvs v List.mem_cons_self
  | join groups _ ih =>
    refine wellFormed_unite fun u hu => ?_
    obtain ⟨g, hg, rfl⟩ := List.mem_map.mp hu
    exact ih g hg fun v hv => hvs v (List.mem_flatMap.mpr ⟨g, hg, hv⟩)

/-- What is made by joins is below every upper bound of the values. -/
theorem Joined.le (h : Joined vs u) (hvs : ∀ v ∈ vs, v.WellFormed) (hw : w.WellFormed) (hle : ∀ v ∈ vs, v ≤ w) :
    u ≤ w := by
  induction h with
  | value v => exact hle v List.mem_cons_self
  | join groups hgroups ih =>
    have hmem : ∀ g ∈ groups, ∀ v ∈ g.1, v ∈ groups.flatMap Prod.fst :=
      fun g hg v hv => List.mem_flatMap.mpr ⟨g, hg, hv⟩
    refine unite_le (fun u hu => ?_) hw fun u hu => ?_ <;> obtain ⟨g, hg, rfl⟩ := List.mem_map.mp hu
    · exact (hgroups g hg).wellFormed fun v hv => hvs v (hmem g hg v hv)
    · exact ih g hg (fun v hv => hvs v (hmem g hg v hv)) fun v hv => hle v (hmem g hg v hv)

/-- What is made by joins is above the values, if they have an upper bound. -/
theorem Joined.le_of_mem (h : Joined vs u) (hvs : ∀ v ∈ vs, v.WellFormed) (hw : w.WellFormed)
    (hle : ∀ v ∈ vs, v ≤ w) (hv : v ∈ vs) : v ≤ u := by
  induction h with
  | value v' =>
    obtain rfl := List.mem_singleton.mp hv
    exact le_refl v
  | join groups hgroups ih =>
    have hmem : ∀ g ∈ groups, ∀ v ∈ g.1, v ∈ groups.flatMap Prod.fst :=
      fun g hg v hv => List.mem_flatMap.mpr ⟨g, hg, hv⟩
    have hwell : ∀ u ∈ groups.map Prod.snd, u.WellFormed := by
      intro u hu
      obtain ⟨g, hg, rfl⟩ := List.mem_map.mp hu
      exact (hgroups g hg).wellFormed fun v hv => hvs v (hmem g hg v hv)
    have hbelow : ∀ u ∈ groups.map Prod.snd, u ≤ w := by
      intro u hu
      obtain ⟨g, hg, rfl⟩ := List.mem_map.mp hu
      exact (hgroups g hg).le (fun v hv => hvs v (hmem g hg v hv)) hw fun v hv => hle v (hmem g hg v hv)
    obtain ⟨g, hg, hvg⟩ := List.mem_flatMap.mp hv
    calc v ≤ g.2 := ih g hg (fun v hv => hvs v (hmem g hg v hv)) (fun v hv => hle v (hmem g hg v hv)) hvg
      _ ≤ unite (groups.map Prod.snd) :=
        le_unite_of_mem hwell (uncut_of_le hw hbelow) (List.mem_map_of_mem hg)

/-- Values below each other have the same alternatives, up to order and to what stands for what. -/
theorem perm_slots_of_le (hv : v.WellFormed) (hw : w.WellFormed) (hvw : v ≤ w) (hwv : w ≤ v) :
    (v.disjuncts.map slot).Perm (w.disjuncts.map slot) := by
  have hsub : ∀ v w : Value, v ≤ w → ∀ s ∈ v.disjuncts.map slot, s ∈ w.disjuncts.map slot := by
    intro v w h s hs
    obtain ⟨a, ha, rfl⟩ := List.mem_map.mp hs
    obtain ⟨b, hb, hab⟩ := le_def.mp h a ha
    exact hab.slot_eq ▸ List.mem_map_of_mem hb
  refine (List.perm_ext_iff_of_nodup hv.alternatives.distinct hw.alternatives.distinct).mpr fun s => ?_
  exact ⟨hsub v w hvw s, hsub w v hwv s⟩

/--
**Joins are least upper bounds.** A join is above its values if no union on the way has too many
alternatives, and it is always below every upper bound. So below the limit joins in another order and
another grouping have the same alternatives.
-/
theorem unite_least_upper_bound :
    (∀ vs : List Value, (∀ v ∈ vs, v.WellFormed) → Uncut vs → ∀ v ∈ vs, v ≤ unite vs) ∧
    (∀ (vs : List Value) (w : Value), (∀ v ∈ vs, v.WellFormed) → w.WellFormed → (∀ v ∈ vs, v ≤ w) →
      unite vs ≤ w) ∧
    ∀ (vs ws : List Value) (u u' : Value), (∀ v ∈ vs, v.WellFormed) → Uncut vs → vs.Perm ws →
      Joined vs u → Joined ws u' →
      u ≤ u' ∧ u' ≤ u ∧ (u.disjuncts.map slot).Perm (u'.disjuncts.map slot) := by
  refine ⟨fun vs hvs huncut v hv => le_unite_of_mem hvs huncut hv, fun vs w hvs hw h => unite_le hvs hw h, ?_⟩
  intro vs ws u u' hvs huncut hperm hu hu'
  have hws : ∀ v ∈ ws, v.WellFormed := fun v hv => hvs v (hperm.mem_iff.mpr hv)
  have hbound := wellFormed_unite hvs
  have hle : ∀ v ∈ vs, v ≤ unite vs := fun v hv => le_unite_of_mem hvs huncut hv
  have hle' : ∀ v ∈ ws, v ≤ unite vs := fun v hv => hle v (hperm.mem_iff.mpr hv)
  have hwell := hu.wellFormed hvs
  have hwell' := hu'.wellFormed hws
  have huu' : u ≤ u' := hu.le hvs hwell' fun v hv => hu'.le_of_mem hws hbound hle' (hperm.mem_iff.mp hv)
  have hu'u : u' ≤ u := hu'.le hws hwell fun v hv => hu.le_of_mem hvs hbound hle (hperm.mem_iff.mpr hv)
  exact ⟨huu', hu'u, perm_slots_of_le hwell hwell' huu' hu'u⟩

/-- Two lists and a constant, joined all at once and, in another order, the lists first. -/
theorem unite_least_upper_bound_lists :
    let vs := [listOf (ofInt 1), null, listOf (ofInt 2)]
    let u := unite vs
    let u' := unite [unite [listOf (ofInt 2), listOf (ofInt 1)], null]
    listOf (ofInt 2) ≤ unite vs ∧ unite vs ≤ u' ∧ u' ≤ u ∧
      (u.disjuncts.map slot).Perm (u'.disjuncts.map slot) := by
  intro vs u u'
  have hlist : ∀ n : Int, (listOf (ofInt n)).WellFormed := fun n => wellFormed_listOf (wellFormed_ofInt n)
  have hvs : ∀ v ∈ vs, v.WellFormed := by
    simpa [vs] using ⟨hlist 1, wellFormed_of_isAtom rfl, hlist 2⟩
  have hgroups : grouped (flatten vs) =
      [(.list, [listOf (ofInt 1), listOf (ofInt 2)]), (.other [.null], [null])] := rfl
  have hparts : grouped (flatten [ofInt 1, ofInt 2]) =
      [(.other [.int (some 1)], [ofInt 1]), (.other [.int (some 2)], [ofInt 2])] := rfl
  have huncut : Uncut vs := by
    refine ⟨by rw [hgroups]; decide, ?_⟩
    rw [hgroups]
    simp only [List.mem_cons, List.not_mem_nil, or_false, forall_eq_or_imp, forall_eq, partGetters, false_implies,
      implies_true, and_true]
    refine ⟨by rw [show List.filterMap elem? _ = [ofInt 1, ofInt 2] from rfl, hparts]; decide, ?_⟩
    rw [show List.filterMap elem? _ = [ofInt 1, ofInt 2] from rfl, hparts]
    simp [partGetters]
  have hu : Joined vs u := .join [([listOf (ofInt 1)], listOf (ofInt 1)), ([null], null),
    ([listOf (ofInt 2)], listOf (ofInt 2))] (by simpa using ⟨.value _, .value _, .value _⟩)
  have hlists : Joined [listOf (ofInt 2), listOf (ofInt 1)] (unite [listOf (ofInt 2), listOf (ofInt 1)]) :=
    .join [([listOf (ofInt 2)], listOf (ofInt 2)), ([listOf (ofInt 1)], listOf (ofInt 1))]
      (by simpa using ⟨.value _, .value _⟩)
  have hu' : Joined [listOf (ofInt 2), listOf (ofInt 1), null] u' :=
    .join [([listOf (ofInt 2), listOf (ofInt 1)], unite [listOf (ofInt 2), listOf (ofInt 1)]), ([null], null)]
      (by simpa using ⟨hlists, .value _⟩)
  have hperm : vs.Perm [listOf (ofInt 2), listOf (ofInt 1), null] :=
    @List.perm_append_comm _ [listOf (ofInt 1), null] [listOf (ofInt 2)]
  obtain ⟨huu', hu'u, hslots⟩ := unite_least_upper_bound.2.2 vs _ u u' hvs huncut hperm hu hu'
  have habove := unite_least_upper_bound.1 vs hvs huncut
  have hbelow := unite_least_upper_bound.2.1 vs u' hvs
    (hu'.wellFormed fun v hv => hvs v (hperm.mem_iff.mpr hv)) fun v hv => le_trans (habove v hv) huu'
  exact ⟨habove _ (by simp [vs]), hbelow, hu'u, hslots⟩

end Surmise.Value
