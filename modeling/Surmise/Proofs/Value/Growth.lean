import Surmise.Proofs.Value.Joins

/-!
# Growth of values

A value grows by getting more alternatives behind those it has, and by growth of the elements of its
collections and of the parts of its properties.

* `Value.Grows`: this relation, which is reflexive and transitive.
* `Value.grows_unite`: the join of a value with others is grown from the value.
* `Value.Grows.number`: giving serial numbers to a grown value takes nothing back.
-/

namespace Surmise.Value

variable {vs ws : List Value} {d v : Value} {i : Nat}

mutual

/-- The alternatives of the first value are, grown, those that the second begins with. -/
inductive Grows : Value → Value → Prop
  | intro {v w : Value} (h : GrowsAll v.disjuncts w.disjuncts) : Grows v w

inductive GrowsAll : List Value → List Value → Prop
  | more (ws : List Value) : GrowsAll [] ws
  | cons {v w : Value} {vs ws : List Value} (h : Becomes v w) (hs : GrowsAll vs ws) :
      GrowsAll (v :: vs) (w :: ws)

/-- What may become of an alternative. The serial number of a property may change. -/
inductive Becomes : Value → Value → Prop
  | same {v : Value} (h : v.isMerged = false) : Becomes v v
  | list {e e' : Value} (h : Grows e e') : Becomes (.list e) (.list e')
  | set {e e' : Value} (h : Grows e e') : Becomes (.set e) (.set e')
  | generator {e e' : Value} (h : Grows e e') : Becomes (.generator e) (.generator e')
  | dict {k k' v v' : Value} (hk : Grows k k') (hv : Grows v v') : Becomes (.dict k v) (.dict k' v')
  | property {serial serial' : Option Nat} {g g' s s' d d' : Value} (hg : Grows g g') (hs : Grows s s')
      (hd : Grows d d') : Becomes (.property serial g s d) (.property serial' g' s' d')

end

/-- An alternative may become another one of its sort whose parts are grown, or stays as it is. -/
theorem becomes_iff {a b : Value} : Becomes a b ↔ a.slot = b.slot ∧ (a.isMerged = false → a = b) ∧
    ∀ f ∈ partGetters a.slot, ∀ p q, f a = some p → f b = some q → Grows p q := by
  constructor
  · intro h
    cases h with
    | same ha => exact ⟨rfl, fun _ => rfl, by cases a <;> simp_all [isMerged, slot, partGetters]⟩
    | list h | set h | generator h => simpa [slot, partGetters, elem?, isMerged] using h
    | dict hk hv => simpa [slot, partGetters, dictKey?, dictValue?, isMerged] using ⟨hk, hv⟩
    | property hg hs hd => simpa [slot, partGetters, getter?, setter?, deleter?, isMerged] using ⟨hg, hs, hd⟩
  · rintro ⟨hslot, hsame, hparts⟩
    cases ha : a.isMerged with
    | false => exact hsame ha ▸ .same ha
    | true =>
      obtain ⟨e, e', h, ⟨rfl, rfl⟩ | ⟨rfl, rfl⟩ | ⟨rfl, rfl⟩⟩ | ⟨_, _, _, _, hk, hv, rfl, rfl⟩ |
        ⟨_, _, _, _, _, _, _, _, hg, hs, hd, rfl, rfl⟩ := merged_cases ha hslot hparts
      · exact .list h
      · exact .set h
      · exact .generator h
      · exact .dict hk hv
      · exact .property hg hs hd

/-! ## Reflexivity and transitivity -/

theorem growsAll_of_forall (h : ∀ (i : Nat) v, vs[i]? = some v → ∃ w, ws[i]? = some w ∧ Becomes v w) :
    GrowsAll vs ws := by
  induction vs generalizing ws with
  | nil => exact .more ws
  | cons v vs ih =>
    obtain ⟨w, hw, hbecomes⟩ := h 0 v rfl
    cases ws with
    | nil => cases hw
    | cons first rest =>
      obtain rfl := Option.some.inj hw
      exact .cons hbecomes (ih fun i => h (i + 1))

theorem growsAll_self (h : ∀ v ∈ vs, Becomes v v) : GrowsAll vs vs :=
  growsAll_of_forall fun _ v hv => ⟨v, hv, h v (List.mem_of_getElem? hv)⟩

theorem becomes_self_and_grows_self (v : Value) : Becomes v v ∧ Grows v v := by
  induction v with
  | step v ih =>
    have hself : Becomes v v := by
      refine becomes_iff.mpr ⟨rfl, fun _ => rfl, fun f hf p q hp hq => ?_⟩
      obtain rfl : p = q := Option.some.inj (hp.symm.trans hq)
      exact (ih p (mem_parts_of_getter hf hp)).2
    refine ⟨hself, .intro (growsAll_self fun d hd => ?_)⟩
    rcases eq_or_mem_parts hd with rfl | ⟨-, hd⟩
    · exact hself
    · exact (ih d hd).1

@[refl] theorem Grows.refl (v : Value) : Grows v v := (becomes_self_and_grows_self v).2

theorem grows_empty (v : Value) : Grows empty v := .intro (.more _)

theorem GrowsAll.trans {us : List Value} (h : GrowsAll us vs) (h' : GrowsAll vs ws)
    (htrans : ∀ u ∈ us, ∀ v w, Becomes u v → Becomes v w → Becomes u w) : GrowsAll us ws := by
  induction us generalizing vs ws with
  | nil => exact .more ws
  | cons u us ih =>
    cases h with
    | cons hu hus =>
      cases h' with
      | cons hv hvs =>
        exact .cons (htrans u List.mem_cons_self _ _ hu hv)
          (ih hus hvs fun u' hu' => htrans u' (List.mem_cons_of_mem _ hu'))

theorem becomes_trans_and_grows_trans (u : Value) :
    (∀ v w, Becomes u v → Becomes v w → Becomes u w) ∧ ∀ v w, Grows u v → Grows v w → Grows u w := by
  induction u with
  | step u ih =>
    have hbecomes : ∀ v w, Becomes u v → Becomes v w → Becomes u w := by
      intro v w h h'
      obtain ⟨hslot, hsame, hparts⟩ := becomes_iff.mp h
      obtain ⟨hslot', hsame', hparts'⟩ := becomes_iff.mp h'
      refine becomes_iff.mpr ⟨hslot.trans hslot', fun hu => ?_, fun f hf p r hp hr => ?_⟩
      · obtain rfl := hsame hu
        exact hsame' hu
      · obtain ⟨q, hq⟩ := exists_part hf hslot.symm
        exact (ih p (mem_parts_of_getter hf hp)).2 q r (hparts f hf p q hp hq) (hparts' f (hslot ▸ hf) q r hq hr)
    refine ⟨hbecomes, ?_⟩
    rintro v w ⟨h⟩ ⟨h'⟩
    refine .intro (h.trans h' fun d hd => ?_)
    rcases eq_or_mem_parts hd with rfl | ⟨-, hd⟩
    · exact hbecomes
    · exact (ih d hd).1

@[trans] theorem Grows.trans {u v w : Value} (h : Grows u v) (h' : Grows v w) : Grows u w :=
  (becomes_trans_and_grows_trans u).2 v w h h'

/-! ## Joins

The alternatives of the first value of a join open the first groups, each a group of its own, and stay at
the head of them.
-/

theorem getElem?_merged (join : List Value → Value) (vs : List Value) (h : Alternatives v.disjuncts)
    (hd : v.disjuncts[i]? = some d) : ∃ more, (∀ m ∈ more, m ∈ flatten vs) ∧
      (merged join (v :: vs))[i]? = some (mergeGroup join (d.slot, d :: more)) := by
  refine ⟨atSlot d.slot (flatten vs), fun m hm => (mem_atSlot.mp hm).1, ?_⟩
  have hi := (List.getElem?_eq_some_iff.mp hd).1
  have hflat : flatten (v :: vs) = v.disjuncts ++ flatten vs := List.flatMap_cons
  have hat : atSlot d.slot (v.disjuncts ++ flatten vs) = d :: atSlot d.slot (flatten vs) := by
    rw [atSlot_append, atSlot_of_nodup h.distinct (List.mem_of_getElem? hd)]
    rfl
  rw [merged_eq, hflat, keptSlots, List.map_append, List.eraseDups_append, eraseDups_of_nodup h.distinct,
    List.getElem?_map, List.getElem?_take_of_lt (Nat.lt_of_lt_of_le hi h.few),
    List.getElem?_append_left (by simpa using hi), List.getElem?_map, hd, ← hat]
  rfl

/-- Merging a group leaves its first member as it is or lets its parts grow. -/
theorem becomes_mergeGroup {join : List Value → Value} {more : List Value}
    (hjoin : ∀ p, IsMergedPart p d → ∀ ps, (∀ q ∈ ps, ∃ m ∈ more, IsMergedPart q m) → Grows p (join (p :: ps))) :
    Becomes d (mergeGroup join (d.slot, d :: more)) := by
  refine becomes_iff.mpr ⟨?_, fun hd => ?_, fun f hf p q hp hq => ?_⟩
  · cases d <;> rfl
  · cases d <;> first | rfl | cases hd
  · rw [getter_mergeGroup hf, List.filterMap_cons_some hp] at hq
    obtain rfl := Option.some.inj hq
    refine hjoin p (isMergedPart_of_getter hf hp) _ fun q hq => ?_
    obtain ⟨m, hm, hq⟩ := List.mem_filterMap.mp hq
    exact ⟨m, hm, isMergedPart_of_getter hf hq⟩

theorem grows_unite_eq (hws : ws = v :: vs) (hall : ∀ u ∈ ws, u.WellFormed) : Grows v (unite ws) := by
  induction ws using unite_induction generalizing v vs with
  | step ws ih =>
    subst hws
    refine .intro ?_
    rw [disjuncts_unite hall]
    refine growsAll_of_forall fun i d hd => ?_
    obtain ⟨more, hmore, hget⟩ := getElem?_merged unite vs (hall v List.mem_cons_self).alternatives hd
    refine ⟨_, hget, becomes_mergeGroup fun p hp ps hps => ?_⟩
    have hparts : ∀ q ∈ p :: ps, ∃ m ∈ flatten (v :: vs), IsMergedPart q m := by
      refine List.forall_mem_cons.mpr ⟨⟨d, List.mem_append_left _ (List.mem_of_getElem? hd), hp⟩, fun q hq => ?_⟩
      obtain ⟨m, hm, hqm⟩ := hps q hq
      exact ⟨m, List.mem_append_right _ (hmore m hm), hqm⟩
    refine ih (p :: ps) (List.cons_ne_nil _ _) hparts rfl fun q hq => ?_
    obtain ⟨m, hm, hqm⟩ := hparts q hq
    exact wellFormed_of_isMergedPart hall hm hqm

/-- **A value grows by a join with others.** -/
theorem grows_unite (hall : ∀ u ∈ v :: vs, u.WellFormed) : Grows v (unite (v :: vs)) :=
  grows_unite_eq rfl hall

/-! ## Numbering -/

theorem disjuncts_number (v : Value) (n : Nat) : (v.number n).1.disjuncts = (numberAll v.disjuncts n).1 := by
  cases v <;> rfl

theorem GrowsAll.number (h : GrowsAll vs ws) (n : Nat)
    (hnumber : ∀ v ∈ vs, ∀ w n, Becomes v w → Becomes v (w.number n).1) : GrowsAll vs (numberAll ws n).1 := by
  induction vs generalizing ws n with
  | nil => exact .more _
  | cons v vs ih =>
    cases h with
    | cons hv hvs =>
      exact .cons (hnumber v List.mem_cons_self _ n hv) (ih hvs _ fun u hu => hnumber u (List.mem_cons_of_mem _ hu))

theorem becomes_number_and_grows_number (v : Value) (hv : v.isNumbered = true) :
    (∀ w n, Becomes v w → Becomes v (w.number n).1) ∧ ∀ w n, Grows v w → Grows v (w.number n).1 := by
  induction v with
  | step v ih =>
    have hparts := (isNumbered_iff.mp hv).2
    have hpart : ∀ p ∈ v.parts, ∀ w n, Grows p w → Grows p (w.number n).1 := fun p hp =>
      (ih p hp (hparts p hp)).2
    have hbecomes : ∀ w n, Becomes v w → Becomes v (w.number n).1 := by
      intro w n h
      cases h with
      | same hmerged =>
        rw [number_of_isNumbered hv]
        exact .same hmerged
      | list h => exact .list (hpart _ (by simp [parts]) _ _ h)
      | set h => exact .set (hpart _ (by simp [parts]) _ _ h)
      | generator h => exact .generator (hpart _ (by simp [parts]) _ _ h)
      | dict hk hw => exact .dict (hpart _ (by simp [parts]) _ _ hk) (hpart _ (by simp [parts]) _ _ hw)
      | property hg hs hd =>
        exact .property (hpart _ (by simp [parts]) _ _ hg) (hpart _ (by simp [parts]) _ _ hs)
          (hpart _ (by simp [parts]) _ _ hd)
    refine ⟨hbecomes, ?_⟩
    rintro w n ⟨h⟩
    refine .intro ?_
    rw [disjuncts_number]
    refine h.number n fun d hd => ?_
    rcases eq_or_mem_parts hd with rfl | ⟨-, hd⟩
    · exact hbecomes
    · exact (ih d hd (hparts d hd)).1

/-- **Serial numbers take nothing back** from a value that had its own. -/
theorem Grows.number {w : Value} (h : Grows v w) (hv : v.isNumbered = true) (n : Nat) : Grows v (w.number n).1 :=
  (becomes_number_and_grows_number v hv).2 w n h

end Surmise.Value
