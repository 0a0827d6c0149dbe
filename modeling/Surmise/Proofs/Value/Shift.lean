import Surmise.Proofs.Value.Order

/-!
# Shifted serial numbers

Two evaluations of one expression take their serial numbers from different counts. The values they give
differ by a shift, which moves the numbers from some count on up by a fixed amount. Everything that is
done to values commutes with shifts, because numbers are only compared with each other.

* `keyAt_shift`: the key of a shifted value shows the shifted numbers.
* `shift_unite`: joins commute with shifts.
* `number_shift`: numbering a shifted value from a shifted count shifts the numbered value.
* `same_shift_iff`: when a value is known to be the same as its shift.
-/

namespace Surmise

/-- Moves the serial numbers from `start` on up by `amount`. -/
structure Shift where
  start : Nat
  amount : Nat

namespace Shift

variable (π : Shift)

def serial (k : Nat) : Nat := if k < π.start then k else k + π.amount

theorem serial_of_lt {k : Nat} (h : k < π.start) : π.serial k = k := if_pos h

theorem serial_of_le {k : Nat} (h : π.start ≤ k) : π.serial k = k + π.amount := if_neg (Nat.not_lt.mpr h)

theorem serial_injective : Function.Injective π.serial := by
  intro j k h
  unfold serial at h
  split at h <;> split at h <;> omega

def mark : Mark → Mark
  | .numbered k => .numbered (π.serial k)
  | other => other

theorem mark_injective : Function.Injective π.mark := by
  intro a b h
  cases a <;> cases b <;> simp_all [mark, π.serial_injective.eq_iff]

/-- A mark is moved only if it is a number from `start` on. -/
theorem mark_eq_self_iff {m : Mark} : π.mark m = m ↔ π.amount = 0 ∨ ∀ k, m = .numbered k → k < π.start := by
  cases m
  case numbered k =>
    simp only [mark, serial, Mark.numbered.injEq]
    split <;> grind
  all_goals simp [mark]

def slot : Slot → Slot
  | .other key => .other (key.map π.mark)
  | other => other

theorem slot_injective : Function.Injective π.slot := by
  intro a b h
  cases a <;> cases b <;> simp_all [slot, π.mark_injective.list_map.eq_iff]

end Shift

namespace Value

mutual

def shift (π : Shift) : Value → Value
  | .list e => .list (e.shift π)
  | .set e => .set (e.shift π)
  | .dict k v => .dict (k.shift π) (v.shift π)
  | .generator e => .generator (e.shift π)
  | .tuple serial items => .tuple (serial.map π.serial) (shiftAll π items)
  | .method serial receiver name => .method (serial.map π.serial) (receiver.shift π) name
  | .property serial g s d => .property (serial.map π.serial) (g.shift π) (s.shift π) (d.shift π)
  | .super serial bases => .super (serial.map π.serial) (shiftAll π bases)
  | .union alternatives => .union (shiftAll π alternatives)
  | other => other

def shiftAll (π : Shift) : List Value → List Value
  | [] => []
  | v :: rest => v.shift π :: shiftAll π rest

end

/-- A shift is applied to a value. -/
instance : CoeFun Shift fun _ => Value → Value := ⟨shift⟩

variable (π : Shift) {v : Value} {mark : Mark} {s : Slot} {n : Nat} {f : Value → Option Value}

@[simp] theorem shiftAll_eq_map (vs : List Value) : shiftAll π vs = vs.map (shift π) :=
  eq_map_of_cons rfl (fun _ _ => rfl) vs

/-- A value whose numbers are not moved is not changed. -/
theorem shift_of_serials (h : v.Serials fun k => π.serial k = k) : π v = v := by
  induction v with
  | step v ih =>
    obtain ⟨hserial, hparts⟩ := everywhere_iff.mp h
    have hpart : ∀ p ∈ v.parts, π p = p := fun p hp => ih p hp (hparts p hp)
    have hlist : ∀ vs : List Value, (∀ p ∈ vs, π p = p) → vs.map (shift π) = vs :=
      fun vs hvs => (List.map_congr_left hvs).trans (List.map_id vs)
    have hsame : ∀ serial : Option Nat, (∀ k ∈ serial, π.serial k = k) → serial.map π.serial = serial := by
      intro serial hk
      cases serial with
      | none => rfl
      | some k => rw [Option.map_some, hk k rfl]
    cases v
    case tuple serial items | super serial items =>
      rw [shift, shiftAll_eq_map, hlist items hpart, hsame serial hserial]
    case union alternatives => rw [shift, shiftAll_eq_map, hlist alternatives hpart]
    case method serial receiver name => rw [shift, hpart receiver (by simp [parts]), hsame serial hserial]
    case property serial g s d =>
      rw [shift, hpart g (by simp [parts]), hpart s (by simp [parts]), hpart d (by simp [parts]), hsame serial hserial]
    case dict k w => rw [shift, hpart k (by simp [parts]), hpart w (by simp [parts])]
    case list e | set e | generator e => rw [shift, hpart e (by simp [parts])]
    all_goals rfl

theorem shift_of_below (h : v.Below π.start) : π v = v :=
  shift_of_serials π (h.imp fun _ => π.serial_of_lt)

theorem shift_zero (v : Value) : v.shift ⟨0, 0⟩ = v := by
  apply shift_of_serials
  induction v with
  | step v ih => exact everywhere_iff.mpr ⟨fun k _ => Shift.serial_of_le _ (Nat.zero_le k), ih⟩

theorem shift_of_sound (h : v.Sound π.start) : π v = v := shift_of_below π h.below

/-! ## Keys -/

theorem map_mark_scalar (level : Nat) (h : π.mark mark = mark) :
    (mark.scalar level).map π.mark = mark.scalar level := by
  unfold Mark.scalar
  split
  · rfl
  · rw [List.map_singleton, h]

theorem map_mark_collection (level : Nat) (h : π.mark mark = mark) (parts : Key) :
    (mark.collection level parts).map π.mark = mark.collection level (parts.map π.mark) := by
  unfold Mark.collection
  split
  · rfl
  · rw [List.map_cons, h]

theorem contains_lost_map_mark (key : Key) : (key.map π.mark).contains .lost = key.contains .lost := by
  have hlost : π.mark .lost = .lost := rfl
  have hmem : Mark.lost ∈ key.map π.mark ↔ .lost ∈ key := by
    conv_lhs => rw [← hlost]
    exact List.mem_map_of_injective π.mark_injective
  simp only [List.contains_eq_mem, hmem]

theorem map_mark_serial (level : Nat) (serial : Option Nat) (h : π.mark mark = mark) (parts : Key) :
    (mark.serial level serial parts).map π.mark = mark.serial level (serial.map π.serial) (parts.map π.mark) := by
  unfold Mark.serial
  rw [contains_lost_map_mark]
  split
  · rw [List.map_cons, h]
  · cases serial with
    | none => exact map_mark_collection π level h parts
    | some k => rfl

theorem keysAt_map_shift {level : Nat} (vs : List Value)
    (h : ∀ v ∈ vs, (π v).keyAt level = (v.keyAt level).map π.mark) :
    keysAt level (vs.map (shift π)) = (keysAt level vs).map π.mark := by
  induction vs with
  | nil => rfl
  | cons v rest ih =>
    rw [List.map_cons, keysAt, keysAt, List.map_append, h v List.mem_cons_self,
      ih fun w hw => h w (List.mem_cons_of_mem v hw)]

/-- **The key of a shifted value shows the shifted numbers.** -/
theorem keyAt_shift (level : Nat) (v : Value) : (π v).keyAt level = (v.keyAt level).map π.mark := by
  induction v generalizing level with
  | step v ih =>
    cases v
    case list e | set e | generator e =>
      rw [shift, keyAt, keyAt, map_mark_collection π level rfl, ih e (by simp [parts])]
    case dict k w =>
      rw [shift, keyAt, keyAt, map_mark_collection π level rfl, List.map_append, ih k (by simp [parts]),
        ih w (by simp [parts])]
    case tuple serial items | super serial items =>
      rw [shift, keyAt, keyAt, shiftAll_eq_map, map_mark_serial π level serial rfl, List.length_map,
        keysAt_map_shift π items fun p hp => ih p hp (level + 1)]
    case method serial receiver name =>
      rw [shift, keyAt, keyAt, map_mark_serial π level serial rfl, ih receiver (by simp [parts])]
    case property serial g s d =>
      cases serial with
      | some k => rfl
      | none =>
        rw [shift, Option.map_none, keyAt, keyAt, List.map_cons, List.map_append, List.map_append,
          ih g (by simp [parts]), ih s (by simp [parts]), ih d (by simp [parts])]
        rfl
    case union alternatives =>
      rw [shift, keyAt, keyAt, shiftAll_eq_map, map_mark_collection π level rfl, List.length_map,
        keysAt_map_shift π alternatives fun p hp => ih p hp (level + 1)]
    case synthetic s =>
      cases s <;> simp only [shift, keyAt] <;> split <;> rfl
    case kwargs d => rfl
    case functionRef id | classRef id | instanceOf id | moduleRef id | packageRef id => rfl
    all_goals exact (map_mark_scalar π level rfl).symm

theorem key_shift (v : Value) : (π v).key = v.key.map π.mark := keyAt_shift π 0 v

theorem slot_shift (v : Value) : (π v).slot = π.slot v.slot := by
  cases v
  case list | set | dict | generator | property => rfl
  all_goals exact congrArg Slot.other (key_shift π _)

/-- A value is known to be the same as its shift unless its key shows a number that is moved, or a
collection that is lost. -/
theorem same_shift_iff (h : 0 < π.amount) :
    v.same (π v) = true ↔ .lost ∉ v.key ∧ ∀ k, .numbered k ∈ v.key → k < π.start := by
  have hkeys : v.key = v.key.map π.mark ↔ ∀ k, .numbered k ∈ v.key → k < π.start := by
    constructor
    · intro heq k hk
      have hself : ∀ m ∈ v.key, π.mark m = m :=
        List.map_inj_left.mp (heq.symm.trans (List.map_id v.key).symm)
      have hfixed := (π.mark_eq_self_iff.mp (hself _ hk)).resolve_left (Nat.ne_of_gt h)
      exact hfixed k rfl
    · intro hbelow
      refine ((List.map_congr_left fun m hm => ?_).trans (List.map_id _)).symm
      exact π.mark_eq_self_iff.mpr (.inr fun k hk => hbelow k (hk ▸ hm))
  rw [same, key_shift, Bool.and_eq_true, beq_iff_eq, hkeys, Bool.not_eq_true', ← Bool.not_eq_true,
    List.contains_iff_mem]
  exact And.comm

/-! ## Joins -/

@[simp] theorem shift_empty : π empty = empty := rfl

@[simp] theorem isEmpty_shift (v : Value) : (π v).isEmpty = v.isEmpty := by
  cases v
  case union alternatives => cases alternatives <;> rfl
  all_goals rfl

@[simp] theorem disjuncts_shift (v : Value) : (π v).disjuncts = v.disjuncts.map (shift π) := by
  cases v
  case union alternatives => exact shiftAll_eq_map π alternatives
  all_goals rfl

theorem flatten_map_shift (vs : List Value) : flatten (vs.map (shift π)) = (flatten vs).map (shift π) := by
  simp [flatten, List.flatMap_map, List.map_flatMap]

theorem shift_ofDisjuncts (vs : List Value) : π (ofDisjuncts vs) = ofDisjuncts (vs.map (shift π)) := by
  unfold ofDisjuncts
  match vs with
  | [] | [_] => rfl
  | _ :: _ :: _ => exact congrArg Value.union (shiftAll_eq_map π _)

theorem eraseDups_map {α β : Type} [DecidableEq α] [DecidableEq β] {f : α → β} (hf : Function.Injective f)
    (as : List α) : (as.map f).eraseDups = as.eraseDups.map f := by
  match as with
  | [] => rfl
  | a :: rest =>
    have hfilter : (rest.map f).filter (fun b => !b == f a) = (rest.filter fun b => !b == a).map f := by
      rw [List.filter_map]
      congr 2
      funext b
      simp [hf.eq_iff]
    rw [List.map_cons, List.eraseDups_cons, List.eraseDups_cons, List.map_cons, hfilter, eraseDups_map hf]
termination_by as.length
decreasing_by exact Nat.lt_succ_of_le (List.length_filter_le _ _)

theorem keptSlots_map_shift (flat : List Value) : keptSlots (flat.map (shift π)) = (keptSlots flat).map π.slot := by
  have hslots : (flat.map (shift π)).map slot = (flat.map slot).map π.slot := by
    rw [List.map_map, List.map_map]
    exact List.map_congr_left fun v _ => slot_shift π v
  rw [keptSlots, keptSlots, hslots, eraseDups_map π.slot_injective, List.map_take]

theorem atSlot_map_shift (s : Slot) (flat : List Value) :
    atSlot (π.slot s) (flat.map (shift π)) = (atSlot s flat).map (shift π) := by
  unfold atSlot
  rw [List.filter_map]
  congr 2
  funext v
  simp [slot_shift, π.slot_injective.eq_iff]

theorem getter_shift (hf : f ∈ partGetters s) (v : Value) : f (π v) = (f v).map (shift π) := by
  cases s <;> simp only [partGetters, List.mem_cons, List.not_mem_nil, or_false] at hf
  case dict => rcases hf with rfl | rfl <;> cases v <;> rfl
  case property => rcases hf with rfl | rfl | rfl <;> cases v <;> rfl
  all_goals
    subst hf
    cases v <;> rfl

theorem filterMap_getter_shift (hf : f ∈ partGetters s) (ms : List Value) :
    (ms.map (shift π)).filterMap f = (ms.filterMap f).map (shift π) := by
  rw [List.filterMap_map, List.map_filterMap]
  exact List.filterMap_congr fun v _ => getter_shift π hf v

theorem mergeGroup_shift {ms : List Value}
    (h : ∀ f ∈ partGetters s, π (unite (ms.filterMap f)) = unite ((ms.filterMap f).map (shift π))) :
    π (mergeGroup unite (s, ms)) = mergeGroup unite (π.slot s, ms.map (shift π)) := by
  have hparts : ∀ f ∈ partGetters s, π (unite (ms.filterMap f)) = unite ((ms.map (shift π)).filterMap f) :=
    fun f hf => (h f hf).trans (congrArg unite (filterMap_getter_shift π hf ms).symm)
  cases s <;> simp only [partGetters, List.forall_mem_cons] at hparts
  case other key => cases ms <;> rfl
  case dict =>
    obtain ⟨hkey, hvalue, -⟩ := hparts
    simp only [Shift.slot, mergeGroup, shift, hkey, hvalue]
  case property =>
    obtain ⟨hgetter, hsetter, hdeleter, -⟩ := hparts
    simp only [Shift.slot, mergeGroup, shift, hgetter, hsetter, hdeleter, Option.map_none]
  all_goals simp only [Shift.slot, mergeGroup, shift, hparts.1]

/-- **Joins commute with shifts.** -/
@[simp] theorem shift_unite (vs : List Value) : π (unite vs) = unite (vs.map (shift π)) := by
  induction vs using unite_induction with
  | step vs ih =>
    rw [unite_eq, unite_eq, shift_ofDisjuncts, merged_eq, merged_eq, flatten_map_shift, keptSlots_map_shift,
      List.map_map, List.map_map]
    congr 1
    refine List.map_congr_left fun s hs => ?_
    have hgroup := isGroup_atSlot (mem_slots_of_mem_keptSlots hs)
    simp only [Function.comp_apply, atSlot_map_shift]
    exact mergeGroup_shift π fun f hf =>
      ih _ (filterMap_getter_ne_nil hf hgroup) (exists_of_mem_filterMap_getter hf hgroup.subset)

/-! ## Cutting and widening -/

@[simp] theorem isCollection_shift (v : Value) : (π v).isCollection = v.isCollection := by
  cases v <;> rfl

theorem depthAll_map_shift (vs : List Value) (h : ∀ v ∈ vs, (π v).depth = v.depth) :
    depthAll (vs.map (shift π)) = depthAll vs := by
  induction vs with
  | nil => rfl
  | cons v rest ih =>
    rw [List.map_cons, depthAll, depthAll, h v List.mem_cons_self, ih fun w hw => h w (List.mem_cons_of_mem v hw)]

theorem depth_shift (v : Value) : (π v).depth = v.depth := by
  induction v with
  | step v ih =>
    cases v
    case list e | set e | generator e => rw [shift, depth, depth, ih e (by simp [parts])]
    case dict k w => rw [shift, depth, depth, ih k (by simp [parts]), ih w (by simp [parts])]
    case tuple serial items => rw [shift, depth, depth, shiftAll_eq_map, depthAll_map_shift π items ih]
    case union alternatives => rw [shift, depth, depth, shiftAll_eq_map, depthAll_map_shift π alternatives ih]
    all_goals rfl

theorem shift_truncate (limit : Nat) (v : Value) : π (v.truncate limit) = (π v).truncate limit := by
  induction v generalizing limit with
  | step v ih =>
    cases limit with
    | zero =>
      have hfilter : (v.disjuncts.map (shift π)).filter (fun d => !d.isCollection) =
          (v.disjuncts.filter fun d => !d.isCollection).map (shift π) := by
        rw [List.filter_map]
        congr 2
        funext d
        simp
      rw [truncate_zero, truncate_zero, shift_unite, disjuncts_shift, hfilter]
    | succ limit =>
      have hlist : ∀ (vs : List Value) (n : Nat), (∀ p ∈ vs, p ∈ v.parts) →
          (vs.map (truncate n)).map (shift π) = (vs.map (shift π)).map (truncate n) := by
        intro vs n hvs
        rw [List.map_map, List.map_map]
        exact List.map_congr_left fun p hp => ih p (hvs p hp) n
      cases v
      case list e | set e | generator e => rw [truncate, shift, shift, truncate, ih e (by simp [parts])]
      case dict k w =>
        rw [truncate, shift, shift, truncate, ih k (by simp [parts]), ih w (by simp [parts])]
      case tuple serial items =>
        simp only [truncate, shift, shiftAll_eq_map, truncateAll_eq_map, Option.map_none,
          hlist items limit fun _ hp => hp]
      case union alternatives =>
        simp only [truncate, shift, shift_unite, shiftAll_eq_map, truncateAll_eq_map,
          hlist alternatives (limit + 1) fun _ hp => hp]
      all_goals rfl

@[simp] theorem shift_clamp (v : Value) : π v.clamp = (π v).clamp := by
  rw [clamp, clamp, depth_shift]
  split
  · exact shift_truncate π _ v
  · rfl

@[simp] theorem shift_listOf (e : Value) : π (listOf e) = listOf (π e) := by
  simp [listOf, shift]

@[simp] theorem shift_setOf (e : Value) : π (setOf e) = setOf (π e) := by
  simp [setOf, shift]

@[simp] theorem shift_generatorOf (e : Value) : π (generatorOf e) = generatorOf (π e) := by
  simp [generatorOf, shift]

@[simp] theorem shift_dictOf (k v : Value) : π (dictOf k v) = dictOf (π k) (π v) := by
  simp [dictOf, shift]

@[simp] theorem shift_tupleOf (items : List Value) : π (tupleOf items) = tupleOf (items.map (shift π)) := by
  simp [tupleOf, shift, Function.comp_def]

@[simp] theorem shift_superOf (bases : List Value) : π (superOf bases) = superOf (bases.map (shift π)) := by
  simp [superOf, shift]

@[simp] theorem shift_propertyOf (g s d : Value) : π (propertyOf g s d) = propertyOf (π g) (π s) (π d) := rfl

@[simp] theorem shift_widen (v : Value) : π v.widen = (π v).widen := by
  induction v with
  | step v ih =>
    have hlist : ∀ vs : List Value, (∀ p ∈ vs, p ∈ v.parts) →
        (vs.map widen).map (shift π) = (vs.map (shift π)).map widen := by
      intro vs hvs
      rw [List.map_map, List.map_map]
      exact List.map_congr_left fun p hp => ih p (hvs p hp)
    cases v
    case bool constant | int constant | str constant => cases constant <;> rfl
    case tuple serial items =>
      simp only [widen, shift, shift_tupleOf, shiftAll_eq_map, widenAll_eq_map, hlist items fun _ hp => hp]
    case union alternatives =>
      simp only [widen, shift, shift_unite, shiftAll_eq_map, widenAll_eq_map, hlist alternatives fun _ hp => hp]
    all_goals rfl

/-! ## Numbering -/

theorem keepSerial_shift (serial : Option Nat) (h : π.start ≤ n) : keepSerial (serial.map π.serial) (n + π.amount) =
      ((keepSerial serial n).1.map π.serial, (keepSerial serial n).2 + π.amount) := by
  cases serial with
  | some k => rfl
  | none =>
    show (some (n + π.amount), n + π.amount + 1) = (some (π.serial n), n + 1 + π.amount)
    rw [π.serial_of_le h, Nat.add_right_comm]

theorem numberAll_map_shift (vs : List Value) (h : π.start ≤ n)
    (hvs : ∀ v ∈ vs, ∀ m, π.start ≤ m → (π v).number (m + π.amount) = (π (v.number m).1, (v.number m).2 + π.amount)) :
    numberAll (vs.map (shift π)) (n + π.amount) =
      ((numberAll vs n).1.map (shift π), (numberAll vs n).2 + π.amount) := by
  induction vs generalizing n with
  | nil => rfl
  | cons v rest ih =>
    have hrest := ih (Nat.le_trans h (le_number v n)) fun w hw => hvs w (List.mem_cons_of_mem v hw)
    rw [List.map_cons, numberAll_cons, numberAll_cons, hvs v List.mem_cons_self n h, hrest]
    rfl

/-- **Numbering a shifted value from a shifted count shifts the numbered value.** -/
theorem number_shift (v : Value) (h : π.start ≤ n) :
    (π v).number (n + π.amount) = (π (v.number n).1, (v.number n).2 + π.amount) := by
  induction v generalizing n with
  | step v ih =>
    cases v
    case list e | set e | generator e =>
      simp only [shift, number_list, number_set, number_generator, ih e (by simp [parts]) h]
    case dict k w =>
      have hk := Nat.le_trans h (le_number k n)
      simp only [shift, number_dict, ih k (by simp [parts]) h, ih w (by simp [parts]) hk]
    case tuple serial items | super serial items =>
      have hitems := Nat.le_trans h (le_numberAll (fun p (_ : p ∈ items) => le_number p) n)
      simp only [shift, shiftAll_eq_map, number_tuple, number_super,
        numberAll_map_shift π items h fun p hp _ hm => ih p hp hm, keepSerial_shift π serial hitems]
    case method serial receiver name =>
      have hreceiver := Nat.le_trans h (le_number receiver n)
      simp only [shift, number_method, ih receiver (by simp [parts]) h, keepSerial_shift π serial hreceiver]
    case property serial g s d =>
      have hg := Nat.le_trans h (le_number g n)
      have hs := Nat.le_trans hg (le_number s _)
      have hd := Nat.le_trans hs (le_number d _)
      simp only [shift, number_property, ih g (by simp [parts]) h, ih s (by simp [parts]) hg,
        ih d (by simp [parts]) hs, keepSerial_shift π serial hd]
    case union alternatives =>
      simp only [shift, shiftAll_eq_map, number_union, numberAll_map_shift π alternatives h fun p hp _ hm => ih p hp hm]
    all_goals rfl

/-! ## Values above their shifts -/

/-- The mark is not a number from `n` on. -/
def isOldMark (n : Nat) : Mark → Bool
  | .numbered k => k < n
  | _ => true

mutual

/--
The value shows no serial number from `n` on, other than numbers of properties that joins merge: the key of
every alternative that is not merged shows none, at the top and in what is merged.
-/
def steady (n : Nat) : Value → Bool
  | .list e => e.steady n
  | .set e => e.steady n
  | .dict k v => k.steady n && v.steady n
  | .generator e => e.steady n
  | .property _ g s d => g.steady n && s.steady n && d.steady n
  | .union alternatives => steadyAll n alternatives
  | v => v.key.all (isOldMark n)

def steadyAll (n : Nat) : List Value → Bool
  | [] => true
  | v :: rest => v.steady n && steadyAll n rest

end

theorem steadyAll_iff {vs : List Value} : steadyAll n vs = true ↔ ∀ v ∈ vs, v.steady n = true := by
  induction vs with
  | nil => simp [steadyAll]
  | cons v rest ih => simp [steadyAll, ih]

theorem key_shift_of_isOld (h : v.key.all (isOldMark π.start) = true) : (π v).key = v.key := by
  rw [key_shift]
  refine (List.map_congr_left fun m hm => ?_).trans (List.map_id v.key)
  refine π.mark_eq_self_iff.mpr (.inr fun k hk => ?_)
  simpa [hk, isOldMark] using List.all_eq_true.mp h m hm

/-- **A steady value is above its shifts**, so joining them adds nothing. -/
theorem shift_le_of_steady (hv : v.WellFormed) (h : v.steady π.start = true) : π v ≤ v := by
  -- the alternatives of a union are no unions, and one that is none stands for its shift
  have hboth : π v ≤ v ∧ (v.isUnion = false → Fits (π v) v) := by
    induction v with
    | step v ih =>
      have hpart : ∀ p ∈ v.parts, p.steady π.start = true → π p ≤ p := fun p hp hsteady =>
        (ih p hp (hv.of_mem_parts hp) hsteady).1
      have hfits : v.isUnion = false → Fits (π v) v := by
        intro hu
        cases v
        case union alternatives => cases hu
        case list e => exact .list (hpart e (by simp [parts]) h)
        case set e => exact .set (hpart e (by simp [parts]) h)
        case generator e => exact .generator (hpart e (by simp [parts]) h)
        case dict k w =>
          obtain ⟨hk, hw⟩ := Bool.and_eq_true_iff.mp h
          exact .dict (hpart k (by simp [parts]) hk) (hpart w (by simp [parts]) hw)
        case property serial g s d =>
          obtain ⟨hgs, hd⟩ := Bool.and_eq_true_iff.mp h
          obtain ⟨hg, hs⟩ := Bool.and_eq_true_iff.mp hgs
          exact .property (hpart g (by simp [parts]) hg) (hpart s (by simp [parts]) hs) (hpart d (by simp [parts]) hd)
        all_goals exact .same rfl rfl (key_shift_of_isOld π h)
      refine ⟨le_def.mpr fun a ha => ?_, hfits⟩
      rw [disjuncts_shift] at ha
      obtain ⟨b, hb, rfl⟩ := List.mem_map.mp ha
      refine ⟨b, hb, ?_⟩
      cases v
      case union alternatives =>
        exact (ih b hb (hv.of_mem_parts hb) (steadyAll_iff.mp h b hb)).2 (hv.alternatives.flat b hb)
      all_goals
        obtain rfl := List.mem_singleton.mp hb
        exact hfits rfl
  exact hboth.1

/-- What holds a steady value already is not changed by a shift of it. -/
theorem unite_shift_of_steady {x held : Value} (hx : x.WellFormed) (hv : v.WellFormed) (hheld : held.WellFormed)
    (hsteady : v.steady π.start = true) (h : held.byParts = unite [x, v]) : unite [held, π v] = unite [x, v] :=
  calc unite [held, π v]
    _ = unite [held.byParts, π v] := (unite_byParts_cons hheld _).symm
    _ = unite ([unite [x, v]] ++ [π v]) := by rw [h]; rfl
    _ = unite ([x, v] ++ [π v]) := (unite_append [x, v] _ (by simpa using ⟨hx, hv⟩)).symm
    _ = unite [x, v] := unite_append_of_le fun y hy =>
      ⟨v, by simp, List.mem_singleton.mp hy ▸ shift_le_of_steady π hv hsteady⟩

end Value

end Surmise
