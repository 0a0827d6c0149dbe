import Surmise.Proofs.Value.WellFormed

/-!
# Serial numbers of values

A value that is kept gets serial numbers from a counter. The numbers of a kept value are below the counter,
and numbering a well-formed value leaves it well formed: a fresh number can make two keys differ, but it
never makes two keys equal that were not.

* `Value.Below`, `Value.Sound`: the serial numbers in a value are below a bound; the value is also well
  formed.
* `sound_number`: numbering keeps a value sound.
* `keyAt_number`: where no fresh number shows in the key of a numbered value, the key is the old one.
-/

namespace Surmise.Value

open Value

variable {Q : Nat → Prop} {p v : Value} {k level m n : Nat} {vs : List Value} {serial : Option Nat}
    {mark x : Mark} {new old parts : Key}

/-! ## The serial numbers in a value -/

def serial? : Value → Option Nat
  | .tuple serial _ | .method serial .. | .property serial .. | .super serial _ => serial
  | _ => none

/-- All serial numbers in the value satisfy `Q`. -/
def Serials (Q : Nat → Prop) : Value → Prop :=
  Everywhere fun v => ∀ k ∈ v.serial?, Q k

def Below (n : Nat) : Value → Prop :=
  Serials (· < n)

theorem serials_plain (v : Value) (h : v.isPlain = true) : ∀ k ∈ v.serial?, Q k := by
  cases v <;> simp_all [isPlain, serial?]

theorem Serials.imp {R : Nat → Prop} (hQR : ∀ k, Q k → R k) (h : v.Serials Q) : v.Serials R :=
  Everywhere.imp (fun _ hv k hk => hQR k (hv k hk)) h

theorem Below.mono (hmn : m ≤ n) (h : v.Below m) : v.Below n :=
  Serials.imp (fun _ hk => Nat.lt_of_lt_of_le hk hmn) h

/-- A value that is kept, or is made from values that are kept, while the counter is at `n`. -/
structure Sound (n : Nat) (v : Value) : Prop where
  wellFormed : v.WellFormed
  below : v.Below n

theorem Formed.sound (h : v.Formed fun v => ∀ k ∈ v.serial?, k < n) : v.Sound n :=
  ⟨h.wellFormed, h.everywhere⟩

theorem Sound.formed (h : v.Sound n) : v.Formed fun v => ∀ k ∈ v.serial?, k < n :=
  ⟨h.wellFormed, h.below⟩

theorem Sound.mono (hmn : m ≤ n) (h : v.Sound m) : v.Sound n :=
  ⟨h.wellFormed, h.below.mono hmn⟩

theorem Sound.of_mem_parts (h : v.Sound n) (hp : p ∈ v.parts) : p.Sound n :=
  ⟨h.wellFormed.of_mem_parts hp, h.below.part hp⟩

theorem Sound.of_mem_disjuncts {d : Value} (h : v.Sound n) (hd : d ∈ v.disjuncts) : d.Sound n :=
  ⟨h.wellFormed.of_mem_disjuncts hd, Everywhere.of_mem_disjuncts h.below hd⟩

section Operations

variable {n : Nat} {e : Value}

@[simp] theorem sound_unite {vs : List Value} (h : ∀ v ∈ vs, v.Sound n) : (unite vs).Sound n :=
  (formed_unite serials_plain fun v hv => (h v hv).formed).sound

@[simp] theorem sound_widen {v : Value} (h : v.Sound n) : v.widen.Sound n :=
  (formed_widen serials_plain h.formed).sound

theorem sound_of_isAtom {v : Value} (h : v.isAtom = true) : v.Sound n := by
  refine (formed_of_isAtom h ?_).sound
  cases v <;> simp_all [isAtom, serial?]

@[simp] theorem sound_atom : null.Sound n ∧ float.Sound n ∧ complex.Sound n ∧ bytes.Sound n ∧ object.Sound n ∧
    (int none).Sound n ∧ (∀ c, (bool c).Sound n) ∧ (∀ c, (str c).Sound n) ∧
    (∀ d, (kwargs d).Sound n) ∧ (∀ b, (builtin b).Sound n) ∧ (∀ path, (external path).Sound n) ∧
    (∀ path, (externalInstance path).Sound n) ∧ (∀ f, (functionRef f).Sound n) ∧
    (∀ c, (classRef c).Sound n) ∧ (∀ c, (instanceOf c).Sound n) ∧ (∀ m, (moduleRef m).Sound n) ∧
    (∀ p, (packageRef p).Sound n) ∧ (∀ t, (synthetic t).Sound n) := by
  and_intros <;> intros <;> exact sound_of_isAtom rfl

@[simp] theorem sound_empty : empty.Sound n :=
  (formed_empty serials_plain).sound

@[simp] theorem sound_ofInt (i : Int) : (ofInt i).Sound n :=
  (formed_ofInt serials_plain i).sound

@[simp] theorem sound_listOf (h : e.Sound n) : (listOf e).Sound n :=
  (formed_listOf serials_plain h.formed).sound

@[simp] theorem sound_setOf (h : e.Sound n) : (setOf e).Sound n :=
  (formed_setOf serials_plain h.formed).sound

@[simp] theorem sound_generatorOf (h : e.Sound n) : (generatorOf e).Sound n :=
  (formed_generatorOf serials_plain h.formed).sound

@[simp] theorem sound_dictOf {k v : Value} (hk : k.Sound n) (hv : v.Sound n) : (dictOf k v).Sound n :=
  (formed_dictOf serials_plain hk.formed hv.formed).sound

@[simp] theorem sound_tupleOf {items : List Value} (h : ∀ v ∈ items, v.Sound n) : (tupleOf items).Sound n :=
  (formed_tupleOf serials_plain fun v hv => (h v hv).formed).sound

@[simp] theorem sound_methodOf {receiver : Value} {name : String} (h : receiver.Sound n) :
    (methodOf receiver name).Sound n :=
  (formed_methodOf serials_plain h.formed).sound

@[simp] theorem sound_propertyOf {g s d : Value} (hg : g.Sound n) (hs : s.Sound n) (hd : d.Sound n) :
    (propertyOf g s d).Sound n :=
  (formed_propertyOf serials_plain hg.formed hs.formed hd.formed).sound

@[simp] theorem sound_superOf {bases : List Value} (h : ∀ b ∈ bases, b.Sound n) : (superOf bases).Sound n :=
  (formed_superOf serials_plain fun b hb => (h b hb).formed).sound

theorem sound_ite {c : Prop} [Decidable c] {v w : Value} (hv : v.Sound n) (hw : w.Sound n) :
    (if c then v else w).Sound n := by
  split <;> assumption

theorem sound_getD {o : Option Value} {v : Value} (h : ∀ w, o = some w → w.Sound n) (hv : v.Sound n) :
    (o.getD v).Sound n := by
  cases o with
  | none => exact hv
  | some w => exact h w rfl

end Operations

/-! ## Numbering

`numberAll` threads the counter through a list, so each member is numbered from some later count.
-/

theorem le_keepSerial (serial : Option Nat) (n : Nat) : n ≤ (keepSerial serial n).2 := by
  cases serial with
  | none => exact Nat.le_succ n
  | some k => exact Nat.le_refl n

theorem numberAll_cons (v : Value) (rest : List Value) (n : Nat) : numberAll (v :: rest) n =
      ((v.number n).1 :: (numberAll rest (v.number n).2).1, (numberAll rest (v.number n).2).2) := rfl

theorem number_list (e : Value) (n : Nat) : (list e).number n = (.list (e.number n).1, (e.number n).2) := rfl

theorem number_set (e : Value) (n : Nat) : (set e).number n = (.set (e.number n).1, (e.number n).2) := rfl

theorem number_generator (e : Value) (n : Nat) :
    (generator e).number n = (.generator (e.number n).1, (e.number n).2) := rfl

theorem number_dict (k v : Value) (n : Nat) : (dict k v).number n =
      (.dict (k.number n).1 (v.number (k.number n).2).1, (v.number (k.number n).2).2) := rfl

theorem number_tuple (serial : Option Nat) (items : List Value) (n : Nat) : (tuple serial items).number n =
      (.tuple (keepSerial serial (numberAll items n).2).1 (numberAll items n).1,
        (keepSerial serial (numberAll items n).2).2) := rfl

theorem number_method (serial : Option Nat) (receiver : Value) (name : String) (n : Nat) :
    (method serial receiver name).number n =
      (.method (keepSerial serial (receiver.number n).2).1 (receiver.number n).1 name,
        (keepSerial serial (receiver.number n).2).2) := rfl

theorem number_property (serial : Option Nat) (g s d : Value) (n : Nat) : (property serial g s d).number n =
      (.property (keepSerial serial (d.number (s.number (g.number n).2).2).2).1 (g.number n).1
          (s.number (g.number n).2).1 (d.number (s.number (g.number n).2).2).1,
        (keepSerial serial (d.number (s.number (g.number n).2).2).2).2) := rfl

theorem number_super (serial : Option Nat) (bases : List Value) (n : Nat) : (super serial bases).number n =
      (.super (keepSerial serial (numberAll bases n).2).1 (numberAll bases n).1,
        (keepSerial serial (numberAll bases n).2).2) := rfl

theorem number_union (alternatives : List Value) (n : Nat) : (union alternatives).number n =
      (.union (numberAll alternatives n).1, (numberAll alternatives n).2) := rfl

theorem le_numberAll (h : ∀ v ∈ vs, ∀ n, n ≤ (v.number n).2) (n : Nat) : n ≤ (numberAll vs n).2 := by
  induction vs generalizing n with
  | nil => exact Nat.le_refl n
  | cons v rest ih =>
    rw [numberAll_cons]
    exact Nat.le_trans (h v List.mem_cons_self n) (ih (fun w hw => h w (List.mem_cons_of_mem _ hw)) _)

def needsSerial : Value → Bool
  | .tuple .. | .method .. | .property .. | .super .. => true
  | _ => false

/-- Numbering numbers the parts one after another. -/
theorem parts_number (v : Value) (n : Nat) : (v.number n).1.parts = (numberAll v.parts n).1 := by
  cases v <;> rfl

/-- After its parts, the value itself takes a number if it needs one. -/
theorem serial?_number (v : Value) (n : Nat) : (v.number n).1.serial? =
    if v.needsSerial then (keepSerial v.serial? (numberAll v.parts n).2).1 else none := by
  cases v <;> rfl

theorem count_number (v : Value) (n : Nat) : (v.number n).2 =
    if v.needsSerial then (keepSerial v.serial? (numberAll v.parts n).2).2 else (numberAll v.parts n).2 := by
  cases v <;> rfl

theorem numberAll_parts_le (v : Value) (n : Nat) : (numberAll v.parts n).2 ≤ (v.number n).2 := by
  rw [count_number]
  split
  · exact le_keepSerial v.serial? _
  · exact Nat.le_refl _

/-- Numbering only raises the counter. -/
theorem le_number (v : Value) (n : Nat) : n ≤ (v.number n).2 := by
  induction v generalizing n with
  | step v ih => exact Nat.le_trans (le_numberAll ih n) (numberAll_parts_le v n)

theorem mem_numberAll (h : p ∈ (numberAll vs n).1) :
    ∃ v ∈ vs, ∃ m, n ≤ m ∧ (v.number m).2 ≤ (numberAll vs n).2 ∧ p = (v.number m).1 := by
  induction vs generalizing n with
  | nil => cases h
  | cons v rest ih =>
    rw [numberAll_cons] at h ⊢
    rcases List.mem_cons.mp h with rfl | h
    · exact ⟨v, List.mem_cons_self, n, Nat.le_refl n, le_numberAll (fun w _ => le_number w) _, rfl⟩
    · obtain ⟨w, hw, m, hm, hnext, rfl⟩ := ih h
      exact ⟨w, List.mem_cons_of_mem _ hw, m, Nat.le_trans (le_number v n) hm, hnext, rfl⟩

/-- The parts of a numbered value are numbered parts of the value. -/
theorem mem_parts_number (h : p ∈ (v.number n).1.parts) :
    ∃ w ∈ v.parts, ∃ m, n ≤ m ∧ (w.number m).2 ≤ (v.number n).2 ∧ p = (w.number m).1 := by
  rw [parts_number] at h
  obtain ⟨w, hw, m, hm, hnext, rfl⟩ := mem_numberAll h
  exact ⟨w, hw, m, hm, Nat.le_trans hnext (numberAll_parts_le v n), rfl⟩

theorem mem_keepSerial (hmn : m ≤ n) (h : k ∈ (keepSerial serial n).1) :
    k ∈ serial ∨ m ≤ k ∧ k < (keepSerial serial n).2 := by
  cases serial with
  | none =>
    obtain rfl : n = k := Option.some.inj h
    exact .inr ⟨hmn, Nat.lt_succ_self n⟩
  | some j => exact .inl h

theorem mem_serial?_number (h : k ∈ (v.number n).1.serial?) : k ∈ v.serial? ∨ n ≤ k ∧ k < (v.number n).2 := by
  rw [serial?_number] at h
  rw [count_number]
  split at h
  · next hneeds =>
    rw [if_pos hneeds]
    exact mem_keepSerial (le_numberAll (fun w _ => le_number w) n) h
  · cases h

/-- A numbered value has its old numbers and fresh ones. -/
theorem serials_number (h : v.Serials Q) (n : Nat) :
    (v.number n).1.Serials fun k => Q k ∨ n ≤ k ∧ k < (v.number n).2 := by
  induction v generalizing n with
  | step v ih =>
    refine everywhere_iff.mpr ⟨fun k hk => ?_, fun p hp => ?_⟩
    · exact (mem_serial?_number hk).imp_left (h.here k)
    · obtain ⟨w, hw, m, hm, hnext, rfl⟩ := mem_parts_number hp
      refine Serials.imp (fun k hk => ?_) (ih w hw (h.part hw) m)
      exact hk.imp_right fun ⟨hmk, hk⟩ => ⟨Nat.le_trans hm hmk, Nat.lt_of_lt_of_le hk hnext⟩

theorem below_number (h : v.Below n) : (v.number n).1.Below (v.number n).2 :=
  Serials.imp (fun _ hk => hk.elim (fun hk => Nat.lt_of_lt_of_le hk (le_number v n)) And.right) (serials_number h n)

/-! ### Values that are numbered already -/

theorem areNumbered_iff : areNumbered vs = true ↔ ∀ v ∈ vs, v.isNumbered = true := by
  induction vs with
  | nil => simp [areNumbered]
  | cons v rest ih => simp [areNumbered, ih]

theorem isNumbered_iff : v.isNumbered = true ↔
      (v.needsSerial = true → v.serial?.isSome = true) ∧ ∀ p ∈ v.parts, p.isNumbered = true := by
  cases v <;> simp [isNumbered, needsSerial, serial?, parts, areNumbered_iff, and_assoc]

theorem isNumbered_of_mem_disjuncts {d : Value} (h : v.isNumbered = true) (hd : d ∈ v.disjuncts) :
    d.isNumbered = true := by
  rcases eq_or_mem_parts hd with rfl | ⟨-, hd⟩
  · exact h
  · exact (isNumbered_iff.mp h).2 d hd

theorem isSome_keepSerial (serial : Option Nat) (n : Nat) : (keepSerial serial n).1.isSome = true := by
  cases serial <;> rfl

theorem needsSerial_number (v : Value) (n : Nat) : (v.number n).1.needsSerial = v.needsSerial := by
  cases v <;> rfl

theorem isNumbered_number (v : Value) (n : Nat) : (v.number n).1.isNumbered = true := by
  induction v generalizing n with
  | step v ih =>
    refine isNumbered_iff.mpr ⟨fun h => ?_, fun p hp => ?_⟩
    · rw [needsSerial_number] at h
      rw [serial?_number, if_pos h]
      exact isSome_keepSerial v.serial? _
    · obtain ⟨w, hw, m, -, -, rfl⟩ := mem_parts_number hp
      exact ih w hw m

theorem keepSerial_of_isSome (h : serial.isSome = true) (n : Nat) : keepSerial serial n = (serial, n) := by
  obtain ⟨k, rfl⟩ := Option.isSome_iff_exists.mp h
  rfl

theorem numberAll_of_fixed (h : ∀ v ∈ vs, v.number n = (v, n)) : numberAll vs n = (vs, n) := by
  induction vs with
  | nil => rfl
  | cons v rest ih =>
    rw [numberAll_cons, h v List.mem_cons_self, ih fun w hw => h w (List.mem_cons_of_mem _ hw)]

/-- A numbered value stays as it is. -/
theorem number_of_isNumbered (h : v.isNumbered = true) (n : Nat) : v.number n = (v, n) := by
  induction v with
  | step v ih =>
    obtain ⟨hserial, hparts⟩ := isNumbered_iff.mp h
    have part := fun p hp => ih p hp (hparts p hp)
    have hkeep : v.needsSerial = true → keepSerial v.serial? n = (v.serial?, n) := fun h =>
      keepSerial_of_isSome (hserial h) n
    cases v
    case list e | set e | generator e =>
      simp only [number_list, number_set, number_generator, part e (by simp [parts])]
    case dict k w => simp only [number_dict, part k (by simp [parts]), part w (by simp [parts])]
    case tuple serial items | super serial items =>
      have hitems : numberAll items n = (items, n) := numberAll_of_fixed part
      rw [serial?] at hkeep
      simp only [number_tuple, number_super, hitems, hkeep rfl]
    case method serial receiver name =>
      rw [serial?] at hkeep
      simp only [number_method, part receiver (by simp [parts]), hkeep rfl]
    case property serial g s d =>
      rw [serial?] at hkeep
      simp only [number_property, part g (by simp [parts]), part s (by simp [parts]), part d (by simp [parts]),
        hkeep rfl]
    case union alternatives =>
      have halts : numberAll alternatives n = (alternatives, n) := numberAll_of_fixed part
      rw [number_union, halts]
    all_goals rfl

theorem depthAll_numberAll (h : ∀ v ∈ vs, ∀ n, (v.number n).1.depth = v.depth) (n : Nat) :
    depthAll (numberAll vs n).1 = depthAll vs := by
  induction vs generalizing n with
  | nil => rfl
  | cons v rest ih =>
    rw [numberAll_cons, depthAll, depthAll, h v List.mem_cons_self, ih fun w hw => h w (List.mem_cons_of_mem _ hw)]

theorem depth_number (v : Value) (n : Nat) : (v.number n).1.depth = v.depth := by
  induction v generalizing n with
  | step v ih =>
    cases v
    case list e | set e | generator e => exact congrArg (· + 1) (ih e (by simp [parts]) n)
    case dict k w =>
      exact congrArg (· + 1) (congrArg₂ max (ih k (by simp [parts]) n) (ih w (by simp [parts]) _))
    case tuple serial items => exact congrArg (· + 1) (depthAll_numberAll ih n)
    case union alternatives => exact depthAll_numberAll ih n
    all_goals rfl

/-! ## Keys of numbered values -/

theorem mem_scalar (h : x ∈ mark.scalar level) : x = .deep ∨ x = mark := by
  unfold Mark.scalar at h
  split at h <;> simp_all

theorem mem_collection (h : x ∈ mark.collection level parts) : x = .lost ∨ x = mark ∨ x ∈ parts := by
  unfold Mark.collection at h
  split at h <;> simp_all

theorem mem_serial (h : x ∈ mark.serial level serial parts) :
    x = .lost ∨ x = mark ∨ x ∈ parts ∨ ∃ k ∈ serial, x = .numbered k := by
  unfold Mark.serial at h
  split at h
  · exact .inr ((List.mem_cons.mp h).imp_right .inl)
  · split at h
    · exact .inr (.inr (.inr ⟨_, rfl, List.mem_singleton.mp h⟩))
    · rcases mem_collection h with h | h | h
      · exact .inl h
      · exact .inr (.inl h)
      · exact .inr (.inr (.inl h))

theorem mem_keysAt : x ∈ keysAt level vs ↔ ∃ v ∈ vs, x ∈ v.keyAt level := by
  induction vs with
  | nil => simp [keysAt]
  | cons v rest ih => simp [keysAt, ih]

/-- A serial number in the key of a value is that of the value, or in the key of a part. -/
theorem numbered_mem_keyAt (hk : .numbered k ∈ v.keyAt level) :
    k ∈ v.serial? ∨ ∃ p ∈ v.parts, .numbered k ∈ p.keyAt (level + 1) := by
  rw [← mem_keysAt]
  cases v
  case list | set | generator | dict | union =>
    rw [keyAt] at hk
    have hk := mem_collection hk
    simp only [reduceCtorEq, false_or] at hk
    exact .inr (by simpa [parts, keysAt] using hk)
  case tuple serial items | super serial items | method serial receiver name =>
    rw [keyAt] at hk
    have hk := mem_serial hk
    simp only [reduceCtorEq, false_or] at hk
    rcases hk with hk | ⟨j, hj, hk⟩
    · exact .inr (by simpa [parts, keysAt] using hk)
    · cases hk
      exact .inl hj
  case property serial g s d => cases serial <;> simp_all [keyAt, serial?, parts, keysAt]
  case synthetic t => cases t <;> rw [keyAt] at hk <;> split at hk <;> simp at hk
  case kwargs | functionRef | classRef | instanceOf | moduleRef | packageRef => simp [keyAt] at hk
  all_goals
    rw [keyAt] at hk
    exact absurd (mem_scalar hk) (by simp)

theorem serials_of_mem_keyAt (h : v.Serials Q) (hk : .numbered k ∈ v.keyAt level) : Q k := by
  induction v generalizing level with
  | step v ih =>
    rcases numbered_mem_keyAt hk with hk | ⟨p, hp, hk⟩
    · exact h.here k hk
    · exact ih p hp (h.part hp) hk

theorem length_numberAll (vs : List Value) (n : Nat) : (numberAll vs n).1.length = vs.length := by
  induction vs generalizing n with
  | nil => rfl
  | cons v rest ih => rw [numberAll_cons, List.length_cons, List.length_cons, ih]

theorem lost_mem_collection (h : .lost ∈ new → .lost ∈ old) (hm : mark ≠ .lost)
    (hl : .lost ∈ mark.collection level new) : .lost ∈ mark.collection level old := by
  unfold Mark.collection at hl ⊢
  by_cases hdeep : maxDepth < level
  · rw [if_pos hdeep]
    exact List.mem_singleton_self _
  · rw [if_neg hdeep] at hl ⊢
    rcases List.mem_cons.mp hl with hl | hl
    · exact absurd hl.symm hm
    · exact List.mem_cons_of_mem _ (h hl)

theorem lost_not_mem_serial (hm : mark ≠ .lost) : .lost ∉ mark.serial level (some k) parts := by
  unfold Mark.serial
  split
  · next h =>
    simp only [Bool.and_eq_true, Bool.not_eq_true', List.contains_eq_mem, decide_eq_false_iff_not] at h
    exact fun hl => (List.mem_cons.mp hl).elim (fun hl => hm hl.symm) h.2
  · simp

theorem lost_not_mem_keepSerial (hm : mark ≠ .lost) : .lost ∉ mark.serial level (keepSerial serial n).1 parts := by
  obtain ⟨k, hk⟩ := Option.isSome_iff_exists.mp (isSome_keepSerial serial n)
  rw [hk]
  exact lost_not_mem_serial hm

/-- A collection that is lost in the key of a numbered value was lost in the key before. -/
theorem lost_mem_keyAt_of_number (h : .lost ∈ (v.number n).1.keyAt level) : .lost ∈ v.keyAt level := by
  induction v generalizing level n with
  | step v ih =>
    cases v
    case list e | set e | generator e =>
      rw [keyAt]
      exact lost_mem_collection (ih e (by simp [parts])) (by simp) h
    case dict k w =>
      rw [keyAt]
      refine lost_mem_collection (fun hl => List.mem_append.mpr ?_) (by simp) h
      exact (List.mem_append.mp hl).imp (ih k (by simp [parts])) (ih w (by simp [parts]))
    case union alternatives =>
      rw [number_union, keyAt, length_numberAll] at h
      rw [keyAt]
      refine lost_mem_collection (fun hl => ?_) (by simp) h
      obtain ⟨p, hp, hl⟩ := mem_keysAt.mp hl
      obtain ⟨w, hw, m, -, -, rfl⟩ := mem_numberAll hp
      exact mem_keysAt.mpr ⟨w, hw, ih w hw hl⟩
    case tuple serial items | super serial items | method serial receiver name =>
      exact absurd h (lost_not_mem_keepSerial (by simp))
    case property serial g s d =>
      rw [number_property] at h
      obtain ⟨k, hk⟩ := Option.isSome_iff_exists.mp (isSome_keepSerial serial (d.number (s.number (g.number n).2).2).2)
      rw [hk, keyAt] at h
      simp at h
    all_goals exact h

theorem collection_congr (hk : ∀ j, .numbered j ∈ mark.collection level new → j < n)
    (h : (∀ j, .numbered j ∈ new → j < n) → new = old) :
    mark.collection level new = mark.collection level old := by
  unfold Mark.collection at hk ⊢
  split
  · rfl
  · next hl =>
    rw [if_neg hl] at hk
    rw [h fun j hj => hk j (List.mem_cons_of_mem _ hj)]

/-- The key of a numbered part, if no fresh number shows in it. -/
theorem serial_congr (hmn : n ≤ m) (hk : ∀ j, .numbered j ∈ mark.serial level (keepSerial serial m).1 new → j < n)
    (hlost : .lost ∈ new → .lost ∈ old) (h : (∀ j, .numbered j ∈ new → j < n) → new = old) :
    mark.serial level (keepSerial serial m).1 new = mark.serial level serial old := by
  unfold Mark.serial at hk ⊢
  by_cases hspelt : (level ≤ maxDepth && !new.contains .lost) = true
  · -- The parts are spelt out, so no fresh number shows in them and they are as before.
    rw [if_pos hspelt] at hk ⊢
    obtain rfl := h fun j hj => hk j (List.mem_cons_of_mem _ hj)
    rw [if_pos hspelt]
  · rw [if_neg hspelt] at hk ⊢
    cases serial with
    | none => exact absurd (hk m (List.mem_singleton_self _)) (Nat.not_lt.mpr hmn)
    | some k =>
      have hold : ¬(level ≤ maxDepth && !old.contains .lost) = true := by
        simp only [Bool.and_eq_true, decide_eq_true_eq, Bool.not_eq_true', List.contains_eq_mem,
          decide_eq_false_iff_not, not_and, not_not] at hspelt ⊢
        exact fun hl => hlost (hspelt hl)
      rw [if_neg hold]
      rfl

theorem keysAt_numberAll
    (ih : ∀ v ∈ vs, ∀ n, (∀ j, .numbered j ∈ (v.number n).1.keyAt level → j < n) →
      (v.number n).1.keyAt level = v.keyAt level)
    (h : ∀ j, .numbered j ∈ keysAt level (numberAll vs n).1 → j < n) :
    keysAt level (numberAll vs n).1 = keysAt level vs := by
  induction vs generalizing n with
  | nil => rfl
  | cons v rest ihs =>
    rw [numberAll_cons, keysAt] at h ⊢
    rw [keysAt, ih v List.mem_cons_self n fun j hj => h j (List.mem_append_left _ hj)]
    rw [ihs (fun w hw => ih w (List.mem_cons_of_mem _ hw)) fun j hj =>
      Nat.lt_of_lt_of_le (h j (List.mem_append_right _ hj)) (le_number v n)]

theorem lost_mem_keysAt_of_numberAll (h : .lost ∈ keysAt level (numberAll vs n).1) : .lost ∈ keysAt level vs := by
  obtain ⟨p, hp, hl⟩ := mem_keysAt.mp h
  obtain ⟨w, hw, m, -, -, rfl⟩ := mem_numberAll hp
  exact mem_keysAt.mpr ⟨w, hw, lost_mem_keyAt_of_number hl⟩

/-- **Numbering adds fresh numbers to a key or leaves it as it is.** -/
theorem keyAt_number (h : ∀ j, .numbered j ∈ (v.number n).1.keyAt level → j < n) :
    (v.number n).1.keyAt level = v.keyAt level := by
  induction v generalizing level n with
  | step v ih =>
    cases v
    case list e | set e | generator e =>
      rw [keyAt]
      exact collection_congr h (ih e (by simp [parts]))
    case dict k w =>
      rw [keyAt]
      refine collection_congr h fun h => congrArg₂ (· ++ ·) ?_ ?_
      · exact ih k (by simp [parts]) fun j hj => h j (List.mem_append_left _ hj)
      · exact ih w (by simp [parts]) fun j hj =>
          Nat.lt_of_lt_of_le (h j (List.mem_append_right _ hj)) (le_number k n)
    case union alternatives =>
      rw [number_union, keyAt, length_numberAll] at h ⊢
      rw [keyAt]
      exact collection_congr h (keysAt_numberAll fun w hw m => ih w hw)
    case tuple serial items | super serial items =>
      simp only [number_tuple, number_super, keyAt, length_numberAll] at h ⊢
      exact serial_congr (le_numberAll (fun w _ => le_number w) n) h lost_mem_keysAt_of_numberAll
        (keysAt_numberAll fun w hw m => ih w hw)
    case method serial receiver name =>
      rw [number_method, keyAt] at h ⊢
      rw [keyAt]
      exact serial_congr (le_number receiver n) h lost_mem_keyAt_of_number (ih receiver (by simp [parts]))
    case property serial g s d =>
      cases serial with
      | some j => rfl
      | none =>
        have hfresh := h (d.number (s.number (g.number n).2).2).2 (List.mem_singleton_self _)
        have hle := Nat.le_trans (le_number g n) (Nat.le_trans (le_number s _) (le_number d _))
        exact absurd hfresh (Nat.not_lt.mpr hle)
    all_goals rfl

/-! ## Numbering keeps a value sound -/

theorem isUnion_number (v : Value) (n : Nat) : (v.number n).1.isUnion = v.isUnion := by
  cases v <;> rfl

/-- Numbering leaves a value in the slot of its sort, or in the slot of its key. -/
theorem slot_number (v : Value) (n : Nat) : ((v.number n).1.slot = v.slot ∧ ∀ k, v.slot ≠ .other k) ∨
      (v.number n).1.slot = .other (v.number n).1.key ∧ v.slot = .other v.key := by
  cases v
  case list | set | dict | generator | property => exact .inl ⟨rfl, nofun⟩
  all_goals exact .inr ⟨rfl, rfl⟩

/-- Different slots stay different when one value is numbered after the other. -/
theorem slot_number_ne {a b : Value} (ha : a.Below m) (hb : b.Below m) (hmn : m ≤ n)
    (hk : (a.number n).2 ≤ k) (h : a.slot ≠ b.slot) : (a.number n).1.slot ≠ (b.number k).1.slot := by
  intro heq
  apply h
  rcases slot_number a n with ⟨hsa, hna⟩ | ⟨hsa', hsa⟩ <;>
    rcases slot_number b k with ⟨hsb, hnb⟩ | ⟨hsb', hsb⟩
  · rw [← hsa, heq, hsb]
  · exact absurd (hsa.symm.trans (heq.trans hsb')) (hna _)
  · exact absurd (hsb.symm.trans (heq.symm.trans hsa')) (hnb _)
  · rw [hsa', hsb', Slot.other.injEq] at heq
    rw [hsa, hsb]
    -- The keys are equal, so each number in them is an old one: the fresh ones of `a` all come before
    -- those of `b`.
    have hold : ∀ j, .numbered j ∈ (a.number n).1.key → j < m := by
      intro j hj
      have hja := serials_of_mem_keyAt (serials_number ha n) hj
      have hjb := serials_of_mem_keyAt (serials_number hb k) (heq ▸ hj)
      omega
    have hn := le_number a n
    have hka : (a.number n).1.key = a.key :=
      keyAt_number fun j hj => Nat.lt_of_lt_of_le (hold j hj) hmn
    have hkb : (b.number k).1.key = b.key :=
      keyAt_number fun j hj => Nat.lt_of_lt_of_le (hold j (heq ▸ hj)) (by omega)
    rw [← hka, heq, hkb]

theorem nodup_slot_numberAll (hmn : m ≤ n) (hvs : ∀ v ∈ vs, v.Below m) (h : (vs.map slot).Nodup) :
    ((numberAll vs n).1.map slot).Nodup := by
  induction vs generalizing n with
  | nil => exact List.nodup_nil
  | cons v rest ih =>
    rw [List.map_cons, List.nodup_cons] at h
    rw [numberAll_cons, List.map_cons, List.nodup_cons]
    refine ⟨fun hmem => ?_, ih (Nat.le_trans hmn (le_number v n)) (fun w hw => hvs w (List.mem_cons_of_mem _ hw)) h.2⟩
    obtain ⟨p, hp, heq⟩ := List.mem_map.mp hmem
    obtain ⟨w, hw, k, hk, -, rfl⟩ := mem_numberAll hp
    refine slot_number_ne (hvs v List.mem_cons_self) (hvs w (List.mem_cons_of_mem _ hw)) hmn hk ?_ heq.symm
    exact fun hs => h.1 (hs ▸ List.mem_map_of_mem hw)

theorem alternatives_numberAll (hvs : ∀ v ∈ vs, v.Below n) (h : Alternatives vs) : Alternatives (numberAll vs n).1 where
  flat := by
    intro p hp
    obtain ⟨w, hw, m, -, -, rfl⟩ := mem_numberAll hp
    rw [isUnion_number]
    exact h.flat w hw
  distinct := nodup_slot_numberAll (Nat.le_refl n) hvs h.distinct
  few := by
    rw [length_numberAll]
    exact h.few

theorem proper_number (hv : v.Below n) (h : v.Proper) : (v.number n).1.Proper := by
  cases v
  case union alternatives =>
    refine ⟨alternatives_numberAll (fun a ha => hv.part ha) h.1, ?_⟩
    rw [length_numberAll]
    exact h.2
  case list | set | generator | dict | tuple | method | property | super => exact trivial
  all_goals exact h

theorem wellFormed_number (hv : v.Below n) (h : v.WellFormed) : (v.number n).1.WellFormed := by
  induction v generalizing n with
  | step v ih =>
    refine wellFormed_iff.mpr ⟨⟨proper_number hv h.proper, ?_⟩, fun p hp => ?_⟩
    · rw [depth_number]
      exact h.depth_le
    · obtain ⟨w, hw, m, hm, -, rfl⟩ := mem_parts_number hp
      exact ih w hw (Below.mono hm (hv.part hw)) (h.of_mem_parts hw)

/-- **Numbering keeps a value sound.** -/
theorem sound_number (h : v.Sound n) : (v.number n).1.Sound (v.number n).2 :=
  ⟨wellFormed_number h.below h.wellFormed, below_number h.below⟩

end Surmise.Value
