import Surmise.Proofs.Value.Serial

/-!
# Objects and their serial numbers

A serial number is given to one object only. So among values that are made one after another, each from
those before, two parts with the same serial number are the same object, and a number stands for all that
is in it.

* `Value.Known`: the serial numbers in a value are those of given objects.
* `Value.Made`, `Value.Built`: the values that the constructors and joins make, and pools of such values.
* `Built.exists_objects`: in such a pool every serial number belongs to one object.
-/

namespace Surmise.Value

/--
The serial numbers and the labels in the value are those of these objects. An object that has a serial
number has been kept, so everything in it has one too.
-/
def Known (objects : Nat → Value) (labels : Nat → String) : Value → Prop :=
  Everywhere fun v => (∀ k ∈ v.serial?, v.isNumbered = true ∧ objects k = v) ∧
    ∀ label i, v = .synthetic (.labelled label i) → labels i = label

section Known

variable {objects objects' : Nat → Value} {labels : Nat → String} {v : Value} {n : Nat} {vs : List Value}

theorem known_iff : v.Known objects labels ↔ ((∀ k ∈ v.serial?, v.isNumbered = true ∧ objects k = v) ∧
      ∀ label i, v = .synthetic (.labelled label i) → labels i = label) ∧
      ∀ p ∈ v.parts, p.Known objects labels :=
  everywhere_iff

theorem known_plain (v : Value) (h : v.isPlain = true) : (∀ k ∈ v.serial?, v.isNumbered = true ∧ objects k = v) ∧
      ∀ label i, v = .synthetic (.labelled label i) → labels i = label := by
  cases v <;> simp_all [isPlain, serial?]

/-- A new object that is made of known parts. -/
theorem known_of_parts (hserial : v.serial? = none) (hparts : ∀ p ∈ v.parts, p.Known objects labels)
    (hlabel : ∀ label i, v = .synthetic (.labelled label i) → labels i = label) : v.Known objects labels :=
  known_iff.mpr ⟨⟨by simp [hserial], hlabel⟩, hparts⟩

/-- Objects with later serial numbers do not matter. -/
theorem Known.congr (h : v.Known objects labels) (hv : v.Below n) (hagree : ∀ k < n, objects' k = objects k) :
    v.Known objects' labels := by
  induction v with
  | step v ih =>
    refine known_iff.mpr ⟨⟨fun k hk => ?_, h.here.2⟩, fun p hp => ih p hp (h.part hp) (hv.part hp)⟩
    obtain ⟨hnumbered, hobject⟩ := h.here.1 k hk
    exact ⟨hnumbered, (hagree k (hv.here k hk)).trans hobject⟩

/-! ## Numbering makes new objects known -/

/-- A new object is numbered after its parts. -/
theorem numberAll_of_serial?_number (hv : v.serial? = none) {k : Nat} (hk : k ∈ (v.number n).1.serial?) :
    (numberAll v.parts n).2 = k := by
  rw [serial?_number, hv] at hk
  split at hk
  · exact Option.some.inj hk
  · cases hk

theorem below_numberAll (hvs : ∀ v ∈ vs, v.Below n) :
    ∀ p ∈ (numberAll vs n).1, p.Below (numberAll vs n).2 := by
  intro p hp
  obtain ⟨w, hw, m, hm, hnext, rfl⟩ := mem_numberAll hp
  exact (below_number ((hvs w hw).mono hm)).mono hnext

theorem known_numberAll
    (ih : ∀ v ∈ vs, ∀ (objects : Nat → Value) n, v.Known objects labels → v.Below n →
      ∃ objects' : Nat → Value, (∀ k < n, objects' k = objects k) ∧ (v.number n).1.Known objects' labels)
    (hknown : ∀ v ∈ vs, v.Known objects labels) (hbelow : ∀ v ∈ vs, v.Below n) :
    ∃ objects' : Nat → Value, (∀ k < n, objects' k = objects k) ∧
      ∀ p ∈ (numberAll vs n).1, p.Known objects' labels := by
  induction vs generalizing objects n with
  | nil => exact ⟨objects, fun _ _ => rfl, fun p hp => absurd hp List.not_mem_nil⟩
  | cons v rest ihs =>
    obtain ⟨hv, hrest⟩ := List.forall_mem_cons.mp hknown
    obtain ⟨hvb, hrestb⟩ := List.forall_mem_cons.mp hbelow
    have hle := le_number v n
    obtain ⟨objects₁, hagree₁, hfirst⟩ := ih v List.mem_cons_self objects n hv hvb
    obtain ⟨objects₂, hagree₂, hothers⟩ := ihs (fun w hw => ih w (List.mem_cons_of_mem v hw))
      (fun w hw => (hrest w hw).congr (hrestb w hw) hagree₁) (fun w hw => (hrestb w hw).mono hle)
    refine ⟨objects₂, fun k hk => ?_, ?_⟩
    · exact (hagree₂ k (Nat.lt_of_lt_of_le hk hle)).trans (hagree₁ k hk)
    · rw [numberAll_cons]
      exact List.forall_mem_cons.mpr ⟨hfirst.congr (below_number hvb) hagree₂, hothers⟩

/-- **Numbering tells the new objects from all that are known.** -/
theorem known_number (h : v.Known objects labels) (hv : v.Below n) :
    ∃ objects' : Nat → Value, (∀ k < n, objects' k = objects k) ∧ (v.number n).1.Known objects' labels := by
  induction v generalizing objects n with
  | step v ih =>
    cases hserial : v.serial? with
    | some k =>
      -- an object that was kept stays as it is
      rw [number_of_isNumbered (h.here.1 k hserial).1]
      exact ⟨objects, fun _ _ => rfl, h⟩
    | none =>
      obtain ⟨objects₁, hagree, hparts⟩ := known_numberAll (n := n)
        (fun p hp objects m hk hb => ih p hp hk hb) (fun p hp => h.part hp) (fun p hp => hv.part hp)
      have hpartsb := below_numberAll (n := n) fun p hp => hv.part hp
      have hlabel : ∀ label i, (v.number n).1 = .synthetic (.labelled label i) → labels i = label := by
        intro label i hsynthetic
        refine h.here.2 label i ?_
        cases v
        case synthetic => exact hsynthetic
        all_goals cases hsynthetic
      rw [← parts_number] at hparts hpartsb
      cases hnew : (v.number n).1.serial? with
      | none => exact ⟨objects₁, hagree, known_of_parts hnew hparts hlabel⟩
      | some k =>
        -- the object itself takes the number after those of its parts
        have hk := numberAll_of_serial?_number hserial hnew
        have hn : n ≤ k := hk ▸ le_numberAll (fun p _ => le_number p) n
        refine ⟨Function.update objects₁ k (v.number n).1, fun j hj => ?_, ?_⟩
        · rw [Function.update_of_ne (by omega), hagree j hj]
        · refine known_iff.mpr ⟨⟨fun j hj => ?_, hlabel⟩, fun p hp => ?_⟩
          · cases Option.some.inj (hnew.symm.trans hj)
            exact ⟨isNumbered_number v n, Function.update_self ..⟩
          · refine (hparts p hp).congr (hpartsb p hp) fun j hj => ?_
            rw [Function.update_of_ne (by omega)]

end Known

/-! ## Values that are kept -/

/-- A value all of whose objects are known and have serial numbers. -/
structure Kept (objects : Nat → Value) (labels : Nat → String) (v : Value) : Prop where
  known : v.Known objects labels
  numbered : v.isNumbered = true

section Kept

variable {objects : Nat → Value} {labels : Nat → String} {v : Value}

theorem Kept.part {p : Value} (h : v.Kept objects labels) (hp : p ∈ v.parts) : p.Kept objects labels :=
  ⟨h.known.part hp, (isNumbered_iff.mp h.numbered).2 p hp⟩

theorem Kept.of_mem_disjuncts {d : Value} (h : v.Kept objects labels) (hd : d ∈ v.disjuncts) : d.Kept objects labels :=
  ⟨h.known.of_mem_disjuncts hd, isNumbered_of_mem_disjuncts h.numbered hd⟩

/-- Something that takes a serial number has one, and is the object with that number. -/
theorem Kept.exists_serial (h : v.Kept objects labels) (hv : v.needsSerial = true) :
    ∃ k, v.serial? = some k ∧ objects k = v := by
  obtain ⟨k, hk⟩ := Option.isSome_iff_exists.mp ((isNumbered_iff.mp h.numbered).1 hv)
  exact ⟨k, hk, (h.known.here.1 k hk).2⟩

end Kept

/-! ## Values that constructors and joins make -/

/-- A value that one operation makes from values of a pool. -/
inductive Made (labels : Nat → String) (pool : List Value) : Value → Prop
  | atom {v : Value} (h : v.isAtom = true)
      (hlabel : ∀ label i, v = .synthetic (.labelled label i) → labels i = label) : Made labels pool v
  | int (n : Int) : Made labels pool (ofInt n)
  | list {e : Value} (h : e ∈ pool) : Made labels pool (listOf e)
  | set {e : Value} (h : e ∈ pool) : Made labels pool (setOf e)
  | generator {e : Value} (h : e ∈ pool) : Made labels pool (generatorOf e)
  | dict {k v : Value} (hk : k ∈ pool) (hv : v ∈ pool) : Made labels pool (dictOf k v)
  | tuple {items : List Value} (h : ∀ v ∈ items, v ∈ pool) : Made labels pool (tupleOf items)
  | method {receiver : Value} (h : receiver ∈ pool) (name : String) : Made labels pool (methodOf receiver name)
  | property {g s d : Value} (hg : g ∈ pool) (hs : s ∈ pool) (hd : d ∈ pool) : Made labels pool (propertyOf g s d)
  | super {bases : List Value} (h : ∀ v ∈ bases, v ∈ pool) : Made labels pool (superOf bases)
  | unite {vs : List Value} (h : ∀ v ∈ vs, v ∈ pool) : Made labels pool (unite vs)
  | widen {v : Value} (h : v ∈ pool) : Made labels pool v.widen

/-- A pool of values that were made and kept one after another, and the count of serial numbers then. -/
inductive Built (labels : Nat → String) : Nat → List Value → Prop
  | nil : Built labels 0 []
  | keep {n : Nat} {pool : List Value} {v : Value} (h : Built labels n pool) (hv : Made labels pool v) :
      Built labels (v.number n).2 ((v.number n).1 :: pool)

section Made

variable {objects : Nat → Value} {labels : Nat → String} {pool : List Value} {v : Value} {n : Nat}

theorem Made.formed {P : Value → Prop} (plain : ∀ v : Value, v.isPlain = true → P v)
    (atom : ∀ v : Value, v.serial? = none → (∀ label i, v = .synthetic (.labelled label i) → labels i = label) → P v)
    (h : Made labels pool v) (hpool : ∀ w ∈ pool, w.Formed P) : v.Formed P := by
  cases h with
  | atom h hlabel =>
    refine formed_of_isAtom h (atom v ?_ hlabel)
    cases v <;> simp_all [isAtom, serial?]
  | int i => exact formed_ofInt plain i
  | list h => exact formed_listOf plain (hpool _ h)
  | set h => exact formed_setOf plain (hpool _ h)
  | generator h => exact formed_generatorOf plain (hpool _ h)
  | dict hk hv => exact formed_dictOf plain (hpool _ hk) (hpool _ hv)
  | tuple h => exact formed_tupleOf plain fun v hv => hpool v (h v hv)
  | method h name => exact formed_methodOf plain (hpool _ h)
  | property hg hs hd => exact formed_propertyOf plain (hpool _ hg) (hpool _ hs) (hpool _ hd)
  | super h => exact formed_superOf plain fun v hv => hpool v (h v hv)
  | unite h => exact formed_unite plain fun v hv => hpool v (h v hv)
  | widen h => exact formed_widen plain (hpool _ h)

theorem Made.sound (h : Made labels pool v) (hpool : ∀ w ∈ pool, w.Sound n) : v.Sound n :=
  (h.formed serials_plain (fun v hv _ => by simp [hv]) fun w hw => (hpool w hw).formed).sound

theorem Made.known (h : Made labels pool v) (hpool : ∀ w ∈ pool, w.WellFormed ∧ w.Known objects labels) :
    v.Known objects labels :=
  (h.formed known_plain (fun v hv hlabel => ⟨by simp [hv], hlabel⟩)
    fun w hw => ⟨(hpool w hw).1, (hpool w hw).2⟩).everywhere

/-- **In a pool that was built a serial number belongs to one object.** -/
theorem Built.exists_objects (h : Built labels n pool) : ∃ objects, ∀ v ∈ pool, v.Sound n ∧ v.Kept objects labels := by
  induction h with
  | nil => exact ⟨fun _ => .null, fun v hv => absurd hv List.not_mem_nil⟩
  | @keep n pool v h hv ih =>
    obtain ⟨objects, hpool⟩ := ih
    have hsound := hv.sound fun w hw => (hpool w hw).1
    obtain ⟨objects', hagree, hknown⟩ :=
      known_number (hv.known fun w hw => ⟨(hpool w hw).1.wellFormed, (hpool w hw).2.known⟩)
      hsound.below
    refine ⟨objects', List.forall_mem_cons.mpr ⟨⟨sound_number hsound, hknown, isNumbered_number v n⟩, ?_⟩⟩
    intro w hw
    obtain ⟨hw, hkept⟩ := hpool w hw
    exact ⟨hw.mono (le_number v n), hkept.known.congr hw.below hagree, hkept.numbered⟩

end Made

end Surmise.Value
