import Surmise.Proofs.Store.Values

/-!
# Productions

A symbol holds the join of all that was written to it, in whatever steps, and so does an entry of a keyword
dictionary. Values are compared up to the identity of their properties, which every join makes anew.

* `Value.Gathers`: a holder joins values with what it holds, one by one.
* `Value.Gathers.byParts_eq`: what it then holds is the join of them all.
* `Store.gathers_performAll`, `Store.gathers_addAll`: symbols and entries gather what is written to them.
* `unite_in_steps`, `unite_absorbs`: the laws for joins and for what holds them.
-/

namespace Surmise

open Value StoreM Store

variable {n : Nat} {v : Value}

structure Production where
  symbol : SymbolId
  value : Value
  isPrivate : Bool

namespace Production

def perform (p : Production) : StoreM Unit := StoreM.producePrivate p.symbol p.value p.isPrivate

def performAll : List Production → StoreM Unit
  | [] => return ()
  | p :: rest => do
    p.perform
    performAll rest

/-- The values that are written to a symbol, in order. -/
def valuesFor (id : SymbolId) (ps : List Production) : List Value :=
  (ps.filter fun p => p.symbol = id).map value

theorem valuesFor_cons_self (p : Production) (ps : List Production) :
    valuesFor p.symbol (p :: ps) = p.value :: valuesFor p.symbol ps := by
  simp [valuesFor]

variable {id : SymbolId}

theorem valuesFor_cons_of_ne {p : Production} (h : p.symbol ≠ id) (ps : List Production) :
    valuesFor id (p :: ps) = valuesFor id ps := by
  simp [valuesFor, h]

theorem valuesFor_append (id : SymbolId) (ps qs : List Production) :
    valuesFor id (ps ++ qs) = valuesFor id ps ++ valuesFor id qs := by
  simp [valuesFor]

theorem mem_valuesFor {ps : List Production} {v : Value} :
    v ∈ valuesFor id ps ↔ ∃ p ∈ ps, p.symbol = id ∧ p.value = v := by
  simp [valuesFor, and_assoc]

theorem performAll_append (ps qs : List Production) (s : Store) :
    performAll (ps ++ qs) s = performAll qs (performAll ps s).2 := by
  induction ps generalizing s with
  | nil => rfl
  | cons p rest ih => exact ih (p.perform s).2

end Production

/-- A value that has its identity: it is well formed, and its serial numbers are all there and below the
counter. -/
structure Value.Given (n : Nat) (v : Value) : Prop where
  sound : v.Sound n
  numbered : v.isNumbered = true

theorem Value.Given.mono {m : Nat} (hmn : m ≤ n) (h : v.Given m) : v.Given n :=
  ⟨h.sound.mono hmn, h.numbered⟩

/-- The empty value adds nothing to a join. -/
theorem Value.unite_cons_empty (v : Value) (vs : List Value) : unite (v :: empty :: vs) = unite (v :: vs) := by
  rw [unite_eq, unite_eq (v :: vs)]
  rfl

theorem Value.unite_empty_cons (vs : List Value) : unite (empty :: vs) = unite vs := by
  rw [unite_eq, unite_eq vs]
  rfl

theorem Value.eq_empty_of_isEmpty (h : v.isEmpty = true) : v = empty := by
  cases v
  case union alternatives =>
    cases alternatives with
    | nil => rfl
    | cons _ _ => cases h
  all_goals cases h

/-! ## Gathering values -/

namespace Value

variable {m n : Nat} {held old : Option Value} {vs : List Value} {v : Value}

/--
A holder of a value, or of nothing yet, joins values with it one by one. New parts are numbered, by numbers from `n` up
to `m`. The empty value may be passed over.
-/
inductive Gathers : (n m : Nat) → Option Value → List Value → Option Value → Prop
  | done {n m : Nat} (held : Option Value) (hm : n ≤ m) : Gathers n m held [] held
  | first {n k m : Nat} {v : Value} {vs : List Value} {held : Option Value} (hk : n ≤ k)
      (h : Gathers (v.number k).2 m (some (v.number k).1) vs held) : Gathers n m none (v :: vs) held
  | join {n k m : Nat} {old v : Value} {vs : List Value} {held : Option Value} (hk : n ≤ k)
      (h : Gathers ((unite [old, v]).number k).2 m (some ((unite [old, v]).number k).1) vs held) :
      Gathers n m (some old) (v :: vs) held
  | pass {n m : Nat} {old v : Value} {vs : List Value} {held : Option Value} (hv : v.isEmpty = true)
      (h : Gathers n m (some old) vs held) : Gathers n m (some old) (v :: vs) held

/-- Numbers that were given before make no difference. -/
theorem Gathers.later {k : Nat} (h : Gathers k m old vs held) (hle : n ≤ k) : Gathers n m old vs held := by
  induction h with
  | done held hm => exact .done held (Nat.le_trans hle hm)
  | first hk h => exact .first (Nat.le_trans hle hk) h
  | join hk h => exact .join (Nat.le_trans hle hk) h
  | pass hv _ ih => exact .pass hv (ih hle)

theorem Gathers.append {k : Nat} {mid : Option Value} {ws : List Value} (h : Gathers n k old vs mid)
    (h' : Gathers k m mid ws held) : Gathers n m old (vs ++ ws) held := by
  induction h with
  | done held hk => exact h'.later hk
  | first hk _ ih => exact .first hk (ih h')
  | join hk _ ih => exact .join hk (ih h')
  | pass hv _ ih => exact .pass hv (ih h')

/-- A sound value that joins keep up to the identity of its properties. -/
def Joinable (n : Nat) (v : Value) : Prop := v.Sound n ∧ v.Settled

theorem Given.joinable (h : v.Given n) : v.Joinable n := ⟨h.sound, .numbered h.numbered⟩

theorem Joinable.mono (h : v.Joinable n) (hnm : n ≤ m) : v.Joinable m := ⟨h.1.mono hnm, h.2⟩

theorem Joinable.number (h : v.Joinable n) : (v.number n).1.Joinable (v.number n).2 :=
  ⟨sound_number h.1, .numbered (isNumbered_number v n)⟩

theorem joinable_unite (h : ∀ v ∈ vs, v.Joinable n) : (unite vs).Joinable n :=
  ⟨sound_unite fun v hv => (h v hv).1, settled_unite fun v hv => (h v hv).2⟩

/-- Numbering does not change how a value joins. -/
theorem unite_number_cons (hv : v.Joinable n) (vs : List Value) : unite ((v.number n).1 :: vs) = unite (v :: vs) := by
  rw [← unite_byParts_cons hv.number.1.wellFormed, byParts_number hv.2, unite_byParts_cons hv.1.wellFormed]

/-- The join of values, if there are any. -/
def joinAll? (vs : List Value) : Option Value :=
  if vs.isEmpty then none else some (unite vs)

/-- **A holder that gathers values holds the join of them and of what it held**, up to the identity of properties. -/
theorem Gathers.byParts_eq (h : Gathers n m old vs held) (hvs : ∀ v ∈ old.toList ++ vs, v.Joinable n) :
    held.map byParts = joinAll? (old.toList ++ vs) := by
  induction h with
  | done held _ =>
    cases held with
    | none => rfl
    | some v => exact congrArg some (unite_singleton (hvs v List.mem_cons_self).1.wellFormed).symm
  | @first n k m v vs held hk _ ih =>
    obtain ⟨hv, hrest⟩ := List.forall_mem_cons.mp hvs
    have hlater : n ≤ (v.number k).2 := Nat.le_trans hk (le_number v k)
    rw [ih (List.forall_mem_cons.mpr ⟨(hv.mono hk).number, fun u hu => (hrest u hu).mono hlater⟩)]
    exact congrArg some (unite_number_cons (hv.mono hk) vs)
  | @join n k m old v vs held hk _ ih =>
    obtain ⟨hold, hv, hrest⟩ := (List.forall_mem_cons.mp hvs).imp_right List.forall_mem_cons.mp
    have hboth : ∀ u ∈ [old, v], u.Joinable k := by simpa using ⟨hold.mono hk, hv.mono hk⟩
    have hlater : n ≤ ((unite [old, v]).number k).2 := Nat.le_trans hk (le_number _ k)
    rw [ih (List.forall_mem_cons.mpr ⟨(joinable_unite hboth).number, fun u hu => (hrest u hu).mono hlater⟩)]
    refine congrArg some ?_
    calc unite (((unite [old, v]).number k).1 :: vs)
        = unite (unite [old, v] :: vs) := unite_number_cons (joinable_unite hboth) vs
      _ = unite (old :: v :: vs) := (unite_append [old, v] vs fun u hu => (hboth u hu).1.wellFormed).symm
  | @pass n m old v vs held hempty _ ih =>
    obtain ⟨hold, -, hrest⟩ := (List.forall_mem_cons.mp hvs).imp_right List.forall_mem_cons.mp
    rw [ih (List.forall_mem_cons.mpr ⟨hold, hrest⟩), eq_empty_of_isEmpty hempty]
    exact congrArg some (unite_cons_empty old vs).symm

end Value

namespace Store

variable {s : Store} {id : SymbolId} {ps : List Production}

theorem Sound.given (h : s.Sound) (id : SymbolId) : (s.value id).Given s.nextSerial :=
  ⟨h.value id, h.numbered id⟩

/-! ## Symbols -/

theorem gathers_producePrivate (hid : id.index < s.symbols.size) (v : Value) (isPrivate : Bool) :
    Gathers s.nextSerial (producePrivate id v isPrivate s).2.nextSerial (some (s.value id)) [v]
      (some ((producePrivate id v isPrivate s).2.value id)) := by
  have hsize : (publish id isPrivate s).symbols.size = s.symbols.size := Array.size_modify ..
  rw [producePrivate_eq]
  by_cases hempty : v.isEmpty = true
  · rw [if_pos hempty, value_publish]
    exact .pass hempty (.done _ (Nat.le_refl _))
  · rw [if_neg hempty, value_put, if_pos ⟨rfl, Nat.lt_of_lt_of_eq hid hsize.symm⟩, put_eq]
    exact .join (Nat.le_refl _) (.done _ (Nat.le_refl _))

/-- A single write joins the value into the symbol. -/
theorem byParts_value_producePrivate (hs : s.Sound) (hid : id.index < s.symbols.size) {v : Value}
    (hv : v.Given s.nextSerial) (isPrivate : Bool) :
    ((producePrivate id v isPrivate s).2.value id).byParts = unite [s.value id, v] := by
  refine Option.some.inj ((gathers_producePrivate hid v isPrivate).byParts_eq ?_)
  simpa using ⟨(hs.given id).joinable, hv.joinable⟩

/-- A symbol gathers all that is written to it, whatever is written to others in between. -/
theorem gathers_performAll (hid : id.index < s.symbols.size) (ps : List Production) :
    Gathers s.nextSerial (Production.performAll ps s).2.nextSerial (some (s.value id)) (Production.valuesFor id ps)
      (some ((Production.performAll ps s).2.value id)) := by
  induction ps generalizing s with
  | nil => exact .done _ (Nat.le_refl _)
  | cons p rest ih =>
    have hextends : s.Extends (p.perform s).2 := extends_producePrivate s p.symbol p.value p.isPrivate
    have hrest := ih (Nat.lt_of_lt_of_le hid hextends.symbols)
    by_cases hsymbol : p.symbol = id
    · subst hsymbol
      rw [Production.valuesFor_cons_self]
      exact (gathers_producePrivate hid p.value p.isPrivate).append hrest
    · have hkept : (p.perform s).2.value id = s.value id := value_producePrivate_of_ne hsymbol p.value p.isPrivate
      rw [hkept] at hrest
      rw [Production.valuesFor_cons_of_ne hsymbol]
      exact hrest.later hextends.serial

/-- **A symbol holds the join of what it held and of all that is written to it.** -/
theorem byParts_value_performAll (hs : s.Sound) (hid : id.index < s.symbols.size)
    (hps : ∀ p ∈ ps, p.value.Given s.nextSerial) :
    ((Production.performAll ps s).2.value id).byParts = unite (s.value id :: Production.valuesFor id ps) := by
  refine Option.some.inj
    ((gathers_performAll hid ps).byParts_eq (List.forall_mem_cons.mpr ⟨(hs.given id).joinable, ?_⟩))
  intro v hv
  obtain ⟨p, hp, -, rfl⟩ := Production.mem_valuesFor.mp hv
  exact (hps p hp).joinable

/-- A write can make a symbol public. -/
theorem isPrivate_producePrivate (symbol id : SymbolId) (v : Value) (isPrivate : Bool) :
    ((StoreM.producePrivate symbol v isPrivate s).2.symbol id).isPrivate =
      if symbol.index = id.index ∧ id.index < s.symbols.size then (s.symbol id).isPrivate && isPrivate
      else (s.symbol id).isPrivate := by
  have hpublish : ((StoreM.publish symbol isPrivate s).symbol id).isPrivate =
      if symbol.index = id.index ∧ id.index < s.symbols.size then (s.symbol id).isPrivate && isPrivate
      else (s.symbol id).isPrivate := by
    unfold StoreM.publish Store.symbol
    rw [getD_modify]
    split <;> rfl
  rw [StoreM.producePrivate_eq, ← hpublish]
  split
  · rfl
  · rw [StoreM.put_eq]
    unfold StoreM.withValue Store.symbol
    rw [getD_modify]
    split <;> rfl

/-- A symbol stays private if all writes to it are. -/
theorem isPrivate_performAll (hid : id.index < s.symbols.size) (ps : List Production) :
    ((Production.performAll ps s).2.symbol id).isPrivate =
      ((s.symbol id).isPrivate && ps.all fun p => p.symbol != id || p.isPrivate) := by
  induction ps generalizing s with
  | nil => exact (Bool.and_true _).symm
  | cons p rest ih =>
    have hstep := isPrivate_producePrivate (s := s) p.symbol id p.value p.isPrivate
    have hrest := ih (s := (p.perform s).2) (Nat.lt_of_lt_of_le hid (extends_producePrivate s ..).symbols)
    rw [show Production.performAll (p :: rest) s = Production.performAll rest (p.perform s).2 from rfl, hrest,
      Production.perform, hstep, List.all_cons]
    by_cases hsymbol : p.symbol = id
    · rw [if_pos ⟨congrArg SymbolId.index hsymbol, hid⟩]
      simp [hsymbol, Bool.and_assoc]
    · rw [if_neg fun h => hsymbol (congrArg SymbolId.mk h.1), bne_iff_ne.mpr hsymbol, Bool.true_or, Bool.true_and]

/-- **A value that was written before changes nothing** when it is written again. -/
theorem perform_again (hs : s.Sound) (hps : ∀ p ∈ ps, p.value.Given s.nextSerial)
    {p : Production} (hp : p ∈ ps) (hid : id.index < s.symbols.size) :
    let before := (Production.performAll ps s).2
    let after := (p.perform before).2
    (after.value id).byParts = (before.value id).byParts ∧
      (after.symbol id).isPrivate = (before.symbol id).isPrivate := by
  have hlast : ∀ q : Production, (q.perform (Production.performAll ps s).2).2 =
      (Production.performAll (ps ++ [q]) s).2 := fun q => by rw [Production.performAll_append]; rfl
  have hall : ∀ q ∈ ps ++ [p], q.value.Given s.nextSerial := by
    intro q hq
    rcases List.mem_append.mp hq with hq | hq
    · exact hps q hq
    · exact List.mem_singleton.mp hq ▸ hps p hp
  intro before after
  constructor
  · show ((p.perform before).2.value id).byParts = _
    rw [hlast, byParts_value_performAll hs hid hall, byParts_value_performAll hs hid hps,
      Production.valuesFor_append, ← List.cons_append]
    refine unite_append_of_subset fun v hv => List.mem_cons_of_mem _ ?_
    obtain ⟨q, hq, hsymbol, hvalue⟩ := Production.mem_valuesFor.mp hv
    rw [List.mem_singleton.mp hq] at hsymbol hvalue
    exact Production.mem_valuesFor.mpr ⟨p, hp, hsymbol, hvalue⟩
  · show ((p.perform before).2.symbol id).isPrivate = _
    rw [hlast, isPrivate_performAll hid, isPrivate_performAll hid, List.all_append]
    by_cases hprivate : (p.symbol != id || p.isPrivate) = true
    · simp [hprivate]
    · have hsome : (ps.all fun p => p.symbol != id || p.isPrivate) = false :=
        List.all_eq_false.mpr ⟨p, hp, hprivate⟩
      rw [hsome]
      rfl

end Store

/-! ## Entries of keyword dictionaries -/

def StoreM.addAll (dict : KwargsId) (name : String) : List Value → StoreM Unit
  | [] => return ()
  | v :: rest => do
    addKwarg dict name v
    addAll dict name rest

namespace Store

variable {s : Store} {dict : KwargsId} {name : String} (hdict : dict.index < s.kwargs.size)

include hdict

theorem get?_addKwarg (name : String) (v : Value) :
    ((addKwarg dict name v s).2.kwargsOf dict).get? name =
      some ((joinedKwarg s dict name v).number s.nextSerial).1 := by
  rw [addKwarg_eq]
  unfold kwargsOf
  dsimp only
  rw [getD_modify, if_pos ⟨rfl, hdict⟩, OrderedMap.get?_insert, if_pos rfl]

theorem gathers_addKwarg (name : String) (v : Value) :
    Gathers s.nextSerial (addKwarg dict name v s).2.nextSerial ((s.kwargsOf dict).get? name) [v]
      (((addKwarg dict name v s).2.kwargsOf dict).get? name) := by
  rw [get?_addKwarg hdict, addKwarg_eq, joinedKwarg]
  cases (s.kwargsOf dict).get? name with
  | none => exact .first (Nat.le_refl _) (.done _ (Nat.le_refl _))
  | some old => exact .join (Nat.le_refl _) (.done _ (Nat.le_refl _))

theorem gathers_addAll (name : String) (vs : List Value) :
    Gathers s.nextSerial (addAll dict name vs s).2.nextSerial ((s.kwargsOf dict).get? name) vs
      (((addAll dict name vs s).2.kwargsOf dict).get? name) := by
  induction vs generalizing s with
  | nil => exact .done _ (Nat.le_refl _)
  | cons v rest ih =>
    have hextends := extends_addKwarg s dict name v
    exact (gathers_addKwarg hdict name v).append (ih (Nat.lt_of_lt_of_le hdict hextends.kwargs))

/-- **An entry that was not there holds the join of all that is written to it.** -/
theorem get?_addAll_of_none (hnone : (s.kwargsOf dict).get? name = none) {v : Value}
    {vs : List Value} (hvs : ∀ w ∈ v :: vs, w.Given s.nextSerial) :
    ∃ held, ((addAll dict name (v :: vs) s).2.kwargsOf dict).get? name = some held ∧
      held.byParts = unite (v :: vs) := by
  have hgathers := gathers_addAll hdict name (v :: vs)
  rw [hnone] at hgathers
  exact Option.map_eq_some_iff.mp (hgathers.byParts_eq fun w hw => (hvs w hw).joinable)

end Store

/-! ## The laws -/

/--
**Joins may be made in steps**, also where alternatives are cut off. So a symbol that was empty holds the
join of all that is written to it, whatever is written to other symbols in between, and an entry of a
keyword dictionary that was not there holds the join of all that is added to it.
-/
theorem unite_in_steps :
    (∀ xs ys : List Value, (∀ v ∈ xs ++ ys, v.WellFormed) → unite (xs ++ ys) = unite ([unite xs] ++ ys)) ∧
    (∀ (s : Store) (id : SymbolId) (ps : List Production), s.Sound → id.index < s.symbols.size →
      s.value id = .empty → (∀ p ∈ ps, p.value.Given s.nextSerial) →
      ((Production.performAll ps s).2.value id).byParts = unite (Production.valuesFor id ps)) ∧
    ∀ (s : Store) (dict : KwargsId) (name : String) (v : Value) (vs : List Value), s.Sound →
      dict.index < s.kwargs.size → (s.kwargsOf dict).get? name = none →
      (∀ w ∈ v :: vs, w.Given s.nextSerial) →
      ∃ held, ((StoreM.addAll dict name (v :: vs) s).2.kwargsOf dict).get? name = some held ∧
        held.byParts = unite (v :: vs) := by
  refine ⟨fun xs ys h => ?_, fun s id ps hs hid hempty hps => ?_, fun s dict name v vs hs hdict hnone hvs => ?_⟩
  · exact unite_append xs ys fun x hx => h x (List.mem_append_left _ hx)
  · rw [Store.byParts_value_performAll hs hid hps, hempty, unite_empty_cons]
  · exact Store.get?_addAll_of_none hdict hnone hvs

/-- Thirty constants, of which five are cut off, then a list. -/
theorem unite_in_steps_thirty :
    let many := (List.range 30).map fun n : Nat => ofInt n
    let s := (StoreM.newKwargs (StoreM.newSymbol "x" default false .empty).2).2
    let ps := (many ++ [listOf null]).map fun v => Production.mk ⟨0⟩ v false
    unite (many ++ [listOf null]) = unite ([unite many] ++ [listOf null]) ∧
      ((Production.performAll ps s).2.value ⟨0⟩).byParts = unite (Production.valuesFor ⟨0⟩ ps) ∧
      ∃ held, ((StoreM.addAll ⟨0⟩ "k" (listOf null :: many) s).2.kwargsOf ⟨0⟩).get? "k" = some held ∧
        held.byParts = unite (listOf null :: many) := by
  intro many s ps
  have hs : s.Sound := (Store.sound_empty.newSymbol "x" default false).newKwargs
  have hmany : ∀ v ∈ many, v.Given 0 := by
    intro v hv
    obtain ⟨n, -, rfl⟩ := List.mem_map.mp hv
    exact ⟨sound_ofInt n, by unfold ofInt; split <;> rfl⟩
  have hlist : (listOf null).Given 0 := ⟨sound_listOf (by simp), rfl⟩
  have hall : ∀ v ∈ many ++ [listOf null], v.Given 0 := by
    intro v hv
    rcases List.mem_append.mp hv with hv | hv
    · exact hmany v hv
    · exact List.mem_singleton.mp hv ▸ hlist
  refine ⟨unite_in_steps.1 many [listOf null] fun v hv => (hall v hv).sound.wellFormed,
    unite_in_steps.2.1 s ⟨0⟩ ps hs (by decide) rfl ?_,
    unite_in_steps.2.2 s ⟨0⟩ "k" (listOf null) many hs (by decide) rfl ?_⟩
  · intro p hp
    obtain ⟨v, hv, rfl⟩ := List.mem_map.mp hp
    exact hall v hv
  · intro v hv
    rcases List.mem_cons.mp hv with rfl | hv
    · exact hlist
    · exact hmany v hv

/--
**What was joined before adds nothing**, also where it was cut off. A well-formed value joined with itself
is that value, and a symbol does not change when a value is written to it that was written to it before.
-/
theorem unite_absorbs :
    (∀ (vs : List Value) (v : Value), v ∈ vs → unite (vs ++ [v]) = unite vs) ∧
    (∀ v : Value, v.WellFormed → unite [v, v] = v.byParts) ∧
    ∀ (s : Store) (ps : List Production) (p : Production) (id : SymbolId), s.Sound →
      (∀ q ∈ ps, q.value.Given s.nextSerial) → p ∈ ps → id.index < s.symbols.size →
      let before := (Production.performAll ps s).2
      let after := (p.perform before).2
      (after.value id).byParts = (before.value id).byParts ∧
        (after.symbol id).isPrivate = (before.symbol id).isPrivate := by
  refine ⟨fun vs v hv => ?_, fun v h => ?_, fun s ps p id hs hps hp hid => Store.perform_again hs hps hp hid⟩
  · exact unite_append_of_subset fun w hw => List.mem_singleton.mp hw ▸ hv
  · have hagain : unite ([v] ++ [v]) = unite [v] := unite_append_of_subset fun w hw => hw
    exact hagain.trans (unite_singleton h)

/-- The last of thirty constants was cut off and adds nothing when it comes again. -/
theorem unite_absorbs_thirty :
    let many := (List.range 30).map fun n : Nat => ofInt n
    let s := (StoreM.newSymbol "x" default false .empty).2
    let ps := many.map fun v => Production.mk ⟨0⟩ v false
    let before := (Production.performAll ps s).2
    let after := ((Production.mk ⟨0⟩ (ofInt 29) false).perform before).2
    unite (many ++ [ofInt 29]) = unite many ∧
      unite [listOf null, listOf null] = (listOf null).byParts ∧
      (after.value ⟨0⟩).byParts = (before.value ⟨0⟩).byParts ∧
      (after.symbol ⟨0⟩).isPrivate = (before.symbol ⟨0⟩).isPrivate := by
  intro many s ps before after
  have hlast : ofInt 29 ∈ many := List.mem_map.mpr ⟨29, by simp, rfl⟩
  refine ⟨unite_absorbs.1 many (ofInt 29) hlast, unite_absorbs.2.1 _ (wellFormed_listOf (wellFormed_of_isAtom rfl)),
    unite_absorbs.2.2 s ps _ ⟨0⟩ (Store.sound_empty.newSymbol "x" default false) ?_ (List.mem_map_of_mem hlast)
      (by decide)⟩
  intro p hp
  obtain ⟨v, hv, rfl⟩ := List.mem_map.mp hp
  obtain ⟨n, -, rfl⟩ := List.mem_map.mp hv
  exact ⟨sound_ofInt n, by unfold ofInt; split <;> rfl⟩

end Surmise
