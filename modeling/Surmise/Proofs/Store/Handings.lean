import Surmise.Proofs.Store.Productions

/-!
# Values handed to holders

Symbols and entries of keyword dictionaries are the holders of a store that values are joined into. What happens to a
holder is said for all holders at once, and for any list of values that are handed out one after another.

* `Store.Handed`: what values that are handed out do to a store.
* `Store.SameBesideHolders`: two stores differ in what their holders hold only.
-/

namespace Surmise

open StoreM

/-- A holder that values are joined into. -/
inductive Holder where
  | symbol (id : SymbolId)
  | entry (dict : KwargsId) (name : String)
  deriving DecidableEq

/-- A value that is handed to a holder. -/
structure Handing where
  holder : Holder
  value : Value

namespace Handing

def perform (h : Handing) : StoreM Unit :=
  match h.holder with
  | .symbol id => StoreM.produce id h.value
  | .entry dict name => StoreM.addKwarg dict name h.value

def performAll : List Handing → StoreM Unit
  | [] => return ()
  | h :: rest => do
    h.perform
    performAll rest

def valuesAt (holder : Holder) (hs : List Handing) : List Value :=
  (hs.filter fun h => h.holder = holder).map value

theorem mem_valuesAt {holder : Holder} {hs : List Handing} {v : Value} :
    v ∈ valuesAt holder hs ↔ ∃ h ∈ hs, h.holder = holder ∧ h.value = v := by
  simp [valuesAt, and_assoc]

theorem valuesAt_append (holder : Holder) (hs hs' : List Handing) :
    valuesAt holder (hs ++ hs') = valuesAt holder hs ++ valuesAt holder hs' := by
  simp [valuesAt]

theorem performAll_symbol (id : SymbolId) (v : Value) (s : Store) :
    performAll [⟨.symbol id, v⟩] s = produce id v s := rfl

theorem performAll_append (hs hs' : List Handing) (s : Store) :
    performAll (hs ++ hs') s = performAll hs' (performAll hs s).2 := by
  induction hs generalizing s with
  | nil => rfl
  | cons h rest ih => exact ih (h.perform s).2

end Handing

/-! ## What is handed out -/

namespace Store

open Value (Gathers)

variable {s s' : Store} {holder : Holder} {h : Handing} {hs : List Handing} {s'' : Store}

/-- The store has the symbol, or the dictionary for the entry. -/
def Has (s : Store) : Holder → Prop
  | .symbol id => id.index < s.symbols.size
  | .entry dict _ => dict.index < s.kwargs.size

/-- What a holder holds. A symbol always holds a value, an entry once it is made. -/
def held (s : Store) : Holder → Option Value
  | .symbol id => some (s.value id)
  | .entry dict name => (s.kwargsOf dict).get? name

/-- The stores have the same holders, and all else is the same. -/
structure SameBesideHolders (s s' : Store) : Prop where
  symbols : s'.symbols.size = s.symbols.size
  kwargs : s'.kwargs.size = s.kwargs.size
  rest : { s' with nextSerial := 0, symbols := #[], kwargs := #[] } =
    { s with nextSerial := 0, symbols := #[], kwargs := #[] }

theorem SameBesideHolders.refl (s : Store) : SameBesideHolders s s := ⟨rfl, rfl, rfl⟩

theorem SameBesideHolders.trans (hs : SameBesideHolders s s') (hs' : SameBesideHolders s' s'') :
    SameBesideHolders s s'' :=
  ⟨hs'.symbols.trans hs.symbols, hs'.kwargs.trans hs.kwargs, hs'.rest.trans hs.rest⟩

theorem SameBesideHolders.functions (h : SameBesideHolders s s') : s'.functions = s.functions := by
  injection h.rest

theorem SameBesideHolders.function (h : SameBesideHolders s s') (f : FunctionId) : s'.function f = s.function f :=
  congrArg (fun functions => functions.getD f.index default) h.functions

theorem SameBesideHolders.has (h : SameBesideHolders s s') (hholder : s.Has holder) : s'.Has holder := by
  cases holder with
  | symbol id => exact Nat.lt_of_lt_of_eq hholder h.symbols.symm
  | entry dict name => exact Nat.lt_of_lt_of_eq hholder h.kwargs.symm

/-! ### A single value -/

theorem sameBesideHolders_producePrivate (s : Store) (id : SymbolId) (v : Value) (isPrivate : Bool) :
    SameBesideHolders s (producePrivate id v isPrivate s).2 := by
  refine ⟨size_producePrivate id v isPrivate, ?_, ?_⟩ <;>
    · rw [producePrivate_eq]
      split
      · rfl
      · rw [put_eq]
        rfl

theorem sameBesideHolders_addKwarg (s : Store) (dict : KwargsId) (name : String) (v : Value) :
    SameBesideHolders s (addKwarg dict name v s).2 := by
  rw [addKwarg_eq]
  exact ⟨rfl, Array.size_modify .., rfl⟩

theorem sameBesideHolders_perform (h : Handing) (s : Store) : SameBesideHolders s (h.perform s).2 := by
  obtain ⟨holder, v⟩ := h
  cases holder with
  | symbol id => exact sameBesideHolders_producePrivate s id v false
  | entry dict name => exact sameBesideHolders_addKwarg s dict name v

theorem symbol_producePrivate_of_ne {id other : SymbolId} (hne : id ≠ other) (v : Value) (isPrivate : Bool) :
    (producePrivate id v isPrivate s).2.symbol other = s.symbol other := by
  have hindex : id.index ≠ other.index := fun hsame => hne (congrArg SymbolId.mk hsame)
  have hpublish : (publish id isPrivate s).symbol other = s.symbol other := by
    unfold publish symbol
    rw [getD_modify, if_neg fun hsame => hindex hsame.1]
  rw [producePrivate_eq]
  split
  · exact hpublish
  · rw [put_eq, ← hpublish]
    unfold symbol withValue
    rw [getD_modify, if_neg fun hsame => hindex hsame.1]

/-- A symbol that nothing is handed to stays as it is. -/
theorem symbol_perform {id : SymbolId} (hne : h.holder ≠ .symbol id) : (h.perform s).2.symbol id = s.symbol id := by
  obtain ⟨holder, v⟩ := h
  cases holder with
  | symbol other => exact symbol_producePrivate_of_ne (fun hsame => hne (congrArg Holder.symbol hsame)) v false
  | entry dict name =>
    show (addKwarg dict name v s).2.symbol id = _
    rw [addKwarg_eq]
    rfl

theorem kwargsOf_addKwarg_of_ne {dict other : KwargsId} (hne : dict ≠ other) (name : String) (v : Value) :
    (addKwarg dict name v s).2.kwargsOf other = s.kwargsOf other := by
  rw [addKwarg_eq]
  unfold kwargsOf
  exact (getD_modify ..).trans (if_neg fun hsame => hne (congrArg KwargsId.mk hsame.1))

/-- A dictionary that nothing is handed to stays as it is. -/
theorem kwargsOf_perform {dict : KwargsId} (hne : ∀ name, h.holder ≠ .entry dict name) :
    (h.perform s).2.kwargsOf dict = s.kwargsOf dict := by
  obtain ⟨holder, v⟩ := h
  cases holder with
  | symbol id =>
    have hkwargs : (producePrivate id v false s).2.kwargs = s.kwargs := by
      rw [producePrivate_eq]
      split
      · rfl
      · rw [put_eq]
        rfl
    exact congrArg (fun kwargs => kwargs.getD dict.index default) hkwargs
  | entry other name =>
    exact kwargsOf_addKwarg_of_ne (fun hsame => hne name (congrArg (Holder.entry · name) hsame)) name v

/-- A holder that a value is not handed to keeps what it holds. -/
theorem held_perform_of_ne (hne : h.holder ≠ holder) : (h.perform s).2.held holder = s.held holder := by
  cases holder with
  | symbol id => exact congrArg (fun symbol => some symbol.value) (symbol_perform hne)
  | entry dict name =>
    by_cases hdict : ∃ other, h.holder = .entry dict other
    · -- Another entry of the same dictionary.
      obtain ⟨other, hother⟩ := hdict
      obtain ⟨holder, v⟩ := h
      obtain rfl : holder = .entry dict other := hother
      have hname : other ≠ name := fun hsame => hne (congrArg (Holder.entry dict) hsame)
      show ((addKwarg dict other v s).2.kwargsOf dict).get? name = _
      rw [addKwarg_eq]
      unfold held kwargsOf
      dsimp only
      rw [getD_modify]
      split
      · rw [OrderedMap.get?_insert, if_neg hname]
      · rfl
    · exact congrArg (fun entries => entries.get? name) (kwargsOf_perform fun other hother => hdict ⟨other, hother⟩)

theorem nextSerial_perform (h : Handing) (s : Store) : s.nextSerial ≤ (h.perform s).2.nextSerial := by
  obtain ⟨holder, v⟩ := h
  cases holder with
  | symbol id => exact (extends_producePrivate s id v false).serial
  | entry dict name => exact (extends_addKwarg s dict name v).serial

/-- The holder that a value is handed to takes it. -/
theorem gathers_perform (hhas : s.Has h.holder) :
    Gathers s.nextSerial (h.perform s).2.nextSerial (s.held h.holder) [h.value] ((h.perform s).2.held h.holder) := by
  obtain ⟨holder, v⟩ := h
  cases holder with
  | symbol id => exact gathers_producePrivate hhas v false
  | entry dict name => exact gathers_addKwarg hhas name v

/-! ### One value after another -/

/-- Between the stores values were handed out, and nothing else was changed. -/
structure Handed (hs : List Handing) (s s' : Store) : Prop where
  /-- Each holder gathers what is handed to it, in order and nothing else. -/
  gathers : ∀ holder, s.Has holder →
    Gathers s.nextSerial s'.nextSerial (s.held holder) (Handing.valuesAt holder hs) (s'.held holder)
  symbol : ∀ id, (∀ h ∈ hs, h.holder ≠ .symbol id) → s'.symbol id = s.symbol id
  kwargs : ∀ dict, (∀ h ∈ hs, ∀ name, h.holder ≠ .entry dict name) → s'.kwargsOf dict = s.kwargsOf dict
  same : SameBesideHolders s s'

/-- Numbers may be given without handing anything out. -/
theorem handed_nil (s : Store) {n : Nat} (hn : s.nextSerial ≤ n) : Handed [] s { s with nextSerial := n } :=
  ⟨fun _ _ => .done _ hn, fun _ _ => rfl, fun _ _ => rfl, ⟨rfl, rfl, rfl⟩⟩

theorem Handed.trans {hs' : List Handing} (h : Handed hs s s') (h' : Handed hs' s' s'') :
    Handed (hs ++ hs') s s'' where
  gathers holder hhas := by
    rw [Handing.valuesAt_append]
    exact (h.gathers holder hhas).append (h'.gathers holder (h.same.has hhas))
  symbol id hne := by
    obtain ⟨hfirst, hrest⟩ := List.forall_mem_append.mp hne
    exact (h'.symbol id hrest).trans (h.symbol id hfirst)
  kwargs dict hne := by
    obtain ⟨hfirst, hrest⟩ := List.forall_mem_append.mp hne
    exact (h'.kwargs dict hrest).trans (h.kwargs dict hfirst)
  same := h.same.trans h'.same

theorem handed_perform (h : Handing) (s : Store) : Handed [h] s (h.perform s).2 where
  gathers holder hhas := by
    by_cases hholder : h.holder = holder
    · obtain rfl := hholder
      rw [show Handing.valuesAt h.holder [h] = [h.value] by simp [Handing.valuesAt]]
      exact gathers_perform hhas
    · rw [show Handing.valuesAt holder [h] = [] by simp [Handing.valuesAt, hholder], held_perform_of_ne hholder]
      exact .done _ (nextSerial_perform h s)
  symbol id hne := symbol_perform (hne h List.mem_cons_self)
  kwargs dict hne := kwargsOf_perform (hne h List.mem_cons_self)
  same := sameBesideHolders_perform h s

/-- **Each holder gathers what is handed to it**, whatever is handed to others in between. -/
theorem handed_performAll (hs : List Handing) (s : Store) : Handed hs s (Handing.performAll hs s).2 := by
  induction hs generalizing s with
  | nil => exact handed_nil s (Nat.le_refl _)
  | cons h rest ih => exact (handed_perform h s).trans (ih (h.perform s).2)

end Store

end Surmise
