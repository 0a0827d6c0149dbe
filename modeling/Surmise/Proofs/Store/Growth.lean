import Surmise.Proofs.Store.Objects
import Surmise.Proofs.Value.Growth

/-!
# Growth of stores

While a program is evaluated, what is known of symbols and keyword dictionaries only grows.

* `Store.GrownBut`: all values have grown, but those of some symbols.
* `Store.Step.grown`: a single change lets values grow.
* `Store.grown_newFunction`, `Store.grown_newClass`: so does making a function or a class.
-/

namespace Surmise.Store

open StoreM

/-- The values of symbols and of the entries of keyword dictionaries have grown; those of exempt symbols
may have changed in any way. -/
structure GrownBut (exempt : SymbolId → Prop) (s s' : Store) : Prop where
  symbols : s.symbols.size ≤ s'.symbols.size
  values : ∀ id : SymbolId, id.index < s.symbols.size → ¬ exempt id → (s.value id).Grows (s'.value id)
  kwargs : ∀ dict name v, (s.kwargsOf dict).get? name = some v →
    ∃ v', (s'.kwargsOf dict).get? name = some v' ∧ v.Grows v'

variable {exempt exempt' exempt'' : SymbolId → Prop} {s s' s'' : Store} {v : Value}

theorem grownBut_of_same (hsymbols : s'.symbols = s.symbols) (hkwargs : s'.kwargs = s.kwargs) :
    GrownBut exempt s s' := by
  refine ⟨Nat.le_of_eq (by rw [hsymbols]), fun id _ _ => ?_, fun dict name v hv => ⟨v, ?_, .refl v⟩⟩
  · unfold value symbol
    rw [hsymbols]
  · unfold kwargsOf at hv ⊢
    rwa [hkwargs]

theorem GrownBut.refl (s : Store) : GrownBut exempt s s := grownBut_of_same rfl rfl

/-- What is exempt before or after is exempt altogether, if it was there before. -/
theorem GrownBut.trans (h : GrownBut exempt s s') (h' : GrownBut exempt' s' s'')
    (hbefore : ∀ id : SymbolId, id.index < s.symbols.size → exempt id → exempt'' id)
    (hafter : ∀ id : SymbolId, id.index < s.symbols.size → exempt' id → exempt'' id) :
    GrownBut exempt'' s s'' := by
  refine ⟨Nat.le_trans h.symbols h'.symbols, fun id hid hexempt => ?_, fun dict name v hv => ?_⟩
  · have hmid := h.values id hid fun he => hexempt (hbefore id hid he)
    exact hmid.trans (h'.values id (Nat.lt_of_lt_of_le hid h.symbols) fun he => hexempt (hafter id hid he))
  · obtain ⟨v', hv', hgrows⟩ := h.kwargs dict name v hv
    obtain ⟨v'', hv'', hgrows'⟩ := h'.kwargs dict name v' hv'
    exact ⟨v'', hv'', hgrows.trans hgrows'⟩

/-! ## Writes -/

theorem value_put (s : Store) (id other : SymbolId) (v : Value) : (put id v s).2.value other =
      if id.index = other.index ∧ other.index < s.symbols.size then (v.number s.nextSerial).1
      else s.value other := by
  rw [put_eq]
  unfold value symbol
  dsimp only [withValue]
  rw [getD_modify]
  split <;> rfl

/-- A symbol that is not exempt may be given a grown value. -/
theorem grownBut_put (hs : s.Sound) (id : SymbolId) (v : Value)
    (h : ¬ exempt id → id.index < s.symbols.size → (s.value id).Grows v) :
    GrownBut exempt s (put id v s).2 := by
  refine ⟨(extends_put s id v).symbols, fun other hother hexempt => ?_, fun dict name w hw => ⟨w, ?_, .refl w⟩⟩
  · rw [value_put]
    split
    · next hsame =>
      obtain rfl : id = other := congrArg SymbolId.mk hsame.1
      exact (h hexempt hother).number (hs.numbered id) _
    · exact .refl _
  · rw [put_eq]
    exact hw

theorem grownBut_newSymbol (s : Store) (name : String) (address : Address) (isPrivate : Bool) :
    GrownBut exempt s (newSymbol name address isPrivate s).2 := by
  refine ⟨(extends_newSymbol s name address isPrivate).symbols, fun id hid _ => ?_,
    fun dict name v hv => ⟨v, hv, .refl v⟩⟩
  show (s.value id).Grows ((s.symbols.push _).getD id.index default).value
  rw [getD_push, if_neg (Nat.ne_of_lt hid)]
  exact .refl _

theorem grownBut_createPrivate (s : Store) (table : TableId) (name : String) (isPrivate : Bool) :
    GrownBut exempt s (createPrivate table name isPrivate s).2 := by
  rw [createPrivate_eq]
  split
  · exact .refl s
  · have hnew : GrownBut exempt s _ :=
      grownBut_newSymbol s name ((s.table table).address.child name) isPrivate
    exact ⟨hnew.symbols, hnew.values, hnew.kwargs⟩

theorem grownBut_producePrivate (hs : s.Sound) (id : SymbolId) (hv : v.Sound s.nextSerial)
    (isPrivate : Bool) : GrownBut exempt s (producePrivate id v isPrivate s).2 := by
  have hpublish : GrownBut exempt s (publish id isPrivate s) := by
    refine ⟨by simp [publish], fun other _ _ => ?_, fun dict name w hw => ⟨w, hw, .refl w⟩⟩
    rw [value_publish]
  rw [producePrivate_eq]
  split
  · exact hpublish
  · refine hpublish.trans (grownBut_put (hs.publish id isPrivate) id _ fun _ _ => ?_) (fun _ _ he => he)
      fun _ _ he => he
    rw [value_publish]
    refine Value.grows_unite fun u hu => ?_
    rcases List.mem_cons.mp hu with rfl | hu
    · exact (hs.value id).wellFormed
    · obtain rfl := List.mem_singleton.mp hu
      exact hv.wellFormed

theorem grows_joinedKwarg (hs : s.Sound) {dict : KwargsId} {name : String} {current : Value}
    (hv : v.Sound s.nextSerial) (hcurrent : (s.kwargsOf dict).get? name = some current) :
    current.Grows ((joinedKwarg s dict name v).number s.nextSerial).1 := by
  obtain ⟨hsound, hnumbered⟩ := hs.kwargs dict current (OrderedMap.mem_values_of_get? hcurrent)
  unfold joinedKwarg
  rw [hcurrent]
  refine Value.Grows.number (Value.grows_unite fun u hu => ?_) hnumbered _
  rcases List.mem_cons.mp hu with rfl | hu
  · exact hsound.wellFormed
  · obtain rfl := List.mem_singleton.mp hu
    exact hv.wellFormed

theorem grownBut_addKwarg (hs : s.Sound) (dict : KwargsId) (name : String)
    (hv : v.Sound s.nextSerial) : GrownBut exempt s (addKwarg dict name v s).2 := by
  rw [addKwarg_eq]
  refine ⟨Nat.le_refl _, fun id _ _ => .refl _, fun dict' name' current hcurrent => ?_⟩
  unfold kwargsOf
  dsimp only
  rw [getD_modify]
  split
  · next hsame =>
    obtain rfl : dict = dict' := congrArg KwargsId.mk hsame.1
    rw [OrderedMap.get?_insert]
    split
    · next hname =>
      subst hname
      exact ⟨_, rfl, grows_joinedKwarg hs hv hcurrent⟩
    · exact ⟨current, hcurrent, .refl _⟩
  · exact ⟨current, hcurrent, .refl _⟩

/-! ## Steps -/

theorem Step.grown (h : Step s s') (hs : s.Sound) : GrownBut exempt s s' := by
  cases h with
  | raise | addSubclass | setBases | setFramework => exact grownBut_of_same rfl rfl
  | create hfree name isPrivate => exact grownBut_createPrivate s _ name isPrivate
  | produce symbol hv isPrivate => exact grownBut_producePrivate hs symbol hv isPrivate
  | init symbol hv hempty =>
    refine grownBut_put hs symbol _ fun _ _ => ?_
    rw [hempty]
    exact Value.grows_empty _
  | newSymbol name address isPrivate => exact grownBut_newSymbol s name address isPrivate
  | newKwargs =>
    refine ⟨Nat.le_refl _, fun id _ _ => .refl _, fun dict name v hv => ⟨v, ?_, .refl v⟩⟩
    show ((s.kwargs.push .empty).getD dict.index .empty).get? name = some v
    rw [getD_push, if_neg]
    · exact hv
    · intro hlast
      unfold kwargsOf at hv
      rw [getD_of_size_le (Nat.le_of_eq hlast.symm)] at hv
      cases hv
  | addKwarg dict name hv => exact grownBut_addKwarg hs dict name hv

theorem Steps.grown (h : Steps s s') (hs : s.Consistent) : GrownBut exempt s s' := by
  induction h with
  | refl => exact .refl s
  | tail hbefore hstep ih =>
    have hmid := Steps.consistent hbefore hs
    exact ih.trans (hstep.grown hmid.sound) (fun _ _ he => he) fun _ _ he => he

/-! ## New functions and classes -/

theorem grown_newFunction (hs : s.Consistent) (hfree : ¬ s.IsPackageScope ⟨s.tables.size⟩)
    (spec : FunctionSpec) : GrownBut exempt s (newFunction spec s).2 := by
  obtain ⟨mid, info, hsteps, -, heq⟩ := newFunction_spec spec hfree
  have hgrown : GrownBut exempt _ mid :=
    hsteps.grown (consistent_opened spec.address (some spec.parent) hs)
  rw [heq]
  exact ⟨hgrown.symbols, hgrown.values, hgrown.kwargs⟩

theorem grown_newClass (hs : s.Consistent) (hfree : ¬ s.IsPackageScope ⟨s.tables.size⟩) (name : String)
    (address : Address) (moduleName : String) :
    GrownBut exempt s (newClass name address moduleName s).2 := by
  obtain ⟨st, hsteps, heq⟩ := newClass_spec name address moduleName hfree
  have hgrown : GrownBut exempt _ st := hsteps.grown (consistent_classAdded hs name address)
  rw [heq]
  exact ⟨hgrown.symbols, hgrown.values, hgrown.kwargs⟩

end Surmise.Store
