import Surmise.Proofs.Propagation.Regular.Basic
import Surmise.Proofs.Store.Handings

/-!
# Arguments of calls

Binding the arguments of a call hands values to the parameters of a function and to its keyword dictionary, one after
another. Which value goes where is said here for the signature of the function alone.

* `FunctionInfo.openParams`: the parameters that positional arguments are for.
* `FunctionInfo.Hands`: which value goes to which holder.
* `FunctionInfo.handings`: all of that, in the order of the call.
* `Run.bindArguments_apply`: binding the arguments of a call without spreads does just this.
* `Run.arguments_reach_their_parameters`: the main statement.
-/

namespace Surmise

open Handing Store Value

/-! ## Which value goes where -/

namespace FunctionInfo

variable {info : FunctionInfo} {args : Args} {holder : Holder} {v : Value}

/-- The parameters that positional arguments are for: neither keyword-only nor taken up by the receiver. -/
def openParams (info : FunctionInfo) : List Param :=
  (info.params.zipIdx.filter fun e => !e.1.keywordOnly && (e.2 != 0 || info.receiver = .unbound)).map Prod.fst

/-- The parameters behind the one that the receiver takes up. -/
def afterReceiver (info : FunctionInfo) : List Param :=
  info.params.drop (if info.receiver = .unbound then 0 else 1)

/-- The holder of an argument that is given by name: the parameter of that name, or an entry of the dictionary. -/
def holderOf? (info : FunctionInfo) (name : String) : Option Holder :=
  match info.params.find? fun p => p.name == name with
  | some p => some (.symbol p.symbol)
  | none => info.kwargs.map (Holder.entry · name)

/-- The arguments that are left when all open parameters have one. -/
def overflow (info : FunctionInfo) (args : Args) : Value :=
  listOf (unite (args.positional.drop info.openParams.length))

/-- A call without spreads hands the value to the holder. -/
inductive Hands (info : FunctionInfo) (args : Args) : Holder → Value → Prop
  | positional {i : Nat} {p : Param} {v : Value} (hp : info.openParams[i]? = some p)
      (hv : args.positional[i]? = some v) : Hands info args (.symbol p.symbol) v
  | overflow {id : SymbolId} (hid : info.vararg = some id)
      (hmore : info.openParams.length < args.positional.length) : Hands info args (.symbol id) (info.overflow args)
  | named {name : String} {p : Param} {v : Value} (hv : (name, v) ∈ args.keywords)
      (hp : info.params.find? (fun p => p.name == name) = some p) : Hands info args (.symbol p.symbol) v
  | entry {name : String} {dict : KwargsId} {v : Value} (hv : (name, v) ∈ args.keywords)
      (hnone : ∀ p ∈ info.params, p.name ≠ name) (hdict : info.kwargs = some dict) :
      Hands info args (.entry dict name) v

def positionalHandings (info : FunctionInfo) (args : Args) : List Handing :=
  List.zipWith (fun p v => ⟨.symbol p.symbol, v⟩) info.openParams args.positional

def overflowHandings (info : FunctionInfo) (args : Args) : List Handing :=
  if info.openParams.length < args.positional.length then
    info.vararg.toList.map fun id => ⟨.symbol id, info.overflow args⟩
  else []

def keywordHandings (info : FunctionInfo) (keywords : List (String × Value)) : List Handing :=
  keywords.flatMap fun e => (info.holderOf? e.1).toList.map fun holder => ⟨holder, e.2⟩

/-- What a call without spreads hands out, in order. -/
def handings (info : FunctionInfo) (args : Args) : List Handing :=
  info.positionalHandings args ++ info.overflowHandings args ++ info.keywordHandings args.keywords

/-- The values that a call without spreads hands to a symbol or an entry, in order. -/
def handed (info : FunctionInfo) (args : Args) (holder : Holder) : List Value :=
  Handing.valuesAt holder (info.handings args)

theorem mem_positionalHandings {h : Handing} : h ∈ info.positionalHandings args ↔
    ∃ (i : Nat) (p : Param), info.openParams[i]? = some p ∧ args.positional[i]? = some h.value ∧
      h.holder = .symbol p.symbol := by
  unfold positionalHandings
  rw [List.mem_iff_getElem?]
  simp only [List.getElem?_zipWith]
  constructor
  · rintro ⟨i, hi⟩
    split at hi
    · next p v hp hv =>
      cases hi
      exact ⟨i, p, hp, hv, rfl⟩
    · cases hi
  · rintro ⟨i, p, hp, hv, hholder⟩
    refine ⟨i, ?_⟩
    rw [hp, hv]
    show some (Handing.mk _ _) = _
    rw [← hholder]

theorem holderOf?_eq_some_iff {name : String} : info.holderOf? name = some holder ↔
    (∃ p, info.params.find? (fun p => p.name == name) = some p ∧ holder = .symbol p.symbol) ∨
      (∀ p ∈ info.params, p.name ≠ name) ∧ ∃ dict, info.kwargs = some dict ∧ holder = .entry dict name := by
  unfold holderOf?
  cases hfind : info.params.find? (fun p => p.name == name) with
  | some p =>
    have hname : p.name = name := by simpa using List.find?_some hfind
    have hmem : p ∈ info.params := List.mem_of_find?_eq_some hfind
    constructor
    · intro h
      cases h
      exact .inl ⟨p, rfl, rfl⟩
    · rintro (⟨_, hp, rfl⟩ | ⟨hnone, -⟩)
      · cases hp
        rfl
      · exact absurd hname (hnone p hmem)
  | none =>
    have hnone : ∀ p ∈ info.params, p.name ≠ name := by simpa using List.find?_eq_none.mp hfind
    rw [Option.map_eq_some_iff]
    constructor
    · rintro ⟨dict, hdict, rfl⟩
      exact .inr ⟨hnone, dict, hdict, rfl⟩
    · rintro (⟨_, hp, -⟩ | ⟨-, dict, hdict, rfl⟩)
      · cases hp
      · exact ⟨dict, hdict, rfl⟩

/-- **All that a call hands out** goes where it belongs, and all that belongs somewhere is handed out. -/
theorem mem_handed_iff : v ∈ info.handed args holder ↔ info.Hands args holder v := by
  unfold handed
  rw [mem_valuesAt]
  constructor
  · rintro ⟨h, hmem, rfl, rfl⟩
    rcases List.mem_append.mp hmem with hmem | hkeyword
    · rcases List.mem_append.mp hmem with hpositional | hoverflow
      · obtain ⟨i, p, hp, hv, hholder⟩ := mem_positionalHandings.mp hpositional
        rw [hholder]
        exact .positional hp hv
      · unfold overflowHandings at hoverflow
        split at hoverflow
        · next hmore =>
          obtain ⟨id, hid, rfl⟩ := List.mem_map.mp hoverflow
          exact .overflow (Option.mem_toList.mp hid) hmore
        · cases hoverflow
    · obtain ⟨⟨name, v⟩, hv, hmem⟩ := List.mem_flatMap.mp hkeyword
      obtain ⟨holder, hholder, rfl⟩ := List.mem_map.mp hmem
      rcases holderOf?_eq_some_iff.mp (Option.mem_toList.mp hholder) with ⟨p, hp, rfl⟩ | ⟨hnone, dict, hdict, rfl⟩
      · exact .named hv hp
      · exact .entry hv hnone hdict
  · have hkeyword : ∀ {name : String} {v : Value} {holder : Holder}, (name, v) ∈ args.keywords →
        info.holderOf? name = some holder → ⟨holder, v⟩ ∈ info.handings args := by
      intro name v holder hv hholder
      refine List.mem_append_right _ (List.mem_flatMap.mpr ⟨_, hv, List.mem_map.mpr ⟨holder, ?_, rfl⟩⟩)
      exact Option.mem_toList.mpr hholder
    intro h
    cases h with
    | @positional i p v hp hv =>
      refine ⟨⟨.symbol p.symbol, v⟩, List.mem_append_left _ (List.mem_append_left _ ?_), rfl, rfl⟩
      exact mem_positionalHandings.mpr ⟨i, p, hp, hv, rfl⟩
    | @overflow id hid hmore =>
      refine ⟨⟨.symbol id, info.overflow args⟩, List.mem_append_left _ (List.mem_append_right _ ?_), rfl, rfl⟩
      unfold overflowHandings
      rw [if_pos hmore]
      exact List.mem_map_of_mem (Option.mem_toList.mpr hid)
    | named hv hp => exact ⟨_, hkeyword hv (holderOf?_eq_some_iff.mpr (.inl ⟨_, hp, rfl⟩)), rfl, rfl⟩
    | entry hv hnone hdict =>
      exact ⟨_, hkeyword hv (holderOf?_eq_some_iff.mpr (.inr ⟨hnone, _, hdict, rfl⟩)), rfl, rfl⟩

theorem map_fst_filter_zipIdx (params : List Param) {k : Nat} {unbound : Bool} (h : k ≠ 0 ∨ unbound = true) :
    ((params.zipIdx k).filter fun e => !e.1.keywordOnly && (e.2 != 0 || unbound)).map Prod.fst =
      params.filter fun p => !p.keywordOnly := by
  induction params generalizing k with
  | nil => rfl
  | cons p rest ih =>
    have hopen : (k != 0 || unbound) = true := by simpa using h
    rw [List.zipIdx_cons, List.filter_cons, List.filter_cons, hopen, Bool.and_true]
    have hrest := ih (k := k + 1) (.inl (Nat.succ_ne_zero k))
    split
    · rw [List.map_cons, hrest]
    · exact hrest

theorem openParams_eq (info : FunctionInfo) : info.openParams = info.afterReceiver.filter fun p => !p.keywordOnly := by
  unfold openParams afterReceiver
  by_cases hunbound : info.receiver = .unbound
  · rw [if_pos hunbound, map_fst_filter_zipIdx info.params (.inr (decide_eq_true hunbound)), List.drop_zero]
  · rw [if_neg hunbound]
    cases info.params with
    | nil => rfl
    | cons p rest =>
      have hfirst : (!p.keywordOnly && ((0 : Nat) != 0 || decide (info.receiver = .unbound))) = false := by
        simp [hunbound]
      rw [List.zipIdx_cons, List.filter_cons_of_neg (by rw [hfirst]; exact Bool.false_ne_true)]
      exact map_fst_filter_zipIdx rest (.inl Nat.one_ne_zero)

end FunctionInfo

theorem Store.positionalParams_eq (s : Store) (f : FunctionId) :
    s.positionalParams f = (s.function f).openParams.map Param.symbol := by
  rw [FunctionInfo.openParams_eq]
  rfl

/-! ## Binding arguments -/

namespace StoreM

theorem bindInOrder_eq (params : List Param) (vs : List Value) (s : Store) :
    bindInOrder (params.map Param.symbol) vs s =
      performAll (List.zipWith (fun p v => ⟨.symbol p.symbol, v⟩) params vs) s := by
  induction params generalizing vs s with
  | nil => rfl
  | cons p rest ih =>
    cases vs with
    | nil => rfl
    | cons v vs => exact ih vs (produce p.symbol v s).2

theorem bindKeyword_eq (f : FunctionId) (name : String) (v : Value) (s : Store) : bindKeyword f name v s =
      performAll (((s.function f).holderOf? name).toList.map fun holder => ⟨holder, v⟩) s := by
  have hget : ∀ next : Store → StoreM Unit, (get >>= next) s = next s s := fun _ => rfl
  unfold bindKeyword param? FunctionInfo.holderOf?
  rw [hget]
  cases (s.function f).params.find? fun p => p.name == name with
  | some p => rfl
  | none =>
    rw [Option.map_none]
    dsimp only
    rw [hget]
    cases (s.function f).kwargs <;> rfl

theorem bindKeywords_eq (f : FunctionId) (keywords : List (String × Value)) (s : Store) :
    bindKeywords f keywords s = performAll ((s.function f).keywordHandings keywords) s := by
  induction keywords generalizing s with
  | nil => rfl
  | cons first rest ih =>
    obtain ⟨name, v⟩ := first
    have hfirst := bindKeyword_eq f name v s
    -- The signature that the rest is bound by is the one from before.
    have hsame : (bindKeyword f name v s).2.function f = s.function f := by
      rw [hfirst]
      exact (handed_performAll _ s).same.function f
    show bindKeywords f rest (bindKeyword f name v s).2 = _
    rw [ih, hsame, hfirst, ← performAll_append]
    rfl

end StoreM

namespace Run

/-- The session after values were handed out. -/
def handedOut (hs : List Handing) (t : Session) : Session := { t with store := (Handing.performAll hs t.store).2 }

theorem bindPositional_apply (f : FunctionId) (args : Args) (σ : Setting) (t : Session) :
    bindPositional f args σ t = (.ok (), handedOut
      ((t.store.function f).positionalHandings args ++ (t.store.function f).overflowHandings args) t) := by
  have hbind : StoreM.bindInOrder (t.store.positionalParams f) args.positional t.store =
      performAll ((t.store.function f).positionalHandings args) t.store := by
    rw [positionalParams_eq, StoreM.bindInOrder_eq]
    rfl
  have hsame := (handed_performAll ((t.store.function f).positionalHandings args) t.store).same.function f
  unfold bindPositional
  rw [getStore_bind_apply, bind_apply, inStore_apply, hbind, positionalParams_eq, List.length_map, handedOut,
    performAll_append, FunctionInfo.overflowHandings]
  generalize (performAll ((t.store.function f).positionalHandings args) t.store).2 = s at hsame
  dsimp only
  split
  · rw [getStore_bind_apply, hsame]
    cases (t.store.function f).vararg with
    | none => rfl
    | some id =>
      rw [Option.toList_some, List.map_singleton, performAll_symbol, FunctionInfo.overflow]
      rfl
  · rfl

/-- The session after the first line that binding says. -/
def announced (f : FunctionId) (t : Session) : Session :=
  t.watching (if t.trace.isOpen then t.trace.line ("binding arguments of " :: (t.store.functionAddress f).pieces)
    else t.trace) t.observer

/-- **Binding the arguments of a call without spreads** hands out what the signature says, and does nothing else. -/
theorem bindArguments_apply (f : FunctionId) {args : Args} (hvararg : args.vararg = none) (hkwarg : args.kwarg = none)
    (σ : Setting) (t : Session) :
    bindArguments f args σ t = (.ok (), handedOut ((t.store.function f).handings args) (announced f t)) := by
  have hspread : ∀ u : Session, bindSpread f args σ u = (.ok (), u) := by
    intro u
    unfold bindSpread
    rw [hvararg]
    rfl
  have hsame : ∀ hs, (performAll hs t.store).2.function f = t.store.function f :=
    fun hs => (handed_performAll hs t.store).same.function f
  unfold bindArguments
  rw [bind_apply, say_apply]
  show (bindPositional f args >>= _) σ (announced f t) = _
  rw [bind_apply, bindPositional_apply]
  show (bindSpread f args >>= _) σ (handedOut _ (announced f t)) = _
  rw [bind_apply, hspread]
  show (inStore (StoreM.bindKeywords f args.keywords) >>= _) σ (handedOut _ (announced f t)) = _
  rw [bind_apply, inStore_apply, StoreM.bindKeywords_eq, hkwarg]
  show (Except.ok (), Session.mk (performAll (((performAll _ t.store).2.function f).keywordHandings _)
    (performAll _ t.store).2).2 _ _ _ _ _ _ _ _) = _
  rw [hsame, ← performAll_append]
  rfl

/--
**Arguments reach exactly the parameters they name.** Binding the arguments of a call without spreads goes through.
Each symbol and each entry of a keyword dictionary joins what it held with what the call hands to it, in order: the
positional argument for it, all that overflows as one list, and what is given by its name. If all of these are sound,
it then holds the join of them. Whatever is handed nothing stays as it is, and so does the rest of the store and of the
session, but for the trace.
-/
theorem arguments_reach_their_parameters (σ : Setting) (t : Session) (f : FunctionId) (args : Args)
    (hvararg : args.vararg = none) (hkwarg : args.kwarg = none) :
    let info := t.store.function f
    ∃ t', bindArguments f args σ t = (.ok (), t') ∧
      (∀ holder v, v ∈ info.handed args holder ↔ info.Hands args holder v) ∧
      (∀ holder, t.store.Has holder →
        Value.Gathers t.store.nextSerial t'.store.nextSerial (t.store.held holder) (info.handed args holder)
          (t'.store.held holder) ∧
        ((∀ v ∈ (t.store.held holder).toList ++ info.handed args holder, v.Joinable t.store.nextSerial) →
          (t'.store.held holder).map Value.byParts =
            Value.joinAll? ((t.store.held holder).toList ++ info.handed args holder))) ∧
      (∀ id, (∀ v, ¬ info.Hands args (.symbol id) v) → t'.store.symbol id = t.store.symbol id) ∧
      (∀ dict, (∀ name v, ¬ info.Hands args (.entry dict name) v) → t'.store.kwargsOf dict = t.store.kwargsOf dict) ∧
      t.store.SameBesideHolders t'.store ∧ t' = { t with store := t'.store, trace := t'.trace } := by
  intro info
  have hhands : ∀ {h : Handing}, h ∈ info.handings args → info.Hands args h.holder h.value := by
    intro h hmem
    exact FunctionInfo.mem_handed_iff.mp (Handing.mem_valuesAt.mpr ⟨h, hmem, rfl, rfl⟩)
  have hhanded := Store.handed_performAll (info.handings args) t.store
  refine ⟨_, bindArguments_apply f hvararg hkwarg σ t, fun holder v => FunctionInfo.mem_handed_iff, ?_, ?_, ?_,
    hhanded.same, rfl⟩
  · intro holder hhas
    have hgathers := hhanded.gathers holder hhas
    exact ⟨hgathers, hgathers.byParts_eq⟩
  · intro id hnone
    refine hhanded.symbol id fun h hmem hholder => hnone h.value ?_
    rw [← hholder]
    exact hhands hmem
  · intro dict hnone
    refine hhanded.kwargs dict fun h hmem name hholder => hnone name h.value ?_
    rw [← hholder]
    exact hhands hmem

def bareSetting : Setting := ⟨.empty, default, [], ⟨0⟩, .idle, default⟩

/-- A method with a parameter, a list of further ones, a keyword-only parameter and a dictionary. -/
def richMethod : FunctionInfo :=
  { (default : FunctionInfo) with
    params := [⟨"self", ⟨0⟩, false⟩, ⟨"a", ⟨1⟩, false⟩, ⟨"k", ⟨3⟩, true⟩]
    vararg := some ⟨2⟩
    kwargs := some ⟨0⟩
    receiver := .onInstance }

def richStore : Store :=
  { Store.empty with
    symbols := #[⟨"self", default, .empty, false⟩, ⟨"a", default, .empty, false⟩, ⟨"rest", default, .empty, false⟩,
      ⟨"k", default, .empty, false⟩]
    kwargs := #[.empty]
    functions := #[richMethod] }

/-- Three positional arguments, one for the keyword-only parameter and one for the dictionary. -/
def richCall : Args :=
  { positional := [.ofInt 1, .null, .str (some "u")], keywords := [("k", .null), ("z", .ofInt 2)] }

/-- What the parameters and the entry of the dictionary are joined from. The receiver is not among them. -/
def richJoins : List (Holder × List Value) :=
  [(.symbol ⟨1⟩, [.empty, .ofInt 1]), (.symbol ⟨2⟩, [.empty, listOf (unite [.null, .str (some "u")])]),
    (.symbol ⟨3⟩, [.empty, .null]), (.entry ⟨0⟩ "z", [.ofInt 2])]

/-- The first argument goes behind the receiver, and the other two overflow past the keyword-only parameter. -/
theorem arguments_reach_their_parameters_method :
    let t : Session := { (default : Session) with store := richStore }
    richCall.vararg = none ∧ richCall.kwarg = none ∧
      ∃ t', bindArguments ⟨0⟩ richCall bareSetting t = (.ok (), t') ∧
        t'.store.symbol ⟨0⟩ = t.store.symbol ⟨0⟩ ∧
        ∀ e ∈ richJoins, (t'.store.held e.1).map Value.byParts = Value.joinAll? e.2 := by
  intro t
  obtain ⟨t', hrun, hmem, hgathers, hsymbol, -⟩ :=
    arguments_reach_their_parameters bareSetting t ⟨0⟩ richCall rfl rfl
  have hhas : ∀ e ∈ richJoins, t.store.Has e.1 := by
    simp [richJoins, t, richStore, Store.Has]
  have hlists : ∀ e ∈ richJoins, (t.store.held e.1).toList ++ (t.store.function ⟨0⟩).handed richCall e.1 = e.2 := by
    have hhandings : (t.store.function ⟨0⟩).handings richCall = [⟨.symbol ⟨1⟩, .ofInt 1⟩,
        ⟨.symbol ⟨2⟩, listOf (unite [.null, .str (some "u")])⟩, ⟨.symbol ⟨3⟩, .null⟩, ⟨.entry ⟨0⟩ "z", .ofInt 2⟩] := rfl
    simp only [richJoins, List.forall_mem_cons, FunctionInfo.handed, hhandings]
    exact ⟨rfl, rfl, rfl, rfl, by simp⟩
  have hjoinable : ∀ e ∈ richJoins, ∀ v ∈ e.2, v.Joinable 0 := by
    have hlist : (listOf (unite [.null, .str (some "u")])).Joinable 0 :=
      ⟨Value.sound_listOf (Value.sound_unite (by simp)), .numbered rfl⟩
    simp only [richJoins, List.forall_mem_cons]
    exact ⟨⟨⟨by simp, .numbered rfl⟩, ⟨by simp, .numbered rfl⟩, by simp⟩, ⟨⟨by simp, .numbered rfl⟩, hlist, by simp⟩,
      ⟨⟨by simp, .numbered rfl⟩, ⟨by simp, .numbered rfl⟩, by simp⟩, ⟨⟨by simp, .numbered rfl⟩, by simp⟩, by simp⟩
  refine ⟨rfl, rfl, t', hrun, hsymbol ⟨0⟩ fun v hv => ?_, fun e he => ?_⟩
  · have hnone : (t.store.function ⟨0⟩).handed richCall (.symbol ⟨0⟩) = [] := rfl
    have hhanded := (hmem (.symbol ⟨0⟩) v).mpr hv
    rw [hnone] at hhanded
    cases hhanded
  · have hjoin := (hgathers e.1 (hhas e he)).2
    rw [hlists e he] at hjoin
    exact hjoin (hjoinable e he)

end Run

end Surmise
