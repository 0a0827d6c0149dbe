import Surmise.Proofs.Store.Growth
import Surmise.Proofs.WorkList.Builds

/-!
# Bases and subclasses agree

The bases of a class are replaced whenever its definition is evaluated, and its place below them stays. So a
class is found from all its ancestors, in the state of every assembler and in every state that a build visits
something in. Methods are visited with all subclasses in view: the first parameter is bound to an alternative for
each of them, unless there are more than fit into one value.

* `Assembler.Reached.coherent`, `Assembler.ComesTo.coherent`: the store is coherent whenever something is visited.
* `Run.value_bindReceiver`: what the first parameter of a method is bound to.
* `Assembler.ComesTo.subclasses_found`: the main statement.
-/

namespace Surmise

open Run Value Store

/-! ## Adding files -/

namespace StoreM

theorem keeps_newModule (name : String) (path : Path) (builtins : TableId) :
    KeepsDefinitions (newModule name path builtins) := by
  refine (keeps_newTable _ _).bind fun members => (keeps_putAll members _).bind fun _ => ?_
  exact keeps_of_same fun _ => ⟨rfl, rfl, rfl, Nat.le_refl _, fun _ => List.prefix_rfl⟩

end StoreM

namespace SourceTree

variable {Q : Path → Prop} {a b : Store × SourceTree}

theorem Load.keepsDefinitions (h : Load Q a b) : a.1.KeepsDefinitions b.1 := by
  cases h with
  | package s t hnew =>
    exact keepsDefinitions_of_same rfl rfl rfl (Nat.le_refl _) fun _ => ⟨[_], Array.toList_push.symm⟩
  | entry s t hp hname hv => exact StoreM.keeps_produceIn _ _ _ s
  | init s t p m =>
    exact keepsDefinitions_of_same rfl rfl rfl (Nat.le_refl _) fun _ => List.prefix_rfl

theorem Loads.keepsDefinitions (h : Loads Q a b) : a.1.KeepsDefinitions b.1 := by
  induction h with
  | refl => exact keepsDefinitions_of_same rfl rfl rfl (Nat.le_refl _) fun _ => List.prefix_rfl
  | tail _ hload ih => exact ih.trans hload.keepsDefinitions

end SourceTree

/-! ## Passes -/

namespace Run

variable {σ : Setting} {s : Session}

theorem keepsCoherent_refine (σ : Setting) (s : Session) : s.store.KeepsCoherent (refine σ s).2.store := by
  rw [refine_apply]
  split
  · next recorder _ =>
    exact (keeps_refineSymbols σ.graph s.handle.isCancelled recorder.attrs 0 s.store).1.keepsCoherent
  · exact .refl _

variable (hσ : σ.Benign)

include hσ

theorem keepsCoherent_visitAll (depth : Nat) (items : List WorkItem) (s : Session) :
    s.store.KeepsCoherent (visitAll (.ofDepth depth) items σ s).2.store :=
  ((regular_visitAll (K := .ofFiles True []) (fun _ _ => .inl rfl) depth items).onward (fun _ => id) hσ s).coherent

theorem keepsCoherent_pass (steps current total : Nat) (s : Session) :
    s.store.KeepsCoherent (pass steps current total σ s).2.store := by
  rw [pass_apply, ← (same_begun hσ current total s).1]
  exact ((regular_visitItems (K := .ofFiles True []) (fun _ _ => .inl rfl) steps steps 0).onward
    (fun _ => id) hσ _).coherent

theorem keepsCoherent_passes (steps total left : Nat) (s : Session) :
    s.store.KeepsCoherent (passes steps total left σ s).2.store := by
  induction left generalizing s with
  | zero => exact .refl _
  | succ left ih =>
    rw [passes]
    exact state_bind (P := fun t => s.store.KeepsCoherent t.store)
      (keepsCoherent_pass hσ steps (total - left) total s) fun _ t ht => ht.trans (ih t)

theorem keepsCoherent_propagate (steps : Nat) (s : Session) :
    s.store.KeepsCoherent (propagate steps σ s).2.store := by
  obtain ⟨s', hrun, hschedules⟩ := schedules_scheduleModules σ s
  have hpasses := keepsCoherent_passes hσ steps σ.options.passes σ.options.passes s'
  rw [hschedules.store] at hpasses
  rw [propagate, bind_apply, hrun]
  exact hpasses

theorem keepsCoherent_build (steps : Nat) (handle : CancelHandle) (s : Session) :
    s.store.KeepsCoherent (build steps handle σ s).2.store := by
  rw [build_apply]
  split
  · exact .refl _
  · split
    · exact .refl _
    · exact state_bind (P := fun t => s.store.KeepsCoherent t.store)
        (keepsCoherent_propagate hσ steps { s with handle }) fun _ t ht => ht.trans (keepsCoherent_refine σ t)

theorem Passed.keepsCoherent {steps current : Nat} {s' : Session} (h : Passed σ steps s current s') :
    s.store.KeepsCoherent s'.store := by
  induction h with
  | start => exact .refl _
  | @pass current s₁ s₂ _ hpass ih =>
    have hlast := keepsCoherent_pass hσ steps (current + 1) σ.options.passes s₁
    rw [hpass] at hlast
    exact ih.trans hlast

end Run

/-! ## States -/

namespace Assembler

variable {a : Assembler}

theorem coherent_new (graph : Graph) (options : Options) (policies : List ClassPolicy) (trace : Trace)
    (delegate : Option Delegate) : (new graph options policies trace delegate).session.store.Coherent := by
  obtain ⟨_, base, rfl, -, -, -, heq⟩ := new_spec graph options policies trace delegate
  rw [heq]
  refine ⟨fun c base hbase => ?_, fun g p hp => ?_⟩
  · cases hbase
  · cases hp

theorem coherent_addFile (h : Ordered a.setting a.session) (hs : a.session.store.Coherent) (file : SourceFile) :
    (a.addFile file).session.store.Coherent := by
  obtain ⟨s', heq, hadded⟩ := addFile_spec (Q := fun _ => True) h.inv h.keyed file fun _ _ _ _ _ => trivial
  have hsession : (a.addFile file).session = s' := congrArg Prod.snd heq
  rw [hsession]
  rcases hadded with ⟨-, rfl⟩ | ⟨-, st, t, hloads, rfl⟩
  · have hstore : (a.session.searching file).store = a.session.store := by
      unfold Session.searching
      split <;> rfl
    rw [hstore]
    exact hs
  · have hmodule := StoreM.keeps_newModule file.path.moduleName file.path a.setting.builtins a.session.store
    generalize (StoreM.newModule file.path.moduleName file.path a.setting.builtins a.session.store).2 = made
      at hloads hmodule
    exact (hmodule.trans hloads.keepsDefinitions).keepsCoherent.coherent hs

theorem Reached.coherent (h : a.Reached) : a.session.store.Coherent := by
  induction h with
  | new graph options _ trace _ => exact coherent_new graph options _ trace _
  | addFile h file ih => exact coherent_addFile h.ordered ih file
  | attach _ _ _ _ _ ih => exact ih
  | build h steps handle ih => exact (keepsCoherent_build h.ordered.inv.benign steps handle _).coherent ih

/--
The assembler is in the state, or a build of it comes to the state when it is about to visit an item or while it
evaluates one, effect by effect. A build that is stopped leaves an assembler in the state in which it was stopped.
-/
inductive ComesTo (a : Assembler) : Session → Prop
  | now : ComesTo a a.session
  | visit {steps current : Nat} {handle : CancelHandle} {before : List WorkItem} {s s₁ t : Session}
      (hbegins : Run.scheduleModules a.setting { a.session with handle } = (.ok (), s))
      (hpassed : Run.Passed a.setting steps s current s₁)
      (hvisited : Run.visitAll (.ofDepth steps) before a.setting
        (Run.begun (current + 1) a.setting.options.passes a.setting s₁) = (.ok (), t)) : ComesTo a t
  | effect {t t' : Session} (h : ComesTo a t) (heffect : t.Effect (.ofFiles True []) a.setting t') : ComesTo a t'

theorem ComesTo.coherent {t : Session} (h : a.ComesTo t) (ha : a.Reached) : t.store.Coherent := by
  have hbenign := ha.ordered.inv.benign
  induction h with
  | now => exact ha.coherent
  | effect _ heffect ih => exact (heffect.onward fun _ => id).coherent.coherent ih
  | @visit steps current handle before s s₁ _ hbegins hpassed hvisited =>
    obtain ⟨s', hrun, hschedules⟩ := schedules_scheduleModules a.setting { a.session with handle }
    obtain rfl : s' = s := congrArg Prod.snd (hrun.symm.trans hbegins)
    have hvisits := keepsCoherent_visitAll hbenign steps before
      (begun (current + 1) a.setting.options.passes a.setting s₁)
    rw [hvisited, (same_begun hbenign _ _ s₁).1] at hvisits
    refine hvisits.coherent ((hpassed.keepsCoherent hbenign).coherent ?_)
    rw [hschedules.store]
    exact ha.coherent

end Assembler

/-! ## Methods -/

/-- What the first parameter of a method stands for, given one of the classes that it is called on. -/
def Receiver.form? : Receiver → Option (ClassId → Value)
  | .unbound => none
  | .onInstance => some .instanceOf
  | .onClass => some .classRef

theorem alternatives_map_form {receiver : Receiver} {form : ClassId → Value} (hform : receiver.form? = some form)
    {classes : List ClassId} (hnodup : classes.Nodup) (hfew : classes.length ≤ maxDisjuncts) :
    Alternatives (classes.map form) ∧ ∀ v ∈ classes.map form, v.isMerged = false ∧ v.isNumbered = true := by
  have hatom : (∀ c, (form c).isUnion = false ∧ (form c).isMerged = false ∧ (form c).isNumbered = true) ∧
      Function.Injective fun c => (form c).slot := by
    cases receiver with
    | unbound => cases hform
    | onInstance | onClass =>
      cases hform
      -- the key of an atom is the atom itself, so different classes have different slots
      refine ⟨fun c => ⟨rfl, rfl, rfl⟩, fun c c' h => ?_⟩
      simpa [slot, key, keyAt, Mark.scalar] using h
  obtain ⟨hatom, hinjective⟩ := hatom
  refine ⟨⟨List.forall_mem_map.mpr fun c _ => (hatom c).1, ?_, ?_⟩, List.forall_mem_map.mpr fun c _ => (hatom c).2⟩
  · rw [List.map_map]
    exact hnodup.map hinjective
  · rw [List.length_map]
    exact hfew

namespace Run

/-- **The first parameter of a method is bound to all subclasses of its class**, if there are not too many. -/
theorem value_bindReceiver {s : Session} {g : FunctionId} {first : Param} {rest : List Param} {c : ClassId}
    {form : ClassId → Value} (hparams : (s.store.function g).params = first :: rest)
    (howner : (s.store.function g).owner = some c) (hform : (s.store.function g).receiver.form? = some form)
    (hknown : first.symbol.index < s.store.symbols.size)
    (hfew : (s.store.walkSubclasses c).length ≤ maxDisjuncts) (σ : Setting) :
    ∃ s', bindReceiver g σ s = (.ok (), s') ∧
      (s'.store.value first.symbol).disjuncts = (s.store.walkSubclasses c).map form := by
  have hbind : bindReceiver g σ s = (.ok (), { s with
      store := (StoreM.put first.symbol (.unite ((s.store.walkSubclasses c).map form)) s.store).2 }) := by
    rw [bindReceiver, getStore_bind_apply, hparams, howner]
    dsimp only
    generalize (s.store.function g).receiver = receiver at hform
    cases receiver with
    | unbound => cases hform
    | onInstance | onClass =>
      cases hform
      rfl
  obtain ⟨halternatives, hatoms⟩ := alternatives_map_form hform (s.store.nodup_walkSubclasses c) hfew
  have hunite := unite_of_alternatives halternatives fun v hv => (hatoms v hv).1
  have hnumbered := isNumbered_ofDisjuncts fun v hv => (hatoms v hv).2
  refine ⟨_, hbind, ?_⟩
  dsimp only
  rw [value_put, if_pos ⟨rfl, hknown⟩, hunite, number_of_isNumbered hnumbered, disjuncts_ofDisjuncts halternatives.flat]

end Run

/--
**Bases and subclasses agree.** In every state of an assembler and of its builds, a class is found from each
class of its lineage. In any store, whatever cycles its classes make, the subclasses of a class begin with the
class itself and are what can be reached through the listed subclasses, each once. So where a class has not too
many of them to stand in one value, a method that is defined in it is visited with the first parameter bound to
an alternative for every class that has it in its lineage: an instance, or the class itself for a class method.
-/
theorem Assembler.ComesTo.subclasses_found {a : Assembler} {t : Session} (h : a.ComesTo t) (ha : a.Reached) :
    (∀ c ancestor, ancestor ∈ t.store.lineage c → c ∈ t.store.walkSubclasses ancestor) ∧
      (∀ (st : Store) (c : ClassId), (st.walkSubclasses c).head? = some c ∧ (st.walkSubclasses c).Nodup ∧
        ∀ sub, sub ∈ st.walkSubclasses c ↔ Relation.ReflTransGen (fun c sub => (c, sub) ∈ st.subclassLinks) c sub) ∧
      ∀ (g : FunctionId) (first : Param) (rest : List Param) (c : ClassId) (form : ClassId → Value),
        (t.store.function g).params = first :: rest → (t.store.function g).owner = some c →
        (t.store.function g).receiver.form? = some form → (t.store.walkSubclasses c).length ≤ 25 →
          ∃ t', Run.bindReceiver g a.setting t = (.ok (), t') ∧
            ∀ d, c ∈ t.store.lineage d → form d ∈ (t'.store.value first.symbol).disjuncts := by
  have hcoherent := h.coherent ha
  refine ⟨fun c ancestor => hcoherent.linked.mem_walkSubclasses, fun st c => ⟨?_, st.nodup_walkSubclasses c, ?_⟩, ?_⟩
  · obtain ⟨rest, hrest⟩ := st.walkSubclasses_eq_cons c
    rw [hrest]
    rfl
  · intro sub
    rw [Store.mem_walkSubclasses_iff]
    simp only [Traversal.Reaches, Store.mem_subclassesOf]
  · intro g first rest c form hparams howner hform hfew
    have hknown := hcoherent.params g first (hparams ▸ List.mem_cons_self)
    obtain ⟨t', hbind, hvalue⟩ := Run.value_bindReceiver hparams howner hform hknown hfew a.setting
    refine ⟨t', hbind, fun d hd => ?_⟩
    rw [hvalue]
    exact List.mem_map_of_mem (hcoherent.linked.mem_walkSubclasses hd)

namespace Assembler

def derivedClass (id : Nat) (name : String) (bases : List String) (body : List Node) : Node :=
  .classDef id name (bases.map .ident) [] body [] (id + 1)

/-- An assembler with a class `A` that has a method, and `B` and `C` and `D` below it. `A` has the base `D`. -/
def ofCyclicClasses : Assembler :=
  let method : Node :=
    .functionDef 4 "m" ⟨[⟨"self", none, none, false⟩], none, none⟩ [.passStmt] [] none false 2
  ofModule 2
    [derivedClass 0 "A" ["D"] [method], derivedClass 1 "B" ["A"] [.passStmt],
      derivedClass 2 "C" ["A"] [.passStmt], derivedClass 3 "D" ["B", "C"] [.passStmt]]

/-- The first pass of a build. -/
def firstPass (a : Assembler) (steps : Nat) : Except AnalysisError Unit × Session :=
  Run.pass steps 1 a.setting.options.passes a.setting
    (Run.scheduleModules a.setting { a.session with handle := .new }).2

/-- The second pass of a build, as far as it has visited some items. -/
def inSecondPass (a : Assembler) (steps : Nat) (items : List WorkItem) : Except AnalysisError Unit × Session :=
  Run.visitAll (.ofDepth steps) items a.setting
    (Run.begun 2 a.setting.options.passes a.setting (a.firstPass steps).2)

theorem comesTo_inSecondPass {a : Assembler} {steps : Nat} {items : List WorkItem}
    (hfirst : (a.firstPass steps).1 = .ok ()) (hitems : (a.inSecondPass steps items).1 = .ok ()) :
    a.ComesTo (a.inSecondPass steps items).2 := by
  obtain ⟨s, hscheduled, -⟩ := schedules_scheduleModules a.setting { a.session with handle := .new }
  have hpass : pass steps 1 a.setting.options.passes a.setting s = (.ok (), (a.firstPass steps).2) := by
    have hsame : a.firstPass steps = pass steps 1 a.setting.options.passes a.setting s := by
      rw [firstPass, hscheduled]
    rw [← hsame]
    exact Prod.ext hfirst rfl
  exact .visit hscheduled (.pass .start hpass) (Prod.ext hitems rfl)

set_option maxRecDepth 100000 in
/-- The second pass comes to the method of `A`. By then `D` is a base of `A`, so the classes are in a cycle. -/
theorem inSecondPass_ofCyclicClasses :
    let visited := ofCyclicClasses.inSecondPass 30 [.module 0]
    let st := visited.2.store
    ((ofCyclicClasses.firstPass 30).1 = .ok () ∧ visited.1 = .ok ()) ∧
      (st.lineage ⟨0⟩ = [⟨0⟩, ⟨3⟩, ⟨1⟩, ⟨2⟩] ∧ st.lineage ⟨3⟩ = [⟨3⟩, ⟨1⟩, ⟨0⟩, ⟨2⟩]) ∧
      (st.function ⟨0⟩).params.map Param.symbol = [⟨63⟩] ∧ (st.function ⟨0⟩).owner = some ⟨0⟩ ∧
      (st.function ⟨0⟩).receiver = .onInstance ∧ (st.walkSubclasses ⟨0⟩).length ≤ 25 := by
  decide +kernel

/-- What holds when the method of `A` is about to be visited. -/
theorem subclasses_found_cyclic :
    let a := ofCyclicClasses
    let t := (a.inSecondPass 30 [.module 0]).2
    (t.store.lineage ⟨0⟩ = [⟨0⟩, ⟨3⟩, ⟨1⟩, ⟨2⟩] ∧ t.store.lineage ⟨3⟩ = [⟨3⟩, ⟨1⟩, ⟨0⟩, ⟨2⟩]) ∧
      (∀ c ∈ t.store.lineage ⟨0⟩, ⟨0⟩ ∈ t.store.walkSubclasses c) ∧
      ∃ t', Run.bindReceiver ⟨0⟩ a.setting t = (.ok (), t') ∧
        .instanceOf ⟨3⟩ ∈ (t'.store.value ⟨63⟩).disjuncts := by
  dsimp only
  obtain ⟨⟨hfirst, hitems⟩, hlineage, hparams, howner, hreceiver, hfew⟩ := inSecondPass_ofCyclicClasses
  have hcomes := comesTo_inSecondPass hfirst hitems
  -- nothing below is to evaluate the state
  generalize (ofCyclicClasses.inSecondPass 30 [.module 0]).2 = t at hlineage hparams howner hreceiver hfew hcomes ⊢
  obtain ⟨hfound, -, hbound⟩ := hcomes.subclasses_found (reached_ofModule _ _)
  obtain ⟨first, hone, hsymbol⟩ := List.map_eq_singleton_iff.mp hparams
  obtain ⟨t', hbind, hvalue⟩ := hbound ⟨0⟩ first [] ⟨0⟩ .instanceOf hone howner (by rw [hreceiver]; rfl) hfew
  refine ⟨hlineage, fun c hc => hfound ⟨0⟩ c hc, t', hbind, ?_⟩
  rw [← hsymbol]
  exact hvalue ⟨3⟩ (by rw [hlineage.2]; decide)

end Assembler

end Surmise
