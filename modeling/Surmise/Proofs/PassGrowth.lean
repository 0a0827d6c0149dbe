import Surmise.Proofs.Addressing
import Surmise.Proofs.Store.Growth

/-!
# Passes let values grow

Before the values are narrowed at the end of a build, visiting a module or a function and running a
statement only let them grow. Three sorts of symbols are exempt: the parameter in which the visited method
is handed its receiver, the names that assertions are about, and the bindings of class bodies.

* `Session.Exempt`: the exempt symbols.
* `Session.Visit.grown`, `Session.grownDuring_of_visits`: a change during a visit, and a whole visit.
* `Assembler.Reached.values_grow`: the main statement.
-/

namespace Surmise

open Store StoreM Relation

/-- The function whose body a visit runs. -/
def WorkItem.function? : WorkItem → Option FunctionId
  | .module _ => none
  | .function f => some f

namespace Session

/-- The symbols whose values may change in any way between two states, while the body of a function is run
or none. -/
inductive Exempt (visited : Option FunctionId) (s s' : Session) (id : SymbolId) : Prop
  /-- The parameter in which the visited method is handed its receiver. -/
  | receiver {g : FunctionId} (hg : visited = some g) (hid : (s.store.function g).bound? = some id)
  /-- What an assertion in between was about. -/
  | asserted (later : List SymbolId) (hlater : s'.narrowed = later ++ s.narrowed) (hid : id ∈ later)
  /-- A binding of a class body. -/
  | scratch {t : TableId} (ht : t ∈ s.bodies) {name : String} (hid : s.store.get? t name = some id)

variable {σ : Setting} {s s' : Session} {item : WorkItem} {t : TableId}

/-! ## One change -/

theorem Step.grown (h : Step σ s s') (hinv : s.Inv σ) (visited : Option FunctionId) :
    s.store.GrownBut (Exempt visited s s') s'.store := by
  have hs := hinv.consistent
  cases h with
  | quiet hstore hassembly hnarrowed hbodies =>
    rw [hstore]
    exact .refl _
  | store hstep => exact hstep.grown hs.sound
  | @makeFunction hfree spec houter hclaim =>
    have hgrown : ∀ exempt, s.store.GrownBut exempt (newFunction spec s.store).2 := fun _ =>
      grown_newFunction hs hfree spec
    generalize (newFunction spec s.store).2 = st at hgrown ⊢
    exact hgrown _
  | @makeClass hfree name address hclaim moduleName =>
    have hgrown : ∀ exempt, s.store.GrownBut exempt (newClass name address moduleName s.store).2 :=
      fun _ => grown_newClass hs hfree name address moduleName
    generalize (newClass name address moduleName s.store).2 = st at hgrown ⊢
    exact hgrown _
  | openComprehension | openBody => exact grownBut_of_same rfl rfl
  | @clear t ht name id hid =>
    refine grownBut_put hs.sound id .empty fun hexempt => absurd ?_ hexempt
    exact .scratch ht hid
  | @narrow id v hv =>
    refine grownBut_put hs.sound id _ fun hexempt => absurd ?_ hexempt
    exact .asserted [id] rfl List.mem_cons_self
  | queue | classSite | functionSite | lambdaSite => exact .refl _

theorem Visit.grown (h : Visit σ item s s') (hinv : s.Inv σ) :
    s.store.GrownBut (Exempt item.function? s s') s'.store := by
  cases h with
  | step hstep => exact hstep.grown hinv item.function?
  | @receive g hg id hid v hv =>
    refine grownBut_put hinv.consistent.sound id _ fun hexempt => absurd ?_ hexempt
    exact .receiver (by rw [hg]; rfl) hid

/-! ## What stays exempt -/

theorem Visit.narrowed (h : Visit σ item s s') : ∃ later, s'.narrowed = later ++ s.narrowed := by
  cases h with
  | step hstep =>
    cases hstep with
    | quiet hstore hassembly hnarrowed hbodies => exact ⟨[], hnarrowed⟩
    | narrow id hv => exact ⟨[id], rfl⟩
    | _ => exact ⟨[], rfl⟩
  | receive => exact ⟨[], rfl⟩

theorem Visit.bodies (h : Visit σ item s s') (ht : t ∈ s'.bodies) :
    t ∈ s.bodies ∨ s.store.tables.size ≤ t.index := by
  cases h with
  | step hstep =>
    cases hstep with
    | quiet hstore hassembly hnarrowed hbodies => exact .inl (hbodies ▸ ht)
    | openBody houter address =>
      rcases List.mem_cons.mp ht with rfl | hold
      · exact .inr (Nat.le_refl _)
      · exact .inl hold
    | _ => exact .inl ht
  | receive => exact .inl ht

/-- A symbol that is a binding of a class body was so from the beginning. -/
theorem Visit.scratch_before (h : Visit σ item s s') {id : SymbolId} (hid : id.index < s.store.symbols.size)
    (ht : t ∈ s'.bodies) {name : String} (hbound : s'.store.get? t name = some id) :
    t ∈ s.bodies ∧ s.store.get? t name = some id := by
  have hold : s.store.get? t name = some id := by
    rcases h.binds.2.2.binding t name id hbound with hold | hnew
    · exact hold
    · exact absurd hid (Nat.not_lt_of_le hnew)
  rcases h.bodies ht with hbody | hnew
  · exact ⟨hbody, hold⟩
  · rw [get?_of_size_le hnew] at hold
    cases hold

/-! ## A whole visit -/

/-- What is known along a visit of the symbols that were there before it. -/
structure VisitKept (item : WorkItem) (s s' : Session) : Prop where
  grown : s.store.GrownBut (Exempt item.function? s s') s'.store
  narrowed : ∃ later, s'.narrowed = later ++ s.narrowed
  scratch : ∀ id : SymbolId, id.index < s.store.symbols.size → ∀ t ∈ s'.bodies, ∀ name,
    s'.store.get? t name = some id → t ∈ s.bodies ∧ s.store.get? t name = some id

theorem visitKept_of_visits (hinv : s.Inv σ) (hitem : ∀ g, item.function? = some g → g.index < s.store.functions.size)
    (h : ReflTransGen (Visit σ item) s s') : VisitKept item s s' := by
  induction h with
  | refl => exact ⟨.refl _, ⟨[], rfl⟩, fun id _ t ht name hid => ⟨ht, hid⟩⟩
  | @tail s₁ s₂ hbefore hvisit ih =>
    have hmoves := moves_of_visits hbefore
    have hx := (Moves.extension hmoves).store
    obtain ⟨earlier, hearlier⟩ := ih.narrowed
    obtain ⟨later, hlater⟩ := hvisit.narrowed
    constructor
    case grown =>
      refine ih.grown.trans (hvisit.grown (hinv.afterMoves hmoves)) (fun id _ he => ?_) fun id hid he => ?_
      · cases he with
        | receiver hg hid => exact .receiver hg hid
        | asserted own hown hid =>
          refine .asserted (later ++ own) ?_ (List.mem_append_right _ hid)
          rw [hlater, hown, List.append_assoc]
        | scratch ht hid => exact .scratch ht hid
      · cases he with
        | @receiver g hg hbound => exact .receiver hg (hx.function g (hitem g hg) ▸ hbound)
        | asserted own hown hmem =>
          refine .asserted (own ++ earlier) ?_ (List.mem_append_left _ hmem)
          rw [hown, hearlier, List.append_assoc]
        | @scratch t ht name hbound =>
          obtain ⟨hbody, hold⟩ := ih.scratch id hid t ht name hbound
          exact .scratch hbody hold
    case narrowed => exact ⟨later ++ earlier, by rw [hlater, hearlier, List.append_assoc]⟩
    case scratch =>
      intro id hid t ht name hbound
      obtain ⟨hbody, hold⟩ := hvisit.scratch_before (Nat.lt_of_lt_of_le hid hx.symbols) ht hbound
      exact ih.scratch id hid t hbody name hold

/-- Between the states every symbol has kept its place and its address, and what is known has grown. -/
structure GrownDuring (visited : Option FunctionId) (s s' : Session) : Prop where
  places : ∀ t name id, s.store.get? t name = some id → s'.store.get? t name = some id
  addresses : ∀ id : SymbolId, id.index < s.store.symbols.size →
    (s'.store.symbol id).address = (s.store.symbol id).address
  values : ∀ id : SymbolId, id.index < s.store.symbols.size → ¬ Exempt visited s s' id →
    (s.store.value id).Grows (s'.store.value id)
  kwargs : ∀ dict name v, (s.store.kwargsOf dict).get? name = some v →
    ∃ v', (s'.store.kwargsOf dict).get? name = some v' ∧ v.Grows v'

theorem grownDuring_of_visits (hinv : s.Inv σ) (hitem : ∀ g, item.function? = some g → g.index < s.store.functions.size)
    (h : ReflTransGen (Visit σ item) s s') : GrownDuring item.function? s s' := by
  have hx := (Moves.extension (moves_of_visits h)).store
  have hgrown := (visitKept_of_visits hinv hitem h).grown
  exact ⟨hx.entry, fun id hid => (hx.symbol id hid).2, hgrown.values, hgrown.kwargs⟩

theorem grownDuring_of_steps (hinv : s.Inv σ) (h : Steps σ s s') : GrownDuring none s s' := by
  -- steps are what can be done while a module is visited
  have hvisits : ReflTransGen (Visit σ (.module 0)) s s' :=
    ReflTransGen.mono (fun _ _ => Visit.step) _ _ h
  exact grownDuring_of_visits hinv (fun g hg => by cases hg) hvisits

end Session

namespace Assembler

open Session

/--
**Passes let values grow.** In every state of a build, visiting a module or a function and running a
statement leave the symbols where they are, and let their values and the entries of keyword dictionaries
grow. Exempt are the receiver of the visited method, what assertions are about, and the bindings of class
bodies.
-/
theorem Reached.values_grow {a : Assembler} (h : a.Reached) {s : Session} (hs : Moves a.setting a.session s)
    (depth : Nat) :
    (∀ item ∈ s.assembly.order,
        GrownDuring item.function? s (Run.visitItem (.ofDepth depth) item a.setting s).2) ∧
      ∀ f, Ready a.setting s f → ∀ statement,
        GrownDuring none s ((Evaluator.ofDepth depth).exec f statement a.setting s).2 := by
  have hinv := h.ordered.inv.afterMoves hs
  have hsound := Evaluator.sound_ofDepth a.setting depth
  refine ⟨fun item hitem => ?_, fun f hready statement => ?_⟩
  · refine grownDuring_of_visits hinv (fun g hg => ?_) (Run.does_visitItem hsound hinv hitem).1
    cases item with
    | module index => cases hg
    | function f =>
      obtain rfl := Option.some.inj hg
      exact hinv.sites.order f hitem
  · exact grownDuring_of_steps hinv (hsound.exec s f statement hready).1

/-- An assembler with a module that binds `x` to a list of integers. -/
def ofIntList : Assembler :=
  ofModule 1 [.assign [.ident "x"] (.list [.literal (.int (some 1))])]

def intListBuilt : Assembler := (ofIntList.perform (Run.build 20 .new)).2

/-- The state after `x` was also bound to a list of floats. -/
def floatListAssigned : Session :=
  ((Evaluator.ofDepth 5).exec (.body ⟨0⟩ (intListBuilt.session.store.module ⟨0⟩).members none (.file 0))
    (.assign [.ident "x"] (.list [.literal .float])) intListBuilt.setting intListBuilt.session).2

set_option maxRecDepth 100000 in
theorem values_grow_floatListAssigned :
    String.join (intListBuilt.session.store.pieces (intListBuilt.session.store.value ⟨56⟩)) = "list[int(1)]" ∧
      String.join (floatListAssigned.store.pieces (floatListAssigned.store.value ⟨56⟩)) =
        "list[int(1) | float]" ∧
      (intListBuilt.session.store.value ⟨56⟩).Grows (floatListAssigned.store.value ⟨56⟩) ∧
      GrownDuring none intListBuilt.session
        (Run.visitItem (.ofDepth 5) (.module 0) intListBuilt.setting intListBuilt.session).2 := by
  have hshown : String.join (intListBuilt.session.store.pieces (intListBuilt.session.store.value ⟨56⟩)) =
        "list[int(1)]" ∧
      String.join (floatListAssigned.store.pieces (floatListAssigned.store.value ⟨56⟩)) =
        "list[int(1) | float]" := by decide +kernel
  have hfacts : .module 0 ∈ intListBuilt.session.assembly.order ∧
      0 < intListBuilt.session.store.modules.size ∧ 56 < intListBuilt.session.store.symbols.size ∧
      floatListAssigned.narrowed = [] ∧ intListBuilt.session.bodies = [] := by decide +kernel
  obtain ⟨hitem, hmodule, hknown, hnarrowed, hbodies⟩ := hfacts
  have hreached : intListBuilt.Reached := .build (reached_ofModule _ _) 20 .new
  obtain ⟨hitems, hstatements⟩ := hreached.values_grow .refl 5
  have hready := Run.ready_module hreached.ordered.inv (m := ⟨0⟩) hmodule none (.file 0)
  have hgrown : GrownDuring none intListBuilt.session floatListAssigned := hstatements _ hready _
  refine ⟨hshown.1, hshown.2, hgrown.values ⟨56⟩ hknown ?_, hitems _ hitem⟩
  rintro (⟨hg, -⟩ | ⟨later, hlater, hid⟩ | ⟨ht, -⟩)
  · cases hg
  · rw [hnarrowed] at hlater
    rw [(List.append_eq_nil_iff.mp hlater.symm).1] at hid
    cases hid
  · rw [hbodies] at ht
    cases ht

end Assembler

end Surmise
