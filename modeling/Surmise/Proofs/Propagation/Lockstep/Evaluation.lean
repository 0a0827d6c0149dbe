import Surmise.Proofs.Propagation.Lockstep.Expressions

/-!
# The evaluator

One lemma for each sort of statement, and from them and those for expressions the evaluator itself, by
induction on how deep nodes are nested:

* `Evaluator.walks_ofDepth`: the evaluator of any depth takes steps of the analysis, gives sound values, and does the
  same in both runs.
* `Evaluator.sound_ofDepth`: in particular, whatever it evaluates, it takes such steps, and fails only by being
  stopped.
-/

namespace Surmise

open Session Value Assertion

namespace Run

variable {K : Reading} {texts : Bool} {R : Course} {σ : Setting} {Γ : Assertion σ} {f f' : Frame} (hf : f.Twin R f')

section Imports

include hf

theorem walk_importer : Acts K texts R Γ (importer f) (importer f') := by
  refine ⟨⟨.get (fun s s' hstore hassembly => by rw [hstore, hassembly]) fun _ => .pure _,
    fun σ _ s s' hs _ => ⟨congrArg Except.ok ?_, hs⟩⟩, fun _ _ _ => does_get_bind (does_pure trivial)⟩
  rw [hf.home, hs.store.module, hs.tree, hs.searchPaths]
  rfl

variable [Γ.Implies (lawful f)]

theorem walk_importModule (item : ImportAlias) : Acts K texts R Γ (importModule f item) (importModule f' item) := by
  unfold importModule
  split
  · exact walk_pure ()
  · next root rest hpath =>
    refine (walk_importer hf).bind fun i => ?_
    extract_lets bind bind'
    have hbind : ∀ v, Acts K texts R ((Γ.and nothing).and (sound v)) (bind v) (bind' (v.shift R.shift)) := fun v =>
      walk_read (fun _ _ => rfl) fun _ _ => walk_assignName hf _ v _
    split
    · refine (walk_ask (Δ := sound) (fun w => (i.agrees_absolute (.refl w) False.elim _).ensures.answers)
        (fun hw => (i.agrees_absolute hw.reads False.elim _).same) fun hs _ => ?_).bind hbind
      exact (i.agrees_absolute (.refl _) (fun _ => hs.consistent.sound) _).ensures.sound
    · refine walk_world (Δ := sound) hbind (i.root · root)
        (fun hw => congrArg bind' (i.kin_root hw.reads False.elim root).same) fun hs _ => ?_
      exact (i.kin_root (p := True) (.refl ⟨_, _, _⟩) (fun _ => hs.consistent.sound) root).sound trivial

theorem walk_importExported (source : Value) [Γ.Implies (sound source)] (name : String) :
    Acts K texts R Γ (importExported f source name) (importExported f' (source.shift R.shift) name) := by
  refine .ite (walk_pure ()) ((walk_memberSymbols false source name).bind fun symbols => ?_)
  have hbind : ∀ hidden : Bool, Acts K texts R ((Γ.and nothing).and nothing) (do
        unless hidden do
          let v ← ask fun w => w.member callLimit source name
          unless v.isEmpty do
            assignName f name v false)
      (do
        unless hidden do
          let v ← ask fun w => w.member callLimit (source.shift R.shift) name
          unless v.isEmpty do
            assignName f' name v false) := by
    intro hidden
    refine .ite (walk_pure ()) ((walk_member source name).bind fun v => ?_)
    rw [isEmpty_shift]
    exact .ite (walk_pure ()) (walk_assignName hf name v false)
  refine walk_look (Δ := fun _ => nothing) hbind
    (fun s => !symbols.isEmpty && symbols.all fun symbol => (s.symbol symbol).isPrivate)
    (fun hs => ?_) fun _ _ => trivial
  simp only [hs.symbol]
  rfl

theorem walk_importMember (source : Value) [Γ.Implies (sound source)] (item : ImportAlias) :
    Acts K texts R Γ (importMember f source item) (importMember f' (source.shift R.shift) item) := by
  unfold importMember
  split
  · exact walk_pure ()
  · next name _ =>
    refine (walk_member source name).bind fun v => ?_
    split
    · exact walk_assignName hf _ v false
    · exact walk_read (fun _ _ => rfl) fun _ _ => walk_assignName hf _ v _

theorem walk_importFrom (dots : Nat) (path : List String) (names : List ImportAlias) (wildcard : Bool) :
    Acts K texts R Γ (importFrom f dots path names wildcard) (importFrom f' dots path names wildcard) := by
  refine (walk_importer hf).bind fun i => ?_
  refine (walk_ask (Δ := sound) (fun w => (i.agrees_resolve (.refl w) False.elim dots path).ensures.answers)
    (fun hw => (i.agrees_resolve hw.reads False.elim dots path).same) fun hs _ => ?_).bind fun source => ?_
  · exact (i.agrees_resolve (.refl _) (fun _ => hs.consistent.sound) dots path).ensures.sound
  have hnames : Acts K texts R (Γ.and (sound source)) (do for item in names do importMember f source item)
      (do for item in names do importMember f' (source.shift R.shift) item) :=
    (walk_for fun item _ => walk_importMember hf source item).bind fun _ => walk_pure ()
  rw [isEmpty_shift]
  refine .ite ?_ (.ite ?_ hnames.weaken)
  · refine (walk_loop fun name _ => ?_).bind fun _ => walk_pure ()
    exact (walk_binding hf name).bind fun _ => walk_pure (ForInStep.yield ())
  · refine Walk.bind (walk_ask (Δ := fun _ => nothing) (g := id) (fun w => w.answers_dir source) (fun hw => ?_)
      fun _ _ => ?_) fun exported => ?_
    · rw [hw.dir, id_map]
    · exact World.answers_dir _ source
    · exact (walk_for fun name _ => walk_importExported hf source name).bind fun _ => hnames.weaken

end Imports

end Run

/-! ## Statements -/

/-- The subclasses of a class correspond. -/
theorem World.Mirror.withSubclasses {R : Course} {w w' : World} (h : w.Mirror R w') (v : Value) :
    w'.withSubclasses (v.shift R.shift) = (w.withSubclasses v).shift R.shift := by
  induction v with
  | step v ih =>
    cases v
    case union items | tuple serial items =>
      simp only [Value.shift, World.withSubclasses, shift_unite, shiftAll_eq_map, withSubclassesAll_eq_map,
        List.map_map]
      exact congrArg unite (List.map_congr_left ih)
    case classRef c =>
      simp only [Value.shift, World.withSubclasses, shift_unite, h.store.walkSubclasses, List.map_map]
      rfl
    all_goals rfl

theorem TypeGuard.of?_shift (π : Shift) (v : Value) : TypeGuard.of? (v.shift π) = TypeGuard.of? v := by
  cases v <;> rfl

namespace Evaluator

open Run

variable {K : Reading} {texts : Bool} {depth : Nat} {R : Course} {σ : Setting} {Γ : Assertion σ} {ev : Evaluator}
  (hev : ev.Walks σ K depth) {f f' : Frame} [Γ.Implies (lawful f)] (hf : f.Twin R f') {s : Session}

section Statements

include hev hf

theorem walk_narrow {subject : Node} (h : K.Fits texts (depth - 1) f.origin subject) (v : Value) [Γ.Implies (sound v)] :
    Acts K texts R Γ (ev.narrow f subject v) (ev.narrow f' subject (v.shift R.shift)) := by
  unfold narrow
  split
  · next name =>
    extract_lets write write'
    have hwrite : ∀ symbol, Acts K texts R Γ (write symbol) (write' symbol) := fun symbol =>
      (walk_say _ _).bind fun _ => walk_narrowTo symbol v
    rw [hf.isDeclared]
    exact .ite ((walk_binding hf name).bind fun symbol => (hwrite symbol).weaken)
      ((walk_createLocal hf name false).bind fun symbol => (hwrite symbol).weaken)
  · exact hev.assign v h hf

theorem walk_narrowAssertion {test : Node} (h : K.Fits texts (depth - 1) f.origin test) :
    Acts K texts R Γ (ev.narrowAssertion f test) (ev.narrowAssertion f' test) := by
  unfold narrowAssertion
  split
  · next function subject types _ _ _ _ =>
    refine (hev.part hf (h.below (by simp [Node.children]))).bind fun callee => ?_
    have hguard : (callee.shift R.shift).disjuncts.findSome? TypeGuard.of? =
        callee.disjuncts.findSome? TypeGuard.of? := by
      rw [disjuncts_shift, List.findSome?_map]
      exact congrArg (List.findSome? · callee.disjuncts) (funext (TypeGuard.of?_shift R.shift))
    rw [hguard]
    cases callee.disjuncts.findSome? TypeGuard.of? with
    | none => exact walk_pure ()
    | some guard =>
      refine (hev.part hf (h.below (by simp [Node.children]))).bind fun types => ?_
      have hnarrow : ∀ v : Value, Acts K texts R (((Γ.and (sound callee)).and (sound types)).and (sound v))
          (do unless v.isEmpty do ev.narrow f subject v)
          (do unless (v.shift R.shift).isEmpty do ev.narrow f' subject (v.shift R.shift)) := by
        intro v
        rw [isEmpty_shift]
        exact .ite (walk_pure ()) (walk_narrow hev hf (h.below (by simp [Node.children])) v)
      cases guard with
      | isInstance =>
        exact walk_world (Δ := sound) hnarrow (·.instantiate types) (fun hw => by rw [← hw.instantiate]) fun _ _ =>
          World.sound_instantiate types
      | isSubclass =>
        exact walk_world (Δ := sound) hnarrow (·.withSubclasses types) (fun hw => by rw [← hw.withSubclasses])
          fun hs hΓ => World.sound_withSubclasses ((sound types).of hs hΓ)
  · exact walk_pure ()

theorem walk_branches {branches : List (Branch Node)} (h : K.FitAll texts depth f (branches.flatMap Branch.children)) :
    Acts K texts R Γ (ev.branches f branches) (ev.branches f' branches) := by
  induction branches generalizing Γ with
  | nil => exact walk_pure ()
  | cons branch rest ih =>
    rw [List.flatMap_cons] at h
    obtain ⟨hbranch, hrest⟩ := List.forall_mem_append.mp h
    obtain ⟨htest, hbody⟩ := List.forall_mem_cons.mp hbranch
    exact (hev.part hf htest).bind fun _ => (walk_block hev hf hbody).bind fun _ => ih hrest

theorem walk_handlers {handlers : List (Handler Node)}
    (h : K.FitAll texts depth f (handlers.flatMap Handler.children)) :
    Acts K texts R Γ (ev.handlers f handlers) (ev.handlers f' handlers) := by
  induction handlers generalizing Γ with
  | nil => exact walk_pure ()
  | cons handler rest ih =>
    rw [List.flatMap_cons] at h
    obtain ⟨hhandler, hrest⟩ := List.forall_mem_append.mp h
    simp only [Handler.children, List.forall_mem_append, Option.mem_toList] at hhandler
    obtain ⟨⟨hkind, hname⟩, hbody⟩ := hhandler
    refine (walk_evalOption hev hf hkind).bind fun type => ?_
    extract_lets after after'
    have hafter : Acts K texts R Γ (after ()) (after' ()) := (walk_block hev hf hbody).bind fun _ => ih hrest
    cases heq : handler.name with
    | some target =>
      exact (walk_instantiate type).bind fun v => (hev.assign v (hname target heq) hf).bind fun _ => hafter.weaken
    | none => exact hafter.weaken

theorem walk_withItems {items : List (WithItem Node)} (h : K.FitAll texts depth f (items.flatMap WithItem.children)) :
    Acts K texts R Γ (ev.withItems f items) (ev.withItems f' items) := by
  induction items generalizing Γ with
  | nil => exact walk_pure ()
  | cons item rest ih =>
    rw [List.flatMap_cons] at h
    obtain ⟨hitem, hrest⟩ := List.forall_mem_append.mp h
    obtain ⟨hcontext, htarget⟩ := List.forall_mem_cons.mp hitem
    refine (hev.part hf hcontext).bind fun manager => ?_
    cases heq : item.target with
    | none => exact ih hrest
    | some target =>
      refine (walk_member manager "__enter__").bind fun enter => ?_
      refine (walk_doCall {} enter).bind fun entered => ?_
      have hbound : (if (entered.shift R.shift).isEmpty then manager.shift R.shift else entered.shift R.shift) =
          (if entered.isEmpty then manager else entered).shift R.shift := by
        rw [isEmpty_shift]
        split <;> rfl
      rw [hbound]
      exact (hev.assign _ (htarget target (by simp [heq])) hf).bind fun _ => ih hrest

/-- **Running a statement takes steps, and the second time the same is done.**
An expression in its place is evaluated. -/
theorem walk_execNode {node : Node} (h : K.Fits texts depth f.origin node) :
    Acts K texts R Γ (ev.execNode f node) (ev.execNode f' node) := by
  have hchild : K.FitAll texts depth f node.children := fun x hx => (h.child hx).mono (by omega)
  have hexpression : Acts K texts R Γ (do let _ ← ev.eval f node) (do let _ ← ev.eval f' node) :=
    (hev.eval h hf).bind fun _ => walk_pure ()
  cases node with
  | functionDef id name params body decorators returns isAsync line => exact walk_functionDef hev hf rfl h.1 hchild
  | classDef id name bases keywords body decorators line => exact walk_classDef hev hf hchild
  | assign targets value =>
    obtain ⟨htargets, hvalue⟩ := List.forall_mem_append.mp hchild
    exact walk_assignment hev hf htargets (hvalue value List.mem_cons_self)
  | annotated target hint value => exact walk_annotatedAssignment hev hf hchild
  | augmented target op value =>
    have htarget := hchild target (by simp [Node.children])
    have hvalue := hchild value (by simp [Node.children])
    exact (walk_evalBinary hev hf htarget op hvalue).bind fun v => hev.assign v htarget hf
  | returnStmt value =>
    cases value with
    | none => exact walk_pure ()
    | some value =>
      exact (hev.part hf (hchild value (by simp [Node.children]))).bind fun v => walk_produceReturn hf v
  | importStmt names => exact (walk_for fun item _ => walk_importModule hf item).bind fun _ => walk_pure ()
  | importFrom dots source names wildcard => exact walk_importFrom hf dots source names wildcard
  | ifStmt branches otherwise =>
    obtain ⟨hbranches, hotherwise⟩ := List.forall_mem_append.mp hchild
    exact (walk_branches hev hf hbranches).bind fun _ => walk_block hev hf hotherwise
  | forStmt target iter body otherwise =>
    simp only [Node.children, List.forall_mem_cons, List.forall_mem_append] at hchild
    obtain ⟨htarget, hiter, hbody, hotherwise⟩ := hchild
    refine (hev.part hf hiter).bind fun iterated => (walk_elem iterated).bind fun elem => ?_
    refine (hev.assign elem htarget hf).bind fun _ => ?_
    exact (walk_block hev hf hbody).bind fun _ => walk_block hev hf hotherwise
  | whileStmt test body otherwise =>
    simp only [Node.children, List.forall_mem_cons, List.forall_mem_append] at hchild
    obtain ⟨htest, hbody, hotherwise⟩ := hchild
    exact (hev.part hf htest).bind fun _ => (walk_block hev hf hbody).bind fun _ => walk_block hev hf hotherwise
  | tryStmt body handlers otherwise final =>
    simp only [Node.children, List.forall_mem_append] at hchild
    obtain ⟨⟨⟨hbody, hhandlers⟩, hotherwise⟩, hfinal⟩ := hchild
    exact (walk_block hev hf hbody).bind fun _ => (walk_handlers hev hf hhandlers).bind fun _ =>
      (walk_block hev hf hotherwise).bind fun _ => walk_block hev hf hfinal
  | withStmt items body =>
    obtain ⟨hitems, hbody⟩ := List.forall_mem_append.mp hchild
    exact (walk_withItems hev hf hitems).bind fun _ => walk_block hev hf hbody
  | assertStmt test message =>
    exact (walk_visit hev hf hchild).bind fun _ =>
      walk_narrowAssertion hev hf (hchild test (by simp [Node.children]))
  | raiseStmt | deleteStmt => exact walk_visit hev hf hchild
  | bad | module => exact walk_block hev hf hchild
  | globalStmt | nonlocalStmt | passStmt | breakStmt | continueStmt => exact walk_pure ()
  | _ => exact hexpression

end Statements

/-! ## The evaluator -/

theorem walks_around (hev : ev.Walks σ K depth) : (around ev).Walks σ K (depth + 1) where
  eval {texts R f f' node Γ} _ h hf :=
    have hchild : K.FitAll texts depth f node.children := fun x hx => (h.child hx).mono (by omega)
    walk_check.bind fun _ => (walk_evalNode hev hf h.1 hchild).bind fun v => (walk_numbered v).bind fun v =>
      (walk_say _ _).bind fun _ => (walk_tell _ _).bind fun _ => walk_pure v
  exec h hf := walk_check.bind fun _ => walk_execNode hev hf h
  assign v _ _ h hf := walk_assignTo hev hf h v

/-- **Evaluation takes steps of the analysis and gives sound values,
and the second time it does what it did the first.** -/
theorem walks_ofDepth (σ : Setting) (K : Reading) (depth : Nat) : (ofDepth depth).Walks σ K depth := by
  induction depth with
  | zero =>
    -- every node has some height, so none fits unless steps may run out
    have hnone : ∀ {texts origin node}, K.Fits texts 0 origin node → K.MayExhaust texts := by
      intro texts origin node h
      rcases h.2 with h | hle
      · exact h
      · have hpos := node.height_pos
        omega
    exact ⟨fun h _ => walk_exhausted (hnone h), fun h _ => walk_exhausted (hnone h),
      fun _ _ _ h _ => walk_exhausted (hnone h)⟩
  | succ depth ih =>
    rw [ofDepth_succ]
    exact walks_around ih

/-- The evaluator takes steps of the analysis and gives sound values, in every frame that may be used. -/
structure Sound (σ : Setting) (ev : Evaluator) : Prop where
  eval : ∀ s f node, Ready σ s f → Gives σ s (ev.eval f node)
  exec : ∀ s f node, Ready σ s f → Goes σ s (ev.exec f node)
  assign : ∀ s f target v, Ready σ s f → v.SoundIn s → Goes σ s (ev.assign f target v)

/-- **Whatever it evaluates, the evaluator takes steps of the analysis and gives sound values.** -/
theorem sound_ofDepth (σ : Setting) (depth : Nat) : (ofDepth depth).Sound σ where
  eval _ f _ h := performs_of_twins (Γ := lawful f) (fun hf => (walks_ofDepth σ .any depth).eval .any hf) h.inv h.lawful
  exec _ f _ h := performs_of_twins (Γ := lawful f) (fun hf => (walks_ofDepth σ .any depth).exec .any hf) h.inv h.lawful
  assign _ f _ v h hv := performs_of_twins (Γ := (lawful f).and (sound v))
    (fun hf => (walks_ofDepth σ .any depth).assign v .any hf) h.inv ⟨h.lawful, hv⟩

theorem does_evalAssigned (depth : Nat) (h : Ready σ s f) (value : Node) :
    Does (Step σ) σ s ((ofDepth depth).evalAssigned f value) fun assigned s' =>
      (soundAssigned (σ := σ) assigned).holds s' :=
  performs_of_twins (Γ := lawful f) (fun hf => walk_evalAssigned (walks_ofDepth σ .any depth) hf .any) h.inv h.lawful

theorem Sound.block (hev : ev.Sound σ) (h : Ready σ s f) (nodes : List Node) :
    Goes σ s (ev.block f nodes) := by
  induction nodes generalizing s with
  | nil => exact does_pure trivial
  | cons node rest ih => exact (hev.exec s f node h).then fun s₁ hs₁ => ih (h.after hs₁)

end Evaluator

end Surmise
