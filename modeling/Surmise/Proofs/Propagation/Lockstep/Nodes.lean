import Surmise.Proofs.Propagation.Lockstep.Calls

/-!
# Assignments and definitions

Each function treats a node with an evaluator for its parts, so there is one lemma for each, under the
assumption that the evaluator itself takes steps and is in lockstep on nodes that are not nested too deep. An
expression of height `h` needs a depth of `2 * h`. A statement and a target may be evaluated as expressions
themselves, which takes one more. In lockstep, definitions were reached before, because a function or a class is made
with symbols.
-/

namespace Surmise

open Session Value Assertion StoreM

/--
On the nodes that fit its depth, the evaluator takes steps of the analysis and gives sound values, and does the same
in both runs, whatever the course.
-/
structure Evaluator.Walks (σ : Setting) (K : Reading) (depth : Nat) (ev : Evaluator) : Prop where
  eval : ∀ {texts R f f' node} {Γ : Assertion σ} [Γ.Implies (lawful f)], K.Fits texts depth f.origin node →
    f.Twin R f' → Run.Yields K texts R Γ (ev.eval f node) (ev.eval f' node)
  exec : ∀ {texts R f f' node} {Γ : Assertion σ} [Γ.Implies (lawful f)], K.Fits texts (depth - 1) f.origin node →
    f.Twin R f' → Run.Acts K texts R Γ (ev.exec f node) (ev.exec f' node)
  assign : ∀ {texts R f f' target} {Γ : Assertion σ} v [Γ.Implies (lawful f)] [Γ.Implies (sound v)],
    K.Fits texts (depth - 1) f.origin target → f.Twin R f' →
      Run.Acts K texts R Γ (ev.assign f target v) (ev.assign f' target (v.shift R.shift))

/-- The nodes fit an evaluator of the depth, as parts of what it evaluates. -/
abbrev Reading.FitAll (K : Reading) (texts : Bool) (depth : Nat) (f : Frame) (nodes : List Node) : Prop :=
  ∀ x ∈ nodes, K.Fits texts (depth - 1) f.origin x

/-- The instances of a type correspond. -/
theorem World.Mirror.instantiate {R : Course} {w w' : World} (h : w.Mirror R w') (v : Value) :
    w'.instantiate (v.shift R.shift) = (w.instantiate v).shift R.shift := by
  rw [shift_of_sound R.shift (sound_instantiate v)]
  induction v with
  | step v ih =>
    cases v
    case union items | tuple serial items =>
      simp only [shift, World.instantiate, shiftAll_eq_map, instantiateAll_eq_map, List.map_map]
      exact congrArg unite (List.map_congr_left ih)
    case builtin b => cases b <;> rfl
    case external path => simp only [shift, World.instantiate, h.graph]
    all_goals rfl

namespace Evaluator

open Run

variable {K : Reading} {texts : Bool} {depth : Nat} {R : Course} {σ : Setting} {Γ : Assertion σ} {ev : Evaluator}
  (hev : ev.Walks σ K depth) {f f' : Frame} [Γ.Implies (lawful f)] (hf : f.Twin R f')

/-! ## Lists of nodes -/

section Lists

variable {nodes : List Node}

include hev hf

theorem Walks.part {node : Node} (h : K.Fits texts (depth - 1) f.origin node) :
    Yields K texts R Γ (ev.eval f node) (ev.eval f' node) :=
  hev.eval (h.mono (Nat.sub_le depth 1)) hf

theorem walk_evalAll (h : K.FitAll texts depth f nodes) :
    Walk K texts R Γ (all sound) (List.map (shift R.shift)) (ev.evalAll f nodes) (ev.evalAll f' nodes) := by
  induction nodes generalizing Γ with
  | nil => exact walk_pure []
  | cons node rest ih =>
    obtain ⟨hnode, hrest⟩ := List.forall_mem_cons.mp h
    exact (hev.part hf hnode).bind fun v => (ih hrest).bind fun vs => walk_pure (v :: vs)

theorem walk_evalOption {node : Option Node} (h : ∀ x ∈ node, K.Fits texts (depth - 1) f.origin x) :
    Yields K texts R Γ (ev.evalOption f node) (ev.evalOption f' node) := by
  cases node with
  | none => exact walk_pure empty
  | some node => exact hev.part hf (h node rfl)

theorem walk_visit (h : K.FitAll texts depth f nodes) : Acts K texts R Γ (ev.visit f nodes) (ev.visit f' nodes) := by
  induction nodes generalizing Γ with
  | nil => exact walk_pure ()
  | cons node rest ih =>
    obtain ⟨hnode, hrest⟩ := List.forall_mem_cons.mp h
    exact (hev.part hf hnode).bind fun _ => ih hrest

theorem walk_block (h : K.FitAll texts depth f nodes) : Acts K texts R Γ (ev.block f nodes) (ev.block f' nodes) := by
  induction nodes generalizing Γ with
  | nil => exact walk_pure ()
  | cons node rest ih =>
    obtain ⟨hnode, hrest⟩ := List.forall_mem_cons.mp h
    exact (hev.exec hnode hf).bind fun _ => ih hrest

omit [Γ.Implies (lawful f)] hf in
theorem does_block {s : Session} (hready : Ready σ s f) (h : K.FitAll texts depth f nodes) :
    Goes σ s (ev.block f nodes) := by
  obtain ⟨R, hf, -⟩ := f.exists_twins f
  exact (walk_block (Γ := lawful f) hev hf h).performs hready.inv hready.lawful

theorem walk_typeNamed {hint : Node} (h : K.Fits texts (depth - 1) f.origin hint) :
    Yields K texts R Γ (ev.typeNamed f hint) (ev.typeNamed f' hint) := by
  refine (hev.part hf h).bind fun type => walk_looked _ _ (fun {s s'} hs => ?_) fun {s} hs hΓ => ?_
  · rw [disjuncts_shift, shift_unite, List.map_map, List.map_map]
    refine congrArg unite (List.map_congr_left fun d _ => ?_)
    simp only [Function.comp_apply, text?_shift]
    cases d.text? with
    | none => rfl
    | some name => exact hf.valueOf hs name
  · refine sound_unite (List.forall_mem_map.mpr fun d hd => ?_)
    split
    · exact Frame.sound_valueOf hs.consistent.sound f _
    · exact Sound.of_mem_disjuncts ((sound type).of hs hΓ) hd

end Lists

omit [Γ.Implies (lawful f)] in
theorem walk_instantiate (type : Value) : Yields K texts R Γ (instantiate type) (instantiate (type.shift R.shift)) :=
  walk_world (Δ := sound) (fun v => walk_pure v) (·.instantiate type) (fun hw => congrArg pure (hw.instantiate type))
    fun _ _ => World.sound_instantiate type

/-! ## Assignments -/

section Values

theorem walk_partOf (starred : Bool) (size i : Nat) (v : Value) [Γ.Implies (sound v)] :
    Yields K texts R Γ (partOf starred size i v) (partOf starred size i (v.shift R.shift)) := by
  cases v
  case dict key value _ =>
    have : Γ.Implies (sound key) := .part (v := .dict key value) (by simp [parts])
    exact walk_pure key
  case tuple serial items _ =>
    have hpart : (if !starred && (items.map (shift R.shift)).length = size
        then ((items.map (shift R.shift))[i]?).getD .empty else .unite (items.map (shift R.shift))) =
        (if !starred && items.length = size then (items[i]?).getD .empty else .unite items).shift R.shift := by
      rw [List.length_map, List.getElem?_map]
      split
      · cases items[i]? <;> rfl
      · rw [shift_unite]
    have : Γ.Implies (all sound items) :=
      ⟨fun hs h w hw => ((sound (.tuple serial items)).of hs h).of_mem_parts (by simpa [parts] using hw)⟩
    have : Γ.Implies (sound (items[i]?.getD .empty)) :=
      ⟨fun hs h => sound_getD (fun w hw => (all sound items).of hs h w (List.mem_of_getElem? hw)) sound_empty⟩
    simp only [shift, partOf, shiftAll_eq_map]
    rw [hpart]
    exact walk_pure _
  all_goals exact walk_elem _

/-- The setters of all properties among the alternatives of a value are called. -/
theorem walk_callSetters (receiver v held : Value) [Γ.Implies (sound receiver)] [Γ.Implies (sound v)]
    [Γ.Implies (sound held)] :
    let call := fun receiver v held : Value => do
      for d in held.disjuncts do
        match d with
        | .property _ _ setter _ =>
          let _ ← callAccessor setter receiver (some v)
        | _ => pure ()
    Acts K texts R Γ (call receiver v held) (call (receiver.shift R.shift) (v.shift R.shift) (held.shift R.shift)) := by
  refine Walk.bind (walk_forDisjuncts held fun d _ => ?_) fun _ => walk_pure ()
  cases d
  case property serial getter setter deleter _ =>
    have : Γ.Implies (sound setter) := .part (v := .property serial getter setter deleter) (by simp [parts])
    exact Walk.bind (walk_callAccessor setter receiver (some v)) fun _ => walk_pure _
  all_goals exact walk_pure (ForInStep.yield ())

theorem walk_runSetters (receiver v : Value) [Γ.Implies (sound receiver)] [Γ.Implies (sound v)] (member : SymbolId) :
    Acts K texts R Γ (runSetters receiver v member) (runSetters (receiver.shift R.shift) (v.shift R.shift) member) := by
  unfold runSetters
  rw [isInstance_shift]
  refine .ite ?_ (walk_pure ())
  have hcalls : ∀ held, Acts K texts R (Γ.and (sound held)) _ _ := fun held => walk_callSetters receiver v held
  refine ⟨lockstep_getStore (fun _ => (hcalls _).regular) fun hs => ?_, fun _ hs hΓ => does_getStore_bind ?_⟩
  · rw [hs.value]
    exact (hcalls _).toLockstep
  · exact (hcalls _).performs hs ⟨hΓ, hs.consistent.sound.value member⟩

theorem walk_assignMember (base : Value) (name : String) (v : Value) [Γ.Implies (sound base)] [Γ.Implies (sound v)] :
    Acts K texts R Γ (assignMember base name v) (assignMember (base.shift R.shift) name (v.shift R.shift)) := by
  refine Walk.bind (walk_forDisjuncts base fun receiver _ => ?_) fun _ => walk_pure ()
  refine (walk_memberSymbols true receiver name).bind fun symbols => ?_
  refine Walk.bind (walk_loop fun symbol _ => ?_) fun _ => walk_pure _
  refine (walk_runSetters receiver v symbol).bind fun _ => ?_
  exact Walk.bind (walk_write symbol v) fun _ => walk_pure _

theorem walk_setItems (base key v : Value) [Γ.Implies (sound base)] [Γ.Implies (sound key)] [Γ.Implies (sound v)] :
    Acts K texts R Γ (setItems base key v) (setItems (base.shift R.shift) (key.shift R.shift) (v.shift R.shift)) := by
  refine Walk.bind (walk_forDisjuncts base fun d _ => ?_) fun _ => walk_pure ()
  cases d
  case instanceOf | externalInstance =>
    refine (walk_member _ "__setitem__").bind fun setter => ?_
    exact (walk_doCall (.ofPositional [key, v]) setter).bind fun _ => walk_pure (ForInStep.yield ())
  all_goals exact walk_pure (ForInStep.yield ())

theorem walk_setIndex (base key v : Value) [Γ.Implies (sound base)] [Γ.Implies (sound key)] [Γ.Implies (sound v)] :
    Yields K texts R Γ (inStore (setIndex base key v))
      (inStore (setIndex (base.shift R.shift) (key.shift R.shift) (v.shift R.shift))) :=
  ⟨lockstep_inStore (lockstep_setIndex base key v), fun _ hs h => does_inStore
    (does_setIndex ((sound base).of hs h) ((sound key).of hs h) ((sound v).of hs h))⟩

end Values

theorem isAssignable_shift (π : Shift) (v : Value) : (v.shift π).isAssignable = v.isAssignable := by
  rw [isAssignable, isAssignable, disjuncts_shift, List.any_map]
  refine congrArg (List.any v.disjuncts) (funext fun d => ?_)
  cases d <;> rfl

theorem freshContainer_shift (π : Shift) (key v : Value) :
    freshContainer (key.shift π) (v.shift π) = (freshContainer key v).shift π := by
  unfold freshContainer
  rw [isEmpty_shift]
  split
  · simp
  · rw [disjuncts_shift, shift_unite, List.map_map, List.map_map]
    refine congrArg unite (List.map_congr_left fun d _ => ?_)
    cases d <;> simp [shift]

omit [Γ.Implies (lawful f)] in
theorem sound_freshContainer {key v : Value} {n : Nat} (hk : key.Sound n) (hv : v.Sound n) :
    (freshContainer key v).Sound n := by
  unfold freshContainer
  split
  · refine sound_unite ?_
    simpa using ⟨sound_listOf hv, sound_dictOf sound_empty (sound_widen hv)⟩
  · refine sound_unite (List.forall_mem_map.mpr fun d hd => ?_)
    split
    · exact sound_listOf hv
    · exact sound_dictOf (sound_widen (hk.of_mem_disjuncts hd)) (sound_widen hv)

instance {key v : Value} [Γ.Implies (sound key)] [Γ.Implies (sound v)] : Γ.Implies (sound (freshContainer key v)) :=
  ⟨fun hs h => sound_freshContainer ((sound key).of hs h) ((sound v).of hs h)⟩

theorem children_of_plainElements {node : Node} {elements : List Node}
    (h : node.plainElements? = some elements) : node.children = elements := by
  unfold Node.plainElements? at h
  split at h
  · split at h
    · cases h
    · exact Option.some.inj h
  · split at h
    · cases h
    · exact Option.some.inj h
  · cases h

/-- The value that is assigned, and those of its items. -/
abbrev soundAssigned (assigned : Value × Option (List Value)) : Assertion σ :=
  (sound assigned.1).and (all (all sound) assigned.2.toList)

section Assignments

variable {target : Node} {index value : Node} {targets : List Node}

include hev hf

theorem walk_destructureFrom (starred : Bool) (size : Nat) (v : Value) [Γ.Implies (sound v)] (i : Nat)
    {elements : List Node} (h : K.FitAll texts depth f elements) :
    Acts K texts R Γ (ev.destructureFrom f starred size v i elements)
      (ev.destructureFrom f' starred size (v.shift R.shift) i elements) := by
  induction elements generalizing Γ i with
  | nil => exact walk_pure ()
  | cons element rest ih =>
    obtain ⟨helement, hrest⟩ := List.forall_mem_cons.mp h
    simp only [destructureFrom]
    refine (walk_mapDisjuncts v fun d _ => walk_partOf starred size i d).bind fun parts => ?_
    rw [← shift_unite]
    cases element
    case starred target =>
      rw [← shift_listOf]
      exact (hev.assign _ (helement.below (by simp [Node.children])) hf).bind fun _ => ih (i + 1) hrest
    all_goals exact (hev.assign _ helement hf).bind fun _ => ih (i + 1) hrest

theorem walk_rebind (h : K.Fits texts (depth - 1) f.origin target) (v : Value) [Γ.Implies (sound v)] :
    Acts K texts R Γ (ev.rebind f target v) (ev.rebind f' target (v.shift R.shift)) := by
  unfold rebind
  split
  · next name =>
    refine (walk_lookupBinding hf name).bind fun found => ?_
    cases found with
    | some symbol => exact walk_write symbol v
    | none => exact walk_assignName hf name v false
  · next object name =>
    extract_lets write write'
    have hwrite : ∀ base, Acts K texts R Γ (write base) (write' (base.shift R.shift)) := fun base =>
      (walk_memberSymbols true base name).bind fun symbols =>
        (walk_for fun symbol _ => walk_write symbol v).bind fun _ => walk_pure ()
    split
    · next base _ =>
      exact walk_look (Δ := fun _ => nothing) (fun v => (hwrite v).weaken) (f.valueOf · base)
        (fun hs => congrArg write' (hf.valueOf hs base)) fun _ _ => trivial
    · exact (hev.part hf (h.below (by simp [Node.children]))).bind fun base => (hwrite base).weaken
  · exact walk_pure ()

theorem walk_subscriptWrite (h : K.Fits texts (depth - 1) f.origin index) (v : Value)
    [Γ.Implies (sound v)] :
    Walk K texts R Γ sounds (Prod.map (shift R.shift) (shift R.shift)) (ev.subscriptWrite f index v)
      (ev.subscriptWrite f' index (v.shift R.shift)) := by
  refine (hev.part hf h).bind fun key => ?_
  split
  · exact (walk_elem v).bind fun elem => walk_pure (int none, elem)
  · exact walk_pure (key, v)

theorem walk_assignIndex {container : Node} (hc : K.Fits texts (depth - 1) f.origin container)
    (hi : K.Fits texts (depth - 1) f.origin index) (v : Value) [Γ.Implies (sound v)] :
    Acts K texts R Γ (ev.assignIndex f container index v) (ev.assignIndex f' container index (v.shift R.shift)) := by
  refine (hev.part hf hc).bind fun base => (walk_subscriptWrite hev hf hi v).bind fun write => ?_
  obtain ⟨key, v⟩ := write
  dsimp only [Prod.map]
  rw [isAssignable_shift, isEmpty_shift, freshContainer_shift]
  refine .ite ?_ (.ite (walk_rebind hev hf hc _) (walk_setItems base key v))
  exact (walk_setIndex base key v).bind fun grown => walk_rebind hev hf hc grown

/-- The target itself may be an expression, which is evaluated. -/
theorem walk_assignTo (h : K.Fits texts depth f.origin target) (v : Value) [Γ.Implies (sound v)] :
    Acts K texts R Γ (ev.assignTo f target v) (ev.assignTo f' target (v.shift R.shift)) := by
  have hchild : K.FitAll texts depth f target.children := fun x hx => (h.child hx).mono (by omega)
  unfold assignTo
  split
  · exact walk_assignName hf _ v false
  · next object name =>
    refine (hev.part hf (hchild object (by simp [Node.children]))).bind fun base => ?_
    exact (walk_idle (idle_recordMember f object name) (idle_recordMember f' object name)).bind
      fun _ => walk_assignMember base name v
  · exact walk_assignIndex hev hf (hchild _ (by simp [Node.children])) (hchild _ (by simp [Node.children])) v
  · exact walk_destructureFrom hev hf _ _ v 0 fun x hx => hchild x (by simpa [Node.children] using hx)
  · exact walk_destructureFrom hev hf _ _ v 0 fun x hx => hchild x (by simpa [Node.children] using hx)
  · rw [← shift_listOf]
    exact hev.assign _ (hchild _ (by simp [Node.children])) hf
  · exact (hev.eval h hf).bind fun _ => walk_pure ()

theorem walk_evalAssigned (h : K.Fits texts (depth - 1) f.origin value) :
    Walk K texts R Γ soundAssigned (Prod.map (shift R.shift) (Option.map (List.map (shift R.shift))))
      (ev.evalAssigned f value) (ev.evalAssigned f' value) := by
  unfold evalAssigned
  split
  · next elements helements =>
    rw [← children_of_plainElements helements]
    refine (walk_evalAll hev hf fun x hx => h.below hx).bind fun items => ?_
    split
    all_goals
      simp only [← shift_tupleOf, ← shift_unite, ← shift_listOf]
      exact (walk_numbered _).bind fun whole => (walk_tell _ _).bind fun _ => walk_pure (whole, some items)
  · exact (hev.part hf h).bind fun v => walk_pure (v, none)

theorem walk_assignAll (h : K.FitAll texts depth f targets) (values : List Value)
    [Γ.Implies (all sound values)] :
    Acts K texts R Γ (ev.assignAll f targets values) (ev.assignAll f' targets (values.map (shift R.shift))) := by
  induction targets generalizing Γ values with
  | nil => exact walk_pure ()
  | cons target rest ih =>
    obtain ⟨htarget, hrest⟩ := List.forall_mem_cons.mp h
    cases values with
    | nil => exact walk_pure ()
    | cons v values =>
      have : Γ.Implies (sound v) := .mem (List.mem_cons_self (a := v) (l := values))
      have : Γ.Implies (all sound values) := .subset (List.subset_cons_self v values)
      exact (hev.assign v htarget hf).bind fun _ => ih hrest values

theorem walk_assignAssigned (whole : Value) (items? : Option (List Value)) [Γ.Implies (sound whole)]
    [Γ.Implies (all (all sound) items?.toList)] (h : K.Fits texts (depth - 1) f.origin target) :
    Acts K texts R Γ (ev.assignAssigned f whole items? target)
      (ev.assignAssigned f' (whole.shift R.shift) (items?.map (List.map (shift R.shift))) target) := by
  unfold assignAssigned
  cases helements : target.plainElements? with
  | none => exact hev.assign whole h hf
  | some elements =>
    cases items? with
    | none => exact hev.assign whole h hf
    | some items =>
      have : Γ.Implies (all sound items) := .mem (P := all sound) (Option.mem_toList.mpr (Option.mem_some_self items))
      simp only [Option.map_some, List.length_map]
      rw [← children_of_plainElements helements]
      exact .ite (walk_assignAll hev hf (fun x hx => h.below hx) items) (hev.assign whole h hf)

theorem walk_assignment (ht : K.FitAll texts depth f targets)
    (hv : K.Fits texts (depth - 1) f.origin value) :
    Acts K texts R Γ (ev.assignment f targets value) (ev.assignment f' targets value) := by
  refine (walk_evalAssigned hev hf hv).bind fun assigned => ?_
  refine (walk_for fun target h => walk_assignAssigned hev hf assigned.1 assigned.2 (ht target h)).bind fun _ => ?_
  exact walk_idle (idle_recordAssignment f targets value) (idle_recordAssignment f' targets value)

theorem walk_annotatedAssignment {hint : Node} {value : Option Node}
    (h : K.FitAll texts depth f (Node.children (.annotated target hint value))) :
    Acts K texts R Γ (ev.annotatedAssignment f target hint value) (ev.annotatedAssignment f' target hint value) := by
  simp only [Node.children, List.forall_mem_cons, Option.mem_toList] at h
  obtain ⟨htarget, hhint, hvalue⟩ := h
  refine (walk_typeNamed hev hf hhint).bind fun type => ?_
  extract_lets declare declare'
  have hdeclare : Acts K texts R Γ (declare ()) (declare' ()) :=
    (walk_instantiate type).bind fun v => hev.assign v htarget hf
  cases value with
  | none => exact hdeclare.weaken
  | some value =>
    refine (hev.part hf (hvalue value rfl)).bind fun v => (hev.assign v htarget hf).bind fun _ => ?_
    exact hdeclare.weaken

end Assignments

/-! ## Functions -/

theorem isPropertyDecorator_shift (π : Shift) (v : Value) :
    (v.shift π).isPropertyDecorator = v.isPropertyDecorator := by
  rw [isPropertyDecorator, isPropertyDecorator, disjuncts_shift, List.any_map]
  refine congrArg (List.any v.disjuncts) (funext fun d => ?_)
  cases d
  case method serial receiver name => cases receiver <;> rfl
  all_goals rfl

omit [Γ.Implies (lawful f)] in
theorem walk_decorate (bound : Value) (decorators : List Value) [Γ.Implies (sound bound)]
    [Γ.Implies (all sound decorators)] :
    Yields K texts R Γ (decorate bound decorators)
      (decorate (bound.shift R.shift) (decorators.map (shift R.shift))) := by
  induction decorators generalizing Γ bound with
  | nil => exact walk_pure bound
  | cons decorator outer ih =>
    have : Γ.Implies (sound decorator) := .mem (List.mem_cons_self (a := decorator) (l := outer))
    have : Γ.Implies (all sound outer) := .subset (List.subset_cons_self decorator outer)
    simp only [List.map_cons, decorate, isPropertyDecorator_shift]
    refine .ite ?_ (ih bound)
    refine (walk_doCall (.ofPositional [bound]) decorator).bind fun wrapped => ?_
    rw [isEmpty_shift]
    have hkept : (if wrapped.isEmpty then bound.shift R.shift else wrapped.shift R.shift) =
        (if wrapped.isEmpty then bound else wrapped).shift R.shift := by split <;> rfl
    rw [hkept]
    exact ih _

section Definitions

include hf

/-- In lockstep, a function was defined before, because it has symbols. -/
theorem walk_definedAt {n : Nat} (form : Form) {signature : Signature} (h : K.Known texts f.origin signature.node)
    (hid : form.id? signature.node = some n) :
    Acts K texts R Γ (definedAt form f n signature) (definedAt form f' n signature) := by
  refine ⟨⟨.definedAt form f signature h hid, fun σ _ s s' hs hend => ?_⟩, fun s hs hΓ => ?_⟩
  · have hplaces : form.places s'.assembly = form.places s.assembly := by
      cases form with
      | statement => exact hs.functions
      | lambda => exact hs.lambdas
    rw [definedAt_apply] at hend
    rw [definedAt_apply, definedAt_apply, hplaces, hf.site]
    cases hfound : (form.places s.assembly).lookup (f.site n) with
    | some g => exact ⟨rfl, hs⟩
    | none =>
      rw [hfound] at hend
      have hmade := symbols_lt_definedStore f signature s
      exact absurd (hs.store.count.trans hend.store.count.symm) (Nat.ne_of_lt hmade)
  · exact (does_definedAt (ready hs hΓ) form n signature).imp fun _ _ _ _ => trivial

/-- In lockstep, a class was made before, because it has symbols. -/
theorem walk_classAt (n : Nat) (name : String) : Walk K texts R Γ made id (classAt f n name) (classAt f' n name) := by
  refine ⟨⟨.classAt f n name, fun σ _ s s' hs hend => ?_⟩, fun s hs hΓ => does_classAt (ready hs hΓ) n name⟩
  rw [classAt_apply] at hend
  rw [classAt_apply, classAt_apply, hs.classes, hf.site]
  cases hfound : s.assembly.classes.lookup (f.site n) with
  | some c => exact ⟨rfl, hs⟩
  | none =>
    rw [hfound] at hend
    have hmade := symbols_lt_classMade f name s
    exact absurd (hs.store.count.trans hend.store.count.symm) (Nat.ne_of_lt hmade)

end Definitions

section Functions

variable {params : Parameters Node}

include hev hf

theorem walk_bindParameter {param : Parameter Node} (h : K.FitAll texts depth f param.children)
    (symbol : SymbolId) : Acts K texts R Γ (ev.bindParameter f param symbol) (ev.bindParameter f' param symbol) := by
  unfold bindParameter
  extract_lets annotate annotate'
  have hannotate : Acts K texts R Γ (annotate ()) (annotate' ()) := by
    dsimp only [annotate, annotate']
    split
    · next hint heq =>
      have hhint := h hint (by simp [Parameter.children, heq])
      exact (walk_typeNamed hev hf hhint).bind fun type => (walk_instantiate type).bind fun v => walk_produce symbol v
    · exact walk_pure ()
  cases heq : param.default with
  | some node =>
    refine (hev.part hf (h node (by simp [Parameter.children, heq]))).bind fun v => ?_
    exact (walk_produce symbol v).bind fun _ => hannotate.weaken
  | none => exact hannotate

theorem walk_bindParameters {params : List (Parameter Node)}
    (h : K.FitAll texts depth f (params.flatMap Parameter.children)) (slots : List Param) :
    Acts K texts R Γ (ev.bindParameters f params slots) (ev.bindParameters f' params slots) := by
  induction params generalizing Γ slots with
  | nil => exact walk_pure ()
  | cons param rest ih =>
    rw [List.flatMap_cons] at h
    obtain ⟨hparam, hrest⟩ := List.forall_mem_append.mp h
    cases slots with
    | nil => exact walk_pure ()
    | cons slot slots => exact (walk_bindParameter hev hf hparam slot.symbol).bind fun _ => ih hrest slots

theorem walk_bindCollector {container : Value → Value}
    (hcontainer : ∀ v : Value, container (v.shift R.shift) = (container v).shift R.shift)
    (hsound : ∀ {Δ : Assertion σ} (v : Value) [Δ.Implies (sound v)], Δ.Implies (sound (container v)))
    {param : Option (VarParameter Node)} (h : K.FitAll texts depth f (param.toList.flatMap VarParameter.children))
    (symbol : Option SymbolId) :
    Acts K texts R Γ (ev.bindCollector f container param symbol) (ev.bindCollector f' container param symbol) := by
  unfold bindCollector
  split
  · next hint symbol =>
    have hhint := h hint (by simp [VarParameter.children])
    refine (walk_typeNamed hev hf hhint).bind fun type => (walk_instantiate type).bind fun v => ?_
    rw [hcontainer]
    exact walk_produce _ _
  · exact walk_pure ()

theorem walk_bindSignature (g : FunctionId) (h : K.FitAll texts depth f params.children) :
    Acts K texts R Γ (ev.bindSignature f g params) (ev.bindSignature f' g params) := by
  unfold Parameters.children at h
  obtain ⟨hfirst, hkwarg⟩ := List.forall_mem_append.mp h
  obtain ⟨hparams, hvararg⟩ := List.forall_mem_append.mp hfirst
  refine walk_getFunctions fun hs => ?_
  rw [hs]
  refine (walk_bindParameters hev hf hparams _).bind fun _ => ?_
  refine (walk_bindCollector hev hf (fun v => (shift_listOf R.shift v).symm) (fun _ => inferInstance) hvararg _).bind
    fun _ => ?_
  exact walk_bindCollector hev hf (fun v => by simp [shift]) (fun _ => inferInstance) hkwarg _

theorem walk_functionDef {n : Nat} {name : String} {body decorators : List Node} {returns : Option Node}
    {isAsync : Bool} {line : Nat} {node : Node}
    (hnode : node = .functionDef n name params body decorators returns isAsync line) (h : K.Known texts f.origin node)
    (hchild : K.FitAll texts depth f node.children) :
    Acts K texts R Γ (ev.functionDef f n name params decorators returns node)
      (ev.functionDef f' n name params decorators returns node) := by
  subst hnode
  simp only [Node.children, List.forall_mem_append] at hchild
  obtain ⟨⟨⟨hparams, -⟩, hdecorators⟩, hreturns⟩ := hchild
  have howner : f'.owner = f.owner := by rw [hf.same]
  unfold functionDef
  rw [functionAt_eq, functionAt_eq, signatureOf, signatureOf, howner]
  refine (walk_definedAt hf .statement h rfl).bind fun g => ?_
  refine (walk_evalAll hev hf hdecorators).bind fun applied => ?_
  extract_lets bind bind'
  have hbind : Acts K texts R (Γ.and (all sound applied)) (bind ()) (bind' ()) := by
    refine (walk_bindSignature hev hf g hparams).bind fun _ => ?_
    rw [← List.map_reverse]
    exact (walk_decorate (.functionRef g) applied.reverse).bind fun v => walk_assignName hf name v false
  cases returns with
  | none => exact hbind.weaken
  | some hint =>
    have hhint := hreturns hint (by simp)
    refine (walk_typeNamed hev hf hhint).bind fun type => (walk_instantiate type).bind fun v => ?_
    refine walk_getFunctions fun hs => ?_
    rw [hs]
    exact (walk_produce _ v).bind fun _ => hbind.weaken

theorem walk_evalLambda {n : Nat} {body : Node} (h : K.Known texts f.origin (.lambda n params body))
    (hparams : K.FitAll texts depth f params.children) :
    Yields K texts R Γ (ev.evalLambda f n params (.lambda n params body))
      (ev.evalLambda f' n params (.lambda n params body)) := by
  let signature : Signature := ⟨"[lambda]", .lambda n params body, params, .unbound⟩
  have hknown : K.Known texts f.origin signature.node := h
  exact (walk_definedAt hf .lambda hknown rfl).bind fun g =>
    (walk_bindSignature hev hf g hparams).bind fun _ => walk_pure (functionRef g)

end Functions

/-! ## Classes -/

/-- Both evaluations open a scope for the body, and go on in it. -/
theorem lockstep_openBody {α : Type} {k : α → α} (address : Address) (parent : TableId)
    {next next' : TableId → Run α} (hregular : ∀ t, Regular K texts (next t))
    (hnext : ∀ {s s' : Store}, s.Mirror R s' → Lockstep K texts
      (R.rebase (opened address (some parent) s) (opened address (some parent) s')) k
        (next ⟨s.tables.size⟩) (next' ⟨s'.tables.size⟩)) :
    Lockstep K texts R k (openBody address parent >>= next) (openBody address parent >>= next') := by
  have hkeeps := keeps_newTable address (some parent)
  refine ⟨.bind (.bind (.inStore hkeeps) fun table => .bind (.opened table) fun _ => .pure table) hregular,
    fun σ hσ s s' hs hend => ?_⟩
  have hopen : ∀ {s : Session} {next : TableId → Run α}, (openBody address parent >>= next) σ s =
      next ⟨s.store.tables.size⟩ σ { s with store := opened address (some parent) s.store,
                                            bodies := ⟨s.store.tables.size⟩ :: s.bodies } := rfl
  rw [hopen] at hend
  rw [hopen, hopen]
  have hrest := (hregular ⟨s.store.tables.size⟩).onward hσ.benign hσ.trusted
    { s with store := opened address (some parent) s.store, bodies := ⟨s.store.tables.size⟩ :: s.bodies }
  have hmid := hrest.admitted (Nat.le_of_eq hs.store.count.symm) hend
  have hstores := (hs.store.openScope address (some parent) hmid.store.known).openScopeAgain address (some parent)
  have hstates : Session.Mirror R
      { s with store := opened address (some parent) s.store, bodies := ⟨s.store.tables.size⟩ :: s.bodies }
      { s' with store := opened address (some parent) s'.store, bodies := ⟨s'.store.tables.size⟩ :: s'.bodies } :=
    { hs with
      store := hstores
      chained := fun entry he => (hs.chained entry he).mono ((hkeeps s.store).tables rfl) }
  obtain ⟨hresult, hstate⟩ := (hnext hs.store).follows hσ hstates.rebased
    ⟨⟨hend.store.count, hend.store.known⟩, hend.comprehensions⟩
  exact ⟨hresult, hstates.unbased hstate⟩

/-- The body of a class has the same record in both evaluations. -/
theorem twin_classBody (hf : f.Twin R f') {s s' : Store} (hs : s.Mirror R s') (address : Address) (c : ClassId) :
    (f.inner ⟨s.tables.size⟩ f.inherited (some c)).Twin
      (R.rebase (opened address (some f.inherited) s) (opened address (some f.inherited) s'))
      (f'.inner ⟨s'.tables.size⟩ f.inherited (some c)) := by
  have hinherited : Chained s.tables.toList f.inherited := hf.inherited.mono hs.based
  refine ⟨?_, chained_opened address hinherited, hinherited.mono (prefix_opened _ _ _), _,
    getElem?_opened _ _ s, getElem?_opened _ _ s'⟩
  rw [hf.same]
  rfl

theorem walk_registerSubclass (c : ClassId) (vs : List Value) : Acts K texts R Γ (inStore (registerSubclass c vs))
      (inStore (registerSubclass c (vs.map (shift R.shift)))) := by
  induction vs with
  | nil => exact walk_pure ()
  | cons v rest ih =>
    rw [List.map_cons]
    cases v
    case classRef parent =>
      simp only [shift, registerSubclass]
      split
      · exact (walk_inStore (lockstep_addSubclass parent c) fun _ _ =>
          does_addSubclass parent c).then ih
      · exact ih
    all_goals exact ih

section Classes

variable {bases : List Node} {body : List Node}

include hev hf

theorem walk_evalBases (c : ClassId) (h : K.FitAll texts depth f bases) :
    Walk K texts R Γ (all sound) (List.map (shift R.shift)) (ev.evalBases f c bases) (ev.evalBases f' c bases) := by
  induction bases generalizing Γ with
  | nil => exact walk_pure []
  | cons base rest ih =>
    obtain ⟨hbase, hrest⟩ := List.forall_mem_cons.mp h
    refine (hev.part hf hbase).bind fun v => ?_
    rw [disjuncts_shift, isEmpty_shift]
    refine (walk_registerSubclass c v.disjuncts).bind fun _ => ?_
    refine (walk_say _ _).bind fun _ => (ih hrest).bind fun others => ?_
    split
    · exact walk_pure others
    · exact walk_pure (v :: others)

omit [Γ.Implies (lawful f)] in
/-- The class is listed below each base as soon as the base is evaluated. -/
theorem registers_evalBases (c : ClassId) (h : K.FitAll texts depth f bases) :
    K.Registers c (ev.evalBases f c bases) := by
  intro hbenign σ s s' vs hσ hrun
  induction bases generalizing s vs with
  | nil =>
    cases hrun
    exact nofun
  | cons base rest ih =>
    obtain ⟨hbase, hrest⟩ := List.forall_mem_cons.mp h
    obtain ⟨v, s₁, -, hrun₁⟩ := bind_eq_ok hrun
    obtain ⟨_, s₂, hregister, hrun₂⟩ := bind_eq_ok hrun₁
    obtain ⟨_, s₃, hsay, hrun₃⟩ := bind_eq_ok hrun₂
    obtain ⟨others, s₄, hothers, hrun₄⟩ := bind_eq_ok hrun₃
    have hstore₂ : s₂.store = (registerSubclass c v.disjuncts s₁.store).2 :=
      (congrArg (fun out => out.2.store) hregister).symm
    have hstore₃ : s₃.store = s₂.store := by
      rw [say_apply] at hsay
      exact (congrArg (fun out => out.2.store) hsay).symm
    cases hrun₄
    have hlinks := ((walk_evalBases (Γ := .never) hev hf c hrest).regular.onward hbenign hσ s₃).coherent
    rw [hothers, hstore₃, hstore₂] at hlinks
    have hlisted : ∀ p, .classRef p ∈ v.disjuncts → p ≠ c → (p, c) ∈ s'.store.subclassLinks := fun p hp hne =>
      hlinks.subclassLinks (mem_subclassLinks_registerSubclass c v.disjuncts s₁.store p hp hne)
    have hregistered := ih hrest s₃ others hothers
    intro p hp hne
    split at hp
    · exact hregistered p hp hne
    · rw [flatten, List.flatMap_cons, List.mem_append] at hp
      exact hp.elim (fun hp => hlisted p hp hne) fun hp => hregistered p hp hne

omit [Γ.Implies (lawful f)] in
theorem lockstep_classBody (c : ClassId) (h : K.FitAll texts depth f body) :
    Lockstep K texts R id (ev.classBody f c body) (ev.classBody f' c body) := by
  let run := fun g : Frame => do
    ev.block g body
    let setting ← read
    inAnalysis (applyPolicies setting.graph setting.policies c g.scope)
    inStore (clearValues g.scope)
  have hbody : ∀ {R : Course} {g g' : Frame}, g.Twin R g' → g.origin = f.origin →
      Lockstep K texts R id (run g) (run g') := by
    intro R g g' hg horigin
    refine (walk_block (Γ := .never) hev hg fun x hx => horigin ▸ h x hx).toLockstep.bind fun _ => ?_
    refine lockstep_read (fun _ _ => rfl) fun σ hσ => (lockstep_policies σ.graph hσ c hg.table).bind fun _ => ?_
    exact lockstep_inStore (lockstep_clearValues hg.table)
  have hopen : ∀ address : Address, Lockstep K texts R id
      (openBody address f.inherited >>= fun table => run (f.inner table f.inherited (some c)))
      (openBody address f'.inherited >>= fun table => run (f'.inner table f'.inherited (some c))) := by
    intro address
    rw [hf.inherits]
    refine lockstep_openBody address f.inherited (fun t => ?_) fun hs => hbody (twin_classBody hf hs address c) rfl
    obtain ⟨R', -, hinner⟩ := f.exists_twins (f.inner t f.inherited (some c))
    exact (hbody hinner rfl).regular
  refine lockstep_getStore (fun _ => (hopen _).regular) fun hs => ?_
  rw [hs.classAddress]
  exact hopen _

omit [Γ.Implies (lawful f)] hf in
theorem does_classBody {s : Session} (hready : Ready σ s f) {c : ClassId} (hc : c.index < s.store.classes.size)
    (h : K.FitAll texts depth f body) : Goes σ s (ev.classBody f c body) := by
  refine does_getStore_bind ?_
  refine (does_openBody hready.lawful.inherited (s.store.classAddress c)).bind fun t s₁ hs₁ ht => ?_
  obtain ⟨hbody, hlt, haddress⟩ := ht
  -- the class and its body keep their address while the body is run
  have hc₁ := Nat.lt_of_lt_of_le hc (Steps.extension hs₁).store.classes
  rw [← classAddress_after hready.inv hs₁ hc] at haddress
  refine (does_block hev (ready_classBody (hready.after hs₁) hc₁ hbody haddress) h).then fun s₂ hs₂ => ?_
  have hx₂ := Steps.extension hs₂
  have hbody₂ := hx₂.bodies hbody
  have haddress₂ : (s₂.store.table t).address = s₂.store.classAddress c := by
    rw [(hx₂.store.table t hlt).1, classAddress_after (hready.after hs₁).inv hs₂ hc₁, haddress]
  have hinv₂ := (hready.after (hs₁.trans hs₂)).inv
  have hfits := fits_classBody hinv₂ (Nat.lt_of_lt_of_le hc₁ hx₂.store.classes) hbody₂ haddress₂
  refine does_read_bind ?_
  refine (does_inAnalysis (Analysis.does_applyPolicies hinv₂.benign.policies hinv₂.consistent σ.graph hfits)).then
    fun s₃ hs₃ => ?_
  exact does_clearValues ((Steps.extension hs₃).bodies hbody₂)

theorem walk_classBody (c : ClassId) [Γ.Implies (made c)] (h : K.FitAll texts depth f body) :
    Acts K texts R Γ (ev.classBody f c body) (ev.classBody f' c body) :=
  ⟨lockstep_classBody hev hf c h, fun _ hs hΓ => does_classBody hev (ready hs hΓ) ((made c).of hs hΓ) h⟩

theorem walk_classDef {n : Nat} {name : String} {keywords : List (Keyword Node)} {decorators : List Node}
    {line : Nat} (h : K.FitAll texts depth f (Node.children (.classDef n name bases keywords body decorators line))) :
    Acts K texts R Γ (ev.classDef f n name bases keywords body decorators)
      (ev.classDef f' n name bases keywords body decorators) := by
  simp only [Node.children, List.forall_mem_append] at h
  obtain ⟨⟨⟨hbases, hkeywords⟩, hbody⟩, hdecorators⟩ := h
  refine (walk_classAt hf n name).bind fun c => ?_
  have hvisits : Acts K texts R Γ (ev.visit f (keywords.map Keyword.value) >>= fun _ => ev.visit f decorators)
      (ev.visit f' (keywords.map Keyword.value) >>= fun _ => ev.visit f' decorators) :=
    (walk_visit hev hf hkeywords).bind fun _ => walk_visit hev hf hdecorators
  have hvalues : Walk K texts R (Γ.and (made c)) (all sound) (List.map (shift R.shift))
      (ev.evalBases f c bases >>= fun values =>
        (ev.visit f (keywords.map Keyword.value) >>= fun _ => ev.visit f decorators) >>= fun _ => pure values)
      (ev.evalBases f' c bases >>= fun values =>
        (ev.visit f' (keywords.map Keyword.value) >>= fun _ => ev.visit f' decorators) >>= fun _ => pure values) :=
    (walk_evalBases hev hf c hbases).bind fun values => hvisits.weaken.bind fun _ => walk_pure values
  have hset := walk_setBases hvalues ((registers_evalBases hev hf c hbases).then hvisits.regular)
  have hrest := hset.then ((walk_classBody hev hf c hbody).then (walk_assignName hf name (.classRef c) false))
  simpa only [bind_assoc, pure_bind, id_eq, shift] using hrest

end Classes

end Evaluator

end Surmise
