import Surmise.Proofs.LexicalScopes

/-!
# Texts that are evaluated from several scopes

A text that is passed to `eval` is evaluated in the scope of the call. Functions, lambdas and comprehensions in
the text have scopes of their own, and these are found again by the text and the node: whoever evaluates the
text first decides what they lie in, and every later call is given the same ones.

* `NestedScope`: the places in a text that have such scopes.
* `NestedScope.scope?_after`: such a scope stays that of its place.
* `Session.Lexical.chain_suffix`: the scopes around a scope, and those around one of them.
* `Assembler.Reached.first_call_decides`: the main statement.
* `Assembler.lookup_in_first_caller`: two functions that evaluate the same text, where the second one is given
  what the first one binds.
-/

namespace Surmise

open Run Evaluator Store

/-! ## The scopes around a scope -/

namespace Session

variable {σ : Setting} {s s' : Session} {t : TableId}

/-- It does not matter how much fuel is left over. -/
theorem Lexical.chainWithin_eq (h : s.Lexical t) (hinv : s.Inv σ) {fuel fuel' : Nat} (hfuel : t.index ≤ fuel)
    (hfuel' : t.index ≤ fuel') : s.store.chainWithin fuel t = s.store.chainWithin fuel' t := by
  induction h generalizing fuel fuel' with
  | @module m hm =>
    have hne : (s.store.module m).members.index ≠ 0 := by
      intro hzero
      refine (hinv.module_apart ⟨m, hm, rfl⟩).2 ?_
      rw [hinv.builtins, ← hzero]
    obtain ⟨n, rfl⟩ : ∃ n, fuel = n + 1 := Nat.exists_eq_succ_of_ne_zero (by omega)
    obtain ⟨n', rfl⟩ : ∃ n, fuel' = n + 1 := Nat.exists_eq_succ_of_ne_zero (by omega)
    rw [s.store.chainWithin_of_parent (hinv.modules m hm).1, s.store.chainWithin_of_parent (hinv.modules m hm).1,
      s.store.chainWithin_of_outermost hinv.outermost, s.store.chainWithin_of_outermost hinv.outermost]
  | @inner t outer _ hparent hlt _ ih =>
    obtain ⟨n, rfl⟩ : ∃ n, fuel = n + 1 := Nat.exists_eq_succ_of_ne_zero (by omega)
    obtain ⟨n', rfl⟩ : ∃ n, fuel' = n + 1 := Nat.exists_eq_succ_of_ne_zero (by omega)
    rw [s.store.chainWithin_of_parent hparent, s.store.chainWithin_of_parent hparent,
      ih (Nat.le_of_lt_succ (Nat.lt_of_lt_of_le hlt hfuel)) (Nat.le_of_lt_succ (Nat.lt_of_lt_of_le hlt hfuel'))]

/-- A lookup from a scope goes on as one from the scope around it. -/
theorem Inv.chain_of_parent (hinv : s.Inv σ) {outer : TableId} (houter : s.Lexical outer)
    (hparent : (s.store.table t).parent = some outer) (hlt : outer.index < t.index) :
    s.store.chain t = t :: s.store.chain outer := by
  have hknown := lt_tables_of_parent hparent
  unfold chain
  obtain ⟨n, hn⟩ := Nat.exists_eq_succ_of_ne_zero (Nat.ne_zero_of_lt hknown)
  have hfuel : outer.index ≤ n := by omega
  rw [hn, s.store.chainWithin_of_parent hparent, houter.chainWithin_eq hinv hfuel (Nat.le_succ_of_le hfuel)]

theorem Inv.chain_module (hinv : s.Inv σ) {m : ModuleId} (hm : m.index < s.store.modules.size) :
    s.store.chain (s.store.module m).members = [(s.store.module m).members, σ.builtins] := by
  obtain ⟨hparent, -⟩ := hinv.modules m hm
  obtain ⟨n, hn⟩ := Nat.exists_eq_succ_of_ne_zero (Nat.ne_zero_of_lt (lt_tables_of_parent hparent))
  unfold chain
  rw [hn, s.store.chainWithin_of_parent hparent, s.store.chainWithin_of_outermost hinv.outermost]

/-- The scopes around a scope end with those around any of them. -/
theorem Lexical.chain_suffix {u : TableId} (h : s.Lexical t) (hinv : s.Inv σ) (hu : u ∈ s.store.chain t) :
    s.store.chain u <:+ s.store.chain t := by
  induction h with
  | @module m hm =>
    rw [hinv.chain_module hm, List.mem_cons, List.mem_singleton] at hu
    rcases hu with rfl | rfl
    · exact List.suffix_refl _
    · rw [hinv.chain_module hm]
      unfold chain
      rw [s.store.chainWithin_of_outermost hinv.outermost]
      exact List.suffix_cons _ _
  | @inner t outer _ hparent hlt houter ih =>
    rw [hinv.chain_of_parent houter hparent hlt, List.mem_cons] at hu
    rcases hu with rfl | hu
    · exact List.suffix_refl _
    · rw [hinv.chain_of_parent houter hparent hlt]
      exact (ih hu).trans (List.suffix_cons _ _)

theorem Lexical.mem_chain (h : s.Lexical t) (hinv : s.Inv σ) : t ∈ s.store.chain t := by
  cases h with
  | module hm =>
    rw [hinv.chain_module hm]
    exact List.mem_cons_self
  | inner _ hparent hlt houter =>
    rw [hinv.chain_of_parent houter hparent hlt]
    exact List.mem_cons_self

/-! ## Places stay where they are -/

/-- The places of functions, lambdas and comprehensions are listed as before, and then some more. -/
structure KeepsPlaces (s s' : Session) : Prop where
  functions : s.assembly.functions <+: s'.assembly.functions
  lambdas : s.assembly.lambdas <+: s'.assembly.lambdas
  comprehensions : s.assembly.comprehensions <+: s'.assembly.comprehensions

theorem KeepsPlaces.of_eq (h : s'.assembly = s.assembly) : s.KeepsPlaces s' := by
  constructor <;> exact h ▸ List.prefix_refl _

theorem Step.keepsPlaces (h : Step σ s s') : s.KeepsPlaces s' := by
  cases h with
  | quiet _ hassembly _ _ => exact .of_eq hassembly
  | openComprehension => exact ⟨List.prefix_refl _, List.prefix_refl _, List.prefix_append _ _⟩
  | functionSite => exact ⟨List.prefix_append _ _, List.prefix_refl _, List.prefix_refl _⟩
  | lambdaSite => exact ⟨List.prefix_refl _, List.prefix_append _ _, List.prefix_refl _⟩
  | _ => exact ⟨List.prefix_refl _, List.prefix_refl _, List.prefix_refl _⟩

theorem Move.keepsPlaces (h : Move σ s s') : s.KeepsPlaces s' := by
  cases h with
  | visit h =>
    cases h with
    | step h => exact h.keepsPlaces
    | receive => exact .of_eq rfl
  | schedule => exact ⟨List.prefix_refl _, List.prefix_refl _, List.prefix_refl _⟩
  | refine => exact .of_eq rfl

theorem Moves.keepsPlaces (h : Moves σ s s') : s.KeepsPlaces s' := by
  induction h with
  | refl => exact .of_eq rfl
  | tail _ hmove ih =>
    have hlast := hmove.keepsPlaces
    exact ⟨ih.functions.trans hlast.functions, ih.lambdas.trans hlast.lambdas,
      ih.comprehensions.trans hlast.comprehensions⟩

end Session

/-! ## Scopes in a text -/

open Session

/-- A place in a text that has a scope of its own. -/
inductive NestedScope where
  | comprehension (node : Nat)
  | function (id : Nat) (name : String) (params : Parameters Node) (decorators : List Node) (node : Node)
  | lambda (id : Nat) (params : Parameters Node) (node : Node)

namespace NestedScope

/-- The scope of the place in a text, if the place has been reached. -/
def scope? (s : Session) (origin : Origin) : NestedScope → Option TableId
  | comprehension node => s.assembly.comprehensions.lookup ⟨origin, node⟩
  | function id .. => (s.assembly.functions.lookup ⟨origin, id⟩).map fun g => (s.store.function g).locals
  | lambda id .. => (s.assembly.lambdas.lookup ⟨origin, id⟩).map fun g => (s.store.function g).locals

/-- Reaches the place in a body, which gives its scope. -/
def reach (f : Frame) : NestedScope → Run TableId
  | comprehension node => Evaluator.comprehensionTable f node
  | function id name params decorators node => do
    let g ← Evaluator.functionAt f id name params decorators node
    return ((← Run.getStore).function g).locals
  | lambda id params node => do
    let g ← Evaluator.lambdaAt f id params node
    return ((← Run.getStore).function g).locals

variable {σ : Setting} {s s' : Session} {f : Frame} {t : TableId} {n : NestedScope}

/-- Nothing is done at a place that was reached before. -/
theorem reach_again (h : n.scope? s f.origin = some t) : n.reach f σ s = (.ok t, s) := by
  cases n with
  | comprehension node =>
    rw [reach]
    unfold comprehensionTable
    rw [get_bind_apply, show s.assembly.comprehensions.lookup (f.site node) = some t from h]
    rfl
  | function id name params decorators node =>
    obtain ⟨g, hg, rfl⟩ := Option.map_eq_some_iff.mp h
    rw [reach, bind_apply, functionAt_eq, definedAt_apply, Form.places,
      show s.assembly.functions.lookup (f.site id) = some g from hg]
    rfl
  | lambda id params node =>
    obtain ⟨g, hg, rfl⟩ := Option.map_eq_some_iff.mp h
    rw [reach, bind_apply, lambdaAt_eq, definedAt_apply, Form.places,
      show s.assembly.lambdas.lookup (f.site id) = some g from hg]
    rfl

/-- **The scope of a place stays the same.** -/
theorem scope?_after {origin : Origin} (hinv : s.Inv σ) (hmoves : Moves σ s s') (h : n.scope? s origin = some t) :
    n.scope? s' origin = some t := by
  have hkept := Moves.keepsPlaces hmoves
  have hstore := (Moves.extension hmoves).store
  cases n with
  | comprehension node => exact lookup_of_prefix hkept.comprehensions h
  | function id name params decorators node =>
    obtain ⟨g, hg, rfl⟩ := Option.map_eq_some_iff.mp h
    have hknown := hinv.sites.functions _ (mem_of_lookup hg)
    exact Option.map_eq_some_iff.mpr ⟨g, lookup_of_prefix hkept.functions hg, by rw [hstore.function g hknown]⟩
  | lambda id params node =>
    obtain ⟨g, hg, rfl⟩ := Option.map_eq_some_iff.mp h
    have hknown := hinv.sites.lambdas _ (mem_of_lookup hg)
    exact Option.map_eq_some_iff.mpr ⟨g, lookup_of_prefix hkept.lambdas hg, by rw [hstore.function g hknown]⟩

/-- A function that was just defined lies in the scope that the body lends. -/
theorem definedStore_locals (h : Ready σ s f) (signature : Run.Signature) :
    ((Run.definedStore f signature s).function ⟨s.store.functions.size⟩).locals = ⟨s.store.tables.size⟩ ∧
      ((Run.definedStore f signature s).table ⟨s.store.tables.size⟩).parent = some f.inherited := by
  have hopens := StoreM.opens_newFunction (Run.specOf f signature s) h.inv.free
  obtain ⟨mid, info, -, hinfo, heq⟩ := StoreM.newFunction_spec (Run.specOf f signature s) h.inv.free
  rw [heq] at hopens
  have hlocals : (Store.function { mid with functions := s.store.functions.push info }
      ⟨s.store.functions.size⟩).locals = ⟨s.store.tables.size⟩ := by
    unfold Store.function
    rw [getD_push, if_pos rfl, hinfo.locals]
  unfold Run.definedStore
  rw [heq]
  dsimp only
  split
  · next symbol _ =>
    -- the list of the `*` parameter is joined into a symbol, which changes no scope
    have hextends := (Store.Step.produce { mid with functions := s.store.functions.push info } symbol
      (v := .listOf .empty) (by simp) false).extension
    have hfunction := hextends.function ⟨s.store.functions.size⟩ (by simp)
    have htable := hextends.table ⟨s.store.tables.size⟩ (lt_tables_of_parent hopens.parent)
    exact ⟨(congrArg FunctionInfo.locals hfunction).trans hlocals, htable.2.trans hopens.parent⟩
  · exact ⟨hlocals, hopens.parent⟩

/-- A function that is reached first lies in the scope that the body lends. -/
theorem define_first (h : Ready σ s f) (form : Form) {id : Nat} (signature : Signature)
    (hnew : ((form.places s.assembly).lookup (f.site id)).map (fun g => (s.store.function g).locals) = none) :
    ∃ s₁, (do
        let g ← definedAt form f id signature
        return ((← getStore).function g).locals) σ s = (.ok ⟨s.store.tables.size⟩, s₁) ∧ Moves σ s s₁ ∧
      ((form.places s₁.assembly).lookup (f.site id)).map (fun g => (s₁.store.function g).locals) =
        some ⟨s.store.tables.size⟩ ∧
      (s₁.store.table ⟨s.store.tables.size⟩).parent = some f.inherited := by
  have hnone := Option.map_eq_none_iff.mp hnew
  have hsteps := (does_definedAt h form id signature).1
  have hscope := definedStore_locals h signature
  rw [definedAt_apply, hnone] at hsteps
  rw [bind_apply, definedAt_apply, hnone]
  refine ⟨_, congrArg (fun t => (Except.ok t, _)) hscope.1, moves_of_steps hsteps, ?_, hscope.2⟩
  refine Option.map_eq_some_iff.mpr ⟨⟨s.store.functions.size⟩, ?_, hscope.1⟩
  cases form <;> exact lookup_append_self hnone _

/-- The scope of a place that is reached first lies in the scope that the body lends. -/
theorem reach_first (h : Ready σ s f) (hnew : n.scope? s f.origin = none) :
    ∃ s₁, n.reach f σ s = (.ok ⟨s.store.tables.size⟩, s₁) ∧ Moves σ s s₁ ∧
      n.scope? s₁ f.origin = some ⟨s.store.tables.size⟩ ∧
      (s₁.store.table ⟨s.store.tables.size⟩).parent = some f.inherited := by
  cases n with
  | comprehension node =>
    have hnone : s.assembly.comprehensions.lookup (f.site node) = none := hnew
    have hsteps := (does_openComprehension h node).1
    rw [reach]
    unfold comprehensionTable
    rw [get_bind_apply, hnone]
    refine ⟨_, rfl, moves_of_steps hsteps, ?_, ?_⟩
    · exact lookup_append_self hnone _
    · exact (StoreM.opens_opened _ (some f.inherited) s.store).parent
  | function id name params decorators node => exact define_first h .statement _ hnew
  | lambda id params node => exact define_first h .lambda _ hnew

end NestedScope

/-- The scope of a class body lies in the scope that the body around it lends, whatever was run before. -/
theorem chain_openBody {σ : Setting} {s : Session} {f : Frame} (h : Ready σ s f) (address : Address) :
    ∃ b s', openBody address f.inherited σ s = (.ok b, s') ∧ s'.store.chain b = b :: s'.store.chain f.inherited := by
  have hsteps := (does_openBody h.lawful.inherited address (σ := σ)).1
  have hinv := h.inv.after hsteps
  refine ⟨_, _, rfl, ?_⟩
  refine hinv.chain_of_parent (h.lawful.inherited.mono (Steps.extension hsteps)) ?_ ?_
  · exact (StoreM.opens_opened address (some f.inherited) s.store).parent
  · exact h.inv.known _ (mem_scopes_lexical h.lawful.inherited)

namespace Assembler

/--
**The first call decides what the scopes in a text lie in.** Let a body evaluate a text, at any point of a build,
and reach a comprehension, a function or a lambda in it that was not reached before. From then on, whichever body
evaluates the text:

* the names in the text itself are those of this body, and class bodies in the text lie in the scope it lends;
* the place has one scope, and this scope lies in what the first body lends, so that a name is looked up in the
  scope and then as in the first body;
* all that is looked at from there is around this body too just if the scope lent by the first body is.
-/
theorem Reached.first_call_decides {a : Assembler} (h : a.Reached) {s : Session}
    (hs : Moves a.setting a.session s) {f : Frame} (hf : f.Lawful s) (text : String) {n : NestedScope}
    (hnew : n.scope? s (.evaluated text) = none) :
    ∃ t s₁, n.reach { f with origin := .evaluated text } a.setting s = (.ok t, s₁) ∧ Moves a.setting s s₁ ∧
      ∀ s₂, Moves a.setting s₁ s₂ → ∀ g : Frame, g.Lawful s₂ →
        let again : Frame := { g with origin := .evaluated text }
        (∀ name, again.lookup? s₂.store name = g.lookup? s₂.store name) ∧
        (∀ address, ∃ b s₃, Run.openBody address again.inherited a.setting s₂ = (.ok b, s₃) ∧
          s₃.store.chain b = b :: s₃.store.chain g.inherited) ∧
        n.reach again a.setting s₂ = (.ok t, s₂) ∧
        s₂.store.chain t = t :: s₂.store.chain f.inherited ∧
        (∀ name, s₂.store.lookup? t name = (s₂.store.get? t name).or (s₂.store.lookup? f.inherited name)) ∧
        ((∀ u ∈ s₂.store.chain t, u = t ∨ u ∈ s₂.store.chain g.inherited) ↔
          f.inherited ∈ s₂.store.chain g.inherited) := by
  have hinv := h.ordered.inv.afterMoves hs
  have hready : Ready a.setting s { f with origin := .evaluated text } := Ready.congr ⟨hinv, hf⟩ rfl rfl
  obtain ⟨s₁, hreach, hmoves, hscope, hparent⟩ := NestedScope.reach_first hready hnew
  refine ⟨_, s₁, hreach, hmoves, fun s₂ hlater g hg => ?_⟩
  have hinv₁ := hinv.afterMoves hmoves
  have hinv₂ := hinv₁.afterMoves hlater
  have hlexical : s₂.Lexical f.inherited := hf.inherited.mono ((Moves.extension hmoves).trans (Moves.extension hlater))
  have hlt : f.inherited.index < s.store.tables.size := hinv.known _ (mem_scopes_lexical hf.inherited)
  have hparent₂ : (s₂.store.table ⟨s.store.tables.size⟩).parent = some f.inherited := by
    rw [((Moves.extension hlater).store.table _ (lt_tables_of_parent hparent)).2]
    exact hparent
  have hchain := hinv₂.chain_of_parent hlexical hparent₂ hlt
  refine ⟨fun name => rfl, chain_openBody (f := g) ⟨hinv₂, hg⟩, ?_, hchain,
    fun name => ?_, fun hwithin => ?_, fun hmem => ?_⟩
  · exact NestedScope.reach_again (NestedScope.scope?_after hinv₁ hlater hscope)
  · rw [s₂.store.lookup?_eq_findSome?, s₂.store.lookup?_eq_findSome?, hchain, List.findSome?_cons]
    cases s₂.store.get? ⟨s.store.tables.size⟩ name <;> rfl
  · -- the scope of the first body is not the new one
    have hmem : f.inherited ∈ s₂.store.chain ⟨s.store.tables.size⟩ := by
      rw [hchain]
      exact List.mem_cons_of_mem _ (hlexical.mem_chain hinv₂)
    refine (hwithin _ hmem).resolve_left fun heq => ?_
    rw [heq] at hlt
    exact Nat.lt_irrefl _ hlt
  · intro u hu
    rw [hchain, List.mem_cons] at hu
    exact hu.imp_right fun hu => (hg.inherited.chain_suffix hinv₂ hmem).subset hu

/-- A function that binds `v` and returns what `eval` gives for a text. -/
def evaluating (id : Nat) (name : String) (v : Node) (text : String) (line : Nat) : Node :=
  .functionDef id name ⟨[], none, none⟩
    [.assign [.ident "v"] v,
      .returnStmt (some (.call (.ident "eval") [.literal (.str text)] [] none none))] [] none false line

/-- An assembler with two functions that bind `v` differently and evaluate the same text. -/
def ofSharedText : Assembler :=
  ofModule 1
    [evaluating 0 "f" (.literal (.int (some 1))) "[v for i in 'a']" 1,
      evaluating 1 "g" (.literal (.str "x")) "[v for i in 'a']" 4]

def sharedTextBuilt : Assembler := (ofSharedText.perform (Run.build 40 .new)).2

theorem reached_sharedTextBuilt : sharedTextBuilt.Reached := .build (reached_ofModule _ _) 40 .new

set_option maxRecDepth 100000 in
/-- A lambda in another text, which the first of the functions evaluates and then the second one. -/
theorem first_call_decides_lambda :
    let a := sharedTextBuilt
    let lambda : NestedScope := .lambda 0 ⟨[], none, none⟩ (.lambda 0 ⟨[], none, none⟩ (.ident "v"))
    let inFunction (g : FunctionId) : Frame :=
      .body ⟨0⟩ (a.session.store.function g).locals (some g) (.evaluated "lambda: v")
    ∃ t s₁, lambda.reach (inFunction ⟨0⟩) a.setting a.session = (.ok t, s₁) ∧
      lambda.reach (inFunction ⟨1⟩) a.setting s₁ = (.ok t, s₁) ∧
      s₁.store.chain t = t :: s₁.store.chain ⟨4⟩ ∧
      (s₁.store.lookup? t "v" = (s₁.store.get? t "v").or (s₁.store.lookup? ⟨4⟩ "v")) := by
  intro a lambda inFunction
  have hfacts : (a.session.store.functions.size = 2 ∧ (a.session.store.function ⟨0⟩).locals = ⟨4⟩) ∧
      lambda.scope? a.session (.evaluated "lambda: v") = none := by decide +kernel
  obtain ⟨⟨hsize, hlocals⟩, hnew⟩ := hfacts
  have hreached : a.Reached := reached_sharedTextBuilt
  clear_value a
  have hready := Run.ready_function hreached.ordered.inv (g := ⟨0⟩) (by rw [hsize]; decide) ⟨0⟩ (some ⟨0⟩)
    (.evaluated "lambda: v")
  obtain ⟨t, s₁, hfirst, hmoves, hlater⟩ := hreached.first_call_decides .refl hready.lawful "lambda: v" hnew
  have hready₁ := (Run.ready_function hreached.ordered.inv (g := ⟨1⟩) (by rw [hsize]; decide) ⟨0⟩ (some ⟨1⟩)
    (.evaluated "lambda: v")).extend (Moves.extension hmoves) (hreached.ordered.inv.afterMoves hmoves)
  obtain ⟨-, -, hagain, hchain, hlookup, -⟩ := hlater s₁ .refl _ hready₁.lawful
  refine ⟨t, s₁, hfirst, hagain, ?_, ?_⟩
  · rw [← hlocals]
    exact hchain
  · rw [← hlocals]
    exact hlookup "v"

set_option maxRecDepth 100000 in
/--
A name that is not looked up in the scope of the call. The scope of the comprehension in the text that both
functions evaluate lies in the first one, so the second one is given what the first one binds.
-/
theorem lookup_in_first_caller :
    let s := sharedTextBuilt.session
    ((s.store.function ⟨0⟩).locals = ⟨4⟩ ∧ (s.store.function ⟨1⟩).locals = ⟨5⟩) ∧
      s.assembly.comprehensions = [(⟨.evaluated "[v for i in 'a']", 0⟩, ⟨6⟩)] ∧
      s.store.chain ⟨5⟩ = [⟨5⟩, ⟨1⟩, ⟨0⟩] ∧ s.store.chain ⟨6⟩ = [⟨6⟩, ⟨4⟩, ⟨1⟩, ⟨0⟩] ∧
      s.store.lookup? ⟨5⟩ "v" = some ⟨62⟩ ∧ s.store.lookup? ⟨6⟩ "v" = some ⟨60⟩ ∧
      s.store.get? ⟨4⟩ "v" = some ⟨60⟩ ∧
      (s.store.value (s.store.function ⟨1⟩).returns).same (.listOf (.int (some 1))) = true := by
  decide +kernel

end Assembler

end Surmise
