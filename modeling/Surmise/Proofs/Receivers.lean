import Surmise.Proofs.PassGrowth
import Surmise.Proofs.Store.Handings
import Surmise.Proofs.Value.Decidable

/-!
# Receivers

Before the body of a method is run, its first parameter is given the instances of its class and of all subclasses, or
these classes, in place of what it held. The first parameter is that of the whole list, in which the keyword-only ones
come last; so if a method has no other, a keyword-only parameter loses its default.

* `Run.bindReceiver_apply`: what binding the receiver does.
* `Session.bound?_ne_of_later`: no receiver is bound to a parameter with another name than the first.
* `Assembler.Reached.receiver_spares_later_parameters`: the main statement.
* `Assembler.receiver_overwrites_keyword_only`: a default that is lost.
-/

namespace Surmise

open Run Store

/-! ## What binding the receiver does -/

/-- The instances of the class of a method and of all its subclasses, or these classes. -/
def Store.receiverValue (s : Store) (g : FunctionId) : Value :=
  let made : ClassId → Value := if (s.function g).receiver = .onClass then .classRef else .instanceOf
  .unite (((s.function g).owner.toList.flatMap s.walkSubclasses).map made)

namespace Run

/-- The session after the receiver of a method was bound. -/
def received (g : FunctionId) (t : Session) : Session :=
  match (t.store.function g).bound? with
  | some id => { t with store := (StoreM.put id (t.store.receiverValue g) t.store).2 }
  | none => t

/-- **Binding the receiver** writes to one parameter, if the function is a method that has parameters. -/
theorem bindReceiver_apply (g : FunctionId) (σ : Setting) (t : Session) :
    bindReceiver g σ t = (.ok (), received g t) := by
  unfold bindReceiver received FunctionInfo.bound? receiverValue
  rw [getStore_bind_apply]
  cases hparams : (t.store.function g).params with
  | nil => cases (t.store.function g).owner <;> cases (t.store.function g).receiver <;> rfl
  | cons first rest =>
    cases howner : (t.store.function g).owner with
    | none => cases (t.store.function g).receiver <;> rfl
    | some c => cases hreceiver : (t.store.function g).receiver <;> simp <;> rfl

end Run

/-! ## Parameters are told apart -/

theorem Store.lt_functions_of_param {s : Store} {f : FunctionId} {p : Param} (hp : p ∈ (s.function f).params) :
    f.index < s.functions.size := by
  by_contra hlt
  unfold function at hp
  rw [getD_of_size_le (Nat.le_of_not_lt hlt)] at hp
  cases hp

namespace Session

variable {σ : Setting} {s s' : Session} {f : FunctionId} {q first : Param}

/-- A parameter of a function that does not have the name of its first one. -/
structure IsLater (s : Session) (f : FunctionId) (q : Param) : Prop where
  mem : q ∈ (s.store.function f).params
  name : ∀ first ∈ (s.store.function f).params.head?, q.name ≠ first.name

theorem IsLater.mono (h : s.IsLater f q) (hx : s.Extends s') : s'.IsLater f q := by
  have hfunction := hx.store.function f (lt_functions_of_param h.mem)
  exact ⟨hfunction ▸ h.mem, hfunction ▸ h.name⟩

theorem IsLater.bound (h : s.IsLater f q) (ha : s.Addressed) :
    s.store.get? (s.store.function f).locals q.name = some q.symbol :=
  (ha.functions f (lt_functions_of_param h.mem)).params q h.mem

/-- **No receiver is bound to a later parameter**, be it one of another method. -/
theorem bound?_ne_of_later (hinv : s.Inv σ) (ha : s.Addressed) (h : s.IsLater f q) (g : FunctionId) :
    (s.store.function g).bound? ≠ some q.symbol := by
  intro hbound
  unfold FunctionInfo.bound? at hbound
  split at hbound
  · cases hbound
  · obtain ⟨p, hhead, hsymbol⟩ := Option.map_eq_some_iff.mp hbound
    have hp : p ∈ (s.store.function g).params := List.mem_of_head? hhead
    have hg := lt_functions_of_param hp
    have hplace := (ha.functions g hg).params p hp
    rw [hsymbol] at hplace
    -- The symbol is bound once, so both parameters have one scope and one name.
    obtain ⟨hlocals, hname⟩ := hinv.consistent.tidy.once _ _ _ _ _ (h.bound ha) hplace
    obtain rfl := ha.function_eq_of_locals (lt_functions_of_param h.mem) hg hlocals
    exact h.name p hhead hname

/-- The scope of a function is not that of a class body. -/
theorem locals_ne_of_mem_bodies (hinv : s.Inv σ) (hf : f.index < s.store.functions.size) {t : TableId}
    (ht : t ∈ s.bodies) : (s.store.function f).locals ≠ t := by
  rintro rfl
  have hnodup := (List.nodup_cons.mp hinv.nodup).2
  have hlocals : (s.store.function f).locals ∈ s.store.functions.toList.map FunctionInfo.locals :=
    List.mem_map_of_mem (getD_mem hf default)
  refine (List.nodup_append.mp hnodup).2.2 _ ?_ _ ht rfl
  exact List.mem_append_left _ (List.mem_append_right _ hlocals)

/-! ## Passes -/

/-- An assertion was about the symbol between the states, or what is known of it has grown. -/
def GrownOrAsserted (s s' : Session) (id : SymbolId) : Prop :=
  (∃ later, s'.narrowed = later ++ s.narrowed ∧ id ∈ later) ∨ (s.store.value id).Grows (s'.store.value id)

/-- A single change during a pass. -/
theorem Tour.grownOrAsserted (htour : Tour σ s s') (hinv : s.Inv σ) (ha : s.Addressed) (h : s.IsLater f q) :
    s.GrownOrAsserted s' q.symbol := by
  obtain ⟨item, hvisit⟩ := htour
  have hknown := (hinv.consistent.tidy.entry _ _ _ (h.bound ha)).1
  by_cases hexempt : Exempt item.function? s s' q.symbol
  · cases hexempt with
    | receiver hg hid => exact absurd hid (bound?_ne_of_later hinv ha h _)
    | asserted later hlater hid => exact .inl ⟨later, hlater, hid⟩
    | @scratch t ht name hid =>
      obtain ⟨hlocals, -⟩ := hinv.consistent.tidy.once _ _ _ _ _ (h.bound ha) hid
      exact absurd hlocals (locals_ne_of_mem_bodies hinv (lt_functions_of_param h.mem) ht)
  · exact .inr ((hvisit.grown hinv).values q.symbol hknown hexempt)

theorem GrownOrAsserted.trans {s'' : Session} {id : SymbolId} (h : s.GrownOrAsserted s' id)
    (h' : s'.GrownOrAsserted s'' id) (hnarrowed : ∃ later, s'.narrowed = later ++ s.narrowed)
    (hnarrowed' : ∃ later, s''.narrowed = later ++ s'.narrowed) : s.GrownOrAsserted s'' id := by
  obtain ⟨earlier, hearlier⟩ := hnarrowed
  obtain ⟨later, hlater⟩ := hnarrowed'
  rcases h with ⟨own, hown, hid⟩ | hgrows
  · refine .inl ⟨later ++ own, ?_, List.mem_append_right _ hid⟩
    rw [hlater, hown, List.append_assoc]
  · rcases h' with ⟨own, hown, hid⟩ | hgrows'
    · refine .inl ⟨own ++ earlier, ?_, List.mem_append_left _ hid⟩
      rw [hown, hearlier, List.append_assoc]
    · exact .inr (hgrows.trans hgrows')

/-- **Passes let a later parameter grow**, unless an assertion is about it. -/
theorem grownOrAsserted_of_tours (hinv : s.Inv σ) (ha : s.Addressed) (h : s.IsLater f q)
    (htours : Relation.ReflTransGen (Tour σ) s s') : s.GrownOrAsserted s' q.symbol := by
  suffices hboth : s.GrownOrAsserted s' q.symbol ∧ ∃ later, s'.narrowed = later ++ s.narrowed from hboth.1
  induction htours with
  | refl => exact ⟨.inr (.refl _), [], rfl⟩
  | @tail s₁ s₂ hbefore htour ih =>
    have hmoves := moves_of_tours hbefore
    have hstep := htour.grownOrAsserted (hinv.afterMoves hmoves) (ha.moves hinv hmoves)
      (h.mono (Moves.extension hmoves))
    obtain ⟨item, hvisit⟩ := htour
    refine ⟨ih.1.trans hstep ih.2 hvisit.narrowed, ?_⟩
    obtain ⟨earlier, hearlier⟩ := ih.2
    obtain ⟨later, hlater⟩ := hvisit.narrowed
    exact ⟨later ++ earlier, by rw [hlater, hearlier, List.append_assoc]⟩

end Session

namespace Run

/-- Binding the receiver changes nothing but one parameter. -/
theorem symbol_received {g : FunctionId} {t : Session} {id : SymbolId} (hne : (t.store.function g).bound? ≠ some id) :
    (received g t).store.symbol id = t.store.symbol id := by
  unfold received
  split
  · next bound hbound =>
    have hindex : ¬ (bound.index = id.index ∧ id.index < t.store.symbols.size) := by
      rintro ⟨hsame, -⟩
      apply hne
      rw [hbound]
      exact congrArg (fun index => some (SymbolId.mk index)) hsame
    dsimp only
    rw [StoreM.put_eq]
    unfold symbol StoreM.withValue
    exact (getD_modify ..).trans (if_neg hindex)
  · rfl

theorem sameBesideHolders_received (g : FunctionId) (t : Session) :
    t.store.SameBesideHolders (received g t).store ∧ (received g t).store.kwargs = t.store.kwargs ∧
      received g t = { t with store := (received g t).store } := by
  unfold received
  split
  · dsimp only
    rw [StoreM.put_eq]
    exact ⟨⟨Array.size_modify .., rfl, rfl⟩, rfl, rfl⟩
  · exact ⟨.refl _, rfl, rfl⟩

end Run

namespace Assembler

open Session

/--
**The receiver spares all parameters but the first.** In every state of a build, binding the receiver of a method goes
through and changes the first of its parameters, if anything. So a parameter with another name than the first of its
function stays as it is whatever receiver is bound, and passes let it grow unless an assertion is about it. If the first
parameter of a function is not keyword-only and no two have one name, then these are all keyword-only ones.
-/
theorem Reached.receiver_spares_later_parameters {a : Assembler} (h : a.Reached) {t : Session}
    (ht : Moves a.setting a.session t) :
    (∀ g, ∃ t', Run.bindReceiver g a.setting t = (.ok (), t') ∧
      (∀ id, (t.store.function g).bound? ≠ some id → t'.store.symbol id = t.store.symbol id) ∧
      t.store.SameBesideHolders t'.store ∧ t'.store.kwargs = t.store.kwargs ∧ t' = { t with store := t'.store }) ∧
    (∀ f q, t.IsLater f q →
      (∀ g t', Run.bindReceiver g a.setting t = (.ok (), t') → t'.store.symbol q.symbol = t.store.symbol q.symbol) ∧
      ∀ steps total left, t.GrownOrAsserted (Run.passes steps total left a.setting t).2 q.symbol) ∧
    ∀ f, (∀ first ∈ (t.store.function f).params.head?, first.keywordOnly = false) →
      ((t.store.function f).params.map Param.name).Nodup →
      ∀ q ∈ (t.store.function f).params, q.keywordOnly = true → t.IsLater f q := by
  have hinv := h.ordered.inv.afterMoves ht
  have ha := h.addressed.1.moves h.ordered.inv ht
  refine ⟨fun g => ?_, fun f q hq => ⟨fun g t' hrun => ?_, fun steps total left => ?_⟩,
    fun f hfirst hnodup q hq hkw => ?_⟩
  · exact ⟨_, Run.bindReceiver_apply g a.setting t, fun id => Run.symbol_received, Run.sameBesideHolders_received g t⟩
  · rw [Run.bindReceiver_apply] at hrun
    obtain rfl := (Prod.mk.inj hrun).2
    exact Run.symbol_received (bound?_ne_of_later hinv ha hq g)
  · exact grownOrAsserted_of_tours hinv ha hq (Run.does_passes hinv steps total left).1
  · refine ⟨hq, fun first hhead hname => ?_⟩
    have hsame : q = first := List.inj_on_of_nodup_map hnodup hq (List.mem_of_head? hhead) hname
    have hplain := hfirst first hhead
    rw [← hsame, hkw] at hplain
    cases hplain

/-- An assembler with a class that has one method, which returns its parameter `k`. -/
def ofMethod (params : List (Parameter Node)) : Assembler :=
  ofModule 1 [.classDef 0 "C" [] []
    [.functionDef 1 "m" ⟨params, none, none⟩ [.returnStmt (some (.ident "k"))] [] none false 2] [] 1]

/-- A keyword-only parameter with a default. -/
def keywordOnlyParam : Parameter Node := ⟨"k", some (.literal (.int (some 1))), none, true⟩

def methodBuilt : Assembler :=
  ((ofMethod [⟨"self", none, none, false⟩, keywordOnlyParam]).perform (Run.build 20 .new)).2

set_option maxRecDepth 100000 in
/-- Behind the receiver, a keyword-only parameter keeps its default. -/
theorem receiver_spares_later_parameters_method :
    methodBuilt.Reached ∧ ∃ q ∈ (methodBuilt.session.store.function ⟨0⟩).params, q.keywordOnly = true ∧
      String.join (methodBuilt.session.store.pieces (methodBuilt.session.store.value q.symbol)) = "int(1)" ∧
      methodBuilt.session.GrownOrAsserted (Run.passes 20 1 1 methodBuilt.setting methodBuilt.session).2 q.symbol := by
  have hreached : methodBuilt.Reached := .build (reached_ofModule _ _) 20 .new
  obtain ⟨hfirst, hnodup, q, hq, hkeyword, hshown⟩ :
      (∀ first ∈ (methodBuilt.session.store.function ⟨0⟩).params.head?, first.keywordOnly = false) ∧
        ((methodBuilt.session.store.function ⟨0⟩).params.map Param.name).Nodup ∧
        ∃ q ∈ (methodBuilt.session.store.function ⟨0⟩).params, q.keywordOnly = true ∧
          String.join (methodBuilt.session.store.pieces (methodBuilt.session.store.value q.symbol)) = "int(1)" := by
    decide +kernel
  obtain ⟨-, hlater, hkeywords⟩ := hreached.receiver_spares_later_parameters .refl
  exact ⟨hreached, q, hq, hkeyword, hshown, (hlater _ q (hkeywords _ hfirst hnodup q hq hkeyword)).2 20 1 1⟩

set_option maxRecDepth 100000 in
/-- **A keyword-only parameter that stands first loses its default** to the receiver. -/
theorem receiver_overwrites_keyword_only :
    let a := ofMethod [keywordOnlyParam]
    let scheduled := (Run.scheduleModules a.setting a.session).2
    let defined := (Run.visitItem (.ofDepth 20) (.module 0) a.setting scheduled).2
    let bound := (Run.bindReceiver ⟨0⟩ a.setting defined).2
    ∃ k ∈ (defined.store.function ⟨0⟩).params, k.keywordOnly = true ∧
      String.join (defined.store.pieces (defined.store.value k.symbol)) = "int(1)" ∧
      String.join (bound.store.pieces (bound.store.value k.symbol)) = "instance C" := by
  decide +kernel

end Assembler

end Surmise
