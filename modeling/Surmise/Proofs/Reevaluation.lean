import Surmise.Proofs.Propagation.Lockstep.Assignment
import Surmise.Proofs.Value.Sight

/-!
# Evaluating again

An expression that is evaluated a second time, without a change in between, gives a value of the same form. Parts of
it that are new objects are other objects then, with later serial numbers. So the two values are the same unless a
number shows in the comparison, and a name that is assigned the value pass after pass keeps what it holds.

* `Value.same_reshift_iff`: when a value is the same as its later form.
* `Assembler.Reached.reevaluation_stable`: the main statement.
* `Assembler.reevaluation_of_new_property`: a tuple with a new property is another one every time.
-/

namespace Surmise

open Value Session

/-! ## Comparing a value with its later form -/

/-- A value that uses numbers below `m` is compared with the same value made later, where numbers from `n` on have
become numbers from `m` on. -/
theorem Value.same_reshift_iff {v : Value} {n m : Nat} (hnm : n ≤ m) (hv : v.Sound m) (hnumbered : v.isNumbered = true)
    (hopen : v.Shallow) : v.same (v.shift ⟨n, m - n⟩) = true ↔ ∀ k, .numbered k ∈ v.key → k < n := by
  have hspelled : .lost ∉ v.key := lost_not_mem_keyAt hnumbered hopen rfl
  rcases Nat.eq_or_lt_of_le hnm with rfl | hlt
  · -- no numbers were taken, so all are old ones
    have hone : v.shift ⟨n, n - n⟩ = v.shift ⟨n, 1⟩ := by rw [shift_of_sound _ hv, shift_of_sound _ hv]
    rw [hone, same_shift_iff _ Nat.one_pos, and_iff_right hspelled]
  · rw [same_shift_iff _ (Nat.sub_pos_of_lt hlt), and_iff_right hspelled]

namespace Assembler

open Evaluator Run

variable {a : Assembler}

theorem Reached.inOrder (h : a.Reached) : a.setting.InOrder :=
  ⟨h.ordered.inv.benign, h.ordered.inv.builtins⟩

theorem Reached.placed (h : a.Reached) {s : Session} (hs : Moves a.setting a.session s) {f : Frame}
    (hf : f.Lawful s) : Placed a.setting s f :=
  ⟨⟨h.ordered.inv.afterMoves hs, hf⟩, Moves.nested hs h.ordered.inv h.nested⟩

end Assembler

namespace Evaluator

open Run

variable {σ : Setting} {s s₁ : Session} {f : Frame} {depth : Nat} {node : Node}

/-- An expression that changes nothing has the same value when it is evaluated again, with later numbers. -/
theorem eval_again (hσ : σ.InOrder) (hs : Placed σ s f) {v : Value}
    (heval : (ofDepth depth).eval f node σ s = (.ok v, s₁)) (hsame : s.Unchanged [] s₁)
    (hend : ((ofDepth depth).eval f node σ s₁).2.handle.isCancelled = false) :
    ∃ v' s₂, (ofDepth depth).eval f node σ s₁ = (.ok v', s₂) ∧ s₁.Unchanged [] s₂ ∧
      v' = v.shift ⟨s.store.nextSerial, s₁.store.nextSerial - s.store.nextSerial⟩ ∧
      (v.Shallow → (v.same v' = true ↔ ∀ k, .numbered k ∈ v.key → k < s.store.nextSerial)) := by
  have hrepeatable := repeatable_eval hσ depth f node
  obtain ⟨hsteps, hsound⟩ := (sound_ofDepth σ depth).eval s f node hs.toReady
  have hopens := hrepeatable.onlyOpens hsteps
  have hagain := hrepeatable.again hs (t := s₁)
  have hkept : s₁.handle = s.handle := by
    have hfirst := hrepeatable.unheeding.handle_eq (σ := σ) (s := s)
    rw [heval] at hfirst
    refine hfirst ?_
    rwa [← hrepeatable.unheeding.handle_eq hend]
  rw [heval] at hsound hopens hagain
  obtain ⟨hresult, hopens'⟩ := hagain (hopens hsame) hkept (.refl s₁) hkept (hrepeatable.unheeding.handle_eq hend)
  exact ⟨_, _, Prod.ext hresult rfl, hopens'.unchanged [], rfl,
    same_reshift_iff (hopens hsame).serial hsound (isNumbered_eval heval)⟩

/-- A statement that changes nothing changes nothing however often it is run. -/
theorem exec_again (hσ : σ.InOrder) (hs : Placed σ s f)
    (hexec : (ofDepth depth).exec f node σ s = (.ok (), s₁)) (hsame : s.Unchanged [] s₁) (n : Nat)
    (hend : (repeatedly ((ofDepth depth).exec f node) (n + 1) σ s).2.handle.isCancelled = false) :
    (repeatedly ((ofDepth depth).exec f node) (n + 1) σ s).1 = .ok () ∧
      s.Unchanged [] (repeatedly ((ofDepth depth).exec f node) (n + 1) σ s).2 := by
  have hrepeatable := repeatable_exec hσ depth f node
  have hopens := hrepeatable.onlyOpens ((sound_ofDepth σ depth).exec s f node hs.toReady).1
  have hagain := fun u => hrepeatable.again hs (t := u)
  rw [hexec] at hopens hagain
  let P (u : Session) : Prop := s₁.OnlyOpens u ∧ s₁.handle = s.handle ∧ u.handle = s.handle
  have hfirst : ((ofDepth depth).exec f node σ s).2.handle.isCancelled = false →
      ((ofDepth depth).exec f node σ s).1 = .ok () ∧ P ((ofDepth depth).exec f node σ s).2 := by
    intro hlive
    have hkept := hrepeatable.unheeding.handle_eq hlive
    rw [hexec] at hkept ⊢
    exact ⟨rfl, .refl s₁, hkept, hkept⟩
  have hstep : ∀ u, P u → ((ofDepth depth).exec f node σ u).2.handle.isCancelled = false →
      ((ofDepth depth).exec f node σ u).1 = .ok () ∧ P ((ofDepth depth).exec f node σ u).2 := by
    rintro u ⟨hu, hkept, hhandle⟩ hlive
    have hdone := hrepeatable.unheeding.handle_eq hlive
    obtain ⟨hresult, hlater⟩ := hagain u (hopens hsame) hkept hu hhandle hdone
    exact ⟨hresult, hu.trans hlater, hkept, hdone.trans hhandle⟩
  obtain ⟨hok, hlater, -⟩ := repeatedly_keeps hrepeatable.unheeding hfirst hstep n hend
  exact ⟨hok, ((hopens hsame).trans hlater).unchanged []⟩

end Evaluator

namespace Assembler

open Evaluator Run

/--
**Evaluating again is stable up to the identity of new objects.** In every state of a build:

* An expression that changes no symbol, class or keyword dictionary changes none when it is evaluated again, and gives
  the same value with later serial numbers. If the value is shallow, the two are the same for the analysis if and only
  if the comparison comes upon no number that the first evaluation has taken.
* A statement that changes nothing, such as an assignment of what a name holds already, changes nothing however often
  it is run.
* If evaluating what is assigned to a name changes nothing, does not look at the name's symbol and gives a steady
  value, then the name holds after the first pass what it holds after all further passes, up to the identity of its
  properties: the join of what it held before and of the value. Nothing else changes.
-/
theorem Reached.reevaluation_stable {a : Assembler} (h : a.Reached) {s : Session}
    (hs : Moves a.setting a.session s) {f : Frame} (hf : f.Lawful s) (depth : Nat) :
    (∀ e v s₁, (ofDepth depth).eval f e a.setting s = (.ok v, s₁) → s.Unchanged [] s₁ →
      ((ofDepth depth).eval f e a.setting s₁).2.handle.isCancelled = false →
      ∃ v' s₂, (ofDepth depth).eval f e a.setting s₁ = (.ok v', s₂) ∧ s₁.Unchanged [] s₂ ∧
        v' = v.shift ⟨s.store.nextSerial, s₁.store.nextSerial - s.store.nextSerial⟩ ∧
        (v.Shallow → (v.same v' = true ↔ ∀ k, .numbered k ∈ v.key → k < s.store.nextSerial))) ∧
    (∀ statement s₁, (ofDepth depth).exec f statement a.setting s = (.ok (), s₁) → s.Unchanged [] s₁ → ∀ n,
      let passes := repeatedly ((ofDepth depth).exec f statement) (n + 1) a.setting s
      passes.2.handle.isCancelled = false → passes.1 = .ok () ∧ s.Unchanged [] passes.2) ∧
    ∀ x e id v items t, binding f x a.setting s = (.ok id, s) →
      (ofDepth (depth + 1)).evalAssigned f e a.setting s = (.ok (v, items), t) → s.Unchanged [] t →
      Overlooks a.setting id s ((ofDepth (depth + 1)).evalAssigned f e) →
      v.steady s.store.nextSerial = true → ∀ n,
      let passes := repeatedly ((ofDepth (depth + 2)).exec f (.assign [.ident x] e)) (n + 1) a.setting s
      passes.2.handle.isCancelled = false →
      passes.1 = .ok () ∧ (passes.2.store.value id).byParts = unite [s.store.value id, v] ∧
        s.Unchanged [id] passes.2 := by
  have hσ := h.inOrder
  have hplaced := h.placed hs hf
  refine ⟨fun e v s₁ heval hsame hend => ?_, fun statement s₁ hexec hsame n hend => ?_,
    fun x e id v items t hbound heval hsame hoverlooks hsteady n hend => ?_⟩
  · exact eval_again hσ hplaced heval hsame hend
  · exact exec_again hσ hplaced hexec hsame n hend
  · exact passes_assign hσ hplaced hbound heval hsame hoverlooks hsteady n hend

/-! ## A tuple of constants -/

/-- An assembler with a module that binds `x` to `e`, after its build. -/
@[irreducible]
def assigned (e : Node) : Assembler := ((ofModule 3 [.assign [.ident "x"] e]).perform (Run.build 20 .new)).2

theorem reached_assigned (e : Node) : (assigned e).Reached := by
  unfold assigned
  exact .build (reached_ofModule _ _) 20 .new

theorem delegate_assigned (e : Node) : (assigned e).setting.delegate = .idle := by
  unfold assigned ofModule addFile
  rw [setting_perform, setting_perform]
  rfl

def assignedFrame (e : Node) : Frame :=
  .body ⟨0⟩ ((assigned e).session.store.module ⟨0⟩).members none (.file 0)

theorem eq_of_fst {α β : Type} {p : α × β} {a : α} (h : p.1 = a) : p = (a, p.2) := by
  rw [← h]

/-- The tuple of nothing but `None`. -/
def nullTuple : Node := .tuple [.literal .null]

theorem overlooks_nullTuple {σ : Setting} (hσ : σ.delegate = .idle) (id : SymbolId) (s : Session) (f : Frame)
    (depth : Nat) : Overlooks σ id s ((ofDepth (depth + 1)).evalAssigned f nullTuple) := by
  obtain ⟨_, _, _, _, _⟩ := σ
  obtain rfl := hσ
  -- what the computation says and shows depends on the handle, on the trace and on whether there is an observer
  rintro ⟨_, _, _, ⟨aborted, expired⟩, ⟨_, _, _, isOpen⟩, observer, _, _, _⟩ _ v isPrivate
  cases aborted <;> cases expired <;> cases isOpen <;> cases observer <;> rfl

set_option maxRecDepth 100000 in
/-- Every evaluation of the tuple makes another one, and they are all the same for the analysis. -/
theorem reevaluation_stable_nullTuple :
    let σ := (assigned nullTuple).setting
    let s := (assigned nullTuple).session
    let f := assignedFrame nullTuple
    let first := (ofDepth 3).eval f nullTuple σ s
    let second := (ofDepth 3).eval f nullTuple σ first.2
    let statement := Node.assign [.ident "x"] nullTuple
    let runs := repeatedly ((ofDepth 3).exec f statement) (2 + 1) σ s
    let passes := repeatedly ((ofDepth (3 + 2)).exec f statement) (2 + 1) σ s
    first.1 = .ok (.tuple (some 3) [.null]) ∧ second.1 = .ok (.tuple (some 4) [.null]) ∧
      (Value.tuple (some 3) [.null]).same (.tuple (some 4) [.null]) = true ∧ first.2.Unchanged [] second.2 ∧
      s.Unchanged [] runs.2 ∧
      (passes.2.store.value ⟨56⟩).byParts = unite [s.store.value ⟨56⟩, .tuple (some 3) [.null]] ∧
      s.Unchanged [⟨56⟩] passes.2 := by
  intro σ s f first second statement runs passes
  have hreached := reached_assigned nullTuple
  have hfirst : 0 < s.store.modules.size ∧ s.store.get? f.scope "x" = some ⟨56⟩ ∧ s.store.nextSerial = 3 ∧
      first.1 = .ok (.tuple (some 3) [.null]) ∧ s.Unchanged [] first.2 ∧ first.2.store.nextSerial = 4 ∧
      second.2.handle.isCancelled = false := by
    decide +kernel
  have hruns : ((ofDepth 3).exec f statement σ s).1 = .ok () ∧
      s.Unchanged [] ((ofDepth 3).exec f statement σ s).2 ∧ runs.2.handle.isCancelled = false := by
    decide +kernel
  have hpasses : ((ofDepth (3 + 1)).evalAssigned f nullTuple σ s).1 = .ok (.tuple (some 3) [.null], some [.null]) ∧
      s.Unchanged [] ((ofDepth (3 + 1)).evalAssigned f nullTuple σ s).2 ∧
      passes.2.handle.isCancelled = false := by
    decide +kernel
  obtain ⟨hmodule, hget, hserial, hvalue, hsame, hserial', hlive⟩ := hfirst
  have hlawful : f.Lawful s := (Run.ready_module hreached.ordered.inv (m := ⟨0⟩) hmodule none (.file 0)).lawful
  obtain ⟨heval, hstatement, hassign⟩ := hreached.reevaluation_stable .refl hlawful 3
  obtain ⟨v', s₂, hsecond, hsame', hv', hiff⟩ := heval nullTuple _ _ (eq_of_fst hvalue) hsame hlive
  obtain ⟨hexec, hexec', hruns⟩ := hruns
  obtain ⟨-, hkept⟩ := hstatement statement _ (eq_of_fst hexec) hexec' 2 hruns
  obtain ⟨hassigned, hassigned', hpasses⟩ := hpasses
  have hsteady : (Value.tuple (some 3) [.null]).steady s.store.nextSerial = true := by
    rw [hserial]
    decide
  obtain ⟨-, hjoined, hapart⟩ := hassign "x" nullTuple ⟨56⟩ _ _ _ (binding_of_get? rfl hget) (eq_of_fst hassigned)
    hassigned' (overlooks_nullTuple (delegate_assigned nullTuple) ⟨56⟩ s f 3) hsteady 2 hpasses
  have hlater : v' = .tuple (some 4) [.null] := by
    rw [hv', hserial, hserial']
    decide
  subst hlater
  have hkey : (Value.tuple (some 3) [.null]).key = [.tuple 1, .null] := by decide
  have hequal := (hiff (by decide)).mpr (by rw [hkey]; simp)
  refine ⟨hvalue, congrArg Prod.fst hsecond, hequal, ?_, hkept, hjoined, hapart⟩
  exact (congrArg Prod.snd hsecond).symm ▸ hsame'

/-! ## A tuple with a new property -/

/-- A tuple of one property that the evaluation makes. -/
def newProperty : Node := .tuple [.call (.ident "property") [] [] none none]

set_option maxRecDepth 100000 in
/-- A property is known by its serial number, so no two evaluations give the same tuple. The name it is assigned to
gains an alternative with every pass, though no pass changes anything that the expression looks at. -/
theorem reevaluation_of_new_property :
    let σ := (assigned newProperty).setting
    let s := (assigned newProperty).session
    let f := assignedFrame newProperty
    let first := (ofDepth 5).eval f newProperty σ s
    let second := (ofDepth 5).eval f newProperty σ first.2
    let pass := (ofDepth 6).exec f (.assign [.ident "x"] newProperty) σ s
    s.Unchanged [] first.2 ∧ first.2.Unchanged [] second.2 ∧
      first.1 = .ok (.tuple (some 11) [.property (some 10) .empty .empty .empty]) ∧
      second.1 = .ok (.tuple (some 14) [.property (some 13) .empty .empty .empty]) ∧
      (Value.tuple (some 11) [.property (some 10) .empty .empty .empty]).same
        (.tuple (some 14) [.property (some 13) .empty .empty .empty]) = false ∧
      s.store.get? f.scope "x" = some ⟨56⟩ ∧ s.Unchanged [⟨56⟩] pass.2 ∧
      (s.store.value ⟨56⟩).disjuncts.length = 3 ∧ (pass.2.store.value ⟨56⟩).disjuncts.length = 4 := by
  decide +kernel

end Assembler

end Surmise
