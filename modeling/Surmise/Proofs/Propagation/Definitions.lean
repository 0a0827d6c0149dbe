import Surmise.Proofs.Propagation.Frame

/-!
# Definitions take steps

Functions, lambdas, classes and comprehensions. A definition that is reached first reserves an address
that no other scope has; one that is reached again is found by its place.
-/

namespace Surmise

open Session StoreM

variable {α β : Type} {key : α} {entries : List (α × β)}

theorem mem_of_lookup [BEq α] [LawfulBEq α] {b : β} (h : entries.lookup key = some b) : (key, b) ∈ entries := by
  induction entries with
  | nil => cases h
  | cons entry rest ih =>
    obtain ⟨k, c⟩ := entry
    rw [List.lookup_cons] at h
    split at h
    · next heq =>
      cases h
      rw [eq_of_beq heq]
      exact List.mem_cons_self
    · exact List.mem_cons_of_mem _ (ih h)

theorem lookup_of_prefix [BEq α] {entries' : List (α × β)} (h : entries <+: entries') {b : β}
    (hfound : entries.lookup key = some b) : entries'.lookup key = some b := by
  obtain ⟨later, rfl⟩ := h
  rw [List.lookup_append, hfound, Option.some_or]

theorem lookup_append_self [BEq α] [LawfulBEq α] (hnone : entries.lookup key = none) (b : β) :
    (entries ++ [(key, b)]).lookup key = some b := by
  rw [List.lookup_append, hnone, Option.none_or, List.lookup_cons_self]

namespace Run

variable {σ : Setting} {s : Session} {f : Frame} {t : TableId}

/-! ## New scopes -/

/-- The address that a scope gets when it asks for one. -/
def freeFor (s : Session) (address : Address) : Address :=
  if s.assembly.reserved.any (· == address) then
    freeAddress s.assembly.reserved address s.assembly.reserved.length 2
  else address

theorem reserveAddress_apply (address : Address) :
    reserveAddress address σ s = (.ok (freeFor s address), s.reserving (freeFor s address)) := rfl

theorem file_freeFor (s : Session) (address : Address) : (freeFor s address).file = address.file := by
  unfold freeFor
  split
  · exact file_freeAddress _ _ _ _
  · rfl

theorem fresh_freeFor (s : Session) (address : Address) : s.assembly.reserved.any (· == freeFor s address) = false := by
  unfold freeFor
  split
  · next htaken => exact freeAddress_fresh htaken
  · next hfree => simpa using hfree

theorem path_child_ne {scope : Address} {name : String} (h : name ≠ "") : (scope.child name).path ≠ "" := by
  unfold Address.child
  dsimp only
  split
  · exact h
  · intro hempty
    have hlength := congrArg List.length (congrArg String.toList hempty)
    simp at hlength

/-- **The address that a scope gets may be given to it.** -/
theorem claim_freeFor (h : Ready σ s f) (name : String) :
    s.Claim (freeFor s ((s.store.table f.scope).address.child name)) name where
  fresh r hr := by
    have hfresh := fresh_freeFor s ((s.store.table f.scope).address.child name)
    rw [List.any_eq_false] at hfresh
    simpa using hfresh r hr
  file := by
    rw [file_freeFor]
    exact h.lawful.file
  path hpath := by
    by_contra hname
    unfold freeFor at hpath
    split at hpath
    · exact path_freeAddress_ne _ _ _ _ hpath
    · exact path_child_ne hname hpath

theorem does_makeFunction (h : Ready σ s f) (signature : Signature) :
    Does (Step σ) σ s (makeFunction f signature) fun g s' => g.index < s'.store.functions.size := by
  have hclaim := claim_freeFor h signature.name
  refine ⟨.single (Step.makeFunction s h.inv.free h.lawful.inherited hclaim), ?_⟩
  obtain ⟨mid, info, -, -, heq⟩ := newFunction_spec _ h.inv.free
  show (newFunction _ s.store).1.index < (newFunction _ s.store).2.functions.size
  rw [heq]
  simp

theorem makeClass_apply (name : String) : makeClass f name σ s =
      inStore (newClass name (freeFor s ((s.store.table f.scope).address.child name)) (s.store.module f.home).name) σ
        (s.reserving (freeFor s ((s.store.table f.scope).address.child name))) := by
  unfold makeClass
  rw [getStore_bind_apply, bind_apply, reserveAddress_apply]
  dsimp only
  rw [getStore_bind_apply]
  rfl

theorem does_makeClass (h : Ready σ s f) (name : String) :
    Does (Step σ) σ s (makeClass f name) fun c s' => c.index < s'.store.classes.size := by
  have hclaim := claim_freeFor h name
  have hstep := Step.makeClass (σ := σ) s h.inv.free hclaim (s.store.module f.home).name
  obtain ⟨st, hsteps, heq⟩ := newClass_spec name
    (freeFor s ((s.store.table f.scope).address.child name)) (s.store.module f.home).name h.inv.free
  have hsize : s.store.classes.size < st.classes.size := by
    rw [hsteps.sameObjects.classes]
    simp [classAdded]
  unfold Does
  rw [makeClass_apply, inStore_apply]
  rw [show (s.reserving _).store = s.store from rfl, heq]
  rw [heq] at hstep
  exact ⟨.single hstep, hsize⟩

theorem does_define (h : Ready σ s f) (signature : Signature) :
    Does (Step σ) σ s (define f signature) fun g s' => g.index < s'.store.functions.size := by
  refine (does_makeFunction h signature).bind fun g s₁ _ hg => ?_
  refine does_getStore_bind ?_
  extract_lets queue
  have hqueue : ∀ s₂, Steps σ s₁ s₂ → Does (Step σ) σ s₂ (queue ()) fun g s' => g.index < s'.store.functions.size := by
    intro s₂ hs₂
    have hg₂ := Nat.lt_of_lt_of_le hg (Steps.extension hs₂).store.functions
    refine Does.bind (does_modify (Step.queue s₂ hg₂)) fun _ s₃ _ hs₃ => ?_
    subst hs₃
    exact does_pure hg₂
  split
  · exact (does_produce _ (by simp)).then hqueue
  · exact does_pure_bind (hqueue s₁ .refl)

/-- The scope of a class body is opened. -/
theorem does_openBody {outer : TableId} (houter : s.Lexical outer) (address : Address) :
    Does (Step σ) σ s (openBody address outer) fun t s' =>
      t ∈ s'.bodies ∧ t.index < s'.store.tables.size ∧ (s'.store.table t).address = address := by
  refine ⟨.single (Step.openBody s houter address), List.mem_cons_self, ?_, ?_⟩
  · show s.store.tables.size < (opened address (some outer) s.store).tables.size
    simp [opened]
  · exact (opens_opened address (some outer) s.store).address

theorem steps_forgetAll (ht : t ∈ s.bodies) {ids : List SymbolId}
    (hids : ∀ id ∈ ids, ∃ name, s.store.get? t name = some id) :
    Steps σ s { s with
      store := ((forIn ids () fun id _ => do
        put id .empty
        pure (ForInStep.yield ()) : StoreM Unit) s.store).2 } := by
  induction ids generalizing s with
  | nil => exact .refl
  | cons id rest ih =>
    obtain ⟨name, hname⟩ := hids id List.mem_cons_self
    rw [List.forIn_cons]
    refine .head (Step.clear s ht hname) ?_
    refine ih (s := { s with store := (put id .empty s.store).2 }) ht fun id' hid' => ?_
    obtain ⟨name', hname'⟩ := hids id' (List.mem_cons_of_mem _ hid')
    exact ⟨name', (Store.extends_put s.store id .empty).entry t name' id' hname'⟩

/-- The bindings of a class body are forgotten one by one. -/
theorem does_clearValues (ht : t ∈ s.bodies) : Goes σ s (inStore (clearValues t)) := by
  refine ⟨?_, trivial⟩
  exact steps_forgetAll ht fun id hid => OrderedMap.exists_get?_of_mem_values hid

end Run

namespace Evaluator

open Run

variable {σ : Setting} {s : Session} {f : Frame} {c : ClassId} {t : TableId}

/-! ## Functions -/

theorem does_definedAt (h : Ready σ s f) (form : Form) (id : Nat) (signature : Signature) :
    Does (Step σ) σ s (definedAt form f id signature) fun g s' => g.index < s'.store.functions.size := by
  refine does_get_bind ?_
  split
  · next g hg =>
    refine does_pure ?_
    cases form with
    | statement => exact h.inv.sites.functions _ (mem_of_lookup hg)
    | lambda => exact h.inv.sites.lambdas _ (mem_of_lookup hg)
  · refine (does_define h _).bind fun g s₁ _ hg => ?_
    have hplace : Step σ s₁ { s₁ with assembly := form.place (f.site id, g) s₁.assembly } := by
      cases form with
      | statement => exact .functionSite s₁ (f.site id) hg
      | lambda => exact .lambdaSite s₁ (f.site id) hg
    refine Does.bind (does_modify hplace) fun _ s₂ _ hs₂ => ?_
    subst hs₂
    exact does_pure hg

/-! ## Classes -/

theorem does_classAt (h : Ready σ s f) (id : Nat) (name : String) :
    Does (Step σ) σ s (classAt f id name) fun c s' => c.index < s'.store.classes.size := by
  refine does_get_bind ?_
  split
  · next c hc => exact does_pure (h.inv.sites.classes _ (mem_of_lookup hc))
  · refine (does_makeClass h name).bind fun c s₁ _ hc => ?_
    refine Does.bind (does_modify (Step.classSite s₁ (f.site id) hc)) fun _ s₂ _ hs₂ => ?_
    subst hs₂
    exact does_pure hc

/-- A class body may be run in the scope that was opened for it. -/
theorem ready_classBody (h : Ready σ s f) (hc : c.index < s.store.classes.size) (ht : t ∈ s.bodies)
    (haddress : (s.store.table t).address = s.store.classAddress c) :
    Ready σ s (f.inner t f.inherited (some c)) := by
  refine ⟨h.inv, h.lawful.inherited, .inr ht, ?_⟩
  show s.IsFile (s.store.table t).address.file
  rw [haddress]
  exact h.inv.placed _ (.inr ⟨c, hc, rfl⟩)

theorem fits_classBody (h : s.Inv σ) (hc : c.index < s.store.classes.size) (ht : t ∈ s.bodies)
    (haddress : (s.store.table t).address = s.store.classAddress c) :
    s.store.Fits c t where
  known := hc
  members := h.known _ (mem_scopes_members ⟨c, hc, rfl⟩)
  scope := h.known _ (mem_scopes_body ht)
  address := haddress
  apart := h.membersApart

theorem classAddress_after (h : s.Inv σ) {s' : Session} (hs : Steps σ s s')
    (hc : c.index < s.store.classes.size) : s'.store.classAddress c = s.store.classAddress c := by
  have hx := (Steps.extension hs).store
  unfold Store.classAddress
  rw [(hx.classOf c hc).2, (hx.table _ (h.known _ (mem_scopes_members ⟨c, hc, rfl⟩))).1]

/-! ## Comprehensions -/

theorem does_openComprehension (h : Ready σ s f) (node : Nat) :
    Does (Step σ) σ s (openComprehension f node) fun t s' => s'.IsInner t := by
  have hclaim := claim_freeFor h "[comprehension]"
  refine ⟨.single (Step.openComprehension s (f.site node) h.lawful.inherited hclaim), ?_⟩
  exact .inr ⟨f.site node, List.mem_append_right _ (List.mem_singleton.mpr rfl)⟩

theorem does_comprehensionTable (h : Ready σ s f) (node : Nat) :
    Does (Step σ) σ s (comprehensionTable f node) fun t s' => s'.IsInner t := by
  refine does_get_bind ?_
  split
  · next t ht => exact does_pure (.inr ⟨_, mem_of_lookup ht⟩)
  · exact does_openComprehension h node

/-- The parts of a comprehension are evaluated in its own scope. -/
theorem ready_comprehension (h : s.Inv σ) (f : Frame) (ht : s.IsInner t) : Ready σ s (f.inner t t none) :=
  ⟨h, h.lexical t ht, .inl rfl, h.placed t (.inl ht)⟩

end Evaluator

end Surmise
