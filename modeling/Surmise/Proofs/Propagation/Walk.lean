import Surmise.Proofs.Propagation.Lockstep.Basic

/-!
# One walk through the evaluator

Two things are shown of evaluation: it takes steps of the analysis and gives sound values, and a second time it
does what it did the first time. `Run.Walk` says both, so one walk through the evaluator shows them.

* `Assertion`: something that is known of a state and stays so. `Assertion.Implies` finds by itself what follows
  from what is known.
* `Run.Walk` with a rule for each way to put computations together, and a lemma for each small one.
-/

namespace Surmise

open Session Value

/-- Something that may be known of a state in order, and then holds of every later one. -/
structure Assertion (σ : Setting) where
  holds : Session → Prop
  stable : ∀ {s s' : Session}, s.Inv σ → Steps σ s s' → holds s → holds s'

namespace Assertion

variable {σ : Setting} {α β : Type} {s : Session}

/-- Where the first assertion holds, the second one does. -/
class Implies (Γ A : Assertion σ) : Prop where
  elim : ∀ {s : Session}, s.Inv σ → Γ.holds s → A.holds s

/-! ## Assertions -/

def nothing : Assertion σ := ⟨fun _ => True, fun _ _ _ => trivial⟩

def never : Assertion σ := ⟨fun _ => False, fun _ _ h => h⟩

def and (A B : Assertion σ) : Assertion σ :=
  ⟨fun s => A.holds s ∧ B.holds s, fun hs hsteps h => ⟨A.stable hs hsteps h.1, B.stable hs hsteps h.2⟩⟩

/-- The assertion holds of all elements. -/
def all (P : α → Assertion σ) (xs : List α) : Assertion σ :=
  ⟨fun s => ∀ x ∈ xs, (P x).holds s, fun hs hsteps h x hx => (P x).stable hs hsteps (h x hx)⟩

def sound (v : Value) : Assertion σ := ⟨fun s => v.SoundIn s, fun _ hsteps hv => hv.after hsteps⟩

abbrev sounds (pair : Value × Value) : Assertion σ := (sound pair.1).and (sound pair.2)

def soundArgs (args : Args) : Assertion σ := ⟨fun s => args.SoundIn s, fun _ hsteps ha => ha.after hsteps⟩

/-- The class was made. -/
def made (c : ClassId) : Assertion σ :=
  ⟨fun s => c.index < s.store.classes.size, fun _ hsteps h =>
    Nat.lt_of_lt_of_le h (Steps.extension hsteps).store.classes⟩

def lawful (f : Frame) : Assertion σ := ⟨fun s => f.Lawful s, fun hs hsteps hf => (Ready.after ⟨hs, hf⟩ hsteps).lawful⟩

/-! ## Implications -/

theorem of (A : Assertion σ) {Γ : Assertion σ} [Γ.Implies A] (hs : s.Inv σ) (h : Γ.holds s) :
    A.holds s := Implies.elim hs h

variable {Γ A B C : Assertion σ} {P : α → Assertion σ} {x : α} {xs ys : List α} {v w : Value} {vs : List Value}

instance : A.Implies A := ⟨fun _ h => h⟩

instance : never.Implies A := ⟨fun _ h => h.elim⟩

instance : Γ.Implies nothing := ⟨fun _ _ => trivial⟩

instance [A.Implies C] : (A.and B).Implies C := ⟨fun hs h => C.of hs h.1⟩

instance [B.Implies C] : (A.and B).Implies C := ⟨fun hs h => C.of hs h.2⟩

instance [Γ.Implies A] [Γ.Implies B] : Γ.Implies (A.and B) := ⟨fun hs h => ⟨A.of hs h, B.of hs h⟩⟩

instance : Γ.Implies (all P []) := ⟨fun _ _ => by simp [all]⟩

instance [Γ.Implies (P x)] [Γ.Implies (all P xs)] : Γ.Implies (all P (x :: xs)) :=
  ⟨fun hs h => List.forall_mem_cons.mpr ⟨(P x).of hs h, (all P xs).of hs h⟩⟩

instance [Γ.Implies (all P xs)] [Γ.Implies (all P ys)] : Γ.Implies (all P (xs ++ ys)) :=
  ⟨fun hs h => List.forall_mem_append.mpr ⟨(all P xs).of hs h, (all P ys).of hs h⟩⟩

instance : Γ.Implies (all P (none : Option α).toList) := ⟨fun _ _ => by simp [all]⟩

instance [Γ.Implies (P x)] : Γ.Implies (all P (some x).toList) := inferInstanceAs (Γ.Implies (all P [x]))

instance {xss : List (List α)} [Γ.Implies (all (all P) xss)] : Γ.Implies (all P xss.flatten) := by
  refine ⟨fun hs h x hx => ?_⟩
  obtain ⟨xs, hxs, hx⟩ := List.mem_flatten.mp hx
  exact (all (all P) xss).of hs h xs hxs x hx

instance [Γ.Implies (all P xs)] : Γ.Implies (all P xs.reverse) :=
  ⟨fun hs h x hx => (all P xs).of hs h x (List.mem_reverse.mp hx)⟩

theorem Implies.mem (hx : x ∈ xs) [Γ.Implies (all P xs)] : Γ.Implies (P x) := ⟨fun hs h => (all P xs).of hs h x hx⟩

theorem Implies.subset (h : ys ⊆ xs) [Γ.Implies (all P xs)] : Γ.Implies (all P ys) :=
  ⟨fun hs hΓ y hy => (all P xs).of hs hΓ y (h hy)⟩

theorem Implies.disjunct (hw : w ∈ v.disjuncts) [Γ.Implies (sound v)] : Γ.Implies (sound w) :=
  ⟨fun hs h => Value.Sound.of_mem_disjuncts ((sound v).of hs h) hw⟩

theorem Implies.part (hw : w ∈ v.parts) [Γ.Implies (sound v)] : Γ.Implies (sound w) :=
  ⟨fun hs h => Value.Sound.of_mem_parts ((sound v).of hs h) hw⟩

theorem implies_of_sound (h : ∀ n, v.Sound n) : Γ.Implies (sound v) := ⟨fun _ _ => h _⟩

instance : Γ.Implies (sound .empty) := implies_of_sound fun _ => sound_empty

instance (f : FunctionId) : Γ.Implies (sound (.functionRef f)) := implies_of_sound fun _ => by simp

instance (c : ClassId) : Γ.Implies (sound (.classRef c)) := implies_of_sound fun _ => by simp

instance : Γ.Implies (sound .null) := implies_of_sound fun _ => by simp

instance : Γ.Implies (sound .object) := implies_of_sound fun _ => by simp

instance : Γ.Implies (sound (.bool none)) := implies_of_sound fun _ => by simp

instance : Γ.Implies (sound (.int none)) := implies_of_sound fun _ => by simp

instance : Γ.Implies (sound (.str none)) := implies_of_sound fun _ => by simp

instance [Γ.Implies (all sound vs)] : Γ.Implies (sound (unite vs)) := ⟨fun hs h => sound_unite ((all sound vs).of hs h)⟩

instance [Γ.Implies (sound v)] : Γ.Implies (sound v.widen) := ⟨fun hs h => sound_widen ((sound v).of hs h)⟩

theorem Implies.map {e : α → β} {Q : β → Assertion σ} (h : ∀ x, (P x).Implies (Q (e x))) [Γ.Implies (all P xs)] :
    Γ.Implies (all Q (xs.map e)) :=
  ⟨fun hs hΓ => List.forall_mem_map.mpr fun x hx => (h x).elim hs ((all P xs).of hs hΓ x hx)⟩

instance [Γ.Implies (all sound vs)] : Γ.Implies (all sound (vs.map widen)) := .map (P := sound) fun _ => inferInstance

instance {es : List (Value × Value)} [Γ.Implies (all sounds es)] : Γ.Implies (all sound (es.map Prod.fst)) :=
  .map (P := sounds) fun _ => inferInstance

instance {es : List (Value × Value)} [Γ.Implies (all sounds es)] : Γ.Implies (all sound (es.map Prod.snd)) :=
  .map (P := sounds) fun _ => inferInstance

instance [Γ.Implies (sound v)] : Γ.Implies (sound (listOf v)) := ⟨fun hs h => sound_listOf ((sound v).of hs h)⟩

instance [Γ.Implies (sound v)] : Γ.Implies (sound (setOf v)) := ⟨fun hs h => sound_setOf ((sound v).of hs h)⟩

instance [Γ.Implies (sound v)] : Γ.Implies (sound (generatorOf v)) :=
  ⟨fun hs h => sound_generatorOf ((sound v).of hs h)⟩

instance [Γ.Implies (sound v)] [Γ.Implies (sound w)] : Γ.Implies (sound (dictOf v w)) :=
  ⟨fun hs h => sound_dictOf ((sound v).of hs h) ((sound w).of hs h)⟩

instance [Γ.Implies (all sound vs)] : Γ.Implies (sound (tupleOf vs)) :=
  ⟨fun hs h => sound_tupleOf ((all sound vs).of hs h)⟩

instance {c : Prop} [Decidable c] [Γ.Implies (sound v)] [Γ.Implies (sound w)] :
    Γ.Implies (sound (if c then v else w)) :=
  ⟨fun hs h => sound_ite ((sound v).of hs h) ((sound w).of hs h)⟩

instance [Γ.Implies (all sound vs)] : Γ.Implies (soundArgs (.ofPositional vs)) :=
  ⟨fun hs h => Args.sound_ofPositional ((all sound vs).of hs h)⟩

instance {args : Args} [Γ.Implies (soundArgs args)] (i : Nat) : Γ.Implies (sound (args.get i)) :=
  ⟨fun hs h => Args.Sound.get ((soundArgs args).of hs h) i⟩

instance : Γ.Implies (soundArgs {}) := ⟨fun _ _ => Args.sound_none⟩

theorem ready {f : Frame} [Γ.Implies (lawful f)] (hs : s.Inv σ) (h : Γ.holds s) : Ready σ s f :=
  ⟨hs, (lawful f).of hs h⟩

end Assertion

open Assertion

namespace Run

/-! ## Walks -/

/--
Where `Γ` is known, the first computation takes steps of the analysis, and `post` is known of its result. It is in
lockstep with the second one.
-/
structure Walk {σ : Setting} {α β : Type} (K : Reading) (texts : Bool) (R : Course) (Γ : Assertion σ)
    (post : α → Assertion σ) (g : α → β) (act : Run α) (act' : Run β) : Prop extends
    Lockstep K texts R g act act' where
  performs : ∀ ⦃s : Session⦄, s.Inv σ → Γ.holds s → Does (Step σ) σ s act fun a s' => (post a).holds s'

/-- A walk whose results are not used. -/
abbrev Acts {σ : Setting} {α : Type} (K : Reading) (texts : Bool) (R : Course) (Γ : Assertion σ)
    (act act' : Run α) : Prop := Walk K texts R Γ (fun _ => nothing) id act act'

/-- A walk that gives a sound value. -/
abbrev Yields {σ : Setting} (K : Reading) (texts : Bool) (R : Course) (Γ : Assertion σ) (act act' : Run Value) :
    Prop := Walk K texts R Γ sound (Value.shift R.shift) act act'

variable {K : Reading} {texts : Bool} {R : Course} {σ : Setting} {α β γ δ : Type} {Γ : Assertion σ}
  {Δ : α → Assertion σ} {post : γ → Assertion σ} {g : α → β} {k : γ → δ} {act : Run α} {act' : Run β}
  {next : α → Run γ} {xs : List α}

theorem walk_pure (a : α) [Γ.Implies (Δ a)] : Walk K texts R Γ Δ g (pure a) (pure (g a)) :=
  ⟨lockstep_pure a, fun _ hs h => does_pure ((Δ a).of hs h)⟩

theorem walk_pure_of_eq {a : α} {b : β} [Γ.Implies (Δ a)] (h : b = g a) :
    Walk K texts R Γ Δ g (pure a) (pure b) := h ▸ walk_pure a

theorem walk_exhausted (h : K.MayExhaust texts) : Walk K texts R Γ Δ g (throw .exhausted) (throw .exhausted) :=
  ⟨lockstep_exhausted h, fun _ _ _ => does_throw (.inr rfl)⟩

theorem Walk.bind {next' : β → Run δ} (h : Walk K texts R Γ Δ g act act')
    (hnext : ∀ a, Walk K texts R (Γ.and (Δ a)) post k (next a) (next' (g a))) :
    Walk K texts R Γ post k (act >>= next) (act' >>= next') :=
  ⟨h.toLockstep.bind fun a => (hnext a).toLockstep, fun _ hs hΓ => (h.performs hs hΓ).bind fun a _ hsteps ha =>
    (hnext a).performs (hs.after hsteps) ⟨Γ.stable hs hsteps hΓ, ha⟩⟩

/-- What a computation is made of can be told from its walk beside itself. -/
theorem regular_of_walk {f : Frame} {g : Course → α → β} {act' : Course → Run β}
    (h : ∀ {R : Course}, f.Twin R f → Walk (σ := σ) K texts R .never Δ (g R) act (act' R)) : Regular K texts act := by
  obtain ⟨R, hf, -⟩ := f.exists_twins f
  exact (h hf).regular

/-- What a computation does can be told from its walk beside itself. -/
theorem performs_of_twins {f : Frame} {g : Course → α → β} {act' : Course → Run β}
    (h : ∀ {R : Course}, f.Twin R f → Walk K texts R Γ Δ (g R) act (act' R)) {s : Session} (hs : s.Inv σ)
    (hΓ : Γ.holds s) : Does (Step σ) σ s act fun a s' => (Δ a).holds s' := by
  obtain ⟨R, hf, -⟩ := f.exists_twins f
  exact (h hf).performs hs hΓ

/-- What is shown where less is known. -/
theorem Walk.weaken {Γ' : Assertion σ} (h : Walk K texts R Γ Δ g act act') [Γ'.Implies Γ] :
    Walk K texts R Γ' Δ g act act' :=
  ⟨h.toLockstep, fun _ hs hΓ => h.performs hs (Γ.of hs hΓ)⟩

theorem Walk.then {act act' : Run Unit} {next : Run γ} {next' : Run δ} (h : Acts K texts R Γ act act')
    (hnext : Walk K texts R Γ post k next next') :
    Walk K texts R Γ post k (act >>= fun _ => next) (act' >>= fun _ => next') :=
  h.bind fun _ => hnext.weaken

theorem Walk.ite {c : Prop} [Decidable c] {act₁ act₂ : Run α} {act₁' act₂' : Run β}
    (h₁ : Walk K texts R Γ Δ g act₁ act₁') (h₂ : Walk K texts R Γ Δ g act₂ act₂') :
    Walk K texts R Γ Δ g (if c then act₁ else act₂) (if c then act₁' else act₂') := by
  split
  · exact h₁
  · exact h₂

theorem walk_read {next : Setting → Run γ} {next' : Setting → Run δ}
    (hsame : ∀ σ useCapabilities, next (σ.withCapabilities useCapabilities) = next σ)
    (hnext : ∀ σ', K.Trusted σ' ∨ σ' = σ → Walk K texts R Γ post k (next σ') (next' σ')) :
    Walk K texts R Γ post k (read >>= next) (read >>= next') :=
  ⟨lockstep_read hsame fun σ' h => (hnext σ' (.inl h)).toLockstep, fun _ hs hΓ =>
    does_read_bind ((hnext σ (.inr rfl)).performs hs hΓ)⟩

/-- A look at something in the stores, which the second run sees in its own. -/
theorem walk_look {next' : α → Run δ} {rest : Store → Run δ}
    (hnext : ∀ a, Walk K texts R (Γ.and (Δ a)) post k (next a) (next' a)) (d : Store → α)
    (hd : ∀ {s s' : Store}, s.Mirror R s' → rest s' = next' (d s))
    (hlooked : ∀ {s : Session}, s.Inv σ → Γ.holds s → (Δ (d s.store)).holds s) :
    Walk K texts R Γ post k (getStore >>= fun s => next (d s)) (getStore >>= rest) := by
  refine ⟨lockstep_getStore (fun s => (hnext (d s)).regular) fun h => ?_, fun s hs hΓ => does_getStore_bind ?_⟩
  · rw [hd h]
    exact (hnext _).toLockstep
  · exact (hnext _).performs hs ⟨hΓ, hlooked hs hΓ⟩

/-- A look that gives something. -/
theorem walk_looked (d : Store → α) (d' : Store → β) (hd : ∀ {s s' : Store}, s.Mirror R s' → d' s' = g (d s))
    (hlooked : ∀ {s : Session}, s.Inv σ → Γ.holds s → (Δ (d s.store)).holds s) :
    Walk K texts R Γ Δ g (getStore >>= fun s => pure (d s)) (getStore >>= fun s => pure (d' s)) :=
  walk_look (fun a => walk_pure a) d (fun hs => congrArg pure (hd hs)) hlooked

/-- A look at something in the worlds. -/
theorem walk_world {next' : α → Run δ} {rest : World → Run δ}
    (hnext : ∀ a, Walk K texts R (Γ.and (Δ a)) post k (next a) (next' a)) (d : World → α)
    (hd : ∀ {w w' : World}, w.Mirror R w' → rest w' = next' (d w))
    (hlooked : ∀ {s : Session}, s.Inv σ → Γ.holds s → (Δ (d ⟨σ.graph, s.store, s.handle.isCancelled⟩)).holds s) :
    Walk K texts R Γ post k (world >>= fun w => next (d w)) (world >>= rest) := by
  refine ⟨lockstep_world (fun w => (hnext (d w)).regular) fun h => ?_, fun s hs hΓ => does_world_bind ?_⟩
  · rw [hd h]
    exact (hnext _).toLockstep
  · exact (hnext _).performs hs ⟨hΓ, hlooked hs hΓ⟩

/-- A look at the functions. -/
theorem walk_getFunctions {next : Store → Run γ} {next' : Store → Run δ}
    (hnext : ∀ {s s' : Store}, (∀ f, s'.function f = s.function f) → Walk K texts R Γ post k (next s) (next' s')) :
    Walk K texts R Γ post k (getStore >>= next) (getStore >>= next') :=
  ⟨lockstep_getStore (fun _ => (hnext fun _ => rfl).regular) fun hs => (hnext hs.function).toLockstep,
    fun _ hs hΓ => does_getStore_bind ((hnext fun _ => rfl).performs hs hΓ)⟩

theorem walk_mapM {e : γ → δ} {f : γ → Run α} {f' : δ → Run β} {xs : List γ}
    (h : ∀ x ∈ xs, Walk K texts R Γ Δ g (f x) (f' (e x))) :
    Walk K texts R Γ (all Δ) (List.map g) (xs.mapM f) ((xs.map e).mapM f') := by
  induction xs with
  | nil => exact walk_pure []
  | cons x rest ih =>
    rw [List.map_cons, List.mapM_cons, List.mapM_cons]
    refine (h x List.mem_cons_self).bind fun b => ?_
    exact (ih fun y hy => h y (List.mem_cons_of_mem x hy)).weaken.bind fun bs => walk_pure (b :: bs)

theorem walk_forIn {e : α → β} {body : α → Unit → Run (ForInStep Unit)}
    {body' : β → Unit → Run (ForInStep Unit)} (h : ∀ x ∈ xs, Acts K texts R Γ (body x ()) (body' (e x) ())) :
    Acts K texts R Γ (forIn xs () body) (forIn (xs.map e) () body') := by
  induction xs with
  | nil => exact walk_pure ()
  | cons x rest ih =>
    rw [List.map_cons, List.forIn_cons, List.forIn_cons]
    refine (h x List.mem_cons_self).bind fun out => ?_
    cases out with
    | done => exact walk_pure ()
    | yield => exact (ih fun y hy => h y (List.mem_cons_of_mem x hy)).weaken

/-- A loop over the same list in both runs. -/
theorem walk_loop {body body' : α → Unit → Run (ForInStep Unit)}
    (h : ∀ x ∈ xs, Acts K texts R Γ (body x ()) (body' x ())) :
    Acts K texts R Γ (forIn xs () body) (forIn xs () body') := by
  have hloop : Acts K texts R Γ (forIn xs () body) (forIn (xs.map id) () body') := walk_forIn h
  rwa [List.map_id] at hloop

/-- A loop over the same list in both runs whose body gives nothing. -/
theorem walk_for {act act' : α → Run Unit} (h : ∀ x ∈ xs, Acts K texts R Γ (act x) (act' x)) :
    Acts K texts R Γ (forIn xs () fun x _ => act x >>= fun _ => pure (ForInStep.yield ()))
      (forIn xs () fun x _ => act' x >>= fun _ => pure (ForInStep.yield ())) :=
  walk_loop fun x hx => (h x hx).bind fun _ => walk_pure (ForInStep.yield ())

section Disjuncts

variable (v : Value) [Γ.Implies (sound v)]

/-- Each alternative of a value is treated. -/
theorem walk_mapDisjuncts {f : Value → Run α} {f' : Value → Run β}
    (h : ∀ d, Γ.Implies (sound d) → Walk K texts R Γ Δ g (f d) (f' (d.shift R.shift))) :
    Walk K texts R Γ (all Δ) (List.map g) (v.disjuncts.mapM f) ((v.shift R.shift).disjuncts.mapM f') := by
  rw [disjuncts_shift]
  exact walk_mapM fun d hd => h d (.disjunct hd)

theorem walk_forDisjuncts {body body' : Value → Unit → Run (ForInStep Unit)}
    (h : ∀ d, Γ.Implies (sound d) → Acts K texts R Γ (body d ()) (body' (d.shift R.shift) ())) :
    Acts K texts R Γ (forIn v.disjuncts () body) (forIn (v.shift R.shift).disjuncts () body') := by
  rw [disjuncts_shift]
  exact walk_forIn fun d hd => h d (.disjunct hd)

end Disjuncts

/-! ## Small computations -/

theorem walk_check : Acts K texts R Γ check check :=
  ⟨lockstep_check, fun _ _ _ => does_check.imp fun _ _ _ _ => trivial⟩

theorem walk_ask {query : World → Except AnalysisError α} {query' : World → Except AnalysisError β}
    (hanswers : ∀ w, Answers (query w)) (hquery : ∀ {w w' : World}, w.Mirror R w' → query' w' = g <$> query w)
    (hensures : ∀ {s : Session}, s.Inv σ → Γ.holds s →
      Ensures (query ⟨σ.graph, s.store, s.handle.isCancelled⟩) fun a => (Δ a).holds s) :
    Walk K texts R Γ Δ g (ask query) (ask query') := by
  refine ⟨lockstep_ask hanswers hquery, fun s hs hΓ => (does_ask (hensures hs hΓ)).imp ?_⟩
  rintro a _ - ⟨rfl, ha⟩
  exact ha

theorem walk_say (pieces pieces' : Store → List String) : Acts K texts R Γ (say pieces) (say pieces') :=
  ⟨lockstep_say pieces pieces', fun _ _ _ => does_say pieces⟩

theorem walk_tell (notice notice' : Notice) : Acts K texts R Γ (tell notice) (tell notice') :=
  ⟨lockstep_tell notice notice', fun _ hs _ => does_tell hs.benign.delegate notice⟩

theorem walk_noteText (text : String) {next : Unit → Run γ} {next' : Unit → Run δ}
    (hnext : ∀ u, Walk K true R Γ post k (next u) (next' u)) :
    Walk K texts R Γ post k (noteText text >>= next) (noteText text >>= next') :=
  ⟨lockstep_noteText text fun u => (hnext u).toLockstep, fun _ hs hΓ =>
    Does.bind (does_quiet rfl rfl rfl rfl) fun _ _ hsteps _ =>
      (hnext ()).performs (hs.after hsteps) (Γ.stable hs hsteps hΓ)⟩

theorem walk_idle {act act' : Run Unit} (h : Idle act) (h' : Idle act') : Acts K texts R Γ act act' :=
  ⟨lockstep_idle h h', fun _ _ _ => h.goes⟩

/-- A computation in the stores whose result is not used. -/
theorem walk_inStore {act : StoreM α} {act' : StoreM β} (h : StoreM.Lockstep R g act act')
    (hdoes : ∀ {s : Session}, s.Inv σ → Γ.holds s → StoreM.Does s.store act fun _ _ => True) :
    Walk K texts R Γ (fun _ => nothing) g (inStore act) (inStore act') :=
  ⟨lockstep_inStore h, fun _ hs hΓ => does_inStore (hdoes hs hΓ)⟩

theorem walk_numbered (v : Value) [Γ.Implies (sound v)] :
    Yields K texts R Γ (numbered v) (numbered (v.shift R.shift)) :=
  ⟨lockstep_inStore (StoreM.lockstep_numbered v), fun _ hs h => does_numbered ((sound v).of hs h)⟩

theorem walk_produce (symbol : SymbolId) (v : Value) [Γ.Implies (sound v)] :
    Acts K texts R Γ (inStore (StoreM.produce symbol v)) (inStore (StoreM.produce symbol (v.shift R.shift))) :=
  walk_inStore (StoreM.lockstep_produce symbol v) fun hs h =>
    StoreM.does_producePrivate symbol ((sound v).of hs h) false

theorem walk_write (symbol : SymbolId) (v : Value) [Γ.Implies (sound v)] :
    Acts K texts R Γ (write symbol v) (write symbol (v.shift R.shift)) :=
  (walk_produce symbol v).bind fun _ => walk_say _ _

theorem walk_setBases {c : ClassId} {act act' : Run (List Value)}
    (h : Walk K texts R Γ (all sound) (List.map (Value.shift R.shift)) act act') (hregisters : K.Registers c act) :
    Acts K texts R Γ (act >>= fun bases => inStore (StoreM.modifyClass c fun info => { info with bases }))
      (act' >>= fun bases => inStore (StoreM.modifyClass c fun info => { info with bases })) := by
  refine ⟨lockstep_setBases h.toLockstep hregisters, fun _ hs hΓ => (h.performs hs hΓ).bind fun bases s _ hbases => ?_⟩
  have hset : StoreM.Does s.store (StoreM.modifyClass c fun info => { info with bases }) fun _ _ => True :=
    ⟨.single (.setBases s.store c hbases), trivial⟩
  exact does_inStore hset

theorem walk_narrowTo (symbol : SymbolId) (v : Value) [Γ.Implies (sound v)] :
    Acts K texts R Γ (narrowTo symbol v) (narrowTo symbol (v.shift R.shift)) :=
  ⟨lockstep_narrowTo symbol v, fun s hs h => ⟨.single (.narrow s symbol ((sound v).of hs h)), trivial⟩⟩

end Run

end Surmise
