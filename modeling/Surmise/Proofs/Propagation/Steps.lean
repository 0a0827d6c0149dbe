import Surmise.Proofs.Store.Objects
import Surmise.Propagation.Body

/-!
# Steps of an analysis

`Session.Step` lists what evaluating a program does to the state of the analysis: it changes the store
step by step, makes functions, classes and scopes, runs class bodies in scopes of their own, and narrows
what assertions speak of. Nothing else happens, so an invariant is one that each of these keeps.

* `Session.Lexical`: the scopes that functions may lie in. A scope is reached from its module through
  functions and comprehensions.
* `Session.Inv`: every scope has one role, and all that is recorded refers to something there is.
* `Session.Step.extension`, `Session.Step.inv`: a step keeps what was there, and the invariant.
-/

namespace Surmise

open StoreM Store

namespace Session

variable {s s' : Session} {σ : Setting}

/-! ## Scopes -/

/-- The scope of a function, a lambda or a comprehension. -/
def IsInner (s : Session) (t : TableId) : Prop :=
  (∃ f : FunctionId, f.index < s.store.functions.size ∧ (s.store.function f).locals = t) ∨
    ∃ site, (site, t) ∈ s.assembly.comprehensions

def IsMembers (s : Session) (t : TableId) : Prop :=
  ∃ c : ClassId, c.index < s.store.classes.size ∧ (s.store.classOf c).members = t

/-- A scope that names are looked up in from inside: one of a module, or one inside such a scope. -/
inductive Lexical (s : Session) : TableId → Prop
  | module {m : ModuleId} (h : m.index < s.store.modules.size) : Lexical s (s.store.module m).members
  | inner {t outer : TableId} (h : s.IsInner t) (hparent : (s.store.table t).parent = some outer)
      (hlt : outer.index < t.index) (houter : Lexical s outer) : Lexical s t

theorem Lexical.role {t : TableId} (h : s.Lexical t) :
    (∃ m : ModuleId, m.index < s.store.modules.size ∧ (s.store.module m).members = t) ∨ s.IsInner t := by
  cases h with
  | module hm => exact .inl ⟨_, hm, rfl⟩
  | inner hinner _ _ _ => exact .inr hinner

def IsFile (s : Session) (path : Path) : Prop :=
  ∃ m : ModuleId, m.index < s.store.modules.size ∧ (s.store.module m).path = path

/-- All scopes that have a role: first that of the builtins, then those of modules, packages, classes,
functions, comprehensions and class bodies. -/
def scopes (σ : Setting) (s : Session) : List TableId :=
  σ.builtins :: (s.store.modules.toList.map ModuleInfo.members ++
    s.store.packages.toList.map PackageInfo.entries ++ s.store.classes.toList.map ClassInfo.members ++
    s.store.functions.toList.map FunctionInfo.locals ++ s.assembly.comprehensions.map Prod.snd ++ s.bodies)

/-- A later state: what the earlier one has is still there. -/
structure Extends (s s' : Session) : Prop where
  store : s.store.Extends s'.store
  comprehensions : s.assembly.comprehensions ⊆ s'.assembly.comprehensions
  bodies : s.bodies ⊆ s'.bodies

theorem Extends.refl (s : Session) : s.Extends s :=
  ⟨.refl _, List.Subset.refl _, List.Subset.refl _⟩

theorem Extends.trans {s'' : Session} (h : s.Extends s') (h' : s'.Extends s'') : s.Extends s'' :=
  ⟨h.store.trans h'.store, List.Subset.trans h.comprehensions h'.comprehensions, List.Subset.trans h.bodies h'.bodies⟩

theorem lt_tables_of_parent {s : Store} {t outer : TableId} (h : (s.table t).parent = some outer) :
    t.index < s.tables.size := by
  by_contra hlt
  unfold table at h
  rw [getD_of_size_le (Nat.le_of_not_lt hlt)] at h
  cases h

section Mono

variable {s s' : Session} (hx : s.Extends s') {t : TableId}

include hx

theorem IsInner.mono (h : s.IsInner t) : s'.IsInner t := by
  rcases h with ⟨f, hf, rfl⟩ | ⟨site, hsite⟩
  · exact .inl ⟨f, Nat.lt_of_lt_of_le hf hx.store.functions, by rw [hx.store.function f hf]⟩
  · exact .inr ⟨site, hx.comprehensions hsite⟩

theorem Lexical.mono (h : s.Lexical t) : s'.Lexical t := by
  induction h with
  | @module m hm =>
    rw [← hx.store.module m hm]
    exact .module (Nat.lt_of_lt_of_le hm hx.store.modules)
  | inner hinner hparent hlt _ ih =>
    refine .inner (hinner.mono hx) ?_ hlt ih
    rw [(hx.store.table _ (lt_tables_of_parent hparent)).2, hparent]

theorem IsFile.mono {path : Path} (h : s.IsFile path) : s'.IsFile path := by
  obtain ⟨m, hm, rfl⟩ := h
  exact ⟨m, Nat.lt_of_lt_of_le hm hx.store.modules, by rw [hx.store.module m hm]⟩

end Mono

/-! ## Steps -/

/-- What a new scope is given its address by: it is free, in a file, and not that of the file. -/
structure Claim (s : Session) (address : Address) (name : String) : Prop where
  fresh : ∀ r ∈ s.assembly.reserved, (r == address) = false
  file : s.IsFile address.file
  path : address.path = "" → name = ""

/-- The state after a scope was given an address. -/
def reserving (s : Session) (address : Address) : Session :=
  { s with assembly := { s.assembly with reserved := address :: s.assembly.reserved } }

/-- A single change of the state while a program is evaluated. -/
inductive Step (σ : Setting) : Session → Session → Prop
  /-- Only the trace, the record, the observer or the handle changes. -/
  | quiet {s s' : Session} (hstore : s'.store = s.store) (hassembly : s'.assembly = s.assembly)
      (hnarrowed : s'.narrowed = s.narrowed) (hbodies : s'.bodies = s.bodies) : Step σ s s'
  | store (s : Session) {st : Store} (h : s.store.Step st) : Step σ s { s with store := st }
  | makeFunction (s : Session) (hfree : ¬ s.store.IsPackageScope ⟨s.store.tables.size⟩)
      {spec : StoreM.FunctionSpec} (houter : s.Lexical spec.parent)
      (hclaim : s.Claim spec.address spec.name) :
      Step σ s { s.reserving spec.address with store := (StoreM.newFunction spec s.store).2 }
  | makeClass (s : Session) (hfree : ¬ s.store.IsPackageScope ⟨s.store.tables.size⟩)
      {name : String} {address : Address} (hclaim : s.Claim address name) (moduleName : String) :
      Step σ s { s.reserving address with store := (StoreM.newClass name address moduleName s.store).2 }
  | openComprehension (s : Session) (site : Site) {outer : TableId} {address : Address}
      (houter : s.Lexical outer) (hclaim : s.Claim address "[comprehension]") :
      Step σ s { s with
        store := StoreM.opened address (some outer) s.store
        assembly := { s.assembly with
          reserved := address :: s.assembly.reserved
          comprehensions := s.assembly.comprehensions ++ [(site, ⟨s.store.tables.size⟩)] } }
  | openBody (s : Session) {outer : TableId} (houter : s.Lexical outer) (address : Address) :
      Step σ s { s with
        store := StoreM.opened address (some outer) s.store
        bodies := ⟨s.store.tables.size⟩ :: s.bodies }
  /-- A binding of a class body is forgotten. -/
  | clear (s : Session) {t : TableId} (ht : t ∈ s.bodies) {name : String} {id : SymbolId}
      (hid : s.store.get? t name = some id) :
      Step σ s { s with store := (StoreM.put id .empty s.store).2 }
  | narrow (s : Session) (id : SymbolId) {v : Value} (hv : v.Sound s.store.nextSerial) :
      Step σ s { s with store := (StoreM.put id v s.store).2, narrowed := id :: s.narrowed }
  /-- The body of a function is put on the list of what is visited. -/
  | queue (s : Session) {f : FunctionId} (hf : f.index < s.store.functions.size) :
      Step σ s { s with assembly := { s.assembly with order := s.assembly.order.push (.function f) } }
  | classSite (s : Session) (site : Site) {c : ClassId} (hc : c.index < s.store.classes.size) :
      Step σ s { s with assembly := { s.assembly with classes := s.assembly.classes ++ [(site, c)] } }
  | functionSite (s : Session) (site : Site) {f : FunctionId} (hf : f.index < s.store.functions.size) :
      Step σ s { s with assembly := { s.assembly with functions := s.assembly.functions ++ [(site, f)] } }
  | lambdaSite (s : Session) (site : Site) {f : FunctionId} (hf : f.index < s.store.functions.size) :
      Step σ s { s with assembly := { s.assembly with lambdas := s.assembly.lambdas ++ [(site, f)] } }

/-! ## The invariant -/

/-- What is recorded of definitions, of files and of what is to be visited refers to something there is. -/
structure Sites (a : Assembly) (st : Store) : Prop where
  classes : ∀ e ∈ a.classes, e.2.index < st.classes.size
  functions : ∀ e ∈ a.functions, e.2.index < st.functions.size
  lambdas : ∀ e ∈ a.lambdas, e.2.index < st.functions.size
  order : ∀ f, .function f ∈ a.order → f.index < st.functions.size
  files : ∀ e ∈ a.tree.files, e.2.index < st.modules.size

theorem Sites.mono {a : Assembly} {st st' : Store} (h : Sites a st) (hx : st.Extends st') : Sites a st' where
  classes e he := Nat.lt_of_lt_of_le (h.classes e he) hx.classes
  functions e he := Nat.lt_of_lt_of_le (h.functions e he) hx.functions
  lambdas e he := Nat.lt_of_lt_of_le (h.lambdas e he) hx.functions
  order f hf := Nat.lt_of_lt_of_le (h.order f hf) hx.functions
  files e he := Nat.lt_of_lt_of_le (h.files e he) hx.modules

/-- The scope of a module lies in that of the builtins, and has the address of its file. -/
def IsRooted (σ : Setting) (s : Session) (m : ModuleId) : Prop :=
  (s.store.table (s.store.module m).members).parent = some σ.builtins ∧
    (s.store.table (s.store.module m).members).address = .ofFile (s.store.module m).path

end Session

/-- Nothing from outside interferes: the policies come with the analysis, and the observer touches nothing. -/
structure Setting.Benign (σ : Setting) : Prop where
  policies : ∀ p ∈ σ.policies, p.IsBundled
  delegate : σ.delegate.Discreet

namespace Session

/-- The state of an analysis is in order. -/
structure Inv (σ : Setting) (s : Session) : Prop where
  benign : σ.Benign
  consistent : s.store.Consistent
  builtins : σ.builtins = ⟨0⟩
  outermost : (s.store.table σ.builtins).parent = none
  modules : ∀ m : ModuleId, m.index < s.store.modules.size → s.IsRooted σ m
  /-- No scope has two roles. -/
  nodup : (s.scopes σ).Nodup
  known : ∀ t ∈ s.scopes σ, t.index < s.store.tables.size
  lexical : ∀ t, s.IsInner t → s.Lexical t
  placed : ∀ t, s.IsInner t ∨ s.IsMembers t → s.IsFile (s.store.table t).address.file
  sites : Sites s.assembly s.store

theorem getD_mem {α : Type} {a : Array α} {i : Nat} (h : i < a.size) (d : α) : a.getD i d ∈ a.toList := by
  rw [Array.getD_eq_getD_getElem?, Array.getElem?_eq_getElem h, Option.getD_some, Array.mem_toList_iff]
  exact Array.getElem_mem h

section Scopes

variable {σ : Setting} {s : Session} {t : TableId}

theorem mem_scopes_module {m : ModuleId} (h : m.index < s.store.modules.size) :
    (s.store.module m).members ∈ s.scopes σ := by
  have := List.mem_map_of_mem (f := ModuleInfo.members) (getD_mem h default)
  simp only [scopes, List.mem_cons, List.mem_append]
  exact .inr (.inl (.inl (.inl (.inl (.inl this)))))

theorem mem_scopes_inner (h : s.IsInner t) : t ∈ s.scopes σ := by
  simp only [scopes, List.mem_cons, List.mem_append]
  rcases h with ⟨f, hf, rfl⟩ | ⟨site, hsite⟩
  · exact .inr (.inl (.inl (.inr (List.mem_map_of_mem (getD_mem hf default)))))
  · exact .inr (.inl (.inr (List.mem_map_of_mem (f := Prod.snd) hsite)))

theorem mem_scopes_members (h : s.IsMembers t) : t ∈ s.scopes σ := by
  simp only [scopes, List.mem_cons, List.mem_append]
  obtain ⟨c, hc, rfl⟩ := h
  exact .inr (.inl (.inl (.inl (.inr (List.mem_map_of_mem (getD_mem hc default))))))

theorem mem_scopes_body (h : t ∈ s.bodies) : t ∈ s.scopes σ := by
  simp only [scopes, List.mem_cons, List.mem_append]
  exact .inr (.inr h)

theorem mem_scopes_lexical (h : s.Lexical t) : t ∈ s.scopes σ := by
  rcases h.role with ⟨m, hm, rfl⟩ | hinner
  · exact mem_scopes_module hm
  · exact mem_scopes_inner hinner

/-- The members of classes are the same in a store with as many classes that extends another one. -/
theorem map_members_eq {st st' : Store} (hx : st.Extends st') (hsize : st'.classes.size = st.classes.size) :
    st'.classes.toList.map ClassInfo.members = st.classes.toList.map ClassInfo.members :=
  map_eq_of_getD_eq hsize fun i hi => (hx.classOf ⟨i⟩ hi).2

end Scopes

namespace Inv

variable {σ : Setting} {s s' : Session} {address : Address} {t : TableId}

theorem mem_packages {st : Store} (h : st.IsPackageScope t) :
    t ∈ st.packages.toList.map PackageInfo.entries := by
  obtain ⟨p, hp, rfl⟩ := h
  exact List.mem_map_of_mem (getD_mem hp default)

variable (h : s.Inv σ)

include h

/-- No package lies in a scope that is yet to be opened. -/
theorem free : ¬ s.store.IsPackageScope ⟨s.store.tables.size⟩ := by
  intro hp
  refine Nat.lt_irrefl _ (h.known ⟨s.store.tables.size⟩ ?_)
  simp only [scopes, List.mem_cons, List.mem_append]
  exact .inr (.inl (.inl (.inl (.inl (.inr (mem_packages hp))))))

/-- The scope of a package has no other role. -/
theorem package_apart (ht : s.store.IsPackageScope t) :
    t ≠ σ.builtins ∧ t ∉ s.store.modules.toList.map ModuleInfo.members ∧
      t ∉ s.store.classes.toList.map ClassInfo.members ∧ ¬ s.IsInner t ∧ t ∉ s.bodies := by
  have hmem := mem_packages ht
  have hnodup := h.nodup
  unfold scopes at hnodup
  obtain ⟨hbuiltins, hnodup⟩ := List.nodup_cons.mp hnodup
  simp only [List.nodup_append, List.mem_append] at hnodup hbuiltins
  obtain ⟨⟨⟨⟨⟨-, -, hM⟩, -, hC⟩, -, hF⟩, -, hK⟩, -, hB⟩ := hnodup
  refine ⟨?_, fun ht' => hM _ ht' _ hmem rfl, fun ht' => hC _ (.inr hmem) _ ht' rfl, ?_,
    fun ht' => hB _ (.inl (.inl (.inl (.inr hmem)))) _ ht' rfl⟩
  · rintro rfl
    exact hbuiltins (.inl (.inl (.inl (.inl (.inr hmem)))))
  · rintro (⟨f, hf, rfl⟩ | ⟨site, hsite⟩)
    · exact hF _ (.inl (.inr hmem)) _ (List.mem_map_of_mem (getD_mem hf default)) rfl
    · exact hK _ (.inl (.inl (.inr hmem))) _ (List.mem_map_of_mem hsite) rfl

theorem membersApart : s.store.MembersApart := by
  refine ⟨fun c hp => ?_, fun m hp => ?_⟩
  · obtain ⟨hbuiltins, -, hclasses, -⟩ := h.package_apart hp
    by_cases hc : c.index < s.store.classes.size
    · exact hclasses (List.mem_map_of_mem (getD_mem hc default))
    · -- a class that is not there reads as one whose members are the builtins
      apply hbuiltins
      unfold classOf
      rw [getD_of_size_le (Nat.le_of_not_lt hc), h.builtins]
      rfl
  · obtain ⟨hbuiltins, hmodules, -⟩ := h.package_apart hp
    by_cases hm : m.index < s.store.modules.size
    · exact hmodules (List.mem_map_of_mem (getD_mem hm default))
    · apply hbuiltins
      unfold module
      rw [getD_of_size_le (Nat.le_of_not_lt hm), h.builtins]
      rfl

/-- What has to be shown of a later state. -/
theorem extend (hx : s.Extends s') (hc : s'.store.Consistent)
    (hmodules : ∀ m : ModuleId, m.index < s'.store.modules.size → m.index < s.store.modules.size ∨ s'.IsRooted σ m)
    (hnodup : (s'.scopes σ).Nodup)
    (hknown : ∀ t ∈ s'.scopes σ, t.index < s'.store.tables.size)
    (hinner : ∀ t, s'.IsInner t → s.IsInner t ∨ s'.Lexical t ∧ s'.IsFile (s'.store.table t).address.file)
    (hmembers : ∀ t, s'.IsMembers t → s.IsMembers t ∨ s'.IsFile (s'.store.table t).address.file)
    (hsites : Sites s'.assembly s'.store) : s'.Inv σ := by
  have hplaced : ∀ t, s.IsInner t ∨ s.IsMembers t → s'.IsFile (s'.store.table t).address.file := by
    intro t ht
    have hmem : t ∈ s.scopes σ := ht.elim mem_scopes_inner mem_scopes_members
    rw [(hx.store.table t (h.known t hmem)).1]
    exact (h.placed t ht).mono hx
  constructor
  case benign => exact h.benign
  case consistent => exact hc
  case builtins => exact h.builtins
  case outermost =>
    rw [(hx.store.table _ (h.known _ List.mem_cons_self)).2, h.outermost]
  case modules =>
    intro m hm
    rcases hmodules m hm with hm | hnew
    · obtain ⟨haddress, hparent⟩ := hx.store.table _ (h.known _ (mem_scopes_module hm))
      unfold IsRooted
      rw [hx.store.module m hm, haddress, hparent]
      exact h.modules m hm
    · exact hnew
  case nodup => exact hnodup
  case known => exact hknown
  case lexical =>
    intro t ht
    rcases hinner t ht with hold | hnew
    · exact (h.lexical t hold).mono hx
    · exact hnew.1
  case placed =>
    rintro t (ht | ht)
    · rcases hinner t ht with hold | hnew
      · exact hplaced t (.inl hold)
      · exact hnew.2
    · rcases hmembers t ht with hold | hnew
      · exact hplaced t (.inr hold)
      · exact hnew
  case sites => exact hsites

/-- A change that makes no object and no scope keeps the invariant. -/
theorem of_sameObjects (hx : s.store.Extends s'.store) (hc : s'.store.Consistent)
    (hsame : SameObjects s.store s'.store)
    (hcomprehensions : s'.assembly.comprehensions = s.assembly.comprehensions)
    (hbodies : s'.bodies = s.bodies) (hsites : Sites s'.assembly s'.store) : s'.Inv σ := by
  have hscopes : s'.scopes σ = s.scopes σ := by
    unfold scopes
    rw [hsame.modules, hsame.packages, map_members_eq hx hsame.classes, hsame.functions, hcomprehensions, hbodies]
  have hx' : s.Extends s' :=
    ⟨hx, by rw [hcomprehensions]; exact List.Subset.refl _, by rw [hbodies]; exact List.Subset.refl _⟩
  refine h.extend hx' hc (fun m hm => .inl (hsame.modules ▸ hm)) (hscopes ▸ h.nodup) ?_ ?_ ?_ hsites
  · intro t ht
    rw [hsame.tables]
    exact h.known t (hscopes ▸ ht)
  · rintro t (⟨f, hf, rfl⟩ | ⟨site, hsite⟩)
    · unfold function
      rw [hsame.functions] at hf ⊢
      exact .inl (.inl ⟨f, hf, rfl⟩)
    · rw [hcomprehensions] at hsite
      exact .inl (.inr ⟨site, hsite⟩)
  · rintro t ⟨c, hc, rfl⟩
    rw [hsame.classes] at hc
    exact .inl ⟨c, hc, (hx.classOf c hc).2.symm⟩

/-- Nor does a change of the assembly alone, if the comprehensions are the same. -/
theorem of_assembly {a : Assembly} (hcomprehensions : a.comprehensions = s.assembly.comprehensions)
    (hsites : Sites a s.store) : ({ s with assembly := a } : Session).Inv σ :=
  h.of_sameObjects (.refl _) h.consistent ⟨rfl, rfl, rfl, rfl, rfl⟩ hcomprehensions rfl hsites

theorem put (id : SymbolId) {v : Value} (hv : v.Sound s.store.nextSerial) (narrowed : List SymbolId) :
    ({ s with store := (put id v s.store).2, narrowed } : Session).Inv σ := by
  have hx := extends_put s.store id v
  exact h.of_sameObjects hx (h.consistent.put id hv) (sameObjects_put s.store id v) rfl rfl (h.sites.mono hx)

/-- A scope that was just opened has no role yet. -/
theorem one_more (hperm : (s'.scopes σ).Perm (⟨s.store.tables.size⟩ :: s.scopes σ))
    (hlt : s.store.tables.size < s'.store.tables.size) :
    (s'.scopes σ).Nodup ∧ ∀ t ∈ s'.scopes σ, t.index < s'.store.tables.size := by
  refine ⟨hperm.nodup_iff.mpr (List.nodup_cons.mpr ⟨fun hmem => ?_, h.nodup⟩), fun t ht => ?_⟩
  · exact Nat.lt_irrefl _ (h.known _ hmem)
  · rcases List.mem_cons.mp (hperm.mem_iff.mp ht) with rfl | hold
    · exact hlt
    · exact Nat.lt_trans (h.known t hold) hlt

/-- What has to be shown of a later state with one more scope. -/
theorem of_opens {parent : Option TableId} (ho : Opens s.store s'.store address parent)
    (hcomprehensions : s.assembly.comprehensions ⊆ s'.assembly.comprehensions) (hbodies : s.bodies ⊆ s'.bodies)
    (hperm : (s'.scopes σ).Perm (⟨s.store.tables.size⟩ :: s.scopes σ))
    (hinner : ∀ t, s'.IsInner t → s.IsInner t ∨ t = ⟨s.store.tables.size⟩ ∧ s.IsFile address.file ∧
      ∃ outer, parent = some outer ∧ s.Lexical outer)
    (hmembers : ∀ t, s'.IsMembers t → s.IsMembers t ∨ t = ⟨s.store.tables.size⟩ ∧ s.IsFile address.file)
    (hsites : Sites s'.assembly s'.store) : s'.Inv σ := by
  have hx : s.Extends s' := ⟨ho.extension, hcomprehensions, hbodies⟩
  have hlt : s.store.tables.size < s'.store.tables.size := by
    rw [ho.tables]
    exact Nat.lt_succ_self _
  obtain ⟨hnodup, hknown⟩ := h.one_more hperm hlt
  refine h.extend hx (ho.consistent h.consistent) (fun m hm => .inl (ho.modules ▸ hm)) hnodup hknown ?_ ?_ hsites
  · intro t ht
    rcases hinner t ht with hold | ⟨rfl, hfile, outer, hparent, houter⟩
    · exact .inl hold
    · refine .inr ⟨.inner ht (ho.parent.trans hparent) (h.known _ (mem_scopes_lexical houter)) (houter.mono hx), ?_⟩
      rw [ho.address]
      exact hfile.mono hx
  · intro t ht
    rcases hmembers t ht with hold | ⟨rfl, hfile⟩
    · exact .inl hold
    · rw [ho.address]
      exact .inr (hfile.mono hx)

theorem makeFunction {spec : FunctionSpec} (houter : s.Lexical spec.parent)
    (hfile : s.IsFile spec.address.file) :
    ({ s.reserving spec.address with store := (newFunction spec s.store).2 } : Session).Inv σ := by
  have ho := opens_newFunction spec h.free
  obtain ⟨mid, info, hsteps, hinfo, heq⟩ := newFunction_spec spec h.free
  have hclasses : (newFunction spec s.store).2.classes.size = s.store.classes.size := by
    rw [heq]
    exact hsteps.sameObjects.classes
  have hfunctions : (newFunction spec s.store).2.functions = s.store.functions.push info := by
    rw [heq]
  refine h.of_opens ho (List.Subset.refl _) (List.Subset.refl _) ?_ ?_ ?_ { h.sites.mono ho.extension with }
  · unfold scopes
    dsimp only [reserving]
    rw [ho.modules, ho.packages, map_members_eq ho.extension hclasses, hfunctions, Array.toList_push,
      List.map_append, List.map_cons, hinfo.locals, List.perm_iff_count]
    intro t
    simp only [List.count_cons, List.count_append, List.map_nil, List.count_nil]
    omega
  · rintro t (⟨f, hf, rfl⟩ | hsite)
    · by_cases hold : f.index < s.store.functions.size
      · exact .inl (.inl ⟨f, hold, by rw [ho.extension.function f hold]⟩)
      · refine .inr ⟨?_, hfile, spec.parent, rfl, houter⟩
        dsimp only at hf ⊢
        rw [hfunctions, Array.size_push] at hf
        unfold function
        rw [hfunctions, getD_push, if_pos (by omega), hinfo.locals]
    · exact .inl (.inr hsite)
  · rintro t ⟨c, hc, rfl⟩
    dsimp only at hc
    rw [hclasses] at hc
    exact .inl ⟨c, hc, (ho.extension.classOf c hc).2.symm⟩

theorem makeClass (name : String) (hfile : s.IsFile address.file) (moduleName : String) :
    ({ s.reserving address with store := (newClass name address moduleName s.store).2 } : Session).Inv σ := by
  have ho := opens_newClass name address moduleName h.free
  obtain ⟨st, hsteps, heq⟩ := newClass_spec name address moduleName h.free
  rw [heq] at ho ⊢
  have hsame := hsteps.sameObjects
  have hfunctions : st.functions = s.store.functions := hsame.functions
  have hmembers : st.classes.toList.map ClassInfo.members =
      s.store.classes.toList.map ClassInfo.members ++ [⟨s.store.tables.size⟩] := by
    rw [map_members_eq hsteps.extension hsame.classes]
    simp [classAdded]
  refine h.of_opens ho (List.Subset.refl _) (List.Subset.refl _) ?_ ?_ ?_ { h.sites.mono ho.extension with }
  · unfold scopes
    dsimp only [reserving]
    rw [ho.modules, ho.packages, hmembers, hfunctions, List.perm_iff_count]
    intro t
    simp only [List.count_cons, List.count_append, List.count_nil]
    omega
  · rintro t (⟨f, hf, rfl⟩ | hsite)
    · unfold function
      dsimp only at hf ⊢
      rw [hfunctions] at hf ⊢
      exact .inl (.inl ⟨f, hf, rfl⟩)
    · exact .inl (.inr hsite)
  · rintro t ⟨c, hc, rfl⟩
    have hmem := List.mem_map_of_mem (f := ClassInfo.members) (getD_mem hc default)
    dsimp only at hmem ⊢
    rw [hmembers, List.mem_append, List.mem_singleton] at hmem
    by_cases hold : c.index < s.store.classes.size
    · exact .inl ⟨c, hold, (ho.extension.classOf c hold).2.symm⟩
    · refine .inr ⟨?_, hfile⟩
      have hsize : st.classes.size = s.store.classes.size + 1 := by
        rw [hsame.classes]
        simp [classAdded]
      have hindex : c.index = s.store.classes.size := by
        dsimp only at hc
        omega
      rw [hsteps.members_classOf]
      unfold classAdded classOf
      rw [getD_push, if_pos hindex]

theorem openComprehension (site : Site) {outer : TableId} (houter : s.Lexical outer)
    (hfile : s.IsFile address.file) :
    ({ s with
      store := opened address (some outer) s.store
      assembly := { s.assembly with
        reserved := address :: s.assembly.reserved
        comprehensions := s.assembly.comprehensions ++ [(site, ⟨s.store.tables.size⟩)] } } :
      Session).Inv σ := by
  have ho := opens_opened address (some outer) s.store
  refine h.of_opens ho (List.subset_append_left _ _) (List.Subset.refl _) ?_ ?_ ?_ { h.sites.mono ho.extension with }
  · unfold scopes
    rw [List.perm_iff_count]
    intro t
    simp only [opened, List.map_append, List.map_cons, List.map_nil, List.count_cons, List.count_append, List.count_nil]
    omega
  · rintro t (hf | ⟨site', hsite⟩)
    · exact .inl (.inl hf)
    · rcases List.mem_append.mp hsite with hold | hnew
      · exact .inl (.inr ⟨site', hold⟩)
      · cases List.mem_singleton.mp hnew
        exact .inr ⟨rfl, hfile, outer, rfl, houter⟩
  · exact fun t ht => .inl ht

theorem openBody (outer : TableId) (address : Address) : ({ s with
      store := opened address (some outer) s.store
      bodies := ⟨s.store.tables.size⟩ :: s.bodies } : Session).Inv σ := by
  have ho := opens_opened address (some outer) s.store
  refine h.of_opens ho (List.Subset.refl _) (List.subset_cons_self _ _) ?_ (fun t ht => .inl ht)
    (fun t ht => .inl ht) (h.sites.mono ho.extension)
  unfold scopes
  rw [List.perm_iff_count]
  intro t
  simp only [opened, List.count_cons, List.count_append]
  omega

end Inv

/-! ## What a step keeps -/

namespace Step

variable {σ : Setting} {s s' : Session}

/-- **A step keeps what there is.** -/
theorem extension (h : Step σ s s') : s.Extends s' := by
  cases h with
  | quiet hstore hassembly hnarrowed hbodies =>
    refine ⟨?_, ?_, ?_⟩
    · rw [hstore]
      exact .refl _
    · rw [hassembly]
      exact List.Subset.refl _
    · rw [hbodies]
      exact List.Subset.refl _
  | store h => exact ⟨h.extension, List.Subset.refl _, List.Subset.refl _⟩
  | @makeFunction hfree spec houter hclaim =>
    exact ⟨(opens_newFunction spec hfree).extension, List.Subset.refl _, List.Subset.refl _⟩
  | @makeClass hfree name address hclaim moduleName =>
    have ho := opens_newClass name address moduleName hfree
    generalize (newClass name address moduleName s.store).2 = st at ho
    exact ⟨ho.extension, List.Subset.refl _, List.Subset.refl _⟩
  | openComprehension site houter hclaim =>
    exact ⟨extends_opened _ _ _, List.subset_append_left _ _, List.Subset.refl _⟩
  | openBody houter address =>
    exact ⟨extends_opened _ _ _, List.Subset.refl _, List.subset_cons_self _ _⟩
  | @clear t ht name id hid =>
    exact ⟨extends_put s.store id .empty, List.Subset.refl _, List.Subset.refl _⟩
  | narrow id hv => exact ⟨extends_put _ _ _, List.Subset.refl _, List.Subset.refl _⟩
  | queue hf | classSite site hc | functionSite site hf | lambdaSite site hf =>
    exact ⟨.refl _, List.Subset.refl _, List.Subset.refl _⟩

/-- **A step keeps the state of an analysis in order.** -/
theorem inv (h : Step σ s s') (hs : s.Inv σ) : s'.Inv σ := by
  cases h with
  | quiet hstore hassembly hnarrowed hbodies =>
    refine hs.of_sameObjects (by rw [hstore]; exact .refl _) (by rw [hstore]; exact hs.consistent)
      (by rw [hstore]; exact ⟨rfl, rfl, rfl, rfl, rfl⟩) (by rw [hassembly]) hbodies ?_
    rw [hassembly, hstore]
    exact hs.sites
  | store h =>
    exact hs.of_sameObjects h.extension (h.consistent hs.consistent) h.sameObjects rfl rfl (hs.sites.mono h.extension)
  | makeFunction _ houter hclaim => exact hs.makeFunction houter hclaim.file
  | @makeClass _ name address hclaim moduleName => exact hs.makeClass name hclaim.file moduleName
  | openComprehension site houter hclaim => exact hs.openComprehension site houter hclaim.file
  | openBody houter address => exact hs.openBody _ address
  | @clear t ht name id hid => exact hs.put id Value.sound_empty _
  | narrow id hv => exact hs.put id hv _
  | queue hf =>
    refine hs.of_assembly rfl { hs.sites with order := fun g hg => ?_ }
    rcases Array.mem_push.mp hg with hold | hnew
    · exact hs.sites.order g hold
    · cases hnew
      exact hf
  | classSite site hc =>
    refine hs.of_assembly rfl { hs.sites with classes := ?_ }
    exact List.forall_mem_append.mpr ⟨hs.sites.classes, List.forall_mem_singleton.mpr hc⟩
  | functionSite site hf =>
    refine hs.of_assembly rfl { hs.sites with functions := ?_ }
    exact List.forall_mem_append.mpr ⟨hs.sites.functions, List.forall_mem_singleton.mpr hf⟩
  | lambdaSite site hf =>
    refine hs.of_assembly rfl { hs.sites with lambdas := ?_ }
    exact List.forall_mem_append.mpr ⟨hs.sites.lambdas, List.forall_mem_singleton.mpr hf⟩

end Step

abbrev Steps (σ : Setting) : Session → Session → Prop := Relation.ReflTransGen (Step σ)

theorem Inv.after (hs : s.Inv σ) (h : Steps σ s s') : s'.Inv σ := by
  induction h with
  | refl => exact hs
  | tail _ hstep ih => exact hstep.inv ih

theorem Steps.extension (h : Steps σ s s') : s.Extends s' := by
  induction h with
  | refl => exact .refl s
  | tail hsteps hstep ih => exact ih.trans hstep.extension

/-- Steps of the store are steps of the state. -/
theorem Steps.ofStore (s : Session) {st st' : Store} (h : Store.Steps st st') :
    Steps σ { s with store := st } { s with store := st' } :=
  h.lift (fun st => { s with store := st }) fun st _ hstep => .store { s with store := st } hstep

end Session

variable {σ : Setting} {s s' : Session}

/-- Values stay sound when more steps are taken. -/
theorem Value.Sound.after {v : Value} (hv : v.Sound s.store.nextSerial)
    (h : Session.Steps σ s s') : v.Sound s'.store.nextSerial :=
  hv.mono h.extension.store.serial

theorem Args.Sound.after {args : Args} (ha : args.Sound s.store.nextSerial)
    (h : Session.Steps σ s s') : args.Sound s'.store.nextSerial where
  positional v hv := (ha.positional v hv).after h
  keywords e he := (ha.keywords e he).after h
  vararg v hv := (ha.vararg v hv).after h
  kwarg v hv := (ha.kwarg v hv).after h

end Surmise
