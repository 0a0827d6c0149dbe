import Surmise.Proofs.Project.Directories
import Surmise.Proofs.Reached

/-!
# Addresses of scopes and files

Functions, classes and comprehensions are given addresses that are free; modules and packages have those
of their files and directories.

* `Session.Addressed`: no two scopes of functions, classes and comprehensions have one address.
* `Session.Filed`: no two modules have one file, no two packages one directory, and a package has a named
  entry only if an analysed file lies below it.
* `Assembler.Reached.addressed`, `Assembler.Reached.filed`: both hold of every state.
-/

namespace Surmise

open StoreM Store SourceTree

namespace Session

/-- The scopes that are given free addresses: those of classes, functions and comprehensions. -/
def claimed (s : Session) : List TableId :=
  s.store.classes.toList.map ClassInfo.members ++ s.store.functions.toList.map FunctionInfo.locals ++
    s.assembly.comprehensions.map Prod.snd

/-- A function lies in a file, at a path of its own, and so does the symbol of what it returns. Its scope binds its
parameters. -/
structure FunctionPlaced (s : Store) (f : FunctionId) : Prop where
  path : (s.table (s.function f).locals).address.path = "" → (s.function f).name = ""
  known : (s.function f).returns.index < s.symbols.size
  address : (s.symbol (s.function f).returns).address =
    (s.table (s.function f).locals).address.child returnName
  unbound : ∀ t name, s.get? t name ≠ some (s.function f).returns
  params : ∀ p ∈ (s.function f).params, s.get? (s.function f).locals p.name = some p.symbol
  vararg : ∀ id ∈ (s.function f).vararg, ∃ name, s.get? (s.function f).locals name = some id

/-- The scopes of classes, functions and comprehensions have addresses of their own. -/
structure Addressed (s : Session) : Prop where
  distinct : (s.claimed.map fun t => (s.store.table t).address.key).Nodup
  reserved : ∀ t ∈ s.claimed, (s.store.table t).address ∈ s.assembly.reserved
  functions : ∀ f : FunctionId, f.index < s.store.functions.size → FunctionPlaced s.store f
  returns : ∀ f g : FunctionId, f.index < s.store.functions.size → g.index < s.store.functions.size →
    (s.store.function f).returns = (s.store.function g).returns → f = g
  classes : ∀ c : ClassId, c.index < s.store.classes.size →
    (s.store.table (s.store.classOf c).members).address.path = "" → (s.store.classOf c).name = ""
  comprehensions : ∀ e ∈ s.assembly.comprehensions, (s.store.table e.2).address.path ≠ ""

variable {σ : Setting} {s s' : Session} {f : FunctionId} {st : Store} {t : SourceTree} {file : SourceFile}

theorem mem_claimed_function (h : f.index < s.store.functions.size) : (s.store.function f).locals ∈ s.claimed := by
  refine List.mem_append_left _ (List.mem_append_right _ ?_)
  exact List.mem_map_of_mem (getD_mem h default)

theorem mem_claimed_class {c : ClassId} (h : c.index < s.store.classes.size) :
    (s.store.classOf c).members ∈ s.claimed := by
  refine List.mem_append_left _ (List.mem_append_left _ ?_)
  exact List.mem_map_of_mem (getD_mem h default)

theorem mem_claimed_comprehension {e : Site × TableId} (h : e ∈ s.assembly.comprehensions) : e.2 ∈ s.claimed :=
  List.mem_append_right _ (List.mem_map_of_mem h)

theorem exists_of_mem_map {α β : Type} {a : Array α} {f : α → β} {b : β} (h : b ∈ a.toList.map f) (d : α) :
    ∃ i, i < a.size ∧ f (a.getD i d) = b := by
  obtain ⟨x, hx, rfl⟩ := List.mem_map.mp h
  obtain ⟨i, hi, rfl⟩ := Array.mem_iff_getElem.mp (Array.mem_toList_iff.mp hx)
  refine ⟨i, hi, ?_⟩
  rw [Array.getD_eq_getD_getElem?, Array.getElem?_eq_getElem hi, Option.getD_some]

theorem role_of_mem_claimed {t : TableId} (h : t ∈ s.claimed) : s.IsMembers t ∨ s.IsInner t := by
  simp only [claimed, List.mem_append] at h
  rcases h with (hclass | hfunction) | hcomprehension
  · obtain ⟨i, hi, hmembers⟩ := exists_of_mem_map hclass default
    exact .inl ⟨⟨i⟩, hi, hmembers⟩
  · obtain ⟨i, hi, hlocals⟩ := exists_of_mem_map hfunction default
    exact .inr (.inl ⟨⟨i⟩, hi, hlocals⟩)
  · obtain ⟨e, he, rfl⟩ := List.mem_map.mp hcomprehension
    exact .inr (.inr ⟨e.1, he⟩)

theorem claimed_subset_scopes : s.claimed ⊆ s.scopes σ := by
  intro t ht
  simp only [claimed, List.mem_append] at ht
  simp only [scopes, List.mem_cons, List.mem_append]
  rcases ht with (hclass | hfunction) | hcomprehension
  · exact .inr (.inl (.inl (.inl (.inr hclass))))
  · exact .inr (.inl (.inl (.inr hfunction)))
  · exact .inr (.inl (.inr hcomprehension))

/-- Functions are told apart by their scopes. -/
theorem Addressed.function_eq_of_locals (h : s.Addressed) {g : FunctionId} (hf : f.index < s.store.functions.size)
    (hg : g.index < s.store.functions.size) (hlocals : (s.store.function f).locals = (s.store.function g).locals) :
    f = g := by
  have hnodup : (s.store.functions.toList.map FunctionInfo.locals).Nodup :=
    (List.nodup_append.mp (List.nodup_append.mp h.distinct.of_map).1).2.1
  have hget : ∀ k : FunctionId, ∀ hk : k.index < (s.store.functions.toList.map FunctionInfo.locals).length,
      (s.store.functions.toList.map FunctionInfo.locals).get ⟨k.index, hk⟩ = (s.store.function k).locals := by
    intro k hk
    have hk' : k.index < s.store.functions.size := by simpa using hk
    simp [function, Array.getD_eq_getD_getElem?, hk']
  have hf' : f.index < (s.store.functions.toList.map FunctionInfo.locals).length := by simpa using hf
  have hg' : g.index < (s.store.functions.toList.map FunctionInfo.locals).length := by simpa using hg
  have hindex : (⟨f.index, hf'⟩ : Fin _) = ⟨g.index, hg'⟩ := by
    apply hnodup.injective_get
    rw [hget f hf', hget g hg', hlocals]
  cases f
  cases g
  exact congrArg _ (Fin.mk.inj hindex)

theorem FunctionPlaced.mono {st' : Store} (h : FunctionPlaced st f) (hx : st.Extends st') (hb : st.BindsNew st')
    (hf : f.index < st.functions.size) (hlocals : (st.function f).locals.index < st.tables.size) :
    FunctionPlaced st' f := by
  have hfunction := hx.function f hf
  have htable := (hx.table _ hlocals).1
  have hsymbol := (hx.symbol _ h.known).2
  refine ⟨?_, ?_, ?_, ?_, ?_, ?_⟩
  · rw [hfunction, htable]
    exact h.path
  · rw [hfunction]
    exact Nat.lt_of_lt_of_le h.known hx.symbols
  · rw [hfunction, htable, hsymbol]
    exact h.address
  · rw [hfunction]
    intro t name hid
    rcases hb.binding t name _ hid with hold | hnew
    · exact h.unbound t name hold
    · exact Nat.lt_irrefl _ (Nat.lt_of_lt_of_le h.known hnew)
  · rw [hfunction]
    exact fun p hp => hx.entry _ _ _ (h.params p hp)
  · rw [hfunction]
    exact fun id hid => (h.vararg id hid).imp fun name => hx.entry _ name id

/-! ## What keeps the addresses apart -/

/-- The later state has the same claimed scopes, or one more at an address that was free. -/
inductive Claims (s s' : Session) : Prop
  | none (hclaimed : s'.claimed = s.claimed) (hreserved : s'.assembly.reserved = s.assembly.reserved)
  | one (hclaimed : s'.claimed.Perm (⟨s.store.tables.size⟩ :: s.claimed))
      (hfresh : ∀ r ∈ s.assembly.reserved,
        (r == (s'.store.table ⟨s.store.tables.size⟩).address) = false)
      (hreserved : s'.assembly.reserved =
        (s'.store.table ⟨s.store.tables.size⟩).address :: s.assembly.reserved)

section Addressed

variable (h : s.Addressed) (hinv : s.Inv σ) {address : Address}

include h hinv

theorem Addressed.claims (hx : s.store.Extends s'.store) (hc : Claims s s') :
    (s'.claimed.map fun t => (s'.store.table t).address.key).Nodup ∧
      ∀ t ∈ s'.claimed, (s'.store.table t).address ∈ s'.assembly.reserved := by
  have hkept : ∀ t ∈ s.claimed, (s'.store.table t).address = (s.store.table t).address := fun t ht =>
    (hx.table t (hinv.known t (claimed_subset_scopes ht))).1
  have hmap : (s.claimed.map fun t => (s'.store.table t).address.key) =
      s.claimed.map fun t => (s.store.table t).address.key :=
    List.map_congr_left fun t ht => by rw [hkept t ht]
  cases hc with
  | none hclaimed hreserved =>
    rw [hclaimed, hreserved, hmap]
    refine ⟨h.distinct, fun t ht => ?_⟩
    rw [hkept t ht]
    exact h.reserved t ht
  | one hclaimed hfresh hreserved =>
    refine ⟨?_, fun t ht => ?_⟩
    · rw [(hclaimed.map _).nodup_iff, List.map_cons, hmap]
      refine List.nodup_cons.mpr ⟨fun hmem => ?_, h.distinct⟩
      obtain ⟨t, ht, hkey⟩ := List.mem_map.mp hmem
      have hsame := Address.beq_iff.mpr hkey
      rw [hfresh _ (h.reserved t ht)] at hsame
      cases hsame
    · rw [hreserved]
      rcases List.mem_cons.mp (hclaimed.mem_iff.mp ht) with rfl | hold
      · exact List.mem_cons_self
      · rw [hkept t hold]
        exact List.mem_cons_of_mem _ (h.reserved t hold)

/-- What has to be shown of a later state. -/
theorem Addressed.extend (hx : s.store.Extends s'.store)
    (hb : s.store.BindsNew s'.store) (hc : Claims s s')
    (hfunctions : ∀ f : FunctionId, f.index < s'.store.functions.size → f.index < s.store.functions.size ∨
      f.index = s.store.functions.size ∧ s.store.symbols.size ≤ (s'.store.function f).returns.index ∧
        FunctionPlaced s'.store f)
    (hclasses : ∀ c : ClassId, c.index < s'.store.classes.size → c.index < s.store.classes.size ∨
      ((s'.store.table (s'.store.classOf c).members).address.path = "" → (s'.store.classOf c).name = ""))
    (hcomprehensions : ∀ e ∈ s'.assembly.comprehensions, e ∈ s.assembly.comprehensions ∨
      (s'.store.table e.2).address.path ≠ "") : s'.Addressed := by
  have hknown : ∀ t ∈ s.claimed, t.index < s.store.tables.size := fun t ht =>
    hinv.known t (claimed_subset_scopes ht)
  obtain ⟨hdistinct, hreserved⟩ := h.claims hinv hx hc
  constructor
  case distinct => exact hdistinct
  case reserved => exact hreserved
  case functions =>
    intro f hf
    rcases hfunctions f hf with hold | ⟨-, -, hnew⟩
    · exact (h.functions f hold).mono hx hb hold (hknown _ (mem_claimed_function hold))
    · exact hnew
  case returns =>
    -- the symbol of a new function is newer than that of an old one
    have hold_new : ∀ f g : FunctionId, f.index < s.store.functions.size →
        s.store.symbols.size ≤ (s'.store.function g).returns.index →
        (s'.store.function f).returns ≠ (s'.store.function g).returns := by
      intro f g hf hg heq
      have hlt := (h.functions f hf).known
      rw [← hx.function f hf, heq] at hlt
      exact Nat.lt_irrefl _ (Nat.lt_of_lt_of_le hlt hg)
    intro f g hf hg heq
    rcases hfunctions f hf with hf | ⟨hf, hfresh, -⟩ <;> rcases hfunctions g hg with hg | ⟨hg, hgresh, -⟩
    · rw [hx.function f hf, hx.function g hg] at heq
      exact h.returns f g hf hg heq
    · exact absurd heq (hold_new f g hf hgresh)
    · exact absurd heq.symm (hold_new g f hg hfresh)
    · cases f
      cases g
      exact congrArg _ (hf.trans hg.symm)
  case classes =>
    intro c hc
    rcases hclasses c hc with hold | hnew
    · obtain ⟨hname, hmembers⟩ := hx.classOf c hold
      rw [hname, hmembers, (hx.table _ (hknown _ (mem_claimed_class hold))).1]
      exact h.classes c hold
    · exact hnew
  case comprehensions =>
    intro e he
    rcases hcomprehensions e he with hold | hnew
    · rw [(hx.table _ (hknown _ (mem_claimed_comprehension hold))).1]
      exact h.comprehensions e hold
    · exact hnew

/-- A change that makes no function, class or comprehension keeps the addresses apart. -/
theorem Addressed.keep (hx : s.store.Extends s'.store)
    (hb : s.store.BindsNew s'.store) (hfunctions : s'.store.functions = s.store.functions)
    (hclasses : s'.store.classes.size = s.store.classes.size)
    (hcomprehensions : s'.assembly.comprehensions = s.assembly.comprehensions)
    (hreserved : s'.assembly.reserved = s.assembly.reserved) : s'.Addressed := by
  have hclaimed : s'.claimed = s.claimed := by
    unfold claimed
    rw [map_members_eq hx hclasses, hfunctions, hcomprehensions]
  refine h.extend hinv hx hb (.none hclaimed hreserved) (fun f hf => .inl ?_) (fun c hc => .inl ?_) fun e he => .inl ?_
  · rwa [hfunctions] at hf
  · rwa [hclasses] at hc
  · rwa [hcomprehensions] at he

theorem Addressed.makeFunction {spec : FunctionSpec}
    (hclaim : s.Claim spec.address spec.name) :
    Addressed { s.reserving spec.address with store := (newFunction spec s.store).2 } := by
  have ho := opens_newFunction spec hinv.free
  have hb := (bindsNew_newFunction hinv.free spec).1
  obtain ⟨mid, info, hsteps, hinfo, heq⟩ := newFunction_spec spec hinv.free
  have hclasses : mid.classes.size = s.store.classes.size := hsteps.sameObjects.classes
  rw [heq] at ho hb ⊢
  dsimp only at ho hb ⊢
  generalize hst : ({ mid with functions := s.store.functions.push info } : Store) = st at ho hb ⊢
  have hfunctions : st.functions = s.store.functions.push info := by rw [← hst]
  have hnew : ∀ f : FunctionId, f.index = s.store.functions.size → st.function f = info := by
    intro f hf
    unfold function
    rw [hfunctions, getD_push, if_pos hf]
  have hclaims : Claims s { s.reserving spec.address with store := st } := by
    refine .one ?_ (fun r hr => ?_) ?_
    · unfold claimed
      dsimp only [reserving]
      rw [map_members_eq ho.extension (by rw [← hst]; exact hclasses), hfunctions, Array.toList_push,
        List.map_append, List.map_cons, hinfo.locals, List.perm_iff_count]
      intro t
      simp only [List.count_cons, List.count_append, List.map_nil, List.count_nil]
      omega
    · rw [ho.address]
      exact hclaim.fresh r hr
    · rw [ho.address]
      rfl
  refine h.extend hinv ho.extension hb hclaims (fun f hf => ?_) (fun c hc => .inl ?_) fun e he => .inl he
  · by_cases hold : f.index < s.store.functions.size
    · exact .inl hold
    · have hlast : f.index = s.store.functions.size := by
        dsimp only at hf
        rw [hfunctions, Array.size_push] at hf
        omega
      refine .inr ⟨hlast, ?_, ?_, ?_, ?_, ?_, ?_, ?_⟩ <;> dsimp only <;> rw [hnew f hlast]
      · exact hinfo.fresh
      · rw [hinfo.locals, hinfo.name, ho.address]
        exact hclaim.path
      · rw [← hst]
        exact hinfo.known
      · rw [hinfo.locals, ho.address, ← hst]
        exact hinfo.returnAddress
      · rw [← hst]
        exact hinfo.unbound hinv.consistent
      · rw [← hst]
        exact hinfo.params
      · rw [← hst]
        exact hinfo.vararg
  · dsimp only at hc
    rw [← hst] at hc
    exact hclasses ▸ hc

theorem Addressed.makeClass {name : String}
    (hclaim : s.Claim address name) (moduleName : String) :
    Addressed { s.reserving address with store := (newClass name address moduleName s.store).2 } := by
  have ho := opens_newClass name address moduleName hinv.free
  have hb := (bindsNew_newClass hinv.free name address moduleName).1
  obtain ⟨st, hsteps, heq⟩ := newClass_spec name address moduleName hinv.free
  rw [heq] at ho hb ⊢
  dsimp only at ho hb ⊢
  have hfunctions : st.functions = s.store.functions := hsteps.sameObjects.functions
  have hsize : st.classes.size = s.store.classes.size + 1 := by
    rw [hsteps.sameObjects.classes]
    simp [classAdded]
  have hmembers : st.classes.toList.map ClassInfo.members =
      s.store.classes.toList.map ClassInfo.members ++ [⟨s.store.tables.size⟩] := by
    rw [map_members_eq hsteps.extension hsteps.sameObjects.classes]
    simp [classAdded]
  have hclaims : Claims s { s.reserving address with store := st } := by
    refine .one ?_ (fun r hr => ?_) ?_
    · unfold claimed
      dsimp only [reserving]
      rw [hmembers, hfunctions, List.perm_iff_count]
      intro t
      simp only [List.count_cons, List.count_append, List.count_nil]
      omega
    · rw [ho.address]
      exact hclaim.fresh r hr
    · rw [ho.address]
      rfl
  refine h.extend hinv ho.extension hb hclaims (fun f hf => .inl ?_) (fun c hc => ?_) fun e he => .inl he
  · dsimp only at hf
    rwa [hfunctions] at hf
  · by_cases hold : c.index < s.store.classes.size
    · exact .inl hold
    · have hlast : c.index = s.store.classes.size := by
        dsimp only at hc
        omega
      have hadded : (classAdded name address s.store).classOf c = ⟨name, ⟨s.store.tables.size⟩, [], none⟩ := by
        unfold classAdded classOf
        rw [getD_push, if_pos hlast]
      have hlt : c.index < (classAdded name address s.store).classes.size := by
        rw [hlast]
        simp [classAdded]
      obtain ⟨hname, hmembers⟩ := hsteps.extension.classOf c hlt
      dsimp only
      rw [hname, hmembers, hadded, ho.address]
      exact .inr hclaim.path

theorem Addressed.openComprehension (site : Site) {outer : TableId}
    (hclaim : s.Claim address "[comprehension]") :
    Addressed { s with
      store := opened address (some outer) s.store
      assembly := { s.assembly with
        reserved := address :: s.assembly.reserved
        comprehensions := s.assembly.comprehensions ++ [(site, ⟨s.store.tables.size⟩)] } } := by
  have ho := opens_opened address (some outer) s.store
  have hb := bindsNew_opened s.store address (some outer)
  refine h.extend hinv ho.extension hb (.one ?_ (fun r hr => ?_) ?_) (fun f hf => .inl hf)
    (fun c hc => .inl hc) fun e he => ?_
  · unfold claimed
    rw [List.perm_iff_count]
    intro t
    simp only [opened, List.map_append, List.map_cons, List.map_nil, List.count_cons, List.count_append, List.count_nil]
    omega
  · rw [ho.address]
    exact hclaim.fresh r hr
  · rw [ho.address]
  · rcases List.mem_append.mp he with hold | hnew
    · exact .inl hold
    · obtain rfl := List.mem_singleton.mp hnew
      refine .inr fun hpath => ?_
      rw [ho.address] at hpath
      exact absurd (hclaim.path hpath) (by decide)

theorem Addressed.put (id : SymbolId) (v : Value)
    {narrowed : List SymbolId} : Addressed { s with store := (StoreM.put id v s.store).2, narrowed } := by
  have hsame := Store.sameObjects_put s.store id v
  exact h.keep hinv (Store.extends_put s.store id v) (Store.bindsNew_put s.store id v) hsame.functions
    hsame.classes rfl rfl

end Addressed

theorem Step.addressed (h : Step σ s s') (hinv : s.Inv σ) (hs : s.Addressed) : s'.Addressed := by
  cases h with
  | quiet hstore hassembly hnarrowed hbodies =>
    refine hs.keep hinv (by rw [hstore]; exact .refl _) (by rw [hstore]; exact .refl _) ?_ ?_ ?_ ?_
    · rw [hstore]
    · rw [hstore]
    · rw [hassembly]
    · rw [hassembly]
  | store hstep =>
    exact hs.keep hinv hstep.extension hstep.bindsNew hstep.sameObjects.functions hstep.sameObjects.classes
      rfl rfl
  | makeFunction _ houter hclaim => exact hs.makeFunction hinv hclaim
  | @makeClass _ name address hclaim moduleName => exact hs.makeClass hinv hclaim moduleName
  | openComprehension site houter hclaim => exact hs.openComprehension hinv site hclaim
  | openBody houter address =>
    exact hs.keep hinv (extends_opened address _ s.store) (bindsNew_opened s.store address _)
      rfl rfl rfl rfl
  | clear ht hid => exact hs.put hinv _ .empty
  | narrow id hv => exact hs.put hinv id _
  | queue | classSite | functionSite | lambdaSite =>
    exact hs.keep hinv (.refl _) (.refl _) rfl rfl rfl rfl

theorem Move.addressed (h : Move σ s s') (hinv : s.Inv σ) (hs : s.Addressed) : s'.Addressed := by
  cases h with
  | visit hvisit =>
    cases hvisit with
    | step hstep => exact hstep.addressed hinv hs
    | receive hg hid hv => exact hs.put hinv _ _
  | schedule index => exact hs.keep hinv (.refl _) (.refl _) rfl rfl rfl rfl
  | refine id hv => exact hs.put hinv id _

/-! ## Files -/

/-- No two modules have one file, and no two packages one directory. -/
structure Filed (s : Session) : Prop where
  modules : ∀ e ∈ s.assembly.tree.files, (s.store.module e.2).path = e.1
  distinct : s.assembly.tree.files.Pairwise fun e e' => (e.1 == e'.1) = false
  analysed : ∀ m : ModuleId, m.index < s.store.modules.size →
    ∃ file ∈ s.assembly.files, file.path = (s.store.module m).path
  housed : SourceTree.Housed (fun dir => ∃ file ∈ s.assembly.files, file.path.LiesBelow dir)
    (s.store, s.assembly.tree)

theorem binds_put (s : Session) (id : SymbolId) (v : Value) : (put id v s.store).2.modules = s.store.modules ∧
      s.store.PackagesKept (put id v s.store).2 ∧ s.store.BindsNew (put id v s.store).2 :=
  ⟨(sameObjects_put s.store id v).modules, packagesKept_put s.store id v, bindsNew_put s.store id v⟩

/-- Evaluating a program makes no module and no package, binds no entry of a package, and binds names to
new symbols only. -/
theorem Step.binds (h : Step σ s s') :
    s'.store.modules = s.store.modules ∧ s.store.PackagesKept s'.store ∧ s.store.BindsNew s'.store := by
  cases h with
  | quiet hstore hassembly hnarrowed hbodies =>
    rw [hstore]
    exact ⟨rfl, .refl _, .refl _⟩
  | store hstep => exact ⟨hstep.sameObjects.modules, hstep.packagesKept, hstep.bindsNew⟩
  | @makeFunction hfree spec houter hclaim =>
    have ho := opens_newFunction spec hfree
    obtain ⟨hnew, hkept⟩ := bindsNew_newFunction hfree spec
    generalize (newFunction spec s.store).2 = st at ho hnew hkept
    exact ⟨ho.modules, hkept, hnew⟩
  | @makeClass hfree name address hclaim moduleName =>
    have ho := opens_newClass name address moduleName hfree
    obtain ⟨hnew, hkept⟩ := bindsNew_newClass hfree name address moduleName
    generalize (newClass name address moduleName s.store).2 = st at ho hnew hkept
    exact ⟨ho.modules, hkept, hnew⟩
  | openComprehension site houter hclaim =>
    exact ⟨rfl, packagesKept_opened s.store _ _, bindsNew_opened s.store _ _⟩
  | openBody houter address =>
    exact ⟨rfl, packagesKept_opened s.store address _, bindsNew_opened s.store address _⟩
  | @clear t ht name id hid => exact binds_put s id .empty
  | @narrow id v hv => exact binds_put s id v
  | queue | classSite | functionSite | lambdaSite => exact ⟨rfl, .refl _, .refl _⟩

theorem Visit.binds {item : WorkItem} (h : Visit σ item s s') :
    s'.store.modules = s.store.modules ∧ s.store.PackagesKept s'.store ∧ s.store.BindsNew s'.store := by
  cases h with
  | step hstep => exact hstep.binds
  | @receive g hg id hid v hv => exact binds_put s id v

theorem Move.packagesKept (h : Move σ s s') : s'.store.modules = s.store.modules ∧ s.store.PackagesKept s'.store := by
  cases h with
  | visit hvisit => exact ⟨hvisit.binds.1, hvisit.binds.2.1⟩
  | schedule index => exact ⟨rfl, .refl _⟩
  | @refine id v hv => exact ⟨(binds_put s id v).1, (binds_put s id v).2.1⟩

theorem Filed.move (h : s.Filed) (hmove : Move σ s s') : s'.Filed := by
  obtain ⟨hmodules, hkept⟩ := hmove.packagesKept
  obtain ⟨htree, hfiles⟩ := hmove.tree
  have hmodule : ∀ m, s'.store.module m = s.store.module m := by
    intro m
    unfold module
    rw [hmodules]
  have hhoused := h.housed.keep hmove.extension.store hkept
  constructor
  case modules =>
    intro e he
    rw [htree] at he
    rw [hmodule]
    exact h.modules e he
  case distinct =>
    rw [htree]
    exact h.distinct
  case analysed =>
    intro m hm
    rw [hmodules] at hm
    rw [hfiles, hmodule]
    exact h.analysed m hm
  case housed =>
    rw [htree, hfiles]
    exact hhoused

theorem Filed.withFile (h : s.Filed) (hinv : s.Inv σ)
    (hnew : s.assembly.tree.contains file.path = false)
    (hloads : SourceTree.Loads file.path.LiesBelow
      ((StoreM.newModule file.path.moduleName file.path σ.builtins s.store).2, s.assembly.tree) (st, t)) :
    (s.withFile file st t).Filed := by
  obtain ⟨paths, hpaths⟩ := s.searching_eq file
  have hx := (hinv.newModule file.path.moduleName file.path).1
  have hkept := (Store.bindsNew_newModule hinv.free file.path.moduleName file.path σ.builtins).2
  obtain ⟨mid, -, hmade⟩ := StoreM.newModule_spec file.path.moduleName file.path σ.builtins hinv.free
  have hmodules : (StoreM.newModule file.path.moduleName file.path σ.builtins s.store).2.modules =
      s.store.modules.push ⟨file.path.moduleName, file.path, ⟨s.store.tables.size⟩⟩ := by rw [hmade]
  generalize (StoreM.newModule file.path.moduleName file.path σ.builtins s.store).2 = made at hloads hx hkept hmodules
  rw [← hloads.sameProgram.modules] at hmodules
  have hfiles : (s.withFile file st t).assembly.files = s.assembly.files ++ [file] := by
    unfold Session.withFile
    rw [hpaths]
  have hput : SourceTree.putFile file.path ⟨s.store.modules.size⟩ t.files =
      s.assembly.tree.files ++ [(file.path, ⟨s.store.modules.size⟩)] := by
    rw [hloads.files]
    exact SourceTree.putFile_eq_append (SourceTree.forall_of_not_contains hnew) _
  have hmodule : ∀ m : ModuleId, st.module m = if m.index = s.store.modules.size
      then ⟨file.path.moduleName, file.path, ⟨s.store.tables.size⟩⟩ else s.store.module m := by
    intro m
    unfold Store.module
    rw [hmodules]
    exact getD_push _ _ _ _
  constructor
  case modules =>
    intro e he
    have he' : e ∈ SourceTree.putFile file.path ⟨s.store.modules.size⟩ t.files := he
    show (st.module e.2).path = e.1
    rw [hput] at he'
    rw [hmodule]
    rcases List.mem_append.mp he' with hold | hlast
    · rw [if_neg (Nat.ne_of_lt (hinv.sites.files e hold))]
      exact h.modules e hold
    · obtain rfl := List.mem_singleton.mp hlast
      rw [if_pos rfl]
  case distinct =>
    show (SourceTree.putFile file.path ⟨s.store.modules.size⟩ t.files).Pairwise _
    rw [hput]
    refine List.pairwise_append.mpr ⟨h.distinct, List.pairwise_singleton _ _, fun e he e' he' => ?_⟩
    obtain rfl := List.mem_singleton.mp he'
    exact SourceTree.forall_of_not_contains hnew e he
  case analysed =>
    intro m hm
    rw [hfiles]
    have hsame : (s.withFile file st t).store.module m = st.module m := rfl
    rw [hsame, hmodule]
    split
    · exact ⟨file, List.mem_append_right _ List.mem_cons_self, rfl⟩
    · next hold =>
      have hsize : st.modules.size = s.store.modules.size + 1 := by rw [hmodules, Array.size_push]
      have hm' : m.index < st.modules.size := hm
      obtain ⟨file', hfile', hpath⟩ := h.analysed m (by omega)
      exact ⟨file', List.mem_append_left _ hfile', hpath⟩
  case housed =>
    rw [hfiles]
    have hhoused := (h.housed.keep hx hkept).imp fun dir ⟨file', hfile', hbelow⟩ =>
      (⟨file', List.mem_append_left [file] hfile', hbelow⟩ :
        ∃ file' ∈ s.assembly.files ++ [file], file'.path.LiesBelow dir)
    have hloaded := hloads.housed (fun dir hbelow => ⟨file, List.mem_append_right _ List.mem_cons_self, hbelow⟩) hhoused
    exact { hloaded with }

theorem Addressed.withFile (h : s.Addressed) (hinv : s.Inv σ) {Q : Path → Prop}
    (hloads : SourceTree.Loads Q
      ((StoreM.newModule file.path.moduleName file.path σ.builtins s.store).2, s.assembly.tree) (st, t)) :
    (s.withFile file st t).Addressed := by
  obtain ⟨paths, hpaths⟩ := s.searching_eq file
  have hx := (hinv.newModule file.path.moduleName file.path).1
  have hb := (Store.bindsNew_newModule hinv.free file.path.moduleName file.path σ.builtins).1
  obtain ⟨mid, hsteps, hmade⟩ := StoreM.newModule_spec file.path.moduleName file.path σ.builtins hinv.free
  have hfunctions : mid.functions = s.store.functions := hsteps.sameObjects.functions
  have hclasses : mid.classes.size = s.store.classes.size := hsteps.sameObjects.classes
  rw [hmade] at hx hb hloads
  have hsame := hloads.sameProgram
  refine h.keep hinv (hx.trans hloads.extension) (hb.trans hloads.bindsNew) ?_ ?_ ?_ ?_
  · exact hsame.functions.trans hfunctions
  · exact hsame.classes.trans hclasses
  · unfold Session.withFile
    rw [hpaths]
  · unfold Session.withFile
    rw [hpaths]

theorem Addressed.moves (h : s.Addressed) (hinv : s.Inv σ) (hmoves : Moves σ s s') : s'.Addressed := by
  induction hmoves with
  | refl => exact h
  | tail hbefore hmove ih => exact hmove.addressed (hinv.afterMoves hbefore) ih

theorem Filed.moves (h : s.Filed) (hmoves : Moves σ s s') : s'.Filed := by
  induction hmoves with
  | refl => exact h
  | tail _ hmove ih => exact ih.move hmove

end Session

namespace Assembler

open Session

theorem addressed_new (graph : Graph) (options : Options) (policies : List ClassPolicy) (trace : Trace)
    (delegate : Option Delegate) :
    (new graph options policies trace delegate).session.Addressed ∧
      (new graph options policies trace delegate).session.Filed := by
  obtain ⟨_, base, rfl, -, -, -, heq⟩ := new_spec graph options policies trace delegate
  have hnone : ∀ i, ¬ i < 0 := Nat.not_lt_zero
  rw [heq]
  exact ⟨⟨List.nodup_nil, nofun, fun f hf => absurd hf (hnone _), fun f g hf => absurd hf (hnone _),
      fun c hc => absurd hc (hnone _), nofun⟩,
    ⟨nofun, .nil, fun m hm => absurd hm (hnone _), .nil, fun p hp => absurd hp (hnone _),
      fun p hp => absurd hp (hnone _), fun p hp => absurd hp (hnone _)⟩⟩

/-- **The scopes and files of every state have addresses of their own.** -/
theorem Reached.addressed {a : Assembler} (h : Reached a) : a.session.Addressed ∧ a.session.Filed := by
  induction h with
  | new graph options _ trace _ => exact addressed_new graph options _ trace _
  | @addFile a hreached file ih =>
    have hordered := hreached.ordered
    obtain ⟨s', heq, hadded⟩ := Run.addFile_spec hordered.inv hordered.keyed file
      fun levels above dir hup hdir => (⟨levels, above, hup, hdir⟩ : file.path.LiesBelow dir)
    have hsession : (a.addFile file).session = s' := congrArg Prod.snd heq
    rw [hsession]
    rcases hadded with ⟨-, rfl⟩ | ⟨hnew, st, t, hloads, rfl⟩
    · obtain ⟨paths, hpaths⟩ := a.session.searching_eq file
      rw [hpaths]
      exact ⟨{ ih.1 with }, { ih.2 with }⟩
    · exact ⟨ih.1.withFile hordered.inv hloads, ih.2.withFile hordered.inv hnew hloads⟩
  | attach _ _ _ _ _ ih => exact ⟨{ ih.1 with }, { ih.2 with }⟩
  | @build a hreached steps handle ih =>
    have hinv := hreached.ordered.inv
    have hmoves := moves_build hinv steps handle
    exact ⟨ih.1.moves hinv hmoves, ih.2.moves hmoves⟩

end Assembler

end Surmise
