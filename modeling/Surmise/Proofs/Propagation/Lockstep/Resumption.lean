import Surmise.Proofs.LexicalScopes
import Surmise.Proofs.Observers
import Surmise.Proofs.WorkList.Evaluation
import Surmise.Proofs.Value.Decidable

/-!
# Computations that change nothing

A computation that leaves all symbols, classes and keyword dictionaries as they are may still open scopes and
take serial numbers. Started again, then or later, it does the same with later numbers: the two runs are in
lockstep, and what is kept for observers does not matter.

* `Session.Unchanged`: what it means that contents do not change.
* `Session.OnlyOpens`: the two states differ in scopes that are opened and in numbers that are taken.
* `Session.onlyOpens_of_unchanged`: a computation that changes no contents does not change anything else.
* `Run.Repeatable.again`: a computation that only opens scopes does so again.
-/

namespace Surmise

open Value Store StoreM

/-! ## Scopes that names are looked up from -/

theorem Store.getElem?_tables {s : Store} {t : TableId} (h : t.index < s.tables.size) :
    s.tables.toList[t.index]? = some (s.table t) := by
  rw [table, Array.getD_eq_getD_getElem?, Array.getElem?_eq_getElem h, Array.getElem?_toList,
    Array.getElem?_eq_getElem h]
  rfl

namespace Session

variable {σ : Setting} {s s' : Session}

theorem Inv.chained_builtins (h : s.Inv σ) : Chained s.store.tables.toList σ.builtins :=
  .outermost (getElem?_tables (h.known _ List.mem_cons_self)) h.outermost

theorem Lexical.chained {t : TableId} (h : s.Lexical t) (hinv : s.Inv σ) : Chained s.store.tables.toList t := by
  induction h with
  | @module m hm =>
    have hparent := (hinv.modules m hm).1
    refine .inner (getElem?_tables (lt_tables_of_parent hparent)) hparent ?_ hinv.chained_builtins
    -- the builtins are in the first scope, and a module is not
    have hne := (hinv.module_apart ⟨m, hm, rfl⟩).2
    rw [hinv.builtins] at hne ⊢
    exact Nat.pos_of_ne_zero fun hzero => hne (congrArg TableId.mk hzero)
  | inner _ hparent hlt _ ih => exact .inner (getElem?_tables (lt_tables_of_parent hparent)) hparent hlt ih

theorem Inv.chained_members (h : s.Inv σ) {info : ModuleInfo} (hinfo : info ∈ s.store.modules) :
    Chained s.store.tables.toList info.members := by
  obtain ⟨i, hi, rfl⟩ := Array.getElem_of_mem hinfo
  have hchained := (Lexical.module (s := s) (m := ⟨i⟩) hi).chained h
  rwa [module, Array.getD_eq_getD_getElem?, Array.getElem?_eq_getElem hi] at hchained

theorem mem_scopes_of_class {info : ClassInfo} (h : info ∈ s.store.classes) : info.members ∈ s.scopes σ := by
  simp only [scopes, List.mem_cons, List.mem_append]
  exact .inr (.inl (.inl (.inl (.inr (List.mem_map_of_mem h.val)))))

theorem mem_scopes_of_package {info : PackageInfo} (h : info ∈ s.store.packages) : info.entries ∈ s.scopes σ := by
  simp only [scopes, List.mem_cons, List.mem_append]
  exact .inr (.inl (.inl (.inl (.inl (.inr (List.mem_map_of_mem h.val))))))

/-- The scopes of class bodies lie in scopes that were there before and that names are looked up in. -/
def Nested (s : Session) : Prop :=
  ∀ t ∈ s.bodies, ∃ outer, (s.store.table t).parent = some outer ∧ outer.index < t.index ∧ s.Lexical outer

theorem Nested.kept (h : s.Nested) (hx : s.Extends s') {t : TableId} (ht : t ∈ s.bodies) :
    ∃ outer, (s'.store.table t).parent = some outer ∧ outer.index < t.index ∧ s'.Lexical outer := by
  obtain ⟨outer, hparent, hlt, houter⟩ := h t ht
  refine ⟨outer, ?_, hlt, houter.mono hx⟩
  rw [(hx.store.table t (lt_tables_of_parent hparent)).2, hparent]

theorem Nested.extend (h : s.Nested) (hx : s.Extends s') (hbodies : s'.bodies = s.bodies) : s'.Nested :=
  fun _ ht => h.kept hx (hbodies ▸ ht)

theorem Step.nested (h : Step σ s s') (hinv : s.Inv σ) (hs : s.Nested) : s'.Nested := by
  have hx := h.extension
  cases h with
  | quiet _ _ _ hbodies => exact hs.extend hx hbodies
  | @openBody outer houter address =>
    intro t ht
    rcases List.mem_cons.mp ht with rfl | ht
    · exact ⟨outer, (opens_opened address (some outer) s.store).parent,
        hinv.known outer (mem_scopes_lexical houter), houter.mono hx⟩
    · exact hs.kept hx ht
  | _ => exact hs.extend hx rfl

theorem Move.nested (h : Move σ s s') (hinv : s.Inv σ) (hs : s.Nested) : s'.Nested := by
  have hx := h.extension
  cases h with
  | visit hvisit =>
    cases hvisit with
    | step hstep => exact hstep.nested hinv hs
    | receive => exact hs.extend hx rfl
  | schedule | refine => exact hs.extend hx rfl

theorem Moves.nested (h : Moves σ s s') (hinv : s.Inv σ) (hs : s.Nested) : s'.Nested := by
  induction h with
  | refl => exact hs
  | tail hbefore hmove ih => exact hmove.nested (hinv.afterMoves hbefore) ih

theorem nested_addFile (h : Assembler.Ordered σ s) (hs : s.Nested) (file : SourceFile) :
    (Run.addFile file σ s).2.Nested := by
  obtain ⟨s', heq, hadded⟩ := Run.addFile_spec (Q := fun _ => True) h.inv h.keyed file fun _ _ _ _ _ => trivial
  obtain ⟨paths, hpaths⟩ := s.searching_eq file
  rw [heq]
  rcases hadded with ⟨-, rfl⟩ | ⟨-, st, t, hloads, rfl⟩
  · rw [hpaths]
    exact hs.extend ⟨.refl _, List.Subset.refl _, List.Subset.refl _⟩ rfl
  · have hx := (h.inv.newModule file.path.moduleName file.path).1
    generalize (newModule file.path.moduleName file.path σ.builtins s.store).2 = made at hloads hx
    unfold withFile
    rw [hpaths]
    exact hs.extend ⟨hx.trans hloads.extension, List.Subset.refl _, List.Subset.refl _⟩ rfl

end Session

open Session

theorem Assembler.Reached.nested {a : Assembler} (h : a.Reached) : a.session.Nested := by
  induction h with
  | new => exact nofun
  | addFile h file ih => exact nested_addFile h.ordered ih file
  | attach _ _ _ _ _ ih => exact ih.extend ⟨.refl _, List.Subset.refl _, List.Subset.refl _⟩ rfl
  | build h steps handle ih => exact Moves.nested (Assembler.moves_build h.ordered.inv steps handle) h.ordered.inv ih

/-- The frame may be used in the state, and names can be looked up from its scope. -/
structure Placed (σ : Setting) (s : Session) (f : Frame) : Prop extends Ready σ s f where
  nested : s.Nested

theorem Placed.chained_scope {σ : Setting} {s : Session} {f : Frame} (h : Placed σ s f) :
    Chained s.store.tables.toList f.scope := by
  rcases h.lawful.scope with heq | hbody
  · rw [heq]
    exact h.lawful.inherited.chained h.inv
  · obtain ⟨outer, hparent, hlt, houter⟩ := h.nested _ hbody
    exact .inner (getElem?_tables (lt_tables_of_parent hparent)) hparent hlt (houter.chained h.inv)

/-! ## Contents -/

/-- The later state has the same symbols, classes and keyword dictionaries. Some symbols may be other ones. -/
structure Session.Unchanged (apart : List SymbolId) (s t : Session) : Prop where
  count : t.store.symbols.size = s.store.symbols.size
  symbols : ∀ id ∉ apart, t.store.symbol id = s.store.symbol id
  classes : t.store.classes = s.store.classes
  subclassLinks : t.store.subclassLinks = s.store.subclassLinks
  kwargs : t.store.kwargs = s.store.kwargs

theorem Session.Unchanged.symbols_eq {s t : Session} (h : s.Unchanged [] t) : t.store.symbols = s.store.symbols := by
  refine Array.ext h.count fun i hi hi' => ?_
  have hsame := h.symbols ⟨i⟩ List.not_mem_nil
  simpa [symbol, Array.getD_eq_getD_getElem?, hi, hi'] using hsame

deriving instance DecidableEq for Path, Address, Symbol, ClassInfo

instance {α : Type} [DecidableEq α] : DecidableEq (OrderedMap α) := fun a b =>
  decidable_of_iff (a.entries = b.entries) (by cases a; cases b; simp)

instance (apart : List SymbolId) (s t : Session) : Decidable (s.Unchanged apart t) :=
  decidable_of_iff (t.store.symbols.size = s.store.symbols.size ∧
      (∀ i < s.store.symbols.size, ⟨i⟩ ∉ apart → t.store.symbol ⟨i⟩ = s.store.symbol ⟨i⟩) ∧
      t.store.classes = s.store.classes ∧ t.store.subclassLinks = s.store.subclassLinks ∧
      t.store.kwargs = s.store.kwargs) <| by
    constructor
    · rintro ⟨hcount, hsymbols, hclasses, hlinks, hkwargs⟩
      refine ⟨hcount, fun id hid => ?_, hclasses, hlinks, hkwargs⟩
      by_cases hlt : id.index < s.store.symbols.size
      · exact hsymbols id.index hlt hid
      · rw [symbol, symbol, getD_of_size_le (Nat.le_of_not_lt hlt), getD_of_size_le (hcount ▸ Nat.le_of_not_lt hlt)]
    · exact fun h => ⟨h.count, fun i _ hi => h.symbols ⟨i⟩ hi, h.classes, h.subclassLinks, h.kwargs⟩

/-- From the first state to the second one, scopes are opened and numbers are taken, and nothing else happens. -/
structure Session.OnlyOpens (s t : Session) : Prop where
  store : ∃ tables nextSerial, t.store = { s.store with tables, nextSerial }
  assembly : ∃ reserved comprehensions, t.assembly = { s.assembly with reserved, comprehensions }
  tables : s.store.tables.toList <+: t.store.tables.toList
  comprehensions : s.assembly.comprehensions <+: t.assembly.comprehensions
  serial : s.store.nextSerial ≤ t.store.nextSerial

namespace Session.OnlyOpens

variable {s t u : Session}

theorem refl (s : Session) : s.OnlyOpens s :=
  ⟨⟨_, _, rfl⟩, ⟨_, _, rfl⟩, List.prefix_rfl, List.prefix_rfl, Nat.le_refl _⟩

theorem trans (h : s.OnlyOpens t) (h' : t.OnlyOpens u) : s.OnlyOpens u := by
  obtain ⟨_, _, hmid⟩ := h.store
  obtain ⟨_, _, hend⟩ := h'.store
  obtain ⟨_, _, hmid'⟩ := h.assembly
  obtain ⟨_, _, hend'⟩ := h'.assembly
  exact ⟨⟨_, _, hend.trans (by rw [hmid])⟩, ⟨_, _, hend'.trans (by rw [hmid'])⟩, h.tables.trans h'.tables,
    h.comprehensions.trans h'.comprehensions, Nat.le_trans h.serial h'.serial⟩

theorem unchanged (h : s.OnlyOpens t) (apart : List SymbolId) : s.Unchanged apart t := by
  obtain ⟨_, _, hstore⟩ := h.store
  constructor <;> simp [hstore, symbol]

end Session.OnlyOpens

/-- Only the scopes and the counter of two stores differ. -/
theorem Store.eq_of_same {s t : Store} (hsymbols : t.symbols = s.symbols) (hfunctions : t.functions = s.functions)
    (hclasses : t.classes = s.classes) (hlinks : t.subclassLinks = s.subclassLinks)
    (hmodules : t.modules = s.modules) (hpackages : t.packages = s.packages) (hkwargs : t.kwargs = s.kwargs)
    (hlabelled : t.labelled = s.labelled) : ∃ tables nextSerial, t = { s with tables, nextSerial } := by
  refine ⟨t.tables, t.nextSerial, ?_⟩
  rw [← hsymbols, ← hfunctions, ← hclasses, ← hlinks, ← hmodules, ← hpackages, ← hkwargs, ← hlabelled]

/-! ## What evaluating never changes -/

theorem Store.Step.labelled {s s' : Store} (h : Step s s') : s'.labelled = s.labelled := by
  cases h with
  | create _ name isPrivate =>
    rw [createPrivate_eq]
    split <;> rfl
  | produce symbol _ isPrivate =>
    rw [producePrivate_eq]
    split
    · rfl
    · rw [put_eq]
      rfl
  | init => rw [put_eq]
  | addKwarg => rw [addKwarg_eq]
  | _ => rfl

theorem Store.Steps.labelled {s s' : Store} (h : Steps s s') : s'.labelled = s.labelled := by
  induction h with
  | refl => rfl
  | tail _ hstep ih => exact hstep.labelled.trans ih

namespace Session

variable {σ : Setting} {s t : Session}

/-- Modules, packages and labelled values are as they were. -/
def SameFiles (s t : Session) : Prop :=
  t.store.modules = s.store.modules ∧ t.store.packages = s.store.packages ∧ t.store.labelled = s.store.labelled

theorem Step.sameFiles (h : Step σ s t) : s.SameFiles t := by
  cases h with
  | quiet hstore =>
    unfold SameFiles
    rw [hstore]
    exact ⟨rfl, rfl, rfl⟩
  | store h => exact ⟨h.sameObjects.modules, h.sameObjects.packages, h.labelled⟩
  | @makeFunction hfree spec =>
    obtain ⟨mid, info, hsteps, -, heq⟩ := newFunction_spec spec hfree
    unfold SameFiles
    rw [heq]
    exact ⟨hsteps.sameObjects.modules, hsteps.sameObjects.packages, hsteps.labelled⟩
  | @makeClass hfree name address _ moduleName =>
    obtain ⟨mid, hsteps, heq⟩ := newClass_spec name address moduleName hfree
    unfold SameFiles
    rw [heq]
    exact ⟨hsteps.sameObjects.modules, hsteps.sameObjects.packages, hsteps.labelled⟩
  | clear | narrow =>
    unfold SameFiles
    rw [put_eq]
    exact ⟨rfl, rfl, rfl⟩
  | _ => exact ⟨rfl, rfl, rfl⟩

theorem Steps.sameFiles (h : Steps σ s t) : s.SameFiles t := by
  induction h with
  | refl => exact ⟨rfl, rfl, rfl⟩
  | tail _ hstep ih =>
    obtain ⟨hmodules, hpackages, hlabelled⟩ := hstep.sameFiles
    exact ⟨hmodules.trans ih.1, hpackages.trans ih.2.1, hlabelled.trans ih.2.2⟩

/-- **What changes no contents only opens scopes.** -/
theorem onlyOpens_of_unchanged (hsteps : Steps σ s t) (honward : s.Onward t) (h : s.Unchanged [] t) :
    s.OnlyOpens t := by
  obtain ⟨hmodules, hpackages, hlabelled⟩ := Steps.sameFiles hsteps
  have hstore := eq_of_same h.symbols_eq (honward.store.functions h.count) h.classes h.subclassLinks hmodules
    hpackages h.kwargs hlabelled
  exact ⟨hstore, honward.assembly h.count, honward.store.tables h.count, honward.comprehensions,
    (Steps.extension hsteps).store.serial⟩

end Session

/-! ## The course of two runs -/

theorem map_eq_self_of_getD {α : Type} {xs : Array α} {g : α → α} {d : α}
    (h : ∀ i < xs.size, g (xs.getD i d) = xs.getD i d) : xs.map g = xs := by
  refine (Array.map_congr_left fun x hx => ?_).trans (Array.map_id xs)
  obtain ⟨i, hi, rfl⟩ := Array.getElem_of_mem hx
  simpa [Array.getD_eq_getD_getElem?, hi] using h i hi

namespace Store.Sound

variable {s : Store} (h : s.Sound) (amount : Nat)

include h

theorem shift_symbols : s.symbols.map (Symbol.shift ⟨s.nextSerial, amount⟩) = s.symbols := by
  refine map_eq_self_of_getD (d := default) fun i _ => ?_
  show (s.symbol ⟨i⟩).shift _ = s.symbol ⟨i⟩
  rw [Symbol.shift, shift_of_sound _ (h.value ⟨i⟩)]

theorem shift_classes : s.classes.map (ClassInfo.shift ⟨s.nextSerial, amount⟩) = s.classes := by
  refine map_eq_self_of_getD (d := default) fun i _ => ?_
  have hsame : (s.classOf ⟨i⟩).bases.map (shift ⟨s.nextSerial, amount⟩) = (s.classOf ⟨i⟩).bases :=
    (List.map_congr_left fun b hb => shift_of_sound _ (h.bases ⟨i⟩ b hb)).trans (List.map_id _)
  exact congrArg (fun bases => { s.classOf ⟨i⟩ with bases }) hsame

omit h in
theorem shiftEntries_of_sound {entries : List (String × Value)} (hentries : ∀ e ∈ entries, e.2.Sound s.nextSerial) :
    shiftEntries ⟨s.nextSerial, amount⟩ entries = entries := by
  refine (List.map_congr_left fun e he => ?_).trans (List.map_id entries)
  rw [shift_of_sound _ (hentries e he)]
  rfl

theorem shift_kwargs : s.kwargs.map (OrderedMap.shift ⟨s.nextSerial, amount⟩) = s.kwargs := by
  refine map_eq_self_of_getD (d := .empty) fun i _ => ?_
  have hsame := shiftEntries_of_sound amount fun e he => (h.kwargs ⟨i⟩ e.2 (List.mem_map_of_mem he)).1
  show (s.kwargsOf ⟨i⟩).shift _ = s.kwargsOf ⟨i⟩
  simp only [OrderedMap.shift, hsame]

theorem shift_labelled : s.labelled.map (shiftEntries ⟨s.nextSerial, amount⟩) = s.labelled :=
  map_eq_self_of_getD fun i _ => shiftEntries_of_sound amount (h.labelled i)

end Store.Sound

/-- The course of a run from `s` to `last` that begins again at `t`. -/
def Course.again (s last t : Session) : Course where
  shift := ⟨s.store.nextSerial, t.store.nextSerial - s.store.nextSerial⟩
  symbols := s.store.symbols.size
  tables := last.store.tables.toList
  comprehensions := last.assembly.comprehensions
  base := s.store.tables.toList
  base' := t.store.tables.toList

/-- The state without a record, a trace and an observer. -/
def Session.quieted (s : Session) : Session := (s.noting none).watching .off none

variable {σ : Setting} {s last t : Session} {f : Frame}

theorem Frame.twin_again (hs : Placed σ s f) (ht : s.OnlyOpens t) : f.Twin (.again s last t) f :=
  have hscope := getElem?_tables hs.scope_known
  ⟨rfl, hs.chained_scope, hs.lawful.inherited.chained hs.inv, _, hscope, getElem?_of_begins ht.tables hscope⟩

/-- What only opens scopes leads to states that correspond to each other. -/
theorem Session.mirror_again (hs : s.Inv σ) (hlast : s.OnlyOpens last) (ht : last.OnlyOpens t)
    (hhandle : t.handle = s.handle) : s.quieted.Mirror (.again s last t) t.quieted := by
  have hopens := hlast.trans ht
  have hsound := hs.consistent.sound
  obtain ⟨tables, nextSerial, hstore⟩ := hopens.store
  obtain ⟨reserved, comprehensions, hassembly⟩ := hopens.assembly
  have hserial := hopens.serial
  constructor
  case store =>
    show s.store.Mirror (.again s last t) t.store
    exact
      { count := rfl
        known := hlast.tables
        symbols := by rw [Course.again, hsound.shift_symbols, hstore]
        classes := by rw [Course.again, hsound.shift_classes, hstore]
        kwargs := by rw [Course.again, hsound.shift_kwargs, hstore]
        labelled := by rw [Course.again, hsound.shift_labelled, hstore]
        functions := by rw [hstore]
        subclassLinks := by rw [hstore]
        modules := by rw [hstore]
        packages := by rw [hstore]
        serial := (Nat.add_sub_cancel' hserial).symm
        start := Nat.le_refl _
        opened := ht.tables
        based := List.prefix_rfl
        based' := List.prefix_rfl
        outermost := hs.builtins ▸ hs.chained_builtins
        classScopes := fun info hinfo => hs.known _ (mem_scopes_of_class hinfo)
        moduleScopes := fun info hinfo => hs.chained_members hinfo
        packageScopes := fun info hinfo => hs.known _ (mem_scopes_of_package hinfo) }
  case known => exact hlast.comprehensions
  case opened => exact ht.comprehensions
  case chained => exact fun entry he => (hs.lexical _ (.inr ⟨entry.1, he⟩)).chained hs
  case classes => exact (congrArg Assembly.classes hassembly :)
  case functions => exact (congrArg Assembly.functions hassembly :)
  case lambdas => exact (congrArg Assembly.lambdas hassembly :)
  case tree => exact (congrArg Assembly.tree hassembly :)
  case searchPaths => exact (congrArg Assembly.searchPaths hassembly :)
  case handle => exact hhandle
  case quiet | quiet' => exact ⟨rfl, rfl, rfl⟩

namespace Run

/-! ## Running again -/

/--
The computation can be followed by another run of itself, in the frame, which gives what the first one gives with
shifted numbers. It does not look at what is kept for observers.
-/
structure Repeatable {α : Type} (σ : Setting) (f : Frame) (g : Shift → α → α) (act : Run α) : Prop where
  follows : ∀ {R : Course}, f.Twin R f → Follows R σ (g R.shift) act act
  onward : ∀ s : Session, s.Onward (act σ s).2
  unheeding : Unheeding ⟨true, true, true⟩ act
  discreet : σ.delegate.Discreet

variable {α : Type} {g : Shift → α → α} {act : Run α}

/-- The computation does the same in a state in which nothing is kept for observers. -/
theorem Repeatable.quieted (h : Repeatable σ f g act) (hkept : (act σ s).2.handle = s.handle) :
    (act σ s.quieted).1 = (act σ s).1 ∧ (act σ s.quieted).2.store = (act σ s).2.store ∧
      (act σ s.quieted).2.assembly = (act σ s).2.assembly := by
  have hquiet : s.Alike ⟨true, true, true⟩ s.quieted := ⟨none, .off, none, rfl, nofun, nofun, rfl⟩
  have hsetting : σ.Alike ⟨true, true, true⟩ σ := ⟨_, rfl, fun _ => rfl, fun _ => h.discreet⟩
  obtain ⟨hresult, _, _, _, hstate, -⟩ := h.unheeding.same hsetting hquiet fun _ => hkept
  rw [hstate]
  exact ⟨hresult, rfl, rfl⟩

/-- **What only opens scopes does the same again.** -/
theorem Repeatable.again (h : Repeatable σ f g act) (hs : Placed σ s f) (hfirst : s.OnlyOpens (act σ s).2)
    (hkept : (act σ s).2.handle = s.handle) (ht : (act σ s).2.OnlyOpens t) (hhandle : t.handle = s.handle)
    (hend : (act σ t).2.handle = t.handle) :
    (act σ t).1 = g ⟨s.store.nextSerial, t.store.nextSerial - s.store.nextSerial⟩ <$> (act σ s).1 ∧
      t.OnlyOpens (act σ t).2 := by
  have htwin : f.Twin (.again s (act σ s).2 t) f := Frame.twin_again hs (hfirst.trans ht)
  obtain ⟨hresult, hstore, hassembly⟩ := h.quieted hkept
  obtain ⟨hresult', hstore', hassembly'⟩ := h.quieted hend
  obtain ⟨tables, nextSerial, hsame⟩ := hfirst.store
  have hadmits : (Course.again s (act σ s).2 t).Admits (act σ s.quieted).2 := by
    refine ⟨⟨?_, ?_⟩, ?_⟩
    · rw [hstore, hsame]
      rfl
    · rw [hstore]
      exact List.prefix_rfl
    · rw [hassembly]
      exact List.prefix_rfl
  obtain ⟨hout, hmirror⟩ := h.follows htwin (mirror_again hs.inv hfirst ht hhandle) hadmits
  rw [hresult, hresult'] at hout
  refine ⟨hout, ?_⟩
  have hlate := hmirror.store
  rw [hstore, hstore', hsame] at hlate
  have hsound := hs.inv.consistent.sound
  obtain ⟨_, _, hlater⟩ := (hfirst.trans ht).store
  have hsymbols : (act σ t).2.store.symbols = t.store.symbols := by
    rw [hlate.symbols, Course.again, hsound.shift_symbols, hlater]
  have hcount := congrArg Array.size hsymbols
  have honward := h.onward t
  refine ⟨eq_of_same hsymbols ?_ ?_ ?_ ?_ ?_ ?_ ?_, honward.assembly hcount, honward.store.tables hcount,
    honward.comprehensions, ?_⟩
  · exact honward.store.functions hcount
  · rw [hlate.classes, Course.again, hsound.shift_classes, hlater]
  · rw [hlate.subclassLinks, hlater]
  · rw [hlate.modules, hlater]
  · rw [hlate.packages, hlater]
  · rw [hlate.kwargs, Course.again, hsound.shift_kwargs, hlater]
  · rw [hlate.labelled, Course.again, hsound.shift_labelled, hlater]
  · have hserial := hlate.serial
    have hstart := hlate.start
    have hbefore := (hfirst.trans ht).serial
    simp only [Course.again] at hserial hstart
    omega

/-- What changes no contents only opens scopes. -/
theorem Repeatable.onlyOpens (h : Repeatable σ f g act) (hsteps : Steps σ s (act σ s).2)
    (hsame : s.Unchanged [] (act σ s).2) : s.OnlyOpens (act σ s).2 :=
  onlyOpens_of_unchanged hsteps (h.onward s) hsame

/-- A handle that is not cancelled at the end is as it was. -/
theorem Unheeding.handle_eq {d : Difference} (h : Unheeding d act) (hend : (act σ s).2.handle.isCancelled = false) :
    (act σ s).2.handle = s.handle := by
  rcases h.handle σ s with heq | heq
  · exact heq
  · rw [heq] at hend
    cases hend

end Run

namespace Evaluator

open Run

/-- What is in lockstep with itself can be run again, if nothing is asked of nodes. -/
theorem repeatable_of_walk {α : Type} {g : Shift → α → α} {act : Run α} {post : α → Assertion σ} (hσ : σ.InOrder)
    (h : ∀ {K : Reading} {R : Course}, (∀ {depth node}, K.Fits true depth f.origin node) → f.Twin R f →
      Walk K true R .never post (g R.shift) act act) : Repeatable σ f g act := by
  have hfollows : ∀ {R : Course}, f.Twin R f → Walk (.ofFiles True []) true R .never post (g R.shift) act act :=
    fun hf => h ⟨.inl rfl, .inl (.inl rfl)⟩ hf
  have hany : ∀ {R : Course}, f.Twin R f → Walk .any true R .never post (g R.shift) act act := fun hf => h .any hf
  have hallows : (Reading.ofFiles True []).Allows σ := ⟨fun _ => id, hσ.benign, hσ.builtins⟩
  exact ⟨fun hf => (hfollows hf).follows hallows, (regular_of_walk hfollows).onward (fun _ => id) hσ.benign,
    (regular_of_walk hany).unheeding, hσ.benign.delegate⟩

variable (hσ : σ.InOrder) (depth : Nat) (f : Frame) (node : Node)

include hσ

theorem repeatable_eval : Repeatable σ f shift ((ofDepth depth).eval f node) :=
  repeatable_of_walk hσ fun hfits hf => (walks_ofDepth σ _ depth).eval hfits hf

theorem repeatable_exec : Repeatable σ f (fun _ => id) ((ofDepth depth).exec f node) :=
  repeatable_of_walk hσ fun hfits hf => (walks_ofDepth σ _ depth).exec hfits hf

theorem repeatable_evalAssigned : Repeatable σ f (fun π => Prod.map (shift π) (Option.map (List.map (shift π))))
    ((ofDepth depth).evalAssigned f node) :=
  repeatable_of_walk hσ fun hfits hf => walk_evalAssigned (walks_ofDepth σ _ depth) hf hfits

theorem repeatable_binding (name : String) : Repeatable σ f (fun _ => id) (binding f name) :=
  repeatable_of_walk hσ fun _ hf => walk_binding hf name

end Evaluator

end Surmise
