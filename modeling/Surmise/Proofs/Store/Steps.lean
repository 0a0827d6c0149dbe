import Surmise.Proofs.Address
import Surmise.Proofs.Store.Writes
import Surmise.Proofs.Query.Answers
import Mathlib.Logic.Relation

/-!
# Steps of the store

`Store.Step` lists the single changes that evaluating a program makes to the store it has: a symbol is
bound, a value is joined into what is known, a class learns of its bases and subclasses. Whatever each
step keeps, a whole computation keeps.

* `Store.Tidy`: every binding has the name and the address that its table gives it.
* `Store.Step.consistent`, `Store.Step.extension`: a step keeps the values sound and the tables tidy, and
  all that was there stays there.
* `StoreM.Does`: a computation takes steps and ends as stated. Rules for sequences and loops, and one
  lemma for each computation that propagation runs in the store.
-/

namespace Surmise

open Value

namespace Store

variable {s s' : Store}

/-- Every binding is a symbol of its own, with the name and the address that its table gives it. -/
structure Tidy (s : Store) : Prop where
  entry : ∀ t name id, s.get? t name = some id → id.index < s.symbols.size ∧
    (s.symbol id).name = name ∧ (s.symbol id).address = (s.table t).address.child name
  once : ∀ t t' name name' id, s.get? t name = some id → s.get? t' name' = some id → t = t' ∧ name = name'

structure Consistent (s : Store) : Prop where
  sound : s.Sound
  tidy : s.Tidy

theorem lt_tables_of_get? {t : TableId} {name : String} {id : SymbolId} (h : s.get? t name = some id) :
    t.index < s.tables.size := by
  by_contra hlt
  unfold get? table at h
  rw [getD_of_size_le (Nat.le_of_not_lt hlt)] at h
  cases h

/-- A change that leaves the tables as they are keeps them tidy. -/
theorem Tidy.of_tables (h : s.Tidy) (hx : s.Extends s') (ht : s'.tables = s.tables) : s'.Tidy := by
  have hget : ∀ t name, s'.get? t name = s.get? t name := by
    intro t name
    unfold get? table
    rw [ht]
  have htable : ∀ t, s'.table t = s.table t := by
    intro t
    unfold table
    rw [ht]
  refine ⟨fun t name id hid => ?_, fun t t' name name' id hid hid' => ?_⟩
  · rw [hget] at hid
    obtain ⟨hlt, hname, haddr⟩ := h.entry t name id hid
    obtain ⟨hname', haddr'⟩ := hx.symbol id hlt
    exact ⟨Nat.lt_of_lt_of_le hlt hx.symbols, hname'.trans hname, by rw [haddr', haddr, htable]⟩
  · rw [hget] at hid hid'
    exact h.once t t' name name' id hid hid'

theorem Tidy.bound (h : s.Tidy) (table : TableId) (name : String) (isPrivate : Bool)
    (hnone : s.get? table name = none) : (StoreM.bound table name isPrivate s).Tidy := by
  have hx : s.Extends (StoreM.bound table name isPrivate s) := extends_bound hnone
  refine ⟨fun t other id hid => ?_, fun t t' other other' id hid hid' => ?_⟩
  · rw [get?_bound] at hid
    split at hid
    · next ht =>
      obtain ⟨rfl, hlt, rfl⟩ := ht
      obtain rfl := Option.some.inj hid
      refine ⟨by simp [StoreM.bound], ?_⟩
      rw [(hx.table table hlt).1]
      unfold symbol StoreM.bound
      rw [getD_push, if_pos rfl]
      exact ⟨rfl, rfl⟩
    · obtain ⟨hlt, hname, haddr⟩ := h.entry t other id hid
      obtain ⟨hname', haddr'⟩ := hx.symbol id hlt
      refine ⟨Nat.lt_of_lt_of_le hlt hx.symbols, hname'.trans hname, ?_⟩
      rw [haddr', haddr, (hx.table t (lt_tables_of_get? hid)).1]
  · rw [get?_bound] at hid hid'
    -- An old binding is below the number of symbols, and the new one is not.
    have old : ∀ t name, s.get? t name = some id → id ≠ ⟨s.symbols.size⟩ := by
      rintro t name hid rfl
      exact Nat.lt_irrefl _ (h.entry t name _ hid).1
    split at hid <;> split at hid'
    · next ht ht' => exact ⟨ht.1.symm.trans ht'.1, ht.2.2.symm.trans ht'.2.2⟩
    · exact absurd (Option.some.inj hid).symm (old _ _ hid')
    · exact absurd (Option.some.inj hid').symm (old _ _ hid)
    · exact h.once t t' other other' id hid hid'

theorem Tidy.createPrivate (h : s.Tidy) (table : TableId) (name : String) (isPrivate : Bool) :
    (StoreM.createPrivate table name isPrivate s).2.Tidy := by
  rw [StoreM.createPrivate_eq]
  split
  · exact h
  · next hnone => exact h.bound table name isPrivate hnone

theorem tables_put (s : Store) (symbol : SymbolId) (v : Value) : (StoreM.put symbol v s).2.tables = s.tables := by
  rw [StoreM.put_eq]

theorem tables_producePrivate (s : Store) (symbol : SymbolId) (v : Value) (isPrivate : Bool) :
    (StoreM.producePrivate symbol v isPrivate s).2.tables = s.tables := by
  rw [StoreM.producePrivate_eq]
  split
  · rfl
  · rw [tables_put]
    rfl

theorem Consistent.put (hs : s.Consistent) (symbol : SymbolId) {v : Value} (hv : v.Sound s.nextSerial) :
    (StoreM.put symbol v s).2.Consistent :=
  ⟨hs.sound.put symbol hv, hs.tidy.of_tables (extends_put s symbol v) (tables_put s symbol v)⟩

/-! ## Steps -/

/-- The table holds the entries of a package. Only files make such entries, never the program. -/
def IsPackageScope (s : Store) (t : TableId) : Prop :=
  ∃ p : PackageId, p.index < s.packages.size ∧ (s.package p).entries = t

/-- The members of classes and modules are not in the scopes of packages. -/
structure MembersApart (s : Store) : Prop where
  classes : ∀ c, ¬ s.IsPackageScope (s.classOf c).members
  modules : ∀ m, ¬ s.IsPackageScope (s.module m).members

/-- A single change of the store while a program is evaluated. -/
inductive Step : Store → Store → Prop
  | raise (s : Store) {n : Nat} (h : s.nextSerial ≤ n) : Step s { s with nextSerial := n }
  | create (s : Store) {table : TableId} (h : ¬ s.IsPackageScope table) (name : String) (isPrivate : Bool) :
      Step s (StoreM.createPrivate table name isPrivate s).2
  | produce (s : Store) (symbol : SymbolId) {v : Value} (hv : v.Sound s.nextSerial) (isPrivate : Bool) :
      Step s (StoreM.producePrivate symbol v isPrivate s).2
  /-- A symbol of which nothing is known gets its first value. -/
  | init (s : Store) (symbol : SymbolId) {v : Value} (hv : v.Sound s.nextSerial)
      (h : s.value symbol = .empty) : Step s (StoreM.put symbol v s).2
  /-- A symbol that no table binds. -/
  | newSymbol (s : Store) (name : String) (address : Address) (isPrivate : Bool) :
      Step s (StoreM.newSymbol name address isPrivate s).2
  | newKwargs (s : Store) : Step s (StoreM.newKwargs s).2
  | addKwarg (s : Store) (dict : KwargsId) (name : String) {v : Value} (hv : v.Sound s.nextSerial) :
      Step s (StoreM.addKwarg dict name v s).2
  | addSubclass (s : Store) (c sub : ClassId) : Step s (StoreM.addSubclass c sub s).2
  | setBases (s : Store) (c : ClassId) {bases : List Value} (hb : ∀ b ∈ bases, b.Sound s.nextSerial) :
      Step s (StoreM.modifyClass c (fun info => { info with bases }) s).2
  | setFramework (s : Store) (c : ClassId) (name : String) :
      Step s (StoreM.modifyClass c (fun info => { info with framework := some name }) s).2

namespace Step

variable {s s' : Store}

theorem extension (h : Step s s') : s.Extends s' := by
  cases h with
  | raise hn => exact { Extends.refl s with serial := hn }
  | create h name isPrivate => exact extends_createPrivate s _ name isPrivate
  | produce symbol hv isPrivate => exact extends_producePrivate s symbol _ isPrivate
  | init symbol hv h => exact extends_put s symbol _
  | newSymbol name address isPrivate => exact extends_newSymbol s name address isPrivate
  | newKwargs => exact extends_newKwargs s
  | addKwarg dict name hv => exact extends_addKwarg s dict name _
  | addSubclass c sub => exact { Extends.refl s with }
  | setBases c | setFramework c => exact extends_modifyClass s c fun _ => ⟨rfl, rfl⟩

theorem sound (h : Step s s') (hs : s.Sound) : s'.Sound := by
  cases h with
  | raise hn => exact hs.raise hn
  | create h name isPrivate => exact hs.createPrivate _ name isPrivate
  | produce symbol hv isPrivate => exact hs.producePrivate symbol hv isPrivate
  | init symbol hv h => exact hs.put symbol hv
  | newSymbol name address isPrivate => exact hs.newSymbol name address isPrivate
  | newKwargs => exact hs.newKwargs
  | addKwarg dict name hv => exact hs.addKwarg dict name hv
  | addSubclass c sub => exact { hs with }
  | setBases c hb => exact hs.modifyClass c hb
  | setFramework c name => exact hs.modifyClass c (hs.bases c)

theorem tidy (h : Step s s') (hs : s.Tidy) : s'.Tidy := by
  have hx := h.extension
  cases h with
  | raise | newSymbol | newKwargs | addSubclass | setBases | setFramework => exact hs.of_tables hx rfl
  | create h name isPrivate => exact hs.createPrivate _ name isPrivate
  | produce symbol hv isPrivate => exact hs.of_tables hx (tables_producePrivate s symbol _ isPrivate)
  | init symbol hv h => exact hs.of_tables hx (tables_put s symbol _)
  | addKwarg dict name hv => exact hs.of_tables hx (by rw [StoreM.addKwarg_eq])

theorem consistent (h : Step s s') (hs : s.Consistent) : s'.Consistent :=
  ⟨h.sound hs.sound, h.tidy hs.tidy⟩

end Step

/-- The two stores have the same functions, modules and packages, and as many scopes and classes. -/
structure SameObjects (s s' : Store) : Prop where
  functions : s'.functions = s.functions
  modules : s'.modules = s.modules
  packages : s'.packages = s.packages
  tables : s'.tables.size = s.tables.size
  classes : s'.classes.size = s.classes.size

theorem SameObjects.trans {s'' : Store} (h : SameObjects s s') (h' : SameObjects s' s'') : SameObjects s s'' :=
  ⟨h'.functions.trans h.functions, h'.modules.trans h.modules, h'.packages.trans h.packages,
    h'.tables.trans h.tables, h'.classes.trans h.classes⟩

theorem sameObjects_put (s : Store) (symbol : SymbolId) (v : Value) : SameObjects s (StoreM.put symbol v s).2 := by
  rw [StoreM.put_eq]
  exact ⟨rfl, rfl, rfl, rfl, rfl⟩

theorem sameObjects_producePrivate (s : Store) (symbol : SymbolId) (v : Value) (isPrivate : Bool) :
    SameObjects s (StoreM.producePrivate symbol v isPrivate s).2 := by
  rw [StoreM.producePrivate_eq]
  have hp : SameObjects s (StoreM.publish symbol isPrivate s) := ⟨rfl, rfl, rfl, rfl, rfl⟩
  split
  · exact hp
  · exact hp.trans (sameObjects_put _ _ _)

theorem sameObjects_createPrivate (s : Store) (table : TableId) (name : String) (isPrivate : Bool) :
    SameObjects s (StoreM.createPrivate table name isPrivate s).2 := by
  rw [StoreM.createPrivate_eq]
  split
  · exact ⟨rfl, rfl, rfl, rfl, rfl⟩
  · exact ⟨rfl, rfl, rfl, by simp [StoreM.bound], rfl⟩

theorem sameObjects_modifyClass (s : Store) (c : ClassId) (f : ClassInfo → ClassInfo) :
    SameObjects s (StoreM.modifyClass c f s).2 := by
  rw [StoreM.modifyClass_eq]
  exact ⟨rfl, rfl, rfl, rfl, by simp⟩

/-- A step makes no function, class, module, package or scope. -/
theorem Step.sameObjects (h : Step s s') : SameObjects s s' := by
  cases h with
  | raise | newSymbol | newKwargs | addSubclass => exact ⟨rfl, rfl, rfl, rfl, rfl⟩
  | create h name isPrivate => exact sameObjects_createPrivate s _ name isPrivate
  | produce symbol hv isPrivate => exact sameObjects_producePrivate s symbol _ isPrivate
  | init symbol hv h => exact sameObjects_put s symbol _
  | addKwarg dict name hv =>
    rw [StoreM.addKwarg_eq]
    exact ⟨rfl, rfl, rfl, rfl, rfl⟩
  | setBases c | setFramework c => exact sameObjects_modifyClass s c _

theorem SameObjects.isPackageScope_iff (h : SameObjects s s') (t : TableId) :
    s'.IsPackageScope t ↔ s.IsPackageScope t := by
  unfold IsPackageScope package
  rw [h.packages]

abbrev Steps : Store → Store → Prop := Relation.ReflTransGen Step

theorem Steps.extension (h : Steps s s') : s.Extends s' := by
  induction h with
  | refl => exact Extends.refl s
  | tail _ hstep ih => exact ih.trans hstep.extension

theorem Steps.consistent (h : Steps s s') (hs : s.Consistent) : s'.Consistent := by
  induction h with
  | refl => exact hs
  | tail _ hstep ih => exact hstep.consistent ih

theorem Steps.sameObjects (h : Steps s s') : SameObjects s s' := by
  induction h with
  | refl => exact ⟨rfl, rfl, rfl, rfl, rfl⟩
  | tail _ hstep ih => exact ih.trans hstep.sameObjects

theorem Steps.members_classOf (h : Steps s s') (c : ClassId) : (s'.classOf c).members = (s.classOf c).members := by
  by_cases hc : c.index < s.classes.size
  · exact (h.extension.classOf c hc).2
  · have hle := Nat.le_of_not_lt hc
    unfold classOf
    rw [getD_of_size_le hle, getD_of_size_le (by rw [h.sameObjects.classes]; exact hle)]

theorem Steps.membersApart (h : Steps s s') (hs : s.MembersApart) : s'.MembersApart := by
  refine ⟨fun c => ?_, fun m => ?_⟩
  · rw [h.sameObjects.isPackageScope_iff, h.members_classOf]
    exact hs.classes c
  · have hmodule : s'.module m = s.module m := by
      unfold module
      rw [h.sameObjects.modules]
    rw [h.sameObjects.isPackageScope_iff, hmodule]
    exact hs.modules m

end Store

/-! ## Computations that take steps -/

namespace StoreM

open Store

/-- The computation takes steps and ends in a result and a store that satisfy `post`. -/
def Does {α : Type} (s : Store) (act : StoreM α) (post : α → Store → Prop) : Prop :=
  Steps s (act s).2 ∧ post (act s).1 (act s).2

section Rules

variable {α β : Type} {s : Store}

theorem does_pure {a : α} {post : α → Store → Prop} (h : post a s) : Does s (pure a) post :=
  ⟨.refl, h⟩

theorem does_get_bind {next : Store → StoreM β} {post : β → Store → Prop} (h : Does s (next s) post) :
    Does s (get >>= next) post := h

theorem Does.bind {act : StoreM α} {next : α → StoreM β} {mid : α → Store → Prop}
    {post : β → Store → Prop} (h : Does s act mid)
    (hnext : ∀ a s', Steps s s' → mid a s' → Does s' (next a) post) : Does s (act >>= next) post := by
  obtain ⟨hsteps, hmid⟩ := h
  obtain ⟨hsteps', hpost⟩ := hnext _ _ hsteps hmid
  exact ⟨hsteps.trans hsteps', hpost⟩

/-- A loop over a list whose results stay as they are asked to be when more steps are taken. -/
theorem does_mapM {xs : List α} {f : α → StoreM β} {Q : β → Store → Prop}
    (stable : ∀ b s s', Steps s s' → Q b s → Q b s')
    (h : ∀ x ∈ xs, ∀ s', Steps s s' → Does s' (f x) Q) :
    Does s (xs.mapM f) fun bs s' => ∀ b ∈ bs, Q b s' := by
  induction xs generalizing s with
  | nil => exact does_pure (by simp)
  | cons x rest ih =>
    rw [List.mapM_cons]
    refine (h x List.mem_cons_self s .refl).bind fun b s' hs' hb => ?_
    refine (ih fun y hy s'' hs'' => h y (List.mem_cons_of_mem _ hy) s'' (hs'.trans hs'')).bind fun bs s'' hs'' hbs => ?_
    exact does_pure (List.forall_mem_cons.mpr ⟨stable b s' s'' hs'' hb, hbs⟩)

end Rules

/-! ### Writes -/

section Writes

variable {s : Store} {v : Value} {table : TableId}

theorem does_createPrivate (h : ¬ s.IsPackageScope table) (name : String) (isPrivate : Bool) :
    Does s (createPrivate table name isPrivate) fun id s' =>
      table.index < s.tables.size → s'.get? table name = some id := by
  refine ⟨.single (.create s h name isPrivate), fun hlt => ?_⟩
  rw [createPrivate_eq]
  split
  · assumption
  · rw [get?_bound, if_pos ⟨rfl, hlt, rfl⟩]

theorem does_producePrivate (symbol : SymbolId) (hv : v.Sound s.nextSerial) (isPrivate : Bool) :
    Does s (producePrivate symbol v isPrivate) fun _ _ => True :=
  ⟨.single (.produce s symbol hv isPrivate), trivial⟩

theorem does_produceIn (h : ¬ s.IsPackageScope table) (name : String)
    (hv : v.Sound s.nextSerial) : Does s (produceIn table name v) fun _ _ => True :=
  (does_createPrivate h name false).bind fun id _ hs _ =>
    does_producePrivate id (hv.mono hs.extension.serial) false

theorem does_addKwarg (dict : KwargsId) (name : String) (hv : v.Sound s.nextSerial) :
    Does s (addKwarg dict name v) fun _ _ => True :=
  ⟨.single (.addKwarg s dict name hv), trivial⟩

theorem does_numbered (hv : v.Sound s.nextSerial) :
    Does s (numbered v) fun w s' => w.Sound s'.nextSerial ∧ w.isNumbered = true := by
  unfold Does
  rw [numbered_eq]
  exact ⟨.single (.raise s (le_number v _)), sound_number hv, isNumbered_number v _⟩

theorem sound_stable (v : Value) (s s' : Store) (h : Steps s s') (hv : v.Sound s.nextSerial) : v.Sound s'.nextSerial :=
  hv.mono h.extension.serial

theorem does_setIndexOne {key d : Value} (hk : key.Sound s.nextSerial) (hv : v.Sound s.nextSerial)
    (hd : d.Sound s.nextSerial) : Does s (setIndexOne key v d) fun w s' => w.Sound s'.nextSerial := by
  unfold setIndexOne
  split
  · refine does_pure (sound_listOf (sound_unite ?_))
    simpa using ⟨hd.of_mem_parts (by simp [parts]), hv⟩
  · refine does_pure (sound_dictOf (sound_unite ?_) (sound_unite ?_))
    · simpa [hk] using hd.of_mem_parts (by simp [parts])
    · simpa [hv] using hd.of_mem_parts (by simp [parts])
  · split
    · exact (does_addKwarg _ _ hv).bind fun _ _ _ _ => does_pure (by simp)
    · exact does_pure (by simp)
  · exact does_pure hd

theorem does_setIndex {base key : Value} (hb : base.Sound s.nextSerial) (hk : key.Sound s.nextSerial)
    (hv : v.Sound s.nextSerial) : Does s (setIndex base key v) fun w s' => w.Sound s'.nextSerial := by
  refine (does_mapM sound_stable fun d hd s' hs' => ?_).bind fun ws s' _ hws => ?_
  · have hserial := hs'.extension.serial
    exact does_setIndexOne (hk.mono hserial) (hv.mono hserial) ((hb.of_mem_disjuncts hd).mono hserial)
  · exact does_pure (sound_unite hws)

end Writes

/-! ### Members and subclasses -/

section Computations

variable {s : Store}

theorem does_madeSymbol (make : Bool) (name : String) {table? : Option TableId}
    (h : ∀ t ∈ table?, ¬ s.IsPackageScope t) (found : Option SymbolId) :
    Does s (madeSymbol make name table? found) fun _ _ => True := by
  unfold madeSymbol
  split
  · exact (does_createPrivate (h _ rfl) name false).bind fun _ _ _ _ => does_pure trivial
  · exact does_pure trivial

theorem memberTable_apart (hs : s.MembersApart) {w : World} (hw : w.store = s) (v : Value) :
    ∀ t ∈ w.memberTable? v, ¬ s.IsPackageScope t := by
  subst hw
  intro t ht
  unfold World.memberTable? at ht
  split at ht
  · cases ht
    exact hs.classes _
  · cases ht
    exact hs.classes _
  · cases ht
    exact hs.modules _
  · obtain ⟨m, -, rfl⟩ := Option.map_eq_some_iff.mp ht
    exact hs.modules m
  · cases ht

theorem does_memberSymbol (hs : s.MembersApart) (graph : Graph) (make : Bool) (name : String) (v : Value) :
    Does s (memberSymbol graph make name v) fun _ _ => True := by
  refine does_get_bind ?_
  dsimp only
  split
  · exact does_madeSymbol make name (memberTable_apart hs rfl _) _
  · exact does_pure trivial
  · exact does_madeSymbol make name (memberTable_apart hs rfl _) _

theorem does_memberSymbols (hs : s.MembersApart) (graph : Graph) (make : Bool) (name : String)
    (symbols : List SymbolId) (vs : List Value) :
    Does s (memberSymbols graph make name symbols vs) fun _ _ => True := by
  induction vs generalizing s symbols with
  | nil => exact does_pure trivial
  | cons v rest ih =>
    refine (does_memberSymbol hs graph make name v).bind fun found s' hs' _ => ?_
    split
    · exact ih (hs'.membersApart hs) _
    · exact ih (hs'.membersApart hs) _

theorem does_addSubclass (c sub : ClassId) : Does s (addSubclass c sub) fun _ _ => True :=
  ⟨.single (.addSubclass s c sub), trivial⟩

end Computations

end StoreM

/-! ## Class policies -/

namespace Analysis

open Store

/-- A computation that could fail takes steps, and does not fail. -/
def Does {α : Type} (s : Store) (act : Analysis α) (post : α → Store → Prop) : Prop :=
  StoreM.Does s act.run fun r s' => ∃ a, r = .ok a ∧ post a s'

section Rules

variable {α β : Type} {s : Store}

theorem does_pure {a : α} {post : α → Store → Prop} (h : post a s) : Does s (pure a) post :=
  ⟨.refl, a, rfl, h⟩

theorem does_lift {act : StoreM α} {post : α → Store → Prop} (h : StoreM.Does s act post) : Does s (liftM act) post :=
  ⟨h.1, _, rfl, h.2⟩

theorem does_get_bind {next : Store → Analysis β} {post : β → Store → Prop} (h : Does s (next s) post) :
    Does s (get >>= next) post := h

theorem Does.bind {act : Analysis α} {next : α → Analysis β} {mid : α → Store → Prop}
    {post : β → Store → Prop} (h : Does s act mid)
    (hnext : ∀ a s', Steps s s' → mid a s' → Does s' (next a) post) : Does s (act >>= next) post := by
  show StoreM.Does s (act.run >>= ExceptT.bindCont next) _
  refine StoreM.Does.bind h fun r s' hs' hr => ?_
  obtain ⟨a, rfl, ha⟩ := hr
  exact hnext a s' hs' ha

/-- A loop whose body may be run whenever `I` holds, which no step breaks. -/
theorem does_forIn {xs : List α} {body : α → Unit → Analysis (ForInStep Unit)} {I : Store → Prop}
    (stable : ∀ s s', Steps s s' → I s → I s') (hI : I s)
    (h : ∀ x ∈ xs, ∀ s', Steps s s' → I s' → Does s' (body x ()) fun r _ => r = .yield ()) :
    Does s (forIn xs () body) fun _ _ => True := by
  induction xs generalizing s with
  | nil => exact does_pure trivial
  | cons x rest ih =>
    rw [List.forIn_cons]
    refine (h x List.mem_cons_self s .refl hI).bind fun r s' hs' hr => ?_
    subst hr
    exact ih (stable s s' hs' hI) fun y hy s'' hs'' => h y (List.mem_cons_of_mem _ hy) s'' (hs'.trans hs'')

end Rules

end Analysis

/-- The scope of a class body belongs to the class: its bindings have the addresses of members. -/
structure Store.Fits (s : Store) (c : ClassId) (body : TableId) : Prop where
  known : c.index < s.classes.size
  members : (s.classOf c).members.index < s.tables.size
  scope : body.index < s.tables.size
  address : (s.table body).address = (s.table (s.classOf c).members).address
  apart : s.MembersApart

namespace Analysis

open Store

variable {s : Store} {c : ClassId} {body : TableId}

theorem fits_stable (s s' : Store) (h : Steps s s') (hf : s.Fits c body) : s'.Fits c body := by
  have hx := h.extension
  have hmembers := (hx.classOf c hf.known).2
  refine ⟨Nat.lt_of_lt_of_le hf.known hx.classes, ?_, Nat.lt_of_lt_of_le hf.scope hx.tables, ?_,
    h.membersApart hf.apart⟩
  · rw [hmembers]
    exact Nat.lt_of_lt_of_le hf.members hx.tables
  · rw [hmembers, (hx.table body hf.scope).1, (hx.table _ hf.members).1]
    exact hf.address

/-- **Merging a binding of a class body never fails**: the member has its address. -/
theorem does_mergeMember (hs : s.Consistent) (hf : s.Fits c body) {name : String} {binding : SymbolId}
    (hb : s.get? body name = some binding) :
    Does s (mergeMember (s.classOf c).members binding) fun _ _ => True := by
  obtain ⟨hlt, hname, haddr⟩ := hs.tidy.entry body name binding hb
  refine does_get_bind ?_
  refine (does_lift (StoreM.does_createPrivate (hf.apart.classes c) (s.symbol binding).name false)).bind
    fun member s' hs' hmember => ?_
  refine does_get_bind ?_
  have hmember := hmember hf.members
  obtain ⟨-, -, haddr'⟩ := (hs'.consistent hs).tidy.entry _ _ member hmember
  have heq : (s'.symbol member).address = (s.symbol binding).address := by
    rw [haddr', (hs'.extension.table _ hf.members).1, haddr, hname, hf.address]
  dsimp only
  rw [heq, Address.beq_self, if_pos rfl]
  exact does_lift (StoreM.does_producePrivate member ((hs.sound.value binding).mono hs'.extension.serial) false)

theorem does_mergeMembers (hs : s.Consistent) (hf : s.Fits c body) : Does s (mergeMembers c body) fun _ _ => True := by
  refine does_get_bind ?_
  refine does_get_bind ?_
  refine (does_forIn (I := fun s' => s'.Consistent ∧ s'.Fits c body)
    (fun s s' h hI => ⟨h.consistent hI.1, fits_stable s s' h hI.2⟩) ⟨hs, hf⟩ ?_).bind
    fun _ _ _ _ => does_pure trivial
  intro binding hbinding s' hs' ⟨hc, hf'⟩
  obtain ⟨name, hname⟩ := OrderedMap.exists_get?_of_mem_values hbinding
  have hmembers := (hs'.extension.classOf c hf.known).2
  rw [← hmembers]
  exact (does_mergeMember hc hf' (hs'.extension.entry body name binding hname)).bind fun _ _ _ _ => does_pure rfl

end Analysis

namespace ClassPolicy

open Store Analysis

variable {s : Store}

/-- The policy is one of those that come with the analysis. -/
inductive IsBundled : ClassPolicy → Prop
  | plain : IsBundled plain
  | orm : IsBundled orm
  | marking (name base member : String) : IsBundled (marking name base member)

theorem isBundled_of_mem_standard (p : ClassPolicy) (h : p ∈ standard) : p.IsBundled := by
  obtain rfl := List.mem_singleton.mp h
  exact .orm

theorem sound_modelException {n : Nat} (w : World) (path : String) : (modelException w path).Sound n :=
  sound_ite (World.sound_externalValue _) (World.sound_externalValue _)

theorem does_build {p : ClassPolicy} (hp : p.IsBundled) (hs : s.Consistent) (graph : Graph) {c : ClassId}
    {body : TableId} (hf : s.Fits c body) : Does s (p.build graph c body) fun _ _ => True := by
  have hmembers : ∀ s', Steps s s' → ¬ s'.IsPackageScope (s'.classOf c).members := fun s' hs' =>
    (hs'.membersApart hf.apart).classes c
  cases hp with
  | plain => exact does_mergeMembers hs hf
  | orm =>
    refine (does_mergeMembers hs hf).bind fun _ s₁ hs₁ _ => ?_
    refine does_get_bind ?_
    have hopen : ∀ s', Steps s₁ s' → ¬ s'.IsPackageScope (s₁.classOf c).members := by
      intro s' hs'
      rw [← hs'.members_classOf c]
      exact hmembers s' (hs₁.trans hs')
    refine (does_lift (StoreM.does_produceIn (hmembers s₁ hs₁) "objects" (by simp))).bind fun _ s₂ hs₂ _ => ?_
    refine (does_forIn (I := fun s' => Steps s₁ s') (fun _ _ h hI => hI.trans h) hs₂ ?_).bind fun _ s₃ hs₃ _ => ?_
    · rintro ⟨name, path⟩ - s' - hs'
      refine does_get_bind ?_
      exact (does_lift (StoreM.does_produceIn (hopen s' hs') name (sound_modelException _ path))).bind
        fun _ _ _ _ => does_pure rfl
    · refine (does_forIn (I := fun s' => Steps s₁ s') (fun _ _ h hI => hI.trans h) (hs₂.trans hs₃) ?_).bind
        fun _ _ _ _ => does_pure trivial
      intro field _ s' _ hs'
      exact (does_lift (StoreM.does_produceIn (hopen s' hs') field (by simp))).bind fun _ _ _ _ => does_pure rfl
  | marking name base member =>
    refine (does_mergeMembers hs hf).bind fun _ s₁ hs₁ _ => ?_
    refine does_get_bind ?_
    exact does_lift (StoreM.does_produceIn (hmembers s₁ hs₁) member (by simp [ofBool]))

end ClassPolicy

namespace Analysis

open Store

variable {s : Store}

theorem does_applyPolicies {policies : List ClassPolicy} (hp : ∀ p ∈ policies, p.IsBundled)
    (hs : s.Consistent) (graph : Graph) {c : ClassId} {body : TableId} (hf : s.Fits c body) :
    Does s (applyPolicies graph policies c body) fun _ _ => True := by
  refine does_get_bind ?_
  dsimp only
  split
  · next policy hpolicy =>
    have hstep : StoreM.Does s (StoreM.modifyClass c fun info =>
        { info with framework := some policy.name }) fun _ _ => True :=
      ⟨.single (.setFramework s c policy.name), trivial⟩
    refine (does_lift hstep).bind fun _ s' hs' _ => ?_
    exact ClassPolicy.does_build (hp policy (List.mem_of_find?_eq_some hpolicy)) (hs'.consistent hs)
      graph (fits_stable s s' hs' hf)
  · exact ClassPolicy.does_build .plain hs graph hf

end Analysis

end Surmise
