import Surmise.Proofs.Store.Definitions

/-!
# Two stores of one course

A program that is evaluated a second time finds what the first evaluation has made. The two stores that
correspond to each other in the course of the two evaluations hold the same up to a shift of serial
numbers; the later one has also the scopes that the first evaluation is yet to open.

* `Store.Mirror`: how the two stores are related as long as the first evaluation makes no symbol.
-/

namespace Surmise

variable {t : TableId}

/-! ## Shifted objects -/

section Shifted

variable (π : Shift)

def Symbol.shift (s : Symbol) : Symbol := { s with value := s.value.shift π }

def ClassInfo.shift (c : ClassInfo) : ClassInfo := { c with bases := c.bases.map (Value.shift π) }

theorem OrderedMap.insert_shift (m : OrderedMap Value) (name : String) (v : Value) :
    (m.shift π).insert name (v.shift π) = (m.insert name v).shift π := by
  have hput : ∀ entries : List (String × Value),
      put name (v.shift π) (shiftEntries π entries) = shiftEntries π (put name v entries) := by
    intro entries
    induction entries with
    | nil => rfl
    | cons entry rest ih =>
      simp only [shiftEntries, List.map_cons, put] at ih ⊢
      split
      · rfl
      · rw [ih, List.map_cons]
  simp only [insert, shift, hput]

theorem getD_map {α β : Type} (a : Array α) (f : α → β) (i : Nat) (d : α) :
    (a.map f).getD i (f d) = f (a.getD i d) := by
  simp [Array.getD_eq_getD_getElem?, Option.getD_map]

end Shifted

/-! ## Chains of scopes -/

/-- A scope from which names can be looked up. Scopes lie in ones that were opened before. -/
inductive Chained (tables : List Table) : TableId → Prop
  | outermost {t : TableId} {record : Table} (h : tables[t.index]? = some record)
      (hparent : record.parent = none) : Chained tables t
  | inner {t outer : TableId} {record : Table} (h : tables[t.index]? = some record)
      (hparent : record.parent = some outer) (hlt : outer.index < t.index) (houter : Chained tables outer) :
      Chained tables t

theorem getElem?_of_begins {α : Type} {as bs : List α} (h : as <+: bs) {i : Nat} {a : α} (ha : as[i]? = some a) :
    bs[i]? = some a := by
  obtain ⟨hi, rfl⟩ := List.getElem?_eq_some_iff.mp ha
  exact List.prefix_iff_getElem?.mp h i hi

theorem Chained.mono {tables tables' : List Table} (h : tables <+: tables') (ht : Chained tables t) :
    Chained tables' t := by
  induction ht with
  | outermost hrecord hparent => exact .outermost (getElem?_of_begins h hrecord) hparent
  | inner hrecord hparent hlt _ ih => exact .inner (getElem?_of_begins h hrecord) hparent hlt ih

theorem Chained.lt {tables : List Table} (h : Chained tables t) : t.index < tables.length := by
  cases h with
  | outermost h | inner h => exact (List.getElem?_eq_some_iff.mp h).1

theorem Chained.lt_size {s : Store} (h : Chained s.tables.toList t) : t.index < s.tables.size := by
  simpa using h.lt

/-! ## Corresponding stores -/

/--
What is known of a run by its end: the numbers that it takes, its symbols, scopes and comprehensions. Some of
the scopes are there from the beginning, of which the second evaluation may have others.
-/
structure Course where
  shift : Shift
  /-- The number of symbols. -/
  symbols : Nat
  tables : List Table
  comprehensions : List (Site × TableId)
  base : List Table
  base' : List Table

/-- The course with the scopes of these stores as those that are there from the beginning. -/
def Course.rebase (R : Course) (s s' : Store) : Course :=
  { R with base := s.tables.toList, base' := s'.tables.toList }

/-- The run may come to the store: no symbol is made, and the scopes are those of the end. -/
structure Course.AdmitsStore (R : Course) (s : Store) : Prop where
  count : s.symbols.size = R.symbols
  known : s.tables.toList <+: R.tables

/-- The store of the second evaluation corresponds to that of the first. -/
structure Store.Mirror (R : Course) (s s' : Store) : Prop extends R.AdmitsStore s where
  symbols : s'.symbols = s.symbols.map (Symbol.shift R.shift)
  classes : s'.classes = s.classes.map (ClassInfo.shift R.shift)
  kwargs : s'.kwargs = s.kwargs.map (OrderedMap.shift R.shift)
  labelled : s'.labelled = s.labelled.map (shiftEntries R.shift)
  functions : s'.functions = s.functions
  subclassLinks : s'.subclassLinks = s.subclassLinks
  modules : s'.modules = s.modules
  packages : s'.packages = s.packages
  serial : s'.nextSerial = s.nextSerial + R.shift.amount
  start : R.shift.start ≤ s.nextSerial
  /-- What is still to be opened is there already. -/
  opened : R.tables <+: s'.tables.toList
  based : R.base <+: s.tables.toList
  based' : R.base' <+: s'.tables.toList
  outermost : Chained s.tables.toList ⟨0⟩
  classScopes : ∀ info ∈ s.classes, info.members.index < s.tables.size
  moduleScopes : ∀ info ∈ s.modules, Chained s.tables.toList info.members
  packageScopes : ∀ info ∈ s.packages, info.entries.index < s.tables.size

namespace Store.Mirror

variable {R : Course} {s s' : Store} (h : s.Mirror R s') {t : TableId}

include h

theorem rebased : s.Mirror (R.rebase s s') s' :=
  { h with toAdmitsStore := ⟨h.count, h.known⟩, based := List.prefix_rfl, based' := List.prefix_rfl }

theorem unbased {t t' : Store} (ht : t.Mirror (R.rebase s s') t') : t.Mirror R t' :=
  { ht with
    toAdmitsStore := ⟨ht.count, ht.known⟩
    based := h.based.trans ht.based
    based' := h.based'.trans ht.based' }

/-! ## What the stores hold -/

theorem tables : s.tables.toList <+: s'.tables.toList := h.known.trans h.opened

theorem symbol (id : SymbolId) : s'.symbol id = (s.symbol id).shift R.shift := by
  unfold Store.symbol
  rw [h.symbols]
  exact getD_map s.symbols (Symbol.shift R.shift) id.index default

theorem value (id : SymbolId) : s'.value id = (s.value id).shift R.shift := by
  unfold Store.value
  rw [h.symbol]
  rfl

theorem function (f : FunctionId) : s'.function f = s.function f := by
  unfold Store.function
  rw [h.functions]

theorem module (m : ModuleId) : s'.module m = s.module m := by
  unfold Store.module
  rw [h.modules]

theorem package (p : PackageId) : s'.package p = s.package p := by
  unfold Store.package
  rw [h.packages]

theorem classOf (c : ClassId) : s'.classOf c = (s.classOf c).shift R.shift := by
  unfold Store.classOf
  rw [h.classes]
  exact getD_map s.classes (ClassInfo.shift R.shift) c.index default

theorem bases (c : ClassId) : (s'.classOf c).bases = (s.classOf c).bases.map (Value.shift R.shift) := by
  rw [h.classOf]
  rfl

theorem members (c : ClassId) : (s'.classOf c).members = (s.classOf c).members := by
  rw [h.classOf]
  rfl

theorem kwargsOf (d : KwargsId) : s'.kwargsOf d = (s.kwargsOf d).shift R.shift := by
  unfold Store.kwargsOf
  rw [h.kwargs]
  exact getD_map s.kwargs (OrderedMap.shift R.shift) d.index .empty

theorem labelledMembers (i : Nat) : s'.labelledMembers i = shiftEntries R.shift (s.labelledMembers i) := by
  unfold Store.labelledMembers
  rw [h.labelled]
  exact getD_map s.labelled (shiftEntries R.shift) i []

/-! ## Scopes -/

theorem table (ht : t.index < s.tables.size) : s'.table t = s.table t := by
  have hget := List.prefix_iff_getElem?.mp h.tables t.index (by simpa using ht)
  unfold Store.table
  rw [Array.getD_eq_getD_getElem?, Array.getD_eq_getD_getElem?, ← Array.getElem?_toList, hget,
    Array.getElem?_eq_getElem ht]
  rfl

theorem get? (ht : t.index < s.tables.size) (name : String) : s'.get? t name = s.get? t name := by
  rw [Store.get?, Store.get?, h.table ht]

theorem names (ht : t.index < s.tables.size) : s'.names t = s.names t := by
  rw [Store.names, Store.names, h.table ht]

-- an object that is not there reads as one whose members are the first scope
theorem members_lt (c : ClassId) : (s.classOf c).members.index < s.tables.size :=
  getD_of_forall h.classScopes h.outermost.lt_size c.index

theorem classAddress (c : ClassId) : s'.classAddress c = s.classAddress c := by
  rw [Store.classAddress, Store.classAddress, h.members, h.table (h.members_lt c)]

theorem chained_module (m : ModuleId) : Chained s.tables.toList (s.module m).members :=
  getD_of_forall h.moduleScopes h.outermost m.index

theorem module_lt (m : ModuleId) : (s.module m).members.index < s.tables.size :=
  (h.chained_module m).lt_size

theorem package_lt (p : PackageId) : (s.package p).entries.index < s.tables.size :=
  getD_of_forall h.packageScopes h.outermost.lt_size p.index

/-! ## Links between classes -/

theorem subclassesOf (c : ClassId) : s'.subclassesOf c = s.subclassesOf c := by
  rw [Store.subclassesOf, Store.subclassesOf, h.subclassLinks]

/-- Queries read the same from the two stores, up to the shift. -/
theorem reads : s.Reads R.shift s' where
  value := h.value
  function := h.function
  module := h.module
  package := h.package
  members := h.members
  bases := h.bases
  subclassesOf := h.subclassesOf
  kwargsOf := h.kwargsOf
  labelledMembers := h.labelledMembers
  inClass c := h.get? (h.members_lt c)
  inModule m := h.get? (h.module_lt m)
  inPackage p := h.get? (h.package_lt p)

theorem sourceBases (c : ClassId) : s'.sourceBases c = s.sourceBases c := by
  unfold Store.sourceBases
  rw [h.reads.flatten_bases, List.filterMap_map]
  refine List.filterMap_congr fun v _ => ?_
  cases v <;> rfl

theorem baseSteps : s'.baseSteps = s.baseSteps := by
  unfold Store.baseSteps
  rw [h.classes, Array.foldl_map]
  have hlength : ∀ c : ClassInfo, (Value.flatten (c.shift R.shift).bases).length = (Value.flatten c.bases).length := by
    intro c
    rw [ClassInfo.shift, Value.flatten_map_shift, List.length_map]
  simp only [hlength]

theorem lineage (c : ClassId) : s'.lineage c = s.lineage c := by
  have hbases : s'.sourceBases = s.sourceBases := funext h.sourceBases
  rw [Store.lineage, Store.lineage, hbases, h.baseSteps]

theorem walkSubclasses (c : ClassId) : s'.walkSubclasses c = s.walkSubclasses c := by
  have hlinks : s'.subclassesOf = s.subclassesOf := funext h.subclassesOf
  rw [Store.walkSubclasses, Store.walkSubclasses, hlinks, h.subclassLinks]

end Store.Mirror

/-! ## Names -/

namespace Store

variable {s : Store} {t : TableId}

theorem table_of_getElem? {record : Table} (h : s.tables.toList[t.index]? = some record) : s.table t = record := by
  rw [table, Array.getD_eq_getD_getElem?, ← Array.getElem?_toList, h]
  rfl

/-- Whatever fuel there is, a name is looked up in the same scopes. -/
theorem lookupWithin_of_prefix {s' : Store} (htables : s.tables.toList <+: s'.tables.toList)
    (h : Chained s.tables.toList t) (name : String) {fuel fuel' : Nat} (hfuel : t.index ≤ fuel)
    (hfuel' : t.index ≤ fuel') : s'.lookupWithin name fuel' t = s.lookupWithin name fuel t := by
  induction h generalizing fuel fuel' with
  | @outermost t record hrecord hparent =>
    have htable := table_of_getElem? hrecord
    have htable' := table_of_getElem? (getElem?_of_begins htables hrecord)
    have hget : s'.get? t name = s.get? t name := by rw [get?, get?, htable, htable']
    cases fuel <;> cases fuel' <;> simp only [lookupWithin, hget, htable, htable', hparent] <;>
      cases s.get? t name <;> rfl
  | @inner t outer record hrecord hparent hlt houter ih =>
    have htable := table_of_getElem? hrecord
    have htable' := table_of_getElem? (getElem?_of_begins htables hrecord)
    have hget : s'.get? t name = s.get? t name := by rw [get?, get?, htable, htable']
    obtain ⟨fuel, rfl⟩ := Nat.exists_eq_add_of_lt (Nat.lt_of_lt_of_le hlt hfuel)
    obtain ⟨fuel', rfl⟩ := Nat.exists_eq_add_of_lt (Nat.lt_of_lt_of_le hlt hfuel')
    simp only [lookupWithin, hget, htable, htable', hparent,
      ih (Nat.le_add_right outer.index fuel) (Nat.le_add_right outer.index fuel')]

/-- A name is looked up alike from scopes with the same record. -/
theorem lookup?_of_same {s' : Store} (htables : s.tables.toList <+: s'.tables.toList) {t' : TableId}
    (h : Chained s.tables.toList t) (hsame : s'.table t' = s.table t) (name : String) :
    s'.lookup? t' name = s.lookup? t name := by
  have hget : s'.get? t' name = s.get? t name := by rw [get?, get?, hsame]
  have hsize : s.tables.size ≤ s'.tables.size := by simpa using htables.length_le
  have hlt : t.index < s.tables.size := by simpa using h.lt
  unfold lookup?
  cases h with
  | @outermost _ record hrecord hparent =>
    have htable := table_of_getElem? hrecord
    cases s.tables.size <;> cases s'.tables.size <;>
      simp only [lookupWithin, hget, hsame, htable, hparent] <;> cases s.get? t name <;> rfl
  | @inner _ outer record hrecord hparent houter hrest =>
    have htable := table_of_getElem? hrecord
    obtain ⟨n, hn⟩ := Nat.exists_eq_add_of_lt (Nat.lt_trans houter hlt)
    obtain ⟨n', hn'⟩ := Nat.exists_eq_add_of_lt (Nat.lt_of_lt_of_le (Nat.lt_trans houter hlt) hsize)
    rw [hn, hn']
    simp only [lookupWithin, hget, hsame, htable, hparent,
      lookupWithin_of_prefix htables hrest name (Nat.le_add_right outer.index n) (Nat.le_add_right outer.index n')]

end Store

end Surmise
