import Surmise.Proofs.Reached
import Surmise.Proofs.Store.Bindings
import Surmise.Proofs.Store.Values

/-!
# What scopes bind names to

The value that a scope itself gives to a name, and which changes of the store leave it as it is.

* `StoreM.valueIn?_putIn`, `StoreM.valueIn?_entered`: writes to a name of a scope.
* `Store.Fresh`: the scope of a module binds what every module binds.
* `StoreM.fresh_newModule`, `SourceTree.Loads.fresh`: it does so when the module was made, and files are added.
-/

namespace Surmise

namespace Store

/-- The value that a scope itself gives to a name. -/
def valueIn? (s : Store) (t : TableId) (name : String) : Option Value := (s.get? t name).map s.value

theorem valueIn?_congr {s s' : Store} {t : TableId} {name : String} (hget : s'.get? t name = s.get? t name)
    (hvalue : ∀ id, s.get? t name = some id → s'.value id = s.value id) :
    s'.valueIn? t name = s.valueIn? t name := by
  unfold valueIn?
  rw [hget]
  cases hid : s.get? t name with
  | none => rfl
  | some id => exact congrArg some (hvalue id hid)

end Store

namespace StoreM

open Store

variable {s : Store} {table t : TableId} {name other : String}

theorem get?_createPrivate_self (htable : table.index < s.tables.size) (name : String) (isPrivate : Bool) :
    (createPrivate table name isPrivate s).2.get? table name = some (createPrivate table name isPrivate s).1 := by
  rw [createPrivate_eq]
  cases hbound : s.get? table name with
  | some symbol => exact hbound
  | none => rw [get?_bound, if_pos ⟨rfl, htable, rfl⟩]

/-- The symbol of a name is that of no other one, and the symbols that there were hold what they held. -/
theorem createPrivate_apart (hs : s.Tidy) (hne : ¬ (t = table ∧ other = name)) (isPrivate : Bool) :
    (createPrivate table name isPrivate s).2.get? t other = s.get? t other ∧
      ∀ id, s.get? t other = some id → (createPrivate table name isPrivate s).1 ≠ id ∧
        (createPrivate table name isPrivate s).2.value id = s.value id := by
  rw [createPrivate_eq]
  cases hbound : s.get? table name with
  | some symbol =>
    refine ⟨rfl, fun id hid => ⟨?_, rfl⟩⟩
    rintro rfl
    exact hne (hs.once t table other name symbol hid hbound)
  | none =>
    refine ⟨?_, fun id hid => ?_⟩
    · rw [get?_bound, if_neg fun hnew => hne ⟨hnew.1.symm, hnew.2.2.symm⟩]
    · have hold := Nat.ne_of_lt (hs.entry t other id hid).1
      refine ⟨?_, by rw [value_bound, if_neg hold]⟩
      rintro rfl
      exact hold rfl

/-- A write to the symbol that was found or made for a name leaves all other names as they are. -/
theorem valueIn?_of_created (hs : s.Tidy) (hne : ¬ (t = table ∧ other = name)) {made : Bool} {s' : Store}
    (htables : s'.tables = (createPrivate table name made s).2.tables)
    (hothers : ∀ id, (createPrivate table name made s).1 ≠ id →
      s'.value id = (createPrivate table name made s).2.value id) :
    s'.valueIn? t other = s.valueIn? t other := by
  obtain ⟨hkept, hapart⟩ := createPrivate_apart hs hne made
  refine valueIn?_congr ((get?_of_tables htables t other).trans hkept) fun id hid => ?_
  obtain ⟨hother, hvalue⟩ := hapart id hid
  rw [hothers id hother, hvalue]

theorem valueIn?_putIn (hs : s.Tidy) (htable : table.index < s.tables.size) {v : Value} (hv : v.isNumbered) :
    (putIn table name v s).2.valueIn? t other =
      if t = table ∧ other = name then some v else s.valueIn? t other := by
  have hput : (putIn table name v s).2 =
      (put (createPrivate table name false s).1 v (createPrivate table name false s).2).2 := rfl
  have hself := get?_createPrivate_self htable name false
  have hlt := ((hs.createPrivate table name false).entry _ _ _ hself).1
  rw [hput]
  split
  · next hsame =>
    rw [hsame.1, hsame.2, valueIn?, get?_of_tables (tables_put ..), hself, Option.map_some, value_put,
      if_pos ⟨rfl, hlt⟩, Value.number_of_isNumbered hv]
  · next hne =>
    refine valueIn?_of_created hs hne (tables_put ..) fun id hid => ?_
    rw [value_put, if_neg fun hsame => hid (congrArg SymbolId.mk hsame.1)]

/-- The store after a value was joined into the symbol of a name, which is made if there is none. -/
def entered (table : TableId) (name : String) (made : Bool) (v : Value) (isPrivate : Bool) (s : Store) : Store :=
  (producePrivate (createPrivate table name made s).1 v isPrivate (createPrivate table name made s).2).2

/-- A name that is bound to a value is the only one that holds something else. -/
theorem valueIn?_entered_of_ne (hs : s.Tidy) (hne : ¬ (t = table ∧ other = name)) (made : Bool) (v : Value)
    (isPrivate : Bool) : (entered table name made v isPrivate s).valueIn? t other = s.valueIn? t other :=
  valueIn?_of_created hs hne (tables_producePrivate ..) fun _ hid => value_producePrivate_of_ne hid v isPrivate

theorem value_createPrivate_self (table : TableId) (name : String) (made : Bool) (s : Store) :
    (createPrivate table name made s).2.value (createPrivate table name made s).1 =
      (s.valueIn? table name).getD .empty := by
  rw [createPrivate_eq, valueIn?]
  cases s.get? table name with
  | some id => rfl
  | none => exact (value_bound _).trans (if_pos rfl)

/-- **Binding a name** of a scope joins the value into what the name holds. -/
theorem valueIn?_entered (hs : s.Tidy) (htable : table.index < s.tables.size) (made : Bool) (v : Value)
    (isPrivate : Bool) : (entered table name made v isPrivate s).valueIn? table name =
      some (s.joined ((s.valueIn? table name).getD .empty) v) := by
  have hself := get?_createPrivate_self htable name made
  have hlt := ((hs.createPrivate table name made).entry _ _ _ hself).1
  have hserial : (createPrivate table name made s).2.nextSerial = s.nextSerial := by
    rw [createPrivate_eq]
    cases s.get? table name <;> rfl
  rw [← value_createPrivate_self table name made s, valueIn?, entered, get?_of_tables (tables_producePrivate ..), hself,
    Option.map_some, Store.value, symbol_producePrivate, if_pos ⟨rfl, hlt⟩]
  unfold Store.joined
  rw [hserial]

theorem valueIn?_putAll (hs : s.Consistent) (htable : table.index < s.tables.size)
    {entries : List (String × Value)} (hkeys : (entries.map Prod.fst).Nodup)
    (hv : ∀ e ∈ entries, e.2.isNumbered ∧ ∀ n, e.2.Sound n) :
    (putAll table entries s).2.valueIn? table name = (entries.lookup name).or (s.valueIn? table name) := by
  induction entries generalizing s with
  | nil => rfl
  | cons e rest ih =>
    obtain ⟨key, v⟩ := e
    obtain ⟨hnumbered, hsound⟩ := hv (key, v) List.mem_cons_self
    rw [List.map_cons, List.nodup_cons] at hkeys
    have hput : putAll table ((key, v) :: rest) s = putAll table rest (putIn table key v s).2 := rfl
    have hfirst : (putIn table key v s).2.valueIn? table name =
        if table = table ∧ name = key then some v else s.valueIn? table name :=
      valueIn?_putIn hs.tidy htable hnumbered
    have hcreated : (createPrivate table key false s).2.Consistent :=
      ⟨hs.sound.createPrivate table key false, hs.tidy.createPrivate table key false⟩
    have hconsistent : (putIn table key v s).2.Consistent := hcreated.put _ (hsound _)
    have hextends : s.Extends (putIn table key v s).2 :=
      (extends_createPrivate s table key false).trans (extends_put _ _ v)
    rw [hput, ih hconsistent (Nat.lt_of_lt_of_le htable hextends.tables) hkeys.2
      fun e he => hv e (List.mem_cons_of_mem _ he), hfirst, List.lookup_cons]
    by_cases hname : name = key
    · have hrest : rest.lookup key = none := List.lookup_eq_none_iff.mpr fun e he =>
        bne_iff_ne.mpr fun hkey => hkeys.1 (List.mem_map.mpr ⟨e, he, hkey.symm⟩)
      rw [hname, if_pos ⟨rfl, rfl⟩, beq_self_eq_true, hrest]
      rfl
    · rw [if_neg fun h => hname h.2, beq_false_of_ne hname]

/-- What every module binds. -/
def presets : List (String × Value) :=
  [("__file__", .str none), ("__name__", .str none), ("__doc__", .str none), ("__package__", .str none),
    ("__builtins__", .external "builtins")]

theorem newModule_eq (moduleName : String) (path : Path) (builtins : TableId) (s : Store) :
    newModule moduleName path builtins s =
      let filled := (putAll ⟨s.tables.size⟩ presets (opened (.ofFile path) (some builtins) s)).2
      (⟨filled.modules.size⟩, { filled with modules := filled.modules.push ⟨moduleName, path, ⟨s.tables.size⟩⟩ }) := by
  have hmakes : newModule moduleName path builtins = (do
      let members ← newTable (.ofFile path) (some builtins)
      putAll members presets
      modifyGet fun s => (⟨s.modules.size⟩, { s with modules := s.modules.push ⟨moduleName, path, members⟩ })) := by
    rw [newModule, presets]
  rw [hmakes]
  generalize presets = entries
  rfl

theorem lt_opened (address : Address) (parent : Option TableId) (s : Store) :
    s.tables.size < (opened address parent s).tables.size := by
  unfold opened
  rw [Array.size_push]
  exact Nat.lt_succ_self _

/-- The scope of a new module binds what every module binds, and nothing else. -/
theorem valueIn?_presets (hs : s.Consistent) (address : Address) (parent : Option TableId) (name : String) :
    (putAll ⟨s.tables.size⟩ presets (opened address parent s)).2.valueIn? ⟨s.tables.size⟩ name =
      presets.lookup name := by
  have hnone : (opened address parent s).valueIn? ⟨s.tables.size⟩ name = none := by
    have hfree : s.get? ⟨s.tables.size⟩ name = none := get?_of_size_le (Nat.le_refl _) name
    rw [valueIn?, get?_opened, hfree]
    rfl
  have hpresets : ∀ e ∈ presets, e.2.isNumbered ∧ ∀ n, e.2.Sound n := by
    simp [presets, Value.isNumbered]
  have hlt : (⟨s.tables.size⟩ : TableId).index < (opened address parent s).tables.size := lt_opened ..
  rw [valueIn?_putAll (consistent_opened address parent hs) hlt (by decide) hpresets, hnone, Option.or_none]

end StoreM

/-- A module is there, its scope binds what every module binds, and there are no functions. -/
structure Store.Fresh (s : Store) (m : ModuleId) : Prop where
  consistent : s.Consistent
  functions : s.functions = #[]
  module : m.index < s.modules.size
  members : (s.module m).members.index < s.tables.size
  free : ¬ s.IsPackageScope (s.module m).members
  binds : ∀ name, s.valueIn? (s.module m).members name = StoreM.presets.lookup name

/-- **A new module** binds what every module binds. -/
theorem StoreM.fresh_newModule {s : Store} (hs : s.Consistent) (hfree : ¬ s.IsPackageScope ⟨s.tables.size⟩)
    (hfunctions : s.functions = #[]) (moduleName : String) (path : Path) (builtins : TableId) :
    (newModule moduleName path builtins s).2.Fresh (newModule moduleName path builtins s).1 := by
  have hpresets : ∀ e ∈ presets, ∀ n, e.2.Sound n := by simp [presets]
  obtain ⟨hextends, hconsistent, hsame⟩ := putAll_keeps ⟨s.tables.size⟩ hpresets
    (consistent_opened (.ofFile path) (some builtins) hs)
  have hbinds := valueIn?_presets hs (.ofFile path) (some builtins)
  have hfree' := (not_congr (hsame.isPackageScope_iff ⟨s.tables.size⟩)).mpr hfree
  have hlt := Nat.lt_of_lt_of_le (lt_opened (.ofFile path) (some builtins) s) hextends.tables
  have hfunctions' := hsame.functions.trans hfunctions
  rw [newModule_eq]
  generalize (putAll ⟨s.tables.size⟩ presets (opened (.ofFile path) (some builtins) s)).2 = filled
    at hconsistent hbinds hfree' hlt hfunctions'
  have hmembers : (Store.module { filled with modules := filled.modules.push ⟨moduleName, path, ⟨s.tables.size⟩⟩ }
      ⟨filled.modules.size⟩).members = ⟨s.tables.size⟩ := by
    unfold Store.module
    rw [getD_push, if_pos rfl]
  refine ⟨⟨{ hconsistent.sound with }, hconsistent.tidy.entry, hconsistent.tidy.once⟩, hfunctions', ?_, ?_, ?_, ?_⟩
  · exact lt_of_lt_of_eq (Nat.lt_succ_self _) (Array.size_push _).symm
  · dsimp only
    rw [hmembers]
    exact hlt
  · dsimp only
    rw [hmembers]
    exact hfree'
  · dsimp only
    rw [hmembers]
    exact hbinds

namespace SourceTree

open Store StoreM

variable {Q : Path → Prop} {a b : Store × SourceTree} {t : TableId} {m : ModuleId}

theorem Load.consistent (h : Load Q a b) (hs : a.1.Consistent) : b.1.Consistent := by
  cases h with
  | package s t hnew => exact consistent_packageAdded hs _
  | entry s t hp hname hv => exact consistent_produceIn hs _ _ hv
  | init s t p m => exact consistent_setInit hs p m

/-- The scope of something else does not become that of a package. -/
theorem Load.not_isPackageScope (h : Load Q a b) (ht : t.index < a.1.tables.size)
    (hfree : ¬ a.1.IsPackageScope t) : ¬ b.1.IsPackageScope t := by
  cases h with
  | @package s _ dir hnew =>
    rintro ⟨p, hp, hentries⟩
    rw [package_packageAdded] at hentries
    split at hentries
    · exact Nat.ne_of_lt ht (congrArg TableId.index hentries).symm
    · next hold =>
      have hsize : (packageAdded dir s).packages.size = s.packages.size + 1 := Array.size_push ..
      have hlt : p.index < s.packages.size := by
        dsimp only at hp
        omega
      exact hfree ⟨p, hlt, hentries⟩
  | entry s _ hp hname hv => exact (not_congr ((sameObjects_produceIn ..).isPackageScope_iff t)).mpr hfree
  | init s _ p m =>
    rintro ⟨q, hq, hentries⟩
    have hsize : (setInit p m s).2.packages.size = s.packages.size := Array.size_modify ..
    dsimp only at hq
    exact hfree ⟨q, hsize ▸ hq, (package_setInit p q m s).2.symm.trans hentries⟩

/-- Adding files changes the scopes of packages only. -/
theorem Load.valueIn?_eq (h : Load Q a b) (hs : a.1.Consistent) (hfree : ¬ a.1.IsPackageScope t) (name : String) :
    b.1.valueIn? t name = a.1.valueIn? t name := by
  cases h with
  | package s _ hnew => exact valueIn?_congr (get?_opened ..) fun _ _ => rfl
  | entry s _ hp hname hv =>
    exact valueIn?_entered_of_ne hs.tidy (fun hsame => hfree ⟨_, hp, hsame.1.symm⟩) false _ false
  | init s _ p m => rfl

theorem Load.functions (h : Load Q a b) : b.1.functions = a.1.functions := by
  cases h with
  | entry => exact (sameObjects_produceIn ..).functions
  | package | init => rfl

theorem Load.fresh (h : Load Q a b) (hm : a.1.Fresh m) : b.1.Fresh m := by
  have hmodule := h.extension.module m hm.module
  refine ⟨h.consistent hm.consistent, h.functions.trans hm.functions,
    Nat.lt_of_lt_of_le hm.module h.extension.modules, ?_, ?_, fun name => ?_⟩
  · rw [hmodule]
    exact Nat.lt_of_lt_of_le hm.members h.extension.tables
  · rw [hmodule]
    exact h.not_isPackageScope hm.members hm.free
  · rw [hmodule, h.valueIn?_eq hm.consistent hm.free]
    exact hm.binds name

theorem Loads.fresh (h : Loads Q a b) (hm : a.1.Fresh m) : b.1.Fresh m := by
  induction h with
  | refl => exact hm
  | tail _ hload ih => exact hload.fresh ih

end SourceTree

end Surmise
