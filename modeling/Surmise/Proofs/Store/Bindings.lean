import Surmise.Proofs.Project.SourceTree

/-!
# New bindings

Names are only ever bound to symbols that were made for them, and what a program does binds no name in a
package.

* `Store.BindsNew`: every binding of the later store is an old one, or that of a new symbol.
* `Store.PackagesKept`: the packages and their entries are the same.
-/

namespace Surmise

namespace Store

/-- Every binding of the later store is an old one, or that of a new symbol. -/
structure BindsNew (s s' : Store) : Prop where
  symbols : s.symbols.size ≤ s'.symbols.size
  binding : ∀ t name id, s'.get? t name = some id → s.get? t name = some id ∨ s.symbols.size ≤ id.index

/-- The packages and their entries are the same. -/
structure PackagesKept (s s' : Store) : Prop where
  packages : s'.packages = s.packages
  entries : ∀ t, s.IsPackageScope t → ∀ name, s'.get? t name = s.get? t name

variable {s s' s'' : Store}

theorem BindsNew.refl (s : Store) : BindsNew s s :=
  ⟨Nat.le_refl _, fun _ _ _ h => .inl h⟩

theorem BindsNew.trans (h : BindsNew s s') (h' : BindsNew s' s'') : BindsNew s s'' := by
  refine ⟨Nat.le_trans h.symbols h'.symbols, fun t name id hid => ?_⟩
  rcases h'.binding t name id hid with hold | hnew
  · exact h.binding t name id hold
  · exact .inr (Nat.le_trans h.symbols hnew)

theorem PackagesKept.refl (s : Store) : PackagesKept s s :=
  ⟨rfl, fun _ _ _ => rfl⟩

theorem package_of_packages (h : s'.packages = s.packages) (p : PackageId) : s'.package p = s.package p := by
  unfold package
  rw [h]

theorem PackagesKept.isPackageScope (h : PackagesKept s s') {t : TableId} (ht : s.IsPackageScope t) :
    s'.IsPackageScope t := by
  unfold IsPackageScope package at ht ⊢
  rwa [h.packages]

theorem PackagesKept.trans (h : PackagesKept s s') (h' : PackagesKept s' s'') : PackagesKept s s'' := by
  refine ⟨h'.packages.trans h.packages, fun t ht name => ?_⟩
  rw [h'.entries t (h.isPackageScope ht), h.entries t ht]

/-! ## Changes that bind nothing -/

theorem get?_of_tables (h : s'.tables = s.tables) (t : TableId) (name : String) : s'.get? t name = s.get? t name := by
  unfold get? table
  rw [h]

theorem bindsNew_of_tables (hx : s.Extends s') (h : s'.tables = s.tables) : BindsNew s s' := by
  refine ⟨hx.symbols, fun t name id hid => .inl ?_⟩
  rwa [get?_of_tables h] at hid

theorem bindsNew_put (s : Store) (id : SymbolId) (v : Value) : BindsNew s (StoreM.put id v s).2 :=
  bindsNew_of_tables (extends_put s id v) (tables_put s id v)

theorem packagesKept_put (s : Store) (id : SymbolId) (v : Value) : PackagesKept s (StoreM.put id v s).2 :=
  ⟨(sameObjects_put s id v).packages, fun t _ => get?_of_tables (tables_put s id v) t⟩

theorem bindsNew_opened (s : Store) (address : Address) (parent : Option TableId) :
    BindsNew s (StoreM.opened address parent s) := by
  refine ⟨Nat.le_refl _, fun t name id hid => .inl ?_⟩
  rwa [StoreM.get?_opened] at hid

theorem packagesKept_opened (s : Store) (address : Address) (parent : Option TableId) :
    PackagesKept s (StoreM.opened address parent s) :=
  ⟨rfl, fun t _ name => StoreM.get?_opened address parent s t name⟩

/-! ## Bindings -/

theorem get?_createPrivate (s : Store) (table : TableId) (name : String) (isPrivate : Bool) (t : TableId)
    (other : String) :
    (StoreM.createPrivate table name isPrivate s).2.get? t other = s.get? t other ∨ t = table ∧ other = name ∧
        (StoreM.createPrivate table name isPrivate s).2.get? t other = some ⟨s.symbols.size⟩ := by
  rw [StoreM.createPrivate_eq]
  split
  · exact .inl rfl
  · dsimp only
    rw [get?_bound]
    split
    · next h => exact .inr ⟨h.1.symm, h.2.2.symm, rfl⟩
    · exact .inl rfl

theorem bindsNew_createPrivate (s : Store) (table : TableId) (name : String) (isPrivate : Bool) :
    BindsNew s (StoreM.createPrivate table name isPrivate s).2 := by
  refine ⟨(extends_createPrivate s table name isPrivate).symbols, fun t other id hid => ?_⟩
  rcases get?_createPrivate s table name isPrivate t other with hold | ⟨-, -, hnew⟩
  · exact .inl (hold ▸ hid)
  · rw [hnew] at hid
    obtain rfl := Option.some.inj hid
    exact .inr (Nat.le_refl _)

/-- A step either leaves the tables alone, or binds a name outside of packages. -/
theorem Step.tables_or (h : Step s s') : s'.tables = s.tables ∨ ∃ table name isPrivate,
      ¬ s.IsPackageScope table ∧ s' = (StoreM.createPrivate table name isPrivate s).2 := by
  cases h with
  | create hfree name isPrivate => exact .inr ⟨_, name, isPrivate, hfree, rfl⟩
  | raise | newSymbol | newKwargs | addSubclass | setBases | setFramework => exact .inl rfl
  | produce symbol hv isPrivate => exact .inl (tables_producePrivate s symbol _ isPrivate)
  | init symbol hv hempty => exact .inl (tables_put s symbol _)
  | addKwarg dict name hv => exact .inl (by rw [StoreM.addKwarg_eq])

theorem Step.bindsNew (h : Step s s') : BindsNew s s' := by
  rcases h.tables_or with htables | ⟨table, name, isPrivate, -, rfl⟩
  · exact bindsNew_of_tables h.extension htables
  · exact bindsNew_createPrivate s table name isPrivate

theorem Step.packagesKept (h : Step s s') : PackagesKept s s' := by
  refine ⟨h.sameObjects.packages, fun t ht name => ?_⟩
  rcases h.tables_or with htables | ⟨table, other, isPrivate, hfree, rfl⟩
  · exact get?_of_tables htables t name
  · rcases get?_createPrivate s table other isPrivate t name with hold | ⟨rfl, -⟩
    · exact hold
    · exact absurd ht hfree

theorem Steps.bindsNew (h : Steps s s') : BindsNew s s' := by
  induction h with
  | refl => exact .refl s
  | tail _ hstep ih => exact ih.trans hstep.bindsNew

theorem Steps.packagesKept (h : Steps s s') : PackagesKept s s' := by
  induction h with
  | refl => exact .refl s
  | tail _ hstep ih => exact ih.trans hstep.packagesKept

/-! ## Objects and files -/

section Made

open StoreM

variable (hfree : ¬ s.IsPackageScope ⟨s.tables.size⟩)

include hfree

theorem bindsNew_newFunction (spec : FunctionSpec) :
    BindsNew s (newFunction spec s).2 ∧ PackagesKept s (newFunction spec s).2 := by
  obtain ⟨mid, info, hsteps, -, heq⟩ := newFunction_spec spec hfree
  have hnew := (bindsNew_opened s spec.address (some spec.parent)).trans hsteps.bindsNew
  have hkept := (packagesKept_opened s spec.address (some spec.parent)).trans hsteps.packagesKept
  rw [heq]
  exact ⟨⟨hnew.symbols, hnew.binding⟩, ⟨hkept.packages, hkept.entries⟩⟩

theorem bindsNew_newClass (name : String) (address : Address) (moduleName : String) :
    BindsNew s (newClass name address moduleName s).2 ∧ PackagesKept s (newClass name address moduleName s).2 := by
  obtain ⟨st, hsteps, heq⟩ := newClass_spec name address moduleName hfree
  have hadded : BindsNew s (classAdded name address s) :=
    ⟨Nat.le_refl _, (bindsNew_opened s address none).binding⟩
  have hkept : PackagesKept s (classAdded name address s) := ⟨rfl, (packagesKept_opened s address none).entries⟩
  rw [heq]
  exact ⟨hadded.trans hsteps.bindsNew, hkept.trans hsteps.packagesKept⟩

theorem bindsNew_newModule (name : String) (path : Path) (builtins : TableId) :
    BindsNew s (newModule name path builtins s).2 ∧ PackagesKept s (newModule name path builtins s).2 := by
  obtain ⟨mid, hsteps, heq⟩ := newModule_spec name path builtins hfree
  have hnew := (bindsNew_opened s (.ofFile path) (some builtins)).trans hsteps.bindsNew
  have hkept := (packagesKept_opened s (.ofFile path) (some builtins)).trans hsteps.packagesKept
  rw [heq]
  exact ⟨⟨hnew.symbols, hnew.binding⟩, ⟨hkept.packages, hkept.entries⟩⟩

end Made

theorem get?_produceIn (s : Store) (table : TableId) (name : String) (v : Value) (t : TableId) (other : String) :
    (StoreM.produceIn table name v s).2.get? t other = s.get? t other ∨ t = table ∧ other = name ∧
        (StoreM.produceIn table name v s).2.get? t other = some ⟨s.symbols.size⟩ := by
  rw [StoreM.produceIn_eq, get?_of_tables (tables_producePrivate _ _ v false)]
  exact get?_createPrivate s table name false t other

theorem bindsNew_produceIn (s : Store) (table : TableId) (name : String) (v : Value) :
    BindsNew s (StoreM.produceIn table name v s).2 := by
  rw [StoreM.produceIn_eq]
  exact (bindsNew_createPrivate s table name false).trans
    (bindsNew_of_tables (extends_producePrivate _ _ v false) (tables_producePrivate _ _ v false))

end Store

namespace SourceTree

open Store

variable {Q : Path → Prop} {a b : Store × SourceTree}

theorem Load.bindsNew (h : Load Q a b) : BindsNew a.1 b.1 := by
  cases h with
  | @package s t dir hnew => exact ⟨Nat.le_refl _, (bindsNew_opened s (.ofFile dir) none).binding⟩
  | entry s t hp hname hv => exact bindsNew_produceIn s _ _ _
  | init s t p m => exact bindsNew_of_tables (StoreM.extends_setInit p m s) rfl

theorem Loads.bindsNew (h : Loads Q a b) : BindsNew a.1 b.1 := by
  induction h with
  | refl => exact .refl _
  | tail _ hload ih => exact ih.trans hload.bindsNew

end SourceTree

end Surmise
