import Surmise.Proofs.Reached

/-!
# Class scopes are no lexical parents

A name is looked up in a scope, then in the scope around it, and so on. From a function, a lambda or a
comprehension the way leads through functions, lambdas and comprehensions to a module and to the builtins,
past the classes around them.

* `Store.chain`: the scopes that a lookup goes through, with `Store.lookup?_eq_findSome?`.
* `Session.Lexical.chain`: what they are.
* `Assembler.Reached.chain_avoids_classes`: the main statement.
-/

namespace Surmise

namespace Store

variable (s : Store)

/-- The scope and the nearest `fuel` scopes around it. -/
def chainWithin : Nat → TableId → List TableId
  | 0, table => [table]
  | fuel + 1, table =>
    table :: match (s.table table).parent with
      | some parent => chainWithin fuel parent
      | none => []

/-- The scopes that a lookup goes through. -/
def chain (table : TableId) : List TableId := s.chainWithin s.tables.size table

theorem lookupWithin_eq_findSome? (name : String) (fuel : Nat) (table : TableId) :
    s.lookupWithin name fuel table = (s.chainWithin fuel table).findSome? fun t => s.get? t name := by
  induction fuel generalizing table with
  | zero =>
    rw [lookupWithin, chainWithin, List.findSome?_singleton]
  | succ fuel ih =>
    rw [lookupWithin, chainWithin, List.findSome?_cons]
    cases s.get? table name with
    | some id => rfl
    | none =>
      dsimp only
      cases (s.table table).parent with
      | some parent => exact ih parent
      | none => rfl

theorem lookup?_eq_findSome? (table : TableId) (name : String) :
    s.lookup? table name = (s.chain table).findSome? fun t => s.get? t name :=
  s.lookupWithin_eq_findSome? name s.tables.size table

theorem chainWithin_of_parent {table parent : TableId} (h : (s.table table).parent = some parent)
    (fuel : Nat) : s.chainWithin (fuel + 1) table = table :: s.chainWithin fuel parent := by
  rw [chainWithin, h]

theorem chainWithin_of_outermost {table : TableId} (h : (s.table table).parent = none) (fuel : Nat) :
    s.chainWithin fuel table = [table] := by
  cases fuel with
  | zero => rfl
  | succ fuel => rw [chainWithin, h]

end Store

namespace Session

variable {σ : Setting} {s : Session} {t : TableId}

def IsModuleScope (s : Session) (t : TableId) : Prop :=
  ∃ m : ModuleId, m.index < s.store.modules.size ∧ (s.store.module m).members = t

/-- The members of a class, or the scope in which a class body is run. -/
def IsClassScope (s : Session) (t : TableId) : Prop := s.IsMembers t ∨ t ∈ s.bodies

/-! ## No scope has two roles -/

/-- How often a scope occurs among the scopes of each role. -/
theorem Inv.count_le_one (h : s.Inv σ) (t : TableId) :
    [σ.builtins].count t + (s.store.modules.toList.map ModuleInfo.members).count t +
      (s.store.classes.toList.map ClassInfo.members).count t +
      (s.store.functions.toList.map FunctionInfo.locals).count t +
      (s.assembly.comprehensions.map Prod.snd).count t + s.bodies.count t ≤ 1 := by
  have hcount := List.nodup_iff_count_le_one.mp h.nodup t
  simp only [scopes, List.count_cons, List.count_append, List.count_nil] at hcount ⊢
  omega

theorem IsModuleScope.count_pos (h : s.IsModuleScope t) :
    0 < (s.store.modules.toList.map ModuleInfo.members).count t := by
  obtain ⟨m, hm, rfl⟩ := h
  exact List.count_pos_iff.mpr (List.mem_map_of_mem (getD_mem hm default))

theorem IsInner.count_pos (h : s.IsInner t) : 0 < (s.store.functions.toList.map FunctionInfo.locals).count t +
      (s.assembly.comprehensions.map Prod.snd).count t := by
  rcases h with ⟨f, hf, rfl⟩ | ⟨site, hsite⟩
  · exact Nat.add_pos_left (List.count_pos_iff.mpr (List.mem_map_of_mem (getD_mem hf default))) _
  · exact Nat.add_pos_right _ (List.count_pos_iff.mpr (List.mem_map_of_mem hsite))

theorem IsClassScope.count_pos (h : s.IsClassScope t) :
    0 < (s.store.classes.toList.map ClassInfo.members).count t + s.bodies.count t := by
  rcases h with ⟨c, hc, rfl⟩ | hbody
  · exact Nat.add_pos_left (List.count_pos_iff.mpr (List.mem_map_of_mem (getD_mem hc default))) _
  · exact Nat.add_pos_right _ (List.count_pos_iff.mpr hbody)

theorem Inv.inner_apart (h : s.Inv σ) (ht : s.IsInner t) : ¬ s.IsModuleScope t ∧ ¬ s.IsClassScope t := by
  have hle := h.count_le_one t
  have hinner := ht.count_pos
  refine ⟨fun hmodule => ?_, fun hclass => ?_⟩
  · have hpos := hmodule.count_pos
    omega
  · have hpos := hclass.count_pos
    omega

theorem Inv.module_apart (h : s.Inv σ) (ht : s.IsModuleScope t) : ¬ s.IsClassScope t ∧ t ≠ σ.builtins := by
  have hle := h.count_le_one t
  have hmodule := ht.count_pos
  refine ⟨fun hclass => ?_, ?_⟩
  · have hpos := hclass.count_pos
    omega
  · rintro rfl
    rw [List.count_singleton_self] at hle
    omega

theorem Inv.builtins_apart (h : s.Inv σ) : ¬ s.IsClassScope σ.builtins := by
  intro hclass
  have hle := h.count_le_one σ.builtins
  have hpos := hclass.count_pos
  rw [List.count_singleton_self] at hle
  omega

/-! ## The scopes that a lookup goes through -/

/-- Scopes of functions, lambdas and comprehensions, then one of a module, then that of the builtins. -/
structure IsLexicalChain (σ : Setting) (s : Session) (inner : List TableId) (m : ModuleId)
    (chain : List TableId) : Prop where
  chain_eq : chain = inner ++ [(s.store.module m).members, σ.builtins]
  inner : ∀ t ∈ inner, s.IsInner t ∧ ¬ s.IsModuleScope t
  module : m.index < s.store.modules.size

/-- Parents come earlier in the store than what lies in them, so a lookup has fuel enough. -/
theorem Lexical.chainWithin (h : s.Lexical t) (hinv : s.Inv σ) {fuel : Nat} (hfuel : t.index ≤ fuel) :
    ∃ inner m, IsLexicalChain σ s inner m (s.store.chainWithin fuel t) := by
  induction h generalizing fuel with
  | @module m hm =>
    -- the builtins are first in the store, so a module is not
    have hne := (hinv.module_apart ⟨m, hm, rfl⟩).2
    cases fuel with
    | zero =>
      refine absurd ?_ hne
      rw [hinv.builtins, ← Nat.le_zero.mp hfuel]
    | succ fuel =>
      refine ⟨[], m, ?_, nofun, hm⟩
      rw [s.store.chainWithin_of_parent (hinv.modules m hm).1, s.store.chainWithin_of_outermost hinv.outermost]
      rfl
  | @inner t outer hinner hparent hlt _ ih =>
    cases fuel with
    | zero => omega
    | succ fuel =>
      obtain ⟨inner, m, hchain⟩ := ih (Nat.le_of_lt_succ (Nat.lt_of_lt_of_le hlt hfuel))
      refine ⟨t :: inner, m, ?_, fun u hu => ?_, hchain.module⟩
      · rw [s.store.chainWithin_of_parent hparent, hchain.chain_eq]
        rfl
      · rcases List.mem_cons.mp hu with rfl | hu
        · exact ⟨hinner, (hinv.inner_apart hinner).1⟩
        · exact hchain.inner u hu

theorem IsLexicalChain.avoids {inner chain : List TableId} {m : ModuleId}
    (h : IsLexicalChain σ s inner m chain) (hinv : s.Inv σ) : ∀ t ∈ chain, ¬ s.IsClassScope t := by
  intro t ht
  rw [h.chain_eq, List.mem_append, List.mem_cons, List.mem_singleton] at ht
  rcases ht with hinner | rfl | rfl
  · exact (hinv.inner_apart (h.inner t hinner).1).2
  · exact (hinv.module_apart ⟨m, h.module, rfl⟩).1
  · exact hinv.builtins_apart

end Session

namespace Assembler

open Session

/--
**Class scopes are no lexical parents.** In every state of a build, a lookup from a function, a lambda or a
comprehension goes through scopes of functions, lambdas and comprehensions, then through one module, then
through the builtins. None of them is a scope of a class, so no symbol of such a scope is found, and a name
that only such scopes bind is not found at all.
-/
theorem Reached.chain_avoids_classes {a : Assembler} (h : a.Reached) {s : Session}
    (hs : Moves a.setting a.session s) {t : TableId} (ht : s.IsInner t) :
    (∃ inner m, IsLexicalChain a.setting s inner m (s.store.chain t)) ∧
      (∀ u ∈ s.store.chain t, ¬ s.IsClassScope u) ∧
      ∀ name, s.store.lookup? t name = (s.store.chain t).findSome? (fun u => s.store.get? u name) ∧
        (∀ u, s.IsClassScope u → ∀ id, s.store.get? u name = some id → s.store.lookup? t name ≠ some id) ∧
        ((∀ u, (s.store.get? u name).isSome → s.IsClassScope u) → s.store.lookup? t name = none) := by
  have hinv := h.ordered.inv.afterMoves hs
  have hlexical := hinv.lexical t ht
  have hknown : t.index ≤ s.store.tables.size := Nat.le_of_lt (hinv.known t (mem_scopes_lexical hlexical))
  obtain ⟨inner, m, hchain⟩ := hlexical.chainWithin hinv hknown
  have havoids : ∀ u ∈ s.store.chain t, ¬ s.IsClassScope u := hchain.avoids hinv
  refine ⟨⟨inner, m, hchain⟩, havoids, fun name => ⟨s.store.lookup?_eq_findSome? t name, ?_, ?_⟩⟩
  · intro u hu id hid hfound
    rw [s.store.lookup?_eq_findSome?] at hfound
    obtain ⟨v, hv, hbound⟩ := List.exists_of_findSome?_eq_some hfound
    -- a symbol is bound in one scope only
    obtain ⟨rfl, -⟩ := hinv.consistent.tidy.once u v name name id hid hbound
    exact havoids u hv hu
  · intro honly
    rw [s.store.lookup?_eq_findSome?, List.findSome?_eq_none_iff]
    intro u hu
    by_contra hbound
    exact havoids u hu (honly u (Option.isSome_iff_ne_none.mpr hbound))

/-- An assembler with a class that binds `x`, in it a class, and in that a method that returns `x`. -/
def ofNestedClass : Assembler :=
  ofModule 1
    [.classDef 0 "C" [] []
      [.assign [.ident "x"] (.literal .float),
        .classDef 1 "D" [] []
          [.functionDef 2 "f" ⟨[⟨"self", none, none, false⟩], none, none⟩
            [.returnStmt (some (.ident "x"))] [] none false 4] [] 3] [] 1]

def nestedClassBuilt : Assembler := (ofNestedClass.perform (Run.build 20 .new)).2

set_option maxRecDepth 100000 in
/-- The method lies in the module, whatever classes are around it. -/
theorem chain_avoids_classes_nestedClassBuilt :
    nestedClassBuilt.session.store.chain ⟨8⟩ = [⟨8⟩, ⟨1⟩, ⟨0⟩] ∧
      (∀ u ∈ nestedClassBuilt.session.store.chain ⟨8⟩, ¬ nestedClassBuilt.session.IsClassScope u) ∧
      nestedClassBuilt.session.store.get? ⟨4⟩ "x" = some ⟨76⟩ ∧
      nestedClassBuilt.session.store.lookup? ⟨8⟩ "x" ≠ some ⟨76⟩ := by
  have hfacts : nestedClassBuilt.session.store.chain ⟨8⟩ = [⟨8⟩, ⟨1⟩, ⟨0⟩] ∧
      nestedClassBuilt.session.store.get? ⟨4⟩ "x" = some ⟨76⟩ ∧
      (0 < nestedClassBuilt.session.store.functions.size ∧
        (nestedClassBuilt.session.store.function ⟨0⟩).locals = ⟨8⟩) ∧
      0 < nestedClassBuilt.session.store.classes.size ∧
        (nestedClassBuilt.session.store.classOf ⟨0⟩).members = ⟨4⟩ := by decide +kernel
  obtain ⟨hchain, hbound, hlocals, hmembers⟩ := hfacts
  have hreached : nestedClassBuilt.Reached := .build (reached_ofModule _ _) 20 .new
  obtain ⟨-, havoids, hlookup⟩ := hreached.chain_avoids_classes .refl (.inl ⟨⟨0⟩, hlocals⟩)
  exact ⟨hchain, havoids, hbound, (hlookup "x").2.1 ⟨4⟩ (.inl ⟨⟨0⟩, hmembers⟩) ⟨76⟩ hbound⟩

end Assembler

end Surmise
