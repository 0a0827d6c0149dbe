import Surmise.Proofs.Addressing
import Surmise.SymbolWalk

/-!
# Symbols have addresses of their own

The address of a symbol is that of its scope with its name behind a dot. As long as no name has a dot,
the address tells the scope and the name apart; so no two symbols of an assembly have one address, and the
walk over all of them reaches its end.

* `Address.child_of_path_empty`, `Address.child_of_path_ne`: what the address of a scope and a name are told from.
* `Session.Place`, `Session.Held`: the scopes of an assembly, and what is in them.
* `Assembler.Reached.addresses_unique`: the main statement.
-/

namespace Surmise

/-! ## Names and addresses -/

/-- A name that addresses can be made of: it is not empty, and has no dot. -/
def IsSimple (name : String) : Prop := name ≠ "" ∧ '.' ∉ name.toList

instance (name : String) : Decidable (IsSimple name) :=
  inferInstanceAs (Decidable (name ≠ "" ∧ '.' ∉ name.toList))

namespace Address

variable {a : Address}

theorem child_of_path_empty (h : a.path = "") (name : String) :
    (a.child name).key = (name, a.file.components) := by
  unfold child key
  rw [h]
  rfl

theorem child_of_path_ne (h : a.path ≠ "") (name : String) :
    (a.child name).key = (a.path ++ "." ++ name, a.file.components) := by
  have hempty : a.path.isEmpty = false := by
    rw [Bool.eq_false_iff]
    intro hpath
    exact h (String.isEmpty_iff.mp hpath)
  unfold child key
  rw [hempty]
  rfl

theorem toList_dotted (path name : String) : (path ++ "." ++ name).toList = path.toList ++ '.' :: name.toList := by
  simp

/-- A longer path would put a dot into the name. -/
theorem eq_nil_of_dot_cons {c m n : List Char} (hm : '.' ∉ m) (h : '.' :: m = c ++ '.' :: n) : c = [] := by
  cases c with
  | nil => rfl
  | cons first rest =>
    obtain ⟨-, rfl⟩ := List.cons.inj h
    exact absurd (List.mem_append_right _ List.mem_cons_self) hm

/-- A path is told from the name behind its last dot. -/
theorem dotted_inj {p q m n : String} (hm : '.' ∉ m.toList) (hn : '.' ∉ n.toList)
    (h : p ++ "." ++ m = q ++ "." ++ n) : p = q ∧ m = n := by
  have hlist : p.toList ++ '.' :: m.toList = q.toList ++ '.' :: n.toList := by
    rw [← toList_dotted, ← toList_dotted, h]
  obtain ⟨hpath, hname⟩ : p.toList = q.toList ∧ m.toList = n.toList := by
    rcases List.append_eq_append_iff.mp hlist with ⟨c, hq, hrest⟩ | ⟨c, hp, hrest⟩
    · obtain rfl := eq_nil_of_dot_cons hm hrest
      exact ⟨by simpa using hq.symm, (List.cons.inj hrest).2⟩
    · obtain rfl := eq_nil_of_dot_cons hn hrest
      exact ⟨by simpa using hp, (List.cons.inj hrest).2.symm⟩
  exact ⟨String.toList_inj.mp hpath, String.toList_inj.mp hname⟩

/-- A dotted path is no simple name. -/
theorem dotted_ne {p m n : String} (hn : '.' ∉ n.toList) : p ++ "." ++ m ≠ n := by
  rintro rfl
  apply hn
  rw [toList_dotted]
  exact List.mem_append_right _ List.mem_cons_self

end Address

namespace Session

variable {t : TableId} {id : SymbolId} {name : String} {e : Path × PackageId}

/-! ## Scopes and what is in them -/

/-- The scopes whose symbols are walked over. -/
inductive Place (s : Session) : TableId → Prop
  | directory {e : Path × PackageId} (he : e ∈ s.assembly.tree.dirs) : Place s (s.store.package e.2).entries
  | file {e : Path × ModuleId} (he : e ∈ s.assembly.tree.files) : Place s (s.store.module e.2).members
  | claimed {t : TableId} (ht : t ∈ s.claimed) : Place s t

/-- The symbol is bound to the name in the scope, or collects what the function of the scope returns. -/
def Held (s : Session) (t : TableId) (name : String) (id : SymbolId) : Prop :=
  s.store.get? t name = some id ∨
    ∃ f : FunctionId, f.index < s.store.functions.size ∧ (s.store.function f).locals = t ∧
      name = returnName ∧ (s.store.function f).returns = id

theorem held_of_mem_symbolsOf {s : Session} (h : id ∈ s.store.symbolsOf t) : ∃ name, s.Held t name id := by
  obtain ⟨name, hname⟩ := OrderedMap.exists_get?_of_mem_values h
  exact ⟨name, .inl hname⟩

/-- Every symbol that is walked over is held by some scope. -/
theorem held_of_mem_symbols {σ : Setting} {s : Session} (hinv : s.Inv σ) (h : id ∈ s.assembly.symbols s.store) :
    ∃ t name, s.Place t ∧ s.Held t name id := by
  have hsites := hinv.sites
  simp only [Assembly.symbols, List.mem_append, List.mem_flatMap] at h
  rcases h with (((⟨e, he, hid⟩ | ⟨m, hm, hid⟩) | ⟨e, he, hid⟩) | ⟨f, hf, hid⟩) | ⟨e, he, hid⟩
  · obtain ⟨name, hheld⟩ := held_of_mem_symbolsOf hid
    exact ⟨_, name, .directory he, hheld⟩
  · obtain ⟨file, -, hfile⟩ := List.mem_filterMap.mp hm
    obtain ⟨e, he, rfl⟩ := Run.mem_files_of_file? hfile
    obtain ⟨name, hheld⟩ := held_of_mem_symbolsOf hid
    exact ⟨_, name, .file he, hheld⟩
  · obtain ⟨name, hheld⟩ := held_of_mem_symbolsOf hid
    exact ⟨_, name, .claimed (mem_claimed_class (hsites.classes e he)), hheld⟩
  · have hlt : f.index < s.store.functions.size := by
      obtain ⟨e, he, rfl⟩ := List.mem_map.mp hf
      rcases List.mem_append.mp he with hfunction | hlambda
      · exact hsites.functions e hfunction
      · exact hsites.lambdas e hlambda
    refine ⟨(s.store.function f).locals, ?_⟩
    rcases hid with hlocal | hreturn
    · obtain ⟨name, hheld⟩ := held_of_mem_symbolsOf hlocal
      exact ⟨name, .claimed (mem_claimed_function hlt), hheld⟩
    · obtain rfl := List.mem_singleton.mp hreturn
      exact ⟨returnName, .claimed (mem_claimed_function hlt), .inr ⟨f, hlt, rfl, rfl, rfl⟩⟩
  · obtain ⟨name, hheld⟩ := held_of_mem_symbolsOf hid
    exact ⟨_, name, .claimed (mem_claimed_comprehension he), hheld⟩

theorem Held.address {σ : Setting} {s : Session} (hinv : s.Inv σ) (ha : s.Addressed)
    (h : s.Held t name id) : (s.store.symbol id).address = (s.store.table t).address.child name := by
  rcases h with hbound | ⟨f, hf, rfl, rfl, rfl⟩
  · exact (hinv.consistent.tidy.entry t name id hbound).2.2
  · exact (ha.functions f hf).address

/-- What tells the address of a name in a scope from others. -/
def key (s : Session) (t : TableId) (name : String) : String × Path.Components :=
  ((s.store.table t).address.child name).key

/-! ## What addresses rely on -/

/-- What the programs bind and define has simple names. -/
structure SimplyNamed (s : Session) : Prop where
  modules : ∀ m ∈ s.store.modules.toList, ∀ name ∈ (s.store.table m.members).entries.keys, IsSimple name
  claimed : ∀ t ∈ s.claimed, ∀ name ∈ (s.store.table t).entries.keys, IsSimple name
  functions : ∀ f ∈ s.store.functions.toList, IsSimple f.name
  classes : ∀ c ∈ s.store.classes.toList, IsSimple c.name

/-- No analysed file has the path of a directory around another one. -/
def FilesApart (s : Session) : Prop :=
  ∀ file ∈ s.assembly.files, ∀ other ∈ s.assembly.files, (file.path == other.path) = false →
    ¬ other.path.LiesBelow file.path

/-- No local of a function has the name of the symbol that collects what the function returns. -/
def ReturnsApart (s : Session) : Prop :=
  ∀ f ∈ s.store.functions.toList, (s.store.get? f.locals returnName).isNone

instance (s : Session) : Decidable s.SimplyNamed :=
  decidable_of_iff ((∀ m ∈ s.store.modules.toList, ∀ name ∈ (s.store.table m.members).entries.keys, IsSimple name) ∧
      (∀ t ∈ s.claimed, ∀ name ∈ (s.store.table t).entries.keys, IsSimple name) ∧
      (∀ f ∈ s.store.functions.toList, IsSimple f.name) ∧ ∀ c ∈ s.store.classes.toList, IsSimple c.name)
    ⟨fun ⟨hm, ht, hf, hc⟩ => ⟨hm, ht, hf, hc⟩, fun ⟨hm, ht, hf, hc⟩ => ⟨hm, ht, hf, hc⟩⟩

instance (s : Session) : Decidable s.FilesApart :=
  inferInstanceAs (Decidable (∀ file ∈ s.assembly.files, ∀ other ∈ s.assembly.files, _ → _))

instance (s : Session) : Decidable s.ReturnsApart :=
  inferInstanceAs (Decidable (∀ f ∈ s.store.functions.toList, _))

variable {σ : Setting} {s : Session}

/-- No analysed file lies below one that has the components of a file. -/
theorem FilesApart.not_below (h : s.FilesApart) {file other : SourceFile} (hfile : file ∈ s.assembly.files)
    (hother : other ∈ s.assembly.files) {dir : Path} (hdir : dir.components = file.path.components) :
    ¬ other.path.LiesBelow dir := by
  rintro ⟨levels, above, hup, habove⟩
  have hsame : (file.path == above) = true := by
    rw [Path.beq_iff, ← hdir]
    exact Path.beq_iff.mp habove
  cases heq : file.path == other.path with
  | false => exact h file hfile other hother heq ⟨levels, above, hup, hsame⟩
  | true =>
    have hself : (above == other.path) = true := by
      rw [Path.beq_iff, ← Path.beq_iff.mp hsame]
      exact Path.beq_iff.mp heq
    rw [Path.up?_ne hup] at hself
    cases hself

/-- With simple names, no claimed scope is the one of its file. -/
theorem path_claimed_ne (ha : s.Addressed) (hn : s.SimplyNamed) (ht : t ∈ s.claimed) :
    (s.store.table t).address.path ≠ "" := by
  intro hpath
  rcases role_of_mem_claimed ht with ⟨c, hc, rfl⟩ | ⟨f, hf, rfl⟩ | ⟨site, hsite⟩
  · exact (hn.classes _ (getD_mem hc default)).1 (ha.classes c hc hpath)
  · exact (hn.functions _ (getD_mem hf default)).1 ((ha.functions f hf).path hpath)
  · exact ha.comprehensions (site, t) hsite hpath

/-- A claimed scope lies in an analysed file. -/
theorem file_of_mem_claimed (hinv : s.Inv σ) (hf : s.Filed) (ht : t ∈ s.claimed) :
    ∃ file ∈ s.assembly.files, (s.store.table t).address.file = file.path := by
  obtain ⟨m, hm, hpath⟩ := hinv.placed t (role_of_mem_claimed ht).symm
  obtain ⟨file, hfile, hsame⟩ := hf.analysed m hm
  exact ⟨file, hfile, (hsame.trans hpath).symm⟩

theorem address_directory (hf : s.Filed) (hkeyed : SourceTree.Keyed (s.store, s.assembly.tree))
    (he : e ∈ s.assembly.tree.dirs) :
    (s.store.table (s.store.package e.2).entries).address = .ofFile e.1 := by
  obtain ⟨hlt, hdir⟩ := hkeyed e he
  dsimp only at hlt hdir
  rw [← hdir]
  exact hf.housed.address e.2 hlt

theorem address_file (hinv : s.Inv σ) (hf : s.Filed) {e : Path × ModuleId} (he : e ∈ s.assembly.tree.files) :
    (s.store.table (s.store.module e.2).members).address = .ofFile e.1 := by
  rw [(hinv.modules e.2 (hinv.sites.files e he)).2, hf.modules e he]

/-- A package has only nameless entries where its directory has the path of an analysed file. -/
theorem nameless_of_file (hf : s.Filed) (hkeyed : SourceTree.Keyed (s.store, s.assembly.tree))
    (hapart : s.FilesApart) (he : e ∈ s.assembly.tree.dirs)
    (hid : s.store.get? (s.store.package e.2).entries name = some id) {file : SourceFile}
    (hfile : file ∈ s.assembly.files) (hsame : e.1.components = file.path.components) : name = "" := by
  obtain ⟨hlt, hdir⟩ := hkeyed e he
  dsimp only at hlt hdir
  rcases hf.housed.entries e.2 hlt name id hid with hempty | ⟨other, hother, hbelow⟩
  · exact hempty
  · dsimp only at hbelow
    rw [hdir] at hbelow
    exact absurd hbelow (hapart.not_below hfile hother hsame)

/-- All that is needed to tell symbols apart by their addresses. -/
structure Legible (σ : Setting) (s : Session) : Prop where
  inv : s.Inv σ
  keyed : SourceTree.Keyed (s.store, s.assembly.tree)
  addressed : s.Addressed
  filed : s.Filed
  named : s.SimplyNamed
  files : s.FilesApart
  returns : s.ReturnsApart

namespace Legible

variable (h : Legible σ s) {t t' : TableId} {name name' : String} {id id' : SymbolId} {e : Path × ModuleId}

include h

/-- Outside of functions, what a scope holds is bound in it. -/
theorem bound_of_held (hheld : s.Held t name id) (hpath : (s.store.table t).address.path = "") :
    s.store.get? t name = some id := by
  rcases hheld with hbound | ⟨f, hf, rfl, -, -⟩
  · exact hbound
  · exact absurd hpath (path_claimed_ne h.addressed h.named (mem_claimed_function hf))

theorem no_dot_of_claimed (ht : t ∈ s.claimed) (hheld : s.Held t name id) : '.' ∉ name.toList := by
  rcases hheld with hbound | ⟨f, -, -, rfl, -⟩
  · exact (h.named.claimed t ht name (OrderedMap.mem_keys_of_get? hbound)).2
  · decide

theorem simple_of_file (he : e ∈ s.assembly.tree.files) (hheld : s.Held (s.store.module e.2).members name id) :
    IsSimple name := by
  have hpath : (s.store.table (s.store.module e.2).members).address.path = "" := by
    rw [address_file h.inv h.filed he]
    rfl
  exact h.named.modules _ (getD_mem (h.inv.sites.files e he) default) name
    (OrderedMap.mem_keys_of_get? (h.bound_of_held hheld hpath))

theorem nameless_of_directory {e : Path × PackageId} (he : e ∈ s.assembly.tree.dirs)
    (hheld : s.Held (s.store.package e.2).entries name id) {file : SourceFile} (hfile : file ∈ s.assembly.files)
    (hsame : e.1.components = file.path.components) : name = "" := by
  have hpath : (s.store.table (s.store.package e.2).entries).address.path = "" := by
    rw [address_directory h.filed h.keyed he]
    rfl
  exact nameless_of_file h.filed h.keyed h.files he (h.bound_of_held hheld hpath) hfile hsame

/-! ## Telling scopes apart -/

theorem key_claimed (ht : t ∈ s.claimed) (name : String) :
    s.key t name = ((s.store.table t).address.path ++ "." ++ name, (s.store.table t).address.file.components) :=
  Address.child_of_path_ne (path_claimed_ne h.addressed h.named ht) name

theorem key_file (he : e ∈ s.assembly.tree.files) (name : String) :
    s.key (s.store.module e.2).members name = (name, e.1.components) := by
  unfold key
  rw [address_file h.inv h.filed he, Address.child_of_path_empty rfl]
  rfl

theorem key_directory {e : Path × PackageId} (he : e ∈ s.assembly.tree.dirs) (name : String) :
    s.key (s.store.package e.2).entries name = (name, e.1.components) := by
  unfold key
  rw [address_directory h.filed h.keyed he, Address.child_of_path_empty rfl]
  rfl

/-- A scope of a function, a class or a comprehension shares no address with a file. -/
theorem claimed_apart_file (ht : t ∈ s.claimed) (he : e ∈ s.assembly.tree.files)
    (hheld : s.Held (s.store.module e.2).members name' id') :
    s.key t name ≠ s.key (s.store.module e.2).members name' := by
  rw [h.key_claimed ht, h.key_file he]
  intro hkey
  exact Address.dotted_ne (h.simple_of_file he hheld).2 (Prod.mk.inj hkey).1

/-- Nor does it with a directory: one at the path of a file has nameless entries only. -/
theorem claimed_apart_directory (ht : t ∈ s.claimed) {e : Path × PackageId} (he : e ∈ s.assembly.tree.dirs)
    (hheld : s.Held (s.store.package e.2).entries name' id') :
    s.key t name ≠ s.key (s.store.package e.2).entries name' := by
  rw [h.key_claimed ht, h.key_directory he]
  intro hkey
  obtain ⟨hdotted, hsame⟩ := Prod.mk.inj hkey
  obtain ⟨file, hfile, hpath⟩ := file_of_mem_claimed h.inv h.filed ht
  rw [hpath] at hsame
  refine Address.dotted_ne ?_ hdotted
  rw [h.nameless_of_directory he hheld hfile hsame.symm]
  decide

/-- Claimed scopes are told apart by their addresses. -/
theorem claimed_inj (ht : t ∈ s.claimed) (ht' : t' ∈ s.claimed) (hheld : s.Held t name id)
    (hheld' : s.Held t' name' id') (hkey : s.key t name = s.key t' name') : t = t' ∧ name = name' := by
  rw [h.key_claimed ht, h.key_claimed ht'] at hkey
  obtain ⟨hdotted, hsame⟩ := Prod.mk.inj hkey
  obtain ⟨hpath, hname⟩ :=
    Address.dotted_inj (h.no_dot_of_claimed ht hheld) (h.no_dot_of_claimed ht' hheld') hdotted
  refine ⟨List.inj_on_of_nodup_map h.addressed.distinct ht ht' ?_, hname⟩
  exact Prod.ext hpath hsame

/-- A file shares no address with a directory either. -/
theorem file_apart {e' : Path × PackageId} (he : e ∈ s.assembly.tree.files) (he' : e' ∈ s.assembly.tree.dirs)
    (hheld : s.Held (s.store.module e.2).members name id)
    (hheld' : s.Held (s.store.package e'.2).entries name' id') :
    s.key (s.store.module e.2).members name ≠ s.key (s.store.package e'.2).entries name' := by
  rw [h.key_file he, h.key_directory he']
  intro hkey
  obtain ⟨rfl, hsame⟩ := Prod.mk.inj hkey
  obtain ⟨file, hfile, hpath⟩ := h.filed.analysed e.2 (h.inv.sites.files e he)
  have hcomponents : e'.1.components = file.path.components := by
    rw [hpath, h.filed.modules e he]
    exact hsame.symm
  exact (h.simple_of_file he hheld).1 (h.nameless_of_directory he' hheld' hfile hcomponents)

/-- **The address of a symbol tells its scope and its name.** -/
theorem place_inj (ht : s.Place t) (ht' : s.Place t') (hheld : s.Held t name id) (hheld' : s.Held t' name' id')
    (hkey : s.key t name = s.key t' name') : t = t' ∧ name = name' := by
  cases ht with
  | claimed ht =>
    cases ht' with
    | claimed ht' => exact h.claimed_inj ht ht' hheld hheld' hkey
    | file he' => exact absurd hkey (h.claimed_apart_file ht he' hheld')
    | directory he' => exact absurd hkey (h.claimed_apart_directory ht he' hheld')
  | file he =>
    cases ht' with
    | claimed ht' => exact absurd hkey.symm (h.claimed_apart_file ht' he hheld)
    | file he' =>
      rw [h.key_file he, h.key_file he', Prod.mk.injEq] at hkey
      obtain rfl := Path.eq_of_components h.filed.distinct he he' hkey.2
      exact ⟨rfl, hkey.1⟩
    | directory he' => exact absurd hkey (h.file_apart he he' hheld hheld')
  | directory he =>
    cases ht' with
    | claimed ht' => exact absurd hkey.symm (h.claimed_apart_directory ht' he hheld)
    | file he' => exact absurd hkey.symm (h.file_apart he' he hheld' hheld)
    | directory he' =>
      rw [h.key_directory he, h.key_directory he', Prod.mk.injEq] at hkey
      obtain rfl := Path.eq_of_components h.filed.housed.dirs he he' hkey.2
      exact ⟨rfl, hkey.1⟩

theorem unbound_return {f : FunctionId} (hf : f.index < s.store.functions.size) :
    s.store.get? (s.store.function f).locals returnName = none :=
  Option.isNone_iff_eq_none.mp (h.returns _ (getD_mem hf default))

/-- A scope holds one symbol of a name. -/
theorem held_unique (hheld : s.Held t name id) (hheld' : s.Held t name id') : id = id' := by
  rcases hheld with hbound | ⟨f, hf, rfl, rfl, rfl⟩
  · rcases hheld' with hbound' | ⟨g, hg, rfl, rfl, rfl⟩
    · exact Option.some.inj (hbound.symm.trans hbound')
    · rw [h.unbound_return hg] at hbound
      cases hbound
  · rcases hheld' with hbound' | ⟨g, hg, hlocals, -, rfl⟩
    · rw [h.unbound_return hf] at hbound'
      cases hbound'
    · rw [h.addressed.function_eq_of_locals hg hf hlocals]

/-- **No two symbols have one address.** -/
theorem symbol_eq_of_address (hid : id ∈ s.assembly.symbols s.store) (hid' : id' ∈ s.assembly.symbols s.store)
    (haddress : ((s.store.symbol id).address == (s.store.symbol id').address) = true) : id = id' := by
  obtain ⟨t, name, ht, hheld⟩ := held_of_mem_symbols h.inv hid
  obtain ⟨t', name', ht', hheld'⟩ := held_of_mem_symbols h.inv hid'
  rw [Address.beq_iff, hheld.address h.inv h.addressed, hheld'.address h.inv h.addressed] at haddress
  obtain ⟨rfl, rfl⟩ := h.place_inj ht ht' hheld hheld' haddress
  exact h.held_unique hheld hheld'

end Legible

end Session

/-! ## The walk over all symbols -/

namespace SymbolWalk

/-- Where no two symbols have one address, the walk visits each once and has no conflict. -/
theorem go_spec (s : Store) (visited rest : List SymbolId) (hnodup : visited.Nodup)
    (hunique : ∀ id ∈ visited ++ rest, ∀ id' ∈ visited ++ rest,
      ((s.symbol id).address == (s.symbol id').address) = true → id = id') :
    (go s visited rest).conflict = none ∧ (go s visited rest).visited.Nodup ∧
      ∀ id, id ∈ (go s visited rest).visited ↔ id ∈ visited ∨ id ∈ rest := by
  induction rest generalizing visited with
  | nil =>
    refine ⟨rfl, List.nodup_reverse.mpr hnodup, fun id => ?_⟩
    simp [go]
  | cons id rest ih =>
    unfold go
    dsimp only
    by_cases hseen : id ∈ visited
    · rw [if_pos hseen]
      have hfewer : ∀ other ∈ visited ++ rest, other ∈ visited ++ id :: rest := by
        intro other hother
        rcases List.mem_append.mp hother with hold | hlater
        · exact List.mem_append_left _ hold
        · exact List.mem_append_right _ (List.mem_cons_of_mem _ hlater)
      obtain ⟨hconflict, hvisited, hmem⟩ :=
        ih visited hnodup fun a ha b hb => hunique a (hfewer a ha) b (hfewer b hb)
      refine ⟨hconflict, hvisited, fun other => ?_⟩
      rw [hmem, List.mem_cons]
      constructor
      · exact fun hor => hor.imp_right Or.inr
      · rintro (hold | rfl | hlater)
        · exact .inl hold
        · exact .inl hseen
        · exact .inr hlater
    · rw [if_neg hseen, if_neg]
      · obtain ⟨hconflict, hvisited, hmem⟩ := ih (id :: visited) (List.nodup_cons.mpr ⟨hseen, hnodup⟩) fun a ha b hb =>
            hunique a (List.perm_middle.mem_iff.mpr ha) b (List.perm_middle.mem_iff.mpr hb)
        refine ⟨hconflict, hvisited, fun other => ?_⟩
        rw [hmem, List.mem_cons, List.mem_cons]
        tauto
      · -- a visited symbol at the address would be the symbol itself
        intro hany
        obtain ⟨other, hother, haddress⟩ := List.any_eq_true.mp hany
        have hself := hunique other (List.mem_append_left _ hother) id
          (List.mem_append_right _ List.mem_cons_self) haddress
        exact hseen (hself ▸ hother)

end SymbolWalk

namespace Assembler

open Session

/-- What a build can end with. -/
theorem build_ends {σ : Setting} {s : Session} (h : s.Inv σ) (steps : Nat) (handle : CancelHandle)
    (detail : String) : (Run.build steps handle σ s).1 ≠ .error (.invariantViolation detail) := by
  intro herror
  by_cases hpasses : σ.options.passes = 0
  · rw [Run.build_of_no_passes hpasses] at herror
    cases herror
  · have hends := (Run.does_build h hpasses steps handle).2
    rw [herror] at hends
    rcases hends with hcancelled | hexhausted
    · cases hcancelled
    · cases hexhausted

/--
**Symbols have addresses of their own.** If all names are simple, no analysed file has the path of a
directory around another one, and no function has a local with the name of its return symbol, then no two
symbols have one address, and the walk over the symbols visits each of them once. The bindings of a class
body become members of the class without fail at any time, and no build finds an invariant violated.
-/
theorem Reached.addresses_unique {a : Assembler} (h : a.Reached) (hnamed : a.session.SimplyNamed)
    (hfiles : a.session.FilesApart) (hreturns : a.session.ReturnsApart) :
    (∀ id ∈ a.session.assembly.symbols a.session.store, ∀ id' ∈ a.session.assembly.symbols a.session.store,
        id ≠ id' → ((a.session.store.symbol id).address == (a.session.store.symbol id').address) = false) ∧
      (∃ ids, (a.session.assembly.walk a.session.store).result = .ok ids ∧ ids.Nodup ∧
        ∀ id, id ∈ ids ↔ id ∈ a.session.assembly.symbols a.session.store) ∧
      (∀ s, Moves a.setting a.session s → ∀ c : ClassId, c.index < s.store.classes.size →
        ∀ body ∈ s.bodies, (s.store.table body).address = s.store.classAddress c →
          (mergeMembers c body s.store).1 = .ok ()) ∧
      ∀ steps handle detail, (a.perform (Run.build steps handle)).1 ≠ .error (.invariantViolation detail) := by
  have hinv := h.ordered.inv
  obtain ⟨haddressed, hfiled⟩ := h.addressed
  have hlegible : Legible a.setting a.session :=
    ⟨hinv, h.ordered.keyed, haddressed, hfiled, hnamed, hfiles, hreturns⟩
  refine ⟨fun id hid id' hid' hne => ?_, ?_, fun s hmoves c hc body hbody haddress => ?_, ?_⟩
  · rw [Bool.eq_false_iff]
    exact fun haddress => hne (hlegible.symbol_eq_of_address hid hid' haddress)
  · obtain ⟨hconflict, hvisited, hmem⟩ := SymbolWalk.go_spec a.session.store []
      (a.session.assembly.symbols a.session.store) List.nodup_nil
      fun id hid id' hid' => hlegible.symbol_eq_of_address hid hid'
    refine ⟨(a.session.assembly.walk a.session.store).visited, ?_, hvisited, fun id => ?_⟩
    · unfold SymbolWalk.result Assembly.walk
      rw [hconflict]
    · unfold Assembly.walk
      rw [hmem, or_iff_right List.not_mem_nil]
  · have hinv' := hinv.afterMoves hmoves
    obtain ⟨-, _, hok, -⟩ := Analysis.does_mergeMembers hinv'.consistent
      (Evaluator.fits_classBody hinv' hc hbody haddress)
    exact hok
  · exact fun steps handle detail => build_ends hinv steps handle detail

/-- A package with a module that defines a function twice, and a class with a method that makes a lambda
and a comprehension in its body. -/
def ofPackage : Assembler :=
  ((Assembler.new .empty { Options.standard with passes := 1 } ClassPolicy.standard .off none).addFile
    (.ofTree ⟨"/p/pkg/__init__.py"⟩ (.module [.assign [.ident "a"] (.literal .null)]) none)).addFile
    (.ofTree ⟨"/p/pkg/a.py"⟩ (.module
      [.functionDef 0 "f" .empty [.returnStmt (some (.literal .float))] [] none false 1,
        .functionDef 1 "f" .empty [.assign [.ident "x"] (.literal .float)] [] none false 2,
        .classDef 2 "C" [] []
          [.functionDef 3 "f" ⟨[⟨"self", none, none, false⟩], none, none⟩
              [.assign [.member (.ident "self") "x"] (.lambda 4 .empty (.literal .bytes))] [] none false 4,
            .assign [.ident "xs"] (.listComp 5 (.ident "x")
              [⟨.ident "x", .list [.literal .float], []⟩])] [] 3]) none)

theorem reached_ofPackage : ofPackage.Reached := by
  unfold ofPackage
  exact .addFile (.addFile (reached_new _ _ _) _) _

set_option maxRecDepth 100000 in
theorem addresses_unique_ofPackage :
    (ofPackage.perform (Run.build 40 .new)).2.session.SimplyNamed ∧
      (ofPackage.perform (Run.build 40 .new)).2.session.FilesApart ∧
      (ofPackage.perform (Run.build 40 .new)).2.session.ReturnsApart ∧
      ∃ ids, ((ofPackage.perform (Run.build 40 .new)).2.session.assembly.walk
        (ofPackage.perform (Run.build 40 .new)).2.session.store).result = .ok ids ∧ ids.Nodup := by
  have hreached := Reached.build reached_ofPackage 40 .new
  have hlegible : (ofPackage.perform (Run.build 40 .new)).2.session.SimplyNamed ∧
      (ofPackage.perform (Run.build 40 .new)).2.session.FilesApart ∧
      (ofPackage.perform (Run.build 40 .new)).2.session.ReturnsApart := by decide +kernel
  generalize (ofPackage.perform (Run.build 40 .new)).2 = built at hreached hlegible ⊢
  obtain ⟨hnamed, hfiles, hreturns⟩ := hlegible
  obtain ⟨-, ⟨ids, hok, hnodup, -⟩, -⟩ := hreached.addresses_unique hnamed hfiles hreturns
  exact ⟨hnamed, hfiles, hreturns, ids, hok, hnodup⟩

/-- A module with a function that binds a local with the name of its return symbol. -/
def ofReturnLocal : Assembler :=
  ofModule 1
    [.functionDef 0 "f" .empty [.assign [.ident returnName] (.literal (.int (some 1)))] [] none false 1]

set_option maxRecDepth 100000 in
/-- Simple names do not suffice: the local and the return symbol have one address. -/
theorem addresses_shared_ofReturnLocal :
    ∃ a : Assembler, a.Reached ∧ a.session.SimplyNamed ∧ a.session.FilesApart ∧
      (a.session.assembly.walk a.session.store).conflict.map Address.show = some "/p/a.py:f.[return]" := by
  refine ⟨(ofReturnLocal.perform (Run.build 40 .new)).2, .build (reached_ofModule _ _) 40 .new, ?_⟩
  decide +kernel

end Assembler

end Surmise
