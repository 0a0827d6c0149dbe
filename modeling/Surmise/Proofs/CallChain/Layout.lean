import Surmise.Proofs.CallChain.Program
import Surmise.Proofs.CallChain.Rounds

/-!
# The chain in the store

Where the parts of a chain of calls stand in the store while it is analysed, and what the analysis does to
them: it makes functions, makes symbols for names, and writes to symbols.

* `Store.read`: what is held under a name of a scope, or as the result of a function.
* `Wired`: the parts of the chain are connected as the program says.
* `Holds`: they hold what is known when the constant has reached a number of places.
* `Stage.define`, `Stage.bind`, `Stage.handOn`: what each change makes of this.
-/

namespace Surmise

open StoreM Store Value

/-! ## Cells -/

/-- Where the store has a symbol: under a name of a scope, or as the result of a function. -/
inductive Cell where
  | entry (t : TableId) (name : String)
  | result (g : FunctionId)
  deriving DecidableEq

/-- The cells have symbols of their own, which are among the first ones of a store. -/
structure Cell.Apart (symbol? : Cell → Option SymbolId) (size : Nat) : Prop where
  lt : ∀ cell id, symbol? cell = some id → id.index < size
  inj : ∀ cell cell' id, symbol? cell = some id → symbol? cell' = some id → cell = cell'

/-- A cell gets the next symbol. -/
theorem Cell.Apart.update {symbol? : Cell → Option SymbolId} {size : Nat} (h : Apart symbol? size) (cell : Cell) :
    Apart (Function.update symbol? cell (some ⟨size⟩)) (size + 1) := by
  have hcases : ∀ other id, Function.update symbol? cell (some ⟨size⟩) other = some id →
      other = cell ∧ id = ⟨size⟩ ∨ symbol? other = some id ∧ id.index < size := by
    intro other id hid
    rw [Function.update_apply] at hid
    split at hid
    · next hsame => exact .inl ⟨hsame, (Option.some.inj hid).symm⟩
    · exact .inr ⟨hid, h.lt other id hid⟩
  refine ⟨fun other id hid => ?_, fun first second id hfirst hsecond => ?_⟩
  · rcases hcases other id hid with ⟨-, rfl⟩ | ⟨-, hlt⟩
    · exact Nat.lt_succ_self size
    · exact Nat.lt_succ_of_lt hlt
  · rcases hcases first id hfirst with ⟨rfl, rfl⟩ | ⟨hold, hlt⟩ <;>
      rcases hcases second _ hsecond with ⟨rfl, hid⟩ | ⟨hold', hlt'⟩
    · rfl
    · exact absurd hlt' (Nat.lt_irrefl size)
    · rw [hid] at hlt
      exact absurd hlt (Nat.lt_irrefl size)
    · exact h.inj first second id hold hold'

namespace Store

/-- The symbol of a cell, if it has one. -/
def cell? (s : Store) : Cell → Option SymbolId
  | .entry t name => s.get? t name
  | .result g => if g.index < s.functions.size then some (s.function g).returns else none

/-- What a cell holds, which is nothing as long as it has no symbol. -/
def read (s : Store) (cell : Cell) : Value := ((s.cell? cell).map s.value).getD .empty

variable {s s' : Store} {cell other : Cell} {id : SymbolId} {t : TableId}

theorem read_of_cell? (h : s.cell? cell = some id) : s.read cell = s.value id := by
  rw [read, h]
  rfl

theorem cell?_producePrivate (s : Store) (id : SymbolId) (v : Value) (isPrivate : Bool) :
    (producePrivate id v isPrivate s).2.cell? = s.cell? := by
  funext cell
  cases cell with
  | entry t name => exact get?_of_tables (tables_producePrivate ..) t name
  | result g =>
    unfold cell? function
    rw [(sameObjects_producePrivate ..).functions]

/-- A write changes no other cell. -/
theorem read_producePrivate_of_ne (hs : Cell.Apart s.cell? s.symbols.size) (hid : s.cell? cell = some id)
    (hne : other ≠ cell) (v : Value) (isPrivate : Bool) :
    (producePrivate id v isPrivate s).2.read other = s.read other := by
  unfold read
  rw [cell?_producePrivate]
  cases hother : s.cell? other with
  | none => rfl
  | some id' =>
    refine value_producePrivate_of_ne ?_ v isPrivate
    rintro rfl
    exact hne (hs.inj _ _ _ hother hid)

/-- A change after which cells may have symbols that hold nothing yet is not seen. -/
theorem read_of_fresh (hs : Cell.Apart s.cell? s.symbols.size)
    (hold : ∀ id : SymbolId, id.index < s.symbols.size → s'.value id = s.value id)
    (hcell : s'.cell? cell = s.cell? cell ∨
      s.cell? cell = none ∧ ∃ id, s'.cell? cell = some id ∧ s'.value id = .empty) :
    s'.read cell = s.read cell := by
  unfold read
  rcases hcell with hsame | ⟨hnone, id, hid, hempty⟩
  · rw [hsame]
    cases hid : s.cell? cell with
    | none => rfl
    | some id => exact hold id (hs.lt _ _ hid)
  · rw [hnone, hid]
    exact hempty

theorem cell?_bound (ht : t.index < s.tables.size) (name : String) (isPrivate : Bool) :
    (bound t name isPrivate s).cell? = Function.update s.cell? (.entry t name) (some ⟨s.symbols.size⟩) := by
  funext cell
  rw [Function.update_apply]
  cases cell with
  | entry t' name' =>
    refine (get?_bound t' name').trans (if_congr ?_ rfl rfl)
    rw [Cell.entry.injEq]
    exact ⟨fun h => ⟨h.1.symm, h.2.2.symm⟩, fun h => ⟨h.1.symm, h.1 ▸ ht, h.2.symm⟩⟩
  | result g => rw [if_neg nofun]; rfl

theorem read_bound (hs : Cell.Apart s.cell? s.symbols.size) (ht : t.index < s.tables.size) {name : String}
    (hnone : s.get? t name = none) (cell : Cell) : (bound t name false s).read cell = s.read cell := by
  refine read_of_fresh hs (fun id hid => ?_) ?_
  · rw [value_bound, if_neg (Nat.ne_of_lt hid)]
  · rw [cell?_bound ht, Function.update_apply]
    split
    · next hcell => exact .inr ⟨hcell ▸ hnone, _, rfl, by rw [value_bound, if_pos rfl]⟩
    · exact .inl rfl

theorem cell?_withPlainFunction (spec : FunctionSpec) (param : Parameter Node) :
    (withPlainFunction spec param s).cell? =
      Function.update (Function.update s.cell? (.entry ⟨s.tables.size⟩ param.name) (some ⟨s.symbols.size⟩))
        (.result ⟨s.functions.size⟩) (some ⟨s.symbols.size + 1⟩) := by
  funext cell
  cases cell with
  | entry t name =>
    obtain ⟨t⟩ := t
    by_cases ht : t = s.tables.size
    · have hnone : s.get? ⟨s.tables.size⟩ name = none := get?_of_size_le (Nat.le_refl _) name
      simp [ht, cell?, get?_withPlainFunction, Function.update_apply, hnone, eq_comm]
    · simp [ht, cell?, get?_withPlainFunction]
  | result g =>
    obtain ⟨g⟩ := g
    have hsize : (withPlainFunction spec param s).functions.size = s.functions.size + 1 := Array.size_push ..
    have hfunction : (withPlainFunction spec param s).function ⟨g⟩ =
        if g = s.functions.size then _ else s.function ⟨g⟩ := getD_push ..
    by_cases hg : g = s.functions.size
    · subst hg
      simp [cell?, hsize, hfunction]
    · have hlt : g < s.functions.size + 1 ↔ g < s.functions.size := by omega
      simp [cell?, hsize, hfunction, hg, hlt]

theorem read_withPlainFunction (hs : Cell.Apart s.cell? s.symbols.size) (spec : FunctionSpec)
    (param : Parameter Node) (cell : Cell) :
    (withPlainFunction spec param s).read cell = s.read cell := by
  refine read_of_fresh hs (fun id hid => ?_) ?_
  · rw [value_withPlainFunction, if_neg (by omega)]
  · rw [cell?_withPlainFunction, Function.update_apply, Function.update_apply]
    split
    · next hcell =>
      refine .inr ⟨?_, _, rfl, by rw [value_withPlainFunction, if_pos (.inr rfl)]⟩
      rw [hcell, cell?, if_neg (Nat.lt_irrefl _)]
    · split
      · next hcell =>
        refine .inr ⟨?_, _, rfl, by rw [value_withPlainFunction, if_pos (.inl rfl)]⟩
        rw [hcell]
        exact get?_of_size_le (Nat.le_refl _) _
      · exact .inl rfl

end Store

namespace CallChain

/-! ## The parts of the chain -/

/-- Where the module of a chain stands, and how many scopes there were before its functions were made. -/
structure Layout where
  home : ModuleId
  members : TableId
  tables : Nat

variable (c : CallChain)

theorem mem_written (i : Nat) : i ∈ c.written ↔ i < c.depth := c.complete.mem_iff.trans List.mem_range

/-- The functions are made in the order in which they are written. -/
def function (i : Nat) : FunctionId := ⟨c.written.idxOf i⟩

def locals (l : Layout) (i : Nat) : TableId := ⟨l.tables + c.written.idxOf i⟩

/-- The places on the way of the constant. -/
def place (l : Layout) (k : Nat) : Cell :=
  if k < c.depth then .entry (c.locals l (c.depth - 1 - k)) "x"
  else if k < 2 * c.depth then .result (c.function (k - c.depth))
  else .entry l.members "out"

/-- A function of the chain, its parameter and its result. -/
structure Made (l : Layout) (i : Nat) (x result : SymbolId) (s : Store) : Prop where
  lt : (c.function i).index < s.functions.size
  inner : (c.locals l i).index < s.tables.size
  info : s.function (c.function i) =
    { name := c.name i, node := c.definition i, origin := .file 0, locals := c.locals l i
      params := [⟨"x", x, false⟩], vararg := none, kwarg := none, kwargs := none, returns := result
      receiver := .unbound, owner := none, home := l.home }
  parent : (s.table (c.locals l i)).parent = some l.members
  entries : ∀ name, s.get? (c.locals l i) name = if name = "x" then some x else none

/--
The parts of the chain stand in the store as the layout says, and are connected as the program says: some functions
are made, and the module has bound some names.
-/
structure Wired (file : SourceFile) (l : Layout) (made : List Nat) (names : List String) (p : Found) : Prop where
  files : p.assembly.files = [file]
  tree : p.assembly.tree.file? file.path = some l.home
  order : p.assembly.order.toList = .module 0 :: made.map fun i => .function (c.function i)
  sites : p.assembly.functions = made.map fun i => (⟨.file 0, c.node i⟩, c.function i)
  home : (p.store.module l.home).members = l.members
  members : l.members.index < l.tables
  functions : p.store.functions.size = made.length
  tables : p.store.tables.size = l.tables + made.length
  made : ∀ i ∈ made, ∃ x result, c.Made l i x result p.store
  named : ∀ name ∈ names, (p.store.get? l.members name).isSome
  apart : Cell.Apart p.store.cell? p.store.symbols.size

/-- What a new module binds a name to. -/
def preset (name : String) : Option Value := StoreM.presets.lookup name

/-- What a name is bound to after a function was defined. -/
def bound (name : String) (g : FunctionId) : Value :=
  match preset name with
  | none => .functionRef g
  | some v => .union [v, .functionRef g]

/-- What a place holds. -/
def content (reached k : Nat) : Value := if k < reached then .ofText c.constant else .empty

/-- The cells hold what is known when the constant has reached a number of places. -/
structure Holds (l : Layout) (names : List String) (reached : Nat) (s : Store) : Prop where
  place : ∀ k ≤ 2 * c.depth, s.read (c.place l k) = c.content reached k
  name : ∀ i < c.depth, s.read (.entry l.members (c.name i)) =
    if c.name i ∈ names then bound (c.name i) (c.function i) else (preset (c.name i)).getD .empty

/-- How far the analysis of the chain has got. -/
structure Stage (file : SourceFile) (l : Layout) (made : List Nat) (names : List String) (reached : Nat) (p : Found) :
    Prop where
  wired : c.Wired file l made names p
  holds : c.Holds l names reached p.store

section Places

variable {c} {l : Layout} {i j k : Nat} {x result : SymbolId} {s : Store}

theorem place_param (hi : i < c.depth) : c.place l (c.depth - 1 - i) = .entry (c.locals l i) "x" := by
  have hback : c.depth - 1 - (c.depth - 1 - i) = i := by omega
  rw [place, if_pos (by omega), hback]

theorem place_result (hi : i < c.depth) : c.place l (c.depth + i) = .result (c.function i) := by
  rw [place, if_neg (by omega), if_pos (by omega), Nat.add_sub_cancel_left]

theorem place_out : c.place l (2 * c.depth) = .entry l.members "out" := by
  rw [place, if_neg (by omega), if_neg (Nat.lt_irrefl _)]

theorem place_inj (hj : j ≤ 2 * c.depth) (hk : k ≤ 2 * c.depth) (h : c.place l j = c.place l k) : j = k := by
  have hidx : ∀ i i', i < c.depth → c.written.idxOf i = c.written.idxOf i' → i = i' := fun i _ hi =>
    (List.idxOf_inj ((c.mem_written i).mpr hi)).mp
  unfold place locals function at h
  split_ifs at h <;> simp only [Cell.entry.injEq, Cell.result.injEq, TableId.mk.injEq, FunctionId.mk.injEq,
    Nat.add_right_inj] at h
  · have := hidx _ _ (by omega) h.1
    omega
  · exact absurd h.2 (by decide)
  · have := hidx _ _ (by omega) h
    omega
  · exact absurd h.2 (by decide)
  · omega

theorem place_ne_name (hi : i < c.depth) : c.place l k ≠ .entry l.members (c.name i) := by
  obtain ⟨hx, hout⟩ := c.name_ne i hi
  unfold place
  split_ifs <;> simp [hx.symm, hout.symm]

theorem Made.cell?_param (h : c.Made l i x result s) (hi : i < c.depth) :
    s.cell? (c.place l (c.depth - 1 - i)) = some x := by
  rw [place_param hi]
  exact h.entries "x"

theorem Made.cell?_result (h : c.Made l i x result s) (hi : i < c.depth) :
    s.cell? (c.place l (c.depth + i)) = some result := by
  rw [place_result hi, cell?, if_pos h.lt, h.info]

theorem Made.congr {s' : Store} (h : c.Made l i x result s) (hlt : s.functions.size ≤ s'.functions.size)
    (hinner : s.tables.size ≤ s'.tables.size) (hinfo : s'.function (c.function i) = s.function (c.function i))
    (htable : s'.table (c.locals l i) = s.table (c.locals l i)) : c.Made l i x result s' where
  lt := Nat.lt_of_lt_of_le h.lt hlt
  inner := Nat.lt_of_lt_of_le h.inner hinner
  info := hinfo.trans h.info
  parent := by rw [htable, h.parent]
  entries name := by rw [← h.entries, get?, htable, get?]

end Places

section Changes

variable {c} {file : SourceFile} {l : Layout} {made : List Nat} {names names' : List String} {p : Found}
  {reached i k : Nat} {id : SymbolId}

/-- A change that leaves the scopes of the functions as they are. -/
theorem Wired.congr (h : c.Wired file l made names p) {s : Store} (hsame : p.store.SameObjects s)
    (htable : ∀ t ≠ l.members, s.table t = p.store.table t)
    (hnamed : ∀ name ∈ names', (s.get? l.members name).isSome) (hapart : Cell.Apart s.cell? s.symbols.size) :
    c.Wired file l made names' ⟨s, p.assembly⟩ :=
  { h with
    home := by
      rw [Store.module, hsame.modules]
      exact h.home
    functions := by rw [hsame.functions, h.functions]
    tables := hsame.tables.trans h.tables
    made := fun i hi => by
      obtain ⟨x, result, hmade⟩ := h.made i hi
      refine ⟨x, result, hmade.congr (by rw [hsame.functions]) hsame.tables.ge ?_ (htable _ fun heq => ?_)⟩
      · rw [Store.function, hsame.functions, Store.function]
      · have hmembers := h.members
        rw [← heq, locals] at hmembers
        dsimp only at hmembers
        omega
    named := hnamed
    apart := hapart }

/-! ## Writes -/

theorem Wired.write (h : c.Wired file l made names p) (id : SymbolId) (v : Value) (isPrivate : Bool) :
    c.Wired file l made names ⟨(producePrivate id v isPrivate p.store).2, p.assembly⟩ := by
  have htables := tables_producePrivate p.store id v isPrivate
  refine h.congr (sameObjects_producePrivate ..) (fun t _ => ?_) (fun name hname => ?_) ?_
  · unfold table
    rw [htables]
  · rw [get?_of_tables htables]
    exact h.named name hname
  · rw [cell?_producePrivate, size_producePrivate]
    exact h.apart

theorem content_handOn_of_ne {j : Nat} (h : j ≠ k) :
    c.content (CallChain.handOn k reached) j = c.content reached j := by
  have hiff : j < CallChain.handOn k reached ↔ j < reached := by
    unfold CallChain.handOn
    split <;> omega
  unfold content
  simp only [hiff]

/-- The constant joined into a place. -/
theorem unite_content (k : Nat) : .unite [c.content reached k, .ofText c.constant] = ofText c.constant := by
  unfold content
  split
  · simp [unite, uniteWithin, grouped, flatten, disjuncts, addTo,
      ofText, ofDisjuncts, mergeGroup, maxDisjuncts, slot, nestingAll,
      nesting]
  · rfl

/-- **The constant is handed on** to a place, if it has reached the one before it. -/
theorem Stage.handOn (h : c.Stage file l made names reached p) (hk : k ≤ 2 * c.depth)
    (hid : p.store.cell? (c.place l k) = some id) {v : Value}
    (hv : v = if k ≤ reached then .ofText c.constant else .empty) :
    c.Stage file l made names (CallChain.handOn k reached) ⟨(produce id v p.store).2, p.assembly⟩ := by
  have hold := fun other (hne : other ≠ c.place l k) =>
    read_producePrivate_of_ne h.wired.apart hid hne v false
  refine ⟨h.wired.write id v false, fun j hj => ?_, fun i hi => ?_⟩
  · by_cases hjk : j = k
    · have hread := read_of_cell? hid
      have hcell := (congrFun (cell?_producePrivate p.store id v false) _).trans hid
      rw [h.holds.place k hk] at hread
      rw [hjk]
      refine (read_of_cell? hcell).trans ?_
      by_cases hle : k ≤ reached
      · -- the place holds the constant afterwards, whatever it held before
        have hlt : k < CallChain.handOn k reached := by
          unfold CallChain.handOn
          split <;> omega
        rw [content, if_pos hlt, hv, if_pos hle]
        exact value_producePrivate (h.wired.apart.lt _ _ hid) rfl (hread ▸ unite_content k) rfl false
      · have hsame : CallChain.handOn k reached = reached := if_neg (by omega)
        rw [hsame, hv, if_neg hle, hread]
        exact value_producePrivate_empty ..
    · rw [content_handOn_of_ne hjk, ← h.holds.place j hj]
      exact hold _ fun hsame => hjk (place_inj hj hk hsame)
  · rw [← h.holds.name i hi]
    exact hold _ (place_ne_name hi).symm

/-! ## Names -/

theorem preset_cases (name : String) : preset name = none ∨ preset name = some (.str none) ∨
      name = "__builtins__" ∧ preset name = some (.external "builtins") := by
  by_cases hname : name = "__builtins__"
  · exact .inr (.inr ⟨hname, by rw [hname]; rfl⟩)
  · unfold preset presets
    simp only [List.lookup_cons, List.lookup_nil, beq_false_of_ne hname]
    repeat' split
    all_goals simp

/-- A name that is bound to its function stays so when it is bound to it once more. -/
theorem unite_bound (name : String) (g : FunctionId) : .unite [bound name g, .functionRef g] = bound name g := by
  unfold bound
  rcases preset_cases name with hpreset | hpreset | ⟨-, hpreset⟩
  all_goals
    rw [hpreset]
    simp [unite, uniteWithin, grouped, flatten, disjuncts, addTo,
      ofDisjuncts, mergeGroup, maxDisjuncts, slot, nestingAll, nesting,
      key, keyAt, Mark.scalar]

/-- A name is bound to its function beside what a new module binds it to. -/
theorem unite_preset (name : String) (g : FunctionId) :
    .unite [(preset name).getD .empty, .functionRef g] = bound name g := by
  unfold bound
  rcases preset_cases name with hpreset | hpreset | ⟨-, hpreset⟩ <;> rw [hpreset] <;> rfl

theorem isNumbered_bound (name : String) (g : FunctionId) : (bound name g).isNumbered := by
  unfold bound
  rcases preset_cases name with hpreset | hpreset | ⟨-, hpreset⟩ <;> rw [hpreset] <;> rfl

/-- The module gets a symbol for a name, unless it has one. That is not seen. -/
theorem Wired.create (h : c.Wired file l made names p) (name : String) :
    let created := StoreM.createPrivate l.members name false p.store
    c.Wired file l made (name :: names) ⟨created.2, p.assembly⟩ ∧
      created.2.cell? (.entry l.members name) = some created.1 ∧ ∀ cell, created.2.read cell = p.store.read cell := by
  intro created
  have hmembers : l.members.index < p.store.tables.size := by
    have := h.tables
    have := h.members
    omega
  have hself : created.2.get? l.members name = some created.1 := StoreM.get?_createPrivate_self hmembers name false
  have hnamed : ∀ other ∈ name :: names, (created.2.get? l.members other).isSome := by
    refine List.forall_mem_cons.mpr ⟨Option.isSome_of_eq_some hself, fun other hother => ?_⟩
    obtain ⟨id, hid⟩ := Option.isSome_iff_exists.mp (h.named other hother)
    exact Option.isSome_of_eq_some ((Store.extends_createPrivate ..).entry _ _ _ hid)
  have hnew : (∀ t ≠ l.members, created.2.table t = p.store.table t) ∧
      Cell.Apart created.2.cell? created.2.symbols.size ∧ ∀ cell, created.2.read cell = p.store.read cell := by
    dsimp only [created]
    rw [StoreM.createPrivate_eq]
    cases hbound : p.store.get? l.members name with
    | some id => exact ⟨fun _ _ => rfl, h.apart, fun _ => rfl⟩
    | none =>
      refine ⟨fun t ht => ?_, ?_, Store.read_bound h.apart hmembers hbound⟩
      · exact (getD_modify ..).trans (if_neg fun hsame => ht (congrArg TableId.mk hsame.1.symm))
      · rw [Store.cell?_bound hmembers, StoreM.bound, Array.size_push]
        exact h.apart.update _
  exact ⟨h.congr (Store.sameObjects_createPrivate ..) hnew.1 hnamed hnew.2.1, hself, hnew.2.2⟩

/-- **A name is bound to its function**, for the first time or once more. -/
theorem Stage.bind (h : c.Stage file l made names reached p) (hi : i < c.depth) :
    c.Stage file l made (c.name i :: names) reached
      ⟨entered l.members (c.name i) false (.functionRef (c.function i)) false p.store, p.assembly⟩ := by
  have hcreate := h.wired.create (c.name i)
  dsimp only [entered] at hcreate ⊢
  generalize createPrivate l.members (c.name i) false p.store = created at hcreate ⊢
  obtain ⟨hwired, hcell, hread⟩ := hcreate
  have hold := fun other (hne : other ≠ Cell.entry l.members (c.name i)) =>
    read_producePrivate_of_ne hwired.apart hcell hne (.functionRef (c.function i)) false
  refine ⟨hwired.write _ _ false, fun k hk => ?_, fun j hj => ?_⟩
  · rw [hold _ (place_ne_name hi), hread, h.holds.place k hk]
  · by_cases hji : j = i
    · have hcell' := (congrFun (cell?_producePrivate created.2 created.1 (.functionRef (c.function i)) false)
        _).trans hcell
      have hvalue : created.2.value created.1 = _ := (read_of_cell? hcell).symm.trans (hread _)
      rw [hji, if_pos List.mem_cons_self]
      refine (read_of_cell? hcell').trans ?_
      refine value_producePrivate (hwired.apart.lt _ _ hcell) rfl ?_ (isNumbered_bound ..) false
      rw [hvalue, h.holds.name i hi]
      split
      · exact unite_bound ..
      · exact unite_preset ..
    · have hname : c.name j ≠ c.name i := fun hsame => hji (c.name_inj j hj i hi hsame)
      simp only [List.mem_cons, hname, false_or]
      rw [hold _ (by simpa using hname), hread, h.holds.name j hj]

/-- The variable gets a symbol, unless it has one. -/
theorem Stage.declare (h : c.Stage file l made names reached p) :
    let created := createPrivate l.members "out" false p.store
    c.Stage file l made ("out" :: names) reached ⟨created.2, p.assembly⟩ ∧
      created.2.cell? (c.place l (2 * c.depth)) = some created.1 := by
  obtain ⟨hwired, hcell, hread⟩ := h.wired.create "out"
  refine ⟨⟨hwired, fun k hk => ?_, fun i hi => ?_⟩, by rw [place_out]; exact hcell⟩
  · rw [hread, h.holds.place k hk]
  · simp only [List.mem_cons, (c.name_ne i hi).2, false_or]
    rw [hread, h.holds.name i hi]

/-! ## New functions -/

/-- What a function of the chain is made from. -/
def spec (c : CallChain) (l : Layout) (i : Nat) (address : Address) : StoreM.FunctionSpec :=
  { name := c.name i, node := c.definition i, origin := .file 0, params := parameters, address
    parent := l.members, receiver := .unbound, owner := none, home := l.home }

/-- A function was put on the list of what is visited, under the place of its definition. -/
structure Lists (c : CallChain) (i : Nat) (g : FunctionId) (a a' : Assembly) : Prop where
  files : a'.files = a.files
  tree : a'.tree = a.tree
  functions : a'.functions = a.functions ++ [(⟨.file 0, c.node i⟩, g)]
  order : a'.order = a.order.push (.function g)

/-- **A function is made**, the next one in the order in which they are written. That is not seen. -/
theorem Stage.define (h : c.Stage file l made names reached p) (hnext : c.written.idxOf i = made.length)
    (address : Address) {a : Assembly} (hlists : c.Lists i ⟨p.store.functions.size⟩ p.assembly a) :
    c.Stage file l (made ++ [i]) names reached
      ⟨withPlainFunction (c.spec l i address) ⟨"x", none, none, false⟩ p.store, a⟩ := by
  have hread := read_withPlainFunction h.wired.apart (c.spec l i address) ⟨"x", none, none, false⟩
  refine ⟨?_, fun k hk => (hread _).trans (h.holds.place k hk), fun j hj => (hread _).trans (h.holds.name j hj)⟩
  obtain ⟨hfiles, htree, horder, hsites, hhome, hmembers, hfunctions, htables, hmade, hnamed, hapart⟩ := h.wired
  have hfunction : c.function i = ⟨p.store.functions.size⟩ := by rw [function, hnext, hfunctions]
  have hlocals : c.locals l i = ⟨p.store.tables.size⟩ := by rw [locals, hnext, htables]
  have hlength : (made ++ [i]).length = made.length + 1 := List.length_append
  have hfunctions' : (withPlainFunction (c.spec l i address) ⟨"x", none, none, false⟩
      p.store).functions.size = p.store.functions.size + 1 := Array.size_push ..
  have htables' : (withPlainFunction (c.spec l i address) ⟨"x", none, none, false⟩ p.store).tables.size =
      p.store.tables.size + 1 := Array.size_push ..
  constructor
  case files => exact hlists.files.trans hfiles
  case tree =>
    show a.tree.file? file.path = _
    rw [hlists.tree, htree]
  case order =>
    show a.order.toList = _
    rw [hlists.order, Array.toList_push, horder, List.map_append, List.map_singleton, hfunction, List.cons_append]
  case sites =>
    show a.functions = _
    rw [hlists.functions, hsites, List.map_append, List.map_singleton, hfunction]
  case home => exact hhome
  case members => exact hmembers
  case functions => rw [hfunctions', hfunctions, hlength]
  case tables => rw [htables', htables, hlength, Nat.add_assoc]
  case made =>
    intro j hj
    rcases List.mem_append.mp hj with hj | hj
    · obtain ⟨x, result, hold⟩ := hmade j hj
      refine ⟨x, result, hold.congr (hfunctions' ▸ Nat.le_succ _) (htables' ▸ Nat.le_succ _) ?_ ?_⟩
      · exact (getD_push ..).trans (if_neg (Nat.ne_of_lt hold.lt))
      · rw [table_withPlainFunction, if_neg (Nat.ne_of_lt hold.inner)]
    · obtain rfl := List.mem_singleton.mp hj
      refine ⟨⟨p.store.symbols.size⟩, ⟨p.store.symbols.size + 1⟩, ?_, ?_, ?_, ?_, fun name => ?_⟩
      · rw [hfunctions', hfunction]
        exact Nat.lt_succ_self _
      · rw [htables', hlocals]
        exact Nat.lt_succ_self _
      · rw [hfunction, hlocals]
        exact (getD_push ..).trans (if_pos rfl)
      · rw [hlocals, table_withPlainFunction, if_pos rfl]
        rfl
      · rw [hlocals, get?_withPlainFunction, if_pos rfl]
        simp only [eq_comm]
  case named =>
    intro name hname
    rw [get?_withPlainFunction, if_neg (by omega)]
    exact hnamed name hname
  case apart =>
    have hsize : (withPlainFunction (c.spec l i address) ⟨"x", none, none, false⟩ p.store).symbols.size =
        p.store.symbols.size + 1 + 1 := (Array.size_push ..).trans (congrArg (· + 1) (Array.size_push ..))
    rw [cell?_withPlainFunction, hsize]
    exact (hapart.update _).update _

end Changes

end CallChain

end Surmise
