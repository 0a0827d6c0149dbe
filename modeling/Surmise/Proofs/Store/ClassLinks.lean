import Surmise.Proofs.Store.Definitions
import Surmise.Proofs.Traversal

/-!
# Bases and subclasses

A class refers to its bases, and the store lists the subclasses of a class. The two are written at different
times: a class is listed below each of its bases first, and is given the bases then. So they agree as long as no
class has a base that does not list it.

* `Store.mem_lineage_iff`, `Store.mem_walkSubclasses_iff`: what the searches along the two kinds of links find,
  whatever cycles there are.
* `Store.Linked`: every class is listed below its bases.
* `Store.Linked.mem_walkSubclasses`: then a class is found from all its ancestors.
-/

namespace Surmise

open Value

namespace Store

open Traversal

variable {s s' : Store} {c : ClassId} {ancestor sub : ClassId} {node : Node} {origin : Origin}

/-! ## Searches -/

theorem mem_sourceBases {base : ClassId} : base ∈ s.sourceBases c ↔ .classRef base ∈ flatten (s.classOf c).bases := by
  unfold sourceBases
  rw [List.mem_filterMap]
  constructor
  · rintro ⟨v, hv, hbase⟩
    split at hbase
    · cases hbase
      exact hv
    · cases hbase
  · exact fun h => ⟨_, h, rfl⟩

/-- All alternatives of bases, each behind the class that has it. -/
def baseEntries (s : Store) : List (ClassId × Value) :=
  s.classes.toList.zipIdx.flatMap fun e => (Value.flatten e.1.bases).map fun v => (⟨e.2⟩, v)

theorem length_baseEntries (s : Store) : s.baseEntries.length + 1 = s.baseSteps := by
  have hfoldl : ∀ (infos : List ClassInfo) (n start : Nat),
      ((infos.zipIdx start).flatMap fun e => (flatten e.1.bases).map fun v =>
        ((⟨e.2⟩ : ClassId), v)).length + n =
      infos.foldl (fun n c => n + (flatten c.bases).length) n := by
    intro infos
    induction infos with
    | nil => exact fun n start => Nat.zero_add n
    | cons info rest ih =>
      intro n start
      rw [List.zipIdx_cons, List.flatMap_cons, List.length_append, List.length_map, List.foldl_cons, ← ih _ (start + 1)]
      dsimp only
      omega
  unfold baseEntries baseSteps
  rw [← Array.foldl_toList]
  exact hfoldl _ 1 0

theorem entries_sourceBases (s : Store) : Entries s.sourceBases s.baseEntries := by
  intro c
  by_cases hc : c.index < s.classes.size
  · have hmem : (s.classOf c, c.index) ∈ s.classes.toList.zipIdx := by
      rw [List.mk_mem_zipIdx_iff_getElem?]
      unfold classOf
      rw [Array.getElem?_toList, Array.getD_eq_getD_getElem?, Array.getElem?_eq_getElem hc, Option.getD_some]
    obtain ⟨before, after, hsplit⟩ := List.append_of_mem hmem
    have hown : ((flatten (s.classOf c).bases).map fun v => ((⟨c.index⟩ : ClassId), v)).countP
        (fun e => e.1 = c) = (flatten (s.classOf c).bases).length := by
      rw [List.countP_map, List.countP_eq_length.mpr fun v _ => by simp]
    have hfound : (s.sourceBases c).length ≤ (flatten (s.classOf c).bases).length :=
      List.length_filterMap_le _ _
    unfold baseEntries
    rw [hsplit, List.flatMap_append, List.flatMap_cons, List.countP_append, List.countP_append]
    dsimp only
    omega
  · -- a class that is not there has no bases
    have hnone : s.sourceBases c = [] := by
      unfold sourceBases classOf
      rw [getD_of_size_le (Nat.le_of_not_lt hc)]
      rfl
    rw [hnone]
    exact Nat.zero_le _

/-- **The source ancestors of a class** are what can be reached through bases, and the class itself. -/
theorem mem_lineage_iff : ancestor ∈ s.lineage c ↔ Reaches s.sourceBases c ancestor :=
  mem_depthFirst_iff s.entries_sourceBases (Nat.lt_of_succ_le (Nat.le_of_eq s.length_baseEntries))

theorem mem_subclassesOf : sub ∈ s.subclassesOf c ↔ (c, sub) ∈ s.subclassLinks := by
  unfold subclassesOf
  rw [List.mem_filterMap]
  constructor
  · rintro ⟨⟨parent, sub'⟩, hlink, hsub⟩
    dsimp only at hsub
    split at hsub
    · next heq =>
      cases hsub
      exact heq ▸ hlink
    · cases hsub
  · exact fun h => ⟨(c, sub), h, if_pos rfl⟩

theorem entries_subclassesOf (s : Store) : Entries s.subclassesOf s.subclassLinks := by
  intro c
  unfold subclassesOf
  induction s.subclassLinks with
  | nil => exact Nat.le_refl _
  | cons link rest ih =>
    rw [List.filterMap_cons, List.countP_cons]
    dsimp only
    by_cases heq : link.1 = c
    · simp only [heq, if_true, List.length_cons, decide_true]
      exact Nat.succ_le_succ ih
    · simp only [heq, if_false, decide_false]
      exact ih

/-- **The subclasses of a class** are what can be reached through the listed ones, and the class itself. -/
theorem mem_walkSubclasses_iff : sub ∈ s.walkSubclasses c ↔ Reaches s.subclassesOf c sub :=
  mem_depthFirst_iff s.entries_subclassesOf (Nat.lt_succ_self _)

theorem nodup_walkSubclasses (s : Store) (c : ClassId) : (s.walkSubclasses c).Nodup :=
  nodup_depthFirst s.entries_subclassesOf (Nat.lt_succ_self _) c

theorem walkSubclasses_eq_cons (s : Store) (c : ClassId) : ∃ rest, s.walkSubclasses c = c :: rest :=
  depthFirst_eq_cons s.subclassesOf s.subclassLinks.length c

/-! ## Agreement -/

/-- The class is listed below the other source classes among the alternatives of some values. -/
def Registered (s : Store) (c : ClassId) (vs : List Value) : Prop :=
  ∀ base, .classRef base ∈ Value.flatten vs → base ≠ c → (base, c) ∈ s.subclassLinks

/-- Every class is listed below its bases. -/
def Linked (s : Store) : Prop := ∀ c, s.Registered c (s.classOf c).bases

theorem Registered.mono {vs : List Value} (h : s.Registered c vs) (hlinks : s.subclassLinks ⊆ s'.subclassLinks)
    : s'.Registered c vs :=
  fun base hbase hne => hlinks (h base hbase hne)

/-- **A class is found from each of its ancestors.** The way down is the way up, taken backwards. -/
theorem Linked.mem_walkSubclasses (h : s.Linked) (hancestor : ancestor ∈ s.lineage c) :
    c ∈ s.walkSubclasses ancestor := by
  rw [mem_lineage_iff] at hancestor
  rw [mem_walkSubclasses_iff]
  induction hancestor with
  | refl => exact .refl
  | @tail mid base _ hbase ih =>
    by_cases heq : base = mid
    · exact heq ▸ ih
    · exact .head (mem_subclassesOf.mpr (h mid base (mem_sourceBases.mp hbase) heq)) ih

/-- The parameters of functions have symbols that there are. -/
def ParamsKnown (s : Store) : Prop := ∀ g, ∀ p ∈ (s.function g).params, p.symbol.index < s.symbols.size

theorem ParamsKnown.keep (h : s.ParamsKnown) (hkept : s.KeepsDefinitions s') : s'.ParamsKnown := by
  intro g p hp
  rw [function, hkept.functions] at hp
  exact Nat.lt_of_lt_of_le (h g p hp) hkept.symbols

theorem ParamsKnown.add (h : s.ParamsKnown)
    (hadded : StoreM.AddsFunctionTo s s' node origin) : s'.ParamsKnown := by
  obtain ⟨info, -, -, hfunctions⟩ := hadded.function
  intro g p hp
  by_cases hlast : g.index = s.functions.size
  · obtain rfl : g = ⟨s.functions.size⟩ := congrArg FunctionId.mk hlast
    exact hadded.params p hp
  · rw [function, hfunctions, getD_push, if_neg hlast] at hp
    exact Nat.lt_of_lt_of_le (h g p hp) hadded.symbols

/-- Every class is listed below its bases, and the parameters of functions have symbols. -/
structure Coherent (s : Store) : Prop where
  linked : s.Linked
  params : s.ParamsKnown

/-- The later store lists the subclasses that were listed, and is coherent if the earlier one was. -/
structure KeepsCoherent (s s' : Store) : Prop where
  subclassLinks : s.subclassLinks ⊆ s'.subclassLinks
  coherent : s.Coherent → s'.Coherent

theorem KeepsCoherent.refl (s : Store) : s.KeepsCoherent s := ⟨List.Subset.refl _, fun h => h⟩

theorem KeepsCoherent.trans {s'' : Store} (h : s.KeepsCoherent s') (h' : s'.KeepsCoherent s'') : s.KeepsCoherent s'' :=
  ⟨List.Subset.trans h.subclassLinks h'.subclassLinks, fun hs => h'.coherent (h.coherent hs)⟩

theorem KeepsBases.linked (h : s.KeepsBases s') (hs : s.Linked) : s'.Linked := by
  intro c
  rw [h.bases c]
  exact (hs c).mono h.subclassLinks

theorem KeepsDefinitions.keepsCoherent (h : s.KeepsDefinitions s') : s.KeepsCoherent s' :=
  ⟨h.subclassLinks, fun hs => ⟨h.linked hs.linked, hs.params.keep h⟩⟩

theorem keepsCoherent_of_adds (h : StoreM.AddsFunctionTo s s' node origin) : s.KeepsCoherent s' :=
  ⟨h.subclassLinks, fun hs => ⟨h.linked hs.linked, hs.params.add h⟩⟩

/-- Bases may be replaced by ones that list the class. -/
theorem keepsCoherent_setBases {bases : List Value} (h : s.Registered c bases) :
    s.KeepsCoherent (StoreM.modifyClass c (fun info => { info with bases }) s).2 := by
  refine ⟨List.Subset.refl _, fun hs => ⟨fun c' base hbase hne => ?_, hs.params⟩⟩
  rw [StoreM.modifyClass_eq] at hbase
  unfold classOf at hbase
  rw [getD_modify] at hbase
  split at hbase
  · next hsame =>
    obtain rfl : c = c' := congrArg ClassId.mk hsame.1
    exact h base hbase hne
  · exact hs.linked c' base hbase hne

end Store

/-! ## Listing a class below its bases -/

namespace StoreM

theorem mem_subclassLinks_registerSubclass (c : ClassId) (vs : List Value) (s : Store) :
    ∀ base, .classRef base ∈ vs → base ≠ c → (base, c) ∈ (Evaluator.registerSubclass c vs s).2.subclassLinks := by
  fun_induction Evaluator.registerSubclass c vs generalizing s with
  | case1 =>
    intro base hbase
    cases hbase
  | case2 parent rest _ hne ih =>
    intro base hbase hother
    rcases List.mem_cons.mp hbase with heq | hbase
    · cases heq
      exact (keeps_registerSubclass c rest _).subclassLinks (mem_subclassLinks_addSubclass parent c s)
    · exact ih _ base hbase hother
  | case3 parent rest _ heq ih =>
    intro base hbase hother
    rcases List.mem_cons.mp hbase with heq' | hbase
    · cases heq'
      exact absurd hother heq
    · exact ih s base hbase hother
  | case4 v rest hv ih =>
    intro base hbase hother
    rcases List.mem_cons.mp hbase with heq | hbase
    · exact absurd heq.symm (hv base)
    · exact ih s base hbase hother

end StoreM

end Surmise
