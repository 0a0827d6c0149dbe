import Surmise.Proofs.Store.ClassLinks
import Surmise.Proofs.Traversal.DepthFirst
import Mathlib.Data.Set.Card

/-!
# Members of classes

The symbol of a member and its value are looked for recursively, along the bases of a class. Both searches visit the
ancestors in the order in which these are listed, so they give what the first one of them has.

* `World.classSymbolFrom_eq_seek`, `World.classMemberFrom_eq_seek`: both are recursive searches along the bases, if
  these are all source classes.
* `World.classMemberFrom_gives`: whatever the bases are, a search gives a value that the class provides, or none.
* `World.member_searches_agree`: the main statement.
-/

namespace Surmise

open Traversal

namespace Store

variable {s : Store} {c : ClassId}

/-- All bases of a class are source classes. -/
def SourceOnly (s : Store) (c : ClassId) : Prop := ∀ v ∈ Value.flatten (s.classOf c).bases, ∃ base, v = .classRef base

theorem SourceOnly.flatten_bases (h : s.SourceOnly c) :
    Value.flatten (s.classOf c).bases = (s.sourceBases c).map .classRef := by
  unfold SourceOnly at h
  unfold sourceBases
  generalize Value.flatten (s.classOf c).bases = bases at h
  induction bases with
  | nil => rfl
  | cons v rest ih =>
    obtain ⟨base, rfl⟩ := h v List.mem_cons_self
    rw [List.filterMap_cons, List.map_cons, ← ih fun w hw => h w (List.mem_cons_of_mem _ hw)]

/-- The lineage of a class is a walk from it. -/
theorem walk_lineage (s : Store) (c : ClassId) : Walk s.sourceBases [] [c] (s.lineage c) := by
  have hlength := s.length_baseEntries
  have hle : unvisited s.baseEntries [] ≤ s.baseEntries.length := List.countP_le_length
  have hsteps : [c].length + unvisited s.baseEntries [] ≤ s.baseSteps := by rw [List.length_singleton]; omega
  obtain ⟨found, heq, hwalk⟩ := walk_depthFirst s.entries_sourceBases hsteps
  obtain rfl : s.lineage c = found := heq
  exact hwalk

theorem nodup_lineage (s : Store) (c : ClassId) : (s.lineage c).Nodup :=
  nodup_depthFirst s.entries_sourceBases (Nat.lt_of_succ_le (Nat.le_of_eq s.length_baseEntries)) c

theorem lineage_eq_cons (s : Store) (c : ClassId) : ∃ rest, s.lineage c = c :: rest := by
  unfold lineage
  rw [← s.length_baseEntries]
  exact depthFirst_eq_cons s.sourceBases s.baseEntries.length c

/-- As many classes can be reached as the lineage lists. -/
theorem ncard_reaches (s : Store) (c : ClassId) : {a | Reaches s.sourceBases c a}.ncard = (s.lineage c).length := by
  have hset : {a | Reaches s.sourceBases c a} = ((s.lineage c).toFinset : Set ClassId) := by
    ext a
    rw [Finset.mem_coe, List.mem_toFinset]
    exact mem_lineage_iff.symm
  rw [hset, Set.ncard_coe_finset, List.toFinset_card_of_nodup (s.nodup_lineage c)]

/-- Only classes that are there have bases. -/
theorem lt_classes_of_sourceBases (h : s.sourceBases c ≠ []) : c.index < s.classes.size := by
  by_contra hlt
  refine h ?_
  unfold sourceBases classOf
  rw [getD_of_size_le (Nat.le_of_not_lt hlt)]
  rfl

end Store

namespace World

variable {w : World} {c : ClassId} {name : String}
  {search : List ClassId → Value → Except AnalysisError (List ClassId × Value)}

/-! ## Symbols -/

theorem search_map_classRef (next : List ClassId → ClassId → List ClassId × Option SymbolId)
    (visited bases : List ClassId) :
    classSymbolFrom.search next visited (bases.map .classRef) = firstOf next visited bases := by
  induction bases generalizing visited with
  | nil => rfl
  | cons base rest ih =>
    rw [List.map_cons, classSymbolFrom.search, firstOf]
    generalize next visited base = out
    obtain ⟨visited', result⟩ := out
    cases result with
    | some symbol => rfl
    | none => exact ih visited'

/-- The symbol of a member is looked for recursively. -/
theorem classSymbolFrom_eq_seek (hsource : ∀ a, Reaches w.store.sourceBases c a → w.store.SourceOnly a)
    (steps : Nat) (visited : List ClassId) :
    w.classSymbolFrom name steps visited c =
      seek w.store.sourceBases (fun a => w.store.get? (w.store.classOf a).members name) steps visited c := by
  induction steps generalizing visited c with
  | zero => rfl
  | succ steps ih =>
    rw [classSymbolFrom, seek, (hsource c .refl).flatten_bases, search_map_classRef]
    rw [firstOf_congr fun base hbase visited => ih (fun a ha => hsource a (.head hbase ha)) visited]
    split
    · rfl
    · cases w.store.get? (w.store.classOf c).members name <;> rfl

/-! ## Values -/

/-- The member of a class itself is never empty. -/
theorem isEmpty_ownMember? {v : Value} (h : w.ownMember? c name = some v) : v.isEmpty = false := by
  unfold ownMember? at h
  dsimp only at h
  split at h
  · cases h
  · next hsome =>
    cases h
    exact Bool.eq_false_iff.mpr hsome

/-- What a base gives in a search, and what has been visited then. -/
def searchBase (w : World) (name : String) (budget : Nat) (visited : List ClassId) :
    Value → Except AnalysisError (List ClassId × Value)
  | .classRef parent => w.classMemberFrom name budget visited parent
  | other => .ok (visited, w.foreignMember name other)

/--
**A search for a value at a class.** It may have been visited. Else it has the member itself, or the budget is over,
or the bases are searched. Only here does the budget matter.
-/
theorem classMemberFrom_cases (hopen : w.cancelled = false) (name : String) (visited : List ClassId) (c : ClassId) :
    (c ∈ visited ∧ ∀ budget, w.classMemberFrom name budget visited c = .ok (visited, .empty)) ∨ c ∉ visited ∧
        ((∃ v, w.ownMember? c name = some v ∧
            ∀ budget, w.classMemberFrom name budget visited c = .ok (c :: visited, v)) ∨
          w.ownMember? c name = none ∧ w.classMemberFrom name 0 visited c = .ok (c :: visited, .empty) ∧
            ∀ budget, w.classMemberFrom name (budget + 1) visited c =
              firstFound (w.searchBase name budget) (c :: visited) (Value.flatten (w.store.classOf c).bases)) := by
  have hcheck : w.check = .ok () := by rw [check, hopen]; rfl
  by_cases hseen : c ∈ visited
  · refine .inl ⟨hseen, fun budget => ?_⟩
    cases budget <;> rw [classMemberFrom, if_pos hseen] <;> rfl
  · refine .inr ⟨hseen, ?_⟩
    cases hown : w.ownMember? c name with
    | some v =>
      refine .inl ⟨v, rfl, fun budget => ?_⟩
      cases budget <;> rw [classMemberFrom, if_neg hseen, hown] <;> rfl
    | none =>
      refine .inr ⟨rfl, ?_, fun budget => ?_⟩
      · rw [classMemberFrom, if_neg hseen, hown, hcheck]
        rfl
      · rw [classMemberFrom, if_neg hseen, hown, hcheck]
        refine congrArg (firstFound · _ _) (funext fun visited => funext fun base => ?_)
        cases base <;> rfl

/--
A class that can be reached through bases has the value as its member, or one of its bases that are no source classes
gives it.
-/
def Provides (w : World) (c : ClassId) (name : String) (v : Value) : Prop :=
  ∃ a, Reaches w.store.sourceBases c a ∧
    (w.ownMember? a name = some v ∨ ∃ base ∈ Value.flatten (w.store.classOf a).bases, w.foreignMember name base = v)

/-- The search has visited more, and a value that it gives is as stated. -/
structure Gives (visited : List ClassId) (P : Value → Prop) (r : List ClassId × Value) : Prop where
  visited : visited ⊆ r.1
  value : r.2.isEmpty = false → P r.2

theorem gives_empty {visited visited' : List ClassId} (h : visited ⊆ visited') (P : Value → Prop) :
    Gives visited P (visited', .empty) :=
  ⟨h, fun hsome => by cases hsome⟩

theorem firstFound_gives
    {bases : List Value} {P : Value → Prop}
    (hsearch : ∀ visited, ∀ base ∈ bases, ∃ r, search visited base = .ok r ∧ Gives visited P r)
    (visited : List ClassId) : ∃ r, firstFound search visited bases = .ok r ∧ Gives visited P r := by
  induction bases generalizing visited with
  | nil => exact ⟨_, rfl, gives_empty (List.Subset.refl _) P⟩
  | cons base rest ih =>
    obtain ⟨r, heq, hr⟩ := hsearch visited base List.mem_cons_self
    rw [firstFound, heq]
    cases hempty : r.2.isEmpty with
    | true =>
      obtain ⟨r', heq', hr'⟩ := ih (fun visited b hb => hsearch visited b (List.mem_cons_of_mem _ hb)) r.1
      exact ⟨r', (if_pos hempty).trans heq', List.Subset.trans hr.visited hr'.visited, hr'.value⟩
    | false => exact ⟨r, if_neg (Bool.eq_false_iff.mp hempty), hr⟩

/-- **A search gives an answer**, and a value that is not empty comes from a class that can be reached. -/
theorem classMemberFrom_gives (hopen : w.cancelled = false) (name : String) (budget : Nat) (visited : List ClassId)
    (c : ClassId) :
    ∃ r, w.classMemberFrom name budget visited c = .ok r ∧ Gives visited (w.Provides c name) r := by
  have hgrown : visited ⊆ c :: visited := List.subset_cons_self c visited
  induction budget generalizing visited c with
  | zero =>
    obtain ⟨-, heq⟩ | ⟨-, ⟨v, hown, heq⟩ | ⟨-, heq, -⟩⟩ := classMemberFrom_cases hopen name visited c
    · exact ⟨_, heq 0, gives_empty (List.Subset.refl _) _⟩
    · exact ⟨_, heq 0, hgrown, fun _ => ⟨c, .refl, .inl hown⟩⟩
    · exact ⟨_, heq, gives_empty hgrown _⟩
  | succ budget ih =>
    obtain ⟨-, heq⟩ | ⟨-, ⟨v, hown, heq⟩ | ⟨-, -, heq⟩⟩ := classMemberFrom_cases hopen name visited c
    · exact ⟨_, heq _, gives_empty (List.Subset.refl _) _⟩
    · exact ⟨_, heq _, hgrown, fun _ => ⟨c, .refl, .inl hown⟩⟩
    · have hbases : ∀ visited, ∀ base ∈ Value.flatten (w.store.classOf c).bases,
          ∃ r, w.searchBase name budget visited base = .ok r ∧ Gives visited (w.Provides c name) r := by
        intro visited base hbase
        unfold searchBase
        split
        · next parent =>
          obtain ⟨r, heq, hr⟩ := ih visited parent (List.subset_cons_self _ _)
          refine ⟨r, heq, hr.visited, fun hsome => ?_⟩
          obtain ⟨a, ha, hvalue⟩ := hr.value hsome
          exact ⟨a, .head (Store.mem_sourceBases.mpr hbase) ha, hvalue⟩
        · exact ⟨_, rfl, List.Subset.refl _, fun _ => ⟨c, .refl, .inr ⟨_, hbase, rfl⟩⟩⟩
      obtain ⟨r, heq', hr⟩ := firstFound_gives hbases (c :: visited)
      exact ⟨r, (heq budget).trans heq', List.Subset.trans hgrown hr.visited, hr.value⟩

/-- What a recursive search gives as an answer. -/
def answer (out : List ClassId × Option Value) : Except AnalysisError (List ClassId × Value) :=
  .ok (out.1, out.2.getD .empty)

theorem firstFound_map_classRef
    {next : List ClassId → ClassId → List ClassId × Option Value} {bases : List ClassId}
    (hsearch : ∀ base ∈ bases, ∀ visited, search visited (.classRef base) = answer (next visited base))
    (hsome : ∀ visited base v, (next visited base).2 = some v → v.isEmpty = false) (visited : List ClassId) :
    firstFound search visited (bases.map .classRef) = answer (firstOf next visited bases) := by
  induction bases generalizing visited with
  | nil => rfl
  | cons base rest ih =>
    have hrest := ih fun b hb => hsearch b (List.mem_cons_of_mem _ hb)
    have hvalue := hsome visited base
    rw [List.map_cons, firstFound, hsearch base List.mem_cons_self, firstOf]
    generalize next visited base = out at hvalue
    obtain ⟨visited', result⟩ := out
    cases result with
    | some v => exact if_neg (Bool.eq_false_iff.mp (hvalue v rfl))
    | none => exact hrest visited'

/-- The value of a member is looked for recursively, one level more than the budget. -/
theorem classMemberFrom_eq_seek (hopen : w.cancelled = false)
    (hsource : ∀ a, Reaches w.store.sourceBases c a → w.store.SourceOnly a) (budget : Nat) (visited : List ClassId) :
    w.classMemberFrom name budget visited c =
      answer (seek w.store.sourceBases (fun a => w.ownMember? a name) (budget + 1) visited c) := by
  induction budget generalizing visited c with
  | zero =>
    rw [seek, firstOf_seek_zero]
    obtain ⟨hseen, heq⟩ | ⟨hnew, ⟨v, hown, heq⟩ | ⟨hown, heq, -⟩⟩ := classMemberFrom_cases hopen name visited c
    · rw [heq, if_pos hseen]
      rfl
    · rw [heq, if_neg hnew, hown]
      rfl
    · rw [heq, if_neg hnew, hown]
      rfl
  | succ budget ih =>
    rw [seek]
    obtain ⟨hseen, heq⟩ | ⟨hnew, ⟨v, hown, heq⟩ | ⟨hown, -, heq⟩⟩ := classMemberFrom_cases hopen name visited c
    · rw [heq, if_pos hseen]
      rfl
    · rw [heq, if_neg hnew, hown]
      rfl
    · rw [heq, if_neg hnew, hown, (hsource c .refl).flatten_bases]
      refine firstFound_map_classRef (fun base hbase visited => ?_) (fun visited base v hv => ?_) _
      · exact ih (fun a ha => hsource a (.head hbase ha)) visited
      · obtain ⟨a, ha⟩ := exists_own_of_seek hv
        exact isEmpty_ownMember? ha

/--
**The searches for a member of a class follow one order.** The lineage of a class lists it first, and every class
that can be reached through bases once. Where all these have only source classes as bases, the symbol of a member is
that of the first class of the lineage that has one. If no more can be reached than a query has budget, its value is
that of the first class whose member has one.
-/
theorem member_searches_agree (graph : Graph) (s : Store) (c : ClassId) (name : String)
    (hsource : ∀ a, Reaches s.sourceBases c a → s.SourceOnly a) :
    (∃ rest, s.lineage c = c :: rest) ∧ (s.lineage c).Nodup ∧
      (∀ a, a ∈ s.lineage c ↔ Reaches s.sourceBases c a) ∧
      (∀ cancelled, classSymbol? ⟨graph, s, cancelled⟩ c name =
        (s.lineage c).findSome? fun a => s.get? (s.classOf a).members name) ∧
      ({a | Reaches s.sourceBases c a}.ncard ≤ callLimit →
        classMember ⟨graph, s, false⟩ callLimit c name =
          .ok (((s.lineage c).findSome? fun a => ownMember? ⟨graph, s, false⟩ a name).getD .empty)) := by
  refine ⟨s.lineage_eq_cons c, s.nodup_lineage c, fun a => Store.mem_lineage_iff, fun cancelled => ?_, fun hfew => ?_⟩
  · -- only the classes that are there have bases, so their number bounds the levels
    have hscope : ∀ a ∈ s.lineage c, s.sourceBases a ≠ [] → a ∈ (Finset.range s.classes.size).image ClassId.mk :=
      fun a _ ha => Finset.mem_image.mpr ⟨a.index, Finset.mem_range.mpr (Store.lt_classes_of_sourceBases ha), rfl⟩
    have hcard : ((Finset.range s.classes.size).image ClassId.mk).card < s.classes.size + 1 :=
      Nat.lt_succ_of_le (Finset.card_image_le.trans (Nat.le_of_eq (Finset.card_range _)))
    rw [classSymbol?, classSymbolFrom_eq_seek hsource]
    exact (s.walk_lineage c).seek_eq hscope hcard
  · have hcard : (s.lineage c).toFinset.card < callLimit + 1 := by
      rw [s.ncard_reaches] at hfew
      exact Nat.lt_succ_of_le ((List.toFinset_card_le _).trans hfew)
    rw [classMember, classMemberFrom_eq_seek rfl hsource,
      ← (s.walk_lineage c).seek_eq (fun a ha _ => List.mem_toFinset.mpr ha) hcard]
    rfl

/--
A class with two alternatives for its base, which have a base in common. One of the alternatives derives from the
class itself, and the other one declares a member without a value.
-/
def diamond : Store :=
  { Store.empty with
    symbols := #[⟨"x", ⟨⟨"/a.py"⟩, "A.x"⟩, .empty, false⟩, ⟨"x", ⟨⟨"/a.py"⟩, "D.x"⟩, .int none, false⟩]
    tables := #[⟨⟨⟨"/a.py"⟩, "C"⟩, .empty, none⟩, ⟨⟨⟨"/a.py"⟩, "A"⟩, .ofList [("x", ⟨0⟩)], none⟩,
      ⟨⟨⟨"/a.py"⟩, "B"⟩, .empty, none⟩, ⟨⟨⟨"/a.py"⟩, "D"⟩, .ofList [("x", ⟨1⟩)], none⟩]
    classes := #[⟨"C", ⟨0⟩, [.union [.classRef ⟨1⟩, .classRef ⟨2⟩]], none⟩, ⟨"A", ⟨1⟩, [.classRef ⟨3⟩], none⟩,
      ⟨"B", ⟨2⟩, [.classRef ⟨0⟩, .classRef ⟨3⟩], none⟩, ⟨"D", ⟨3⟩, [], none⟩] }

/-- The symbol is that of the alternative, and the value that of the common base. -/
theorem member_searches_agree_diamond :
    (∀ a, Reaches diamond.sourceBases ⟨0⟩ a → diamond.SourceOnly a) ∧
      {a | Reaches diamond.sourceBases ⟨0⟩ a}.ncard ≤ callLimit ∧
      classSymbol? ⟨.empty, diamond, false⟩ ⟨0⟩ "x" = some ⟨0⟩ ∧
      classMember ⟨.empty, diamond, false⟩ callLimit ⟨0⟩ "x" = .ok (.int none) := by
  have hsource : ∀ a, Reaches diamond.sourceBases ⟨0⟩ a → diamond.SourceOnly a := by
    have hnone : (default : ClassInfo).bases = [] := rfl
    rintro ⟨i⟩ -
    rcases i with _ | _ | _ | _ | i
    all_goals simp [Store.SourceOnly, diamond, Store.classOf, Value.flatten, Value.disjuncts, hnone]
  have hfew : {a | Reaches diamond.sourceBases ⟨0⟩ a}.ncard ≤ callLimit := by
    rw [Store.ncard_reaches]
    decide
  obtain ⟨-, -, -, hsymbol, hvalue⟩ := member_searches_agree .empty diamond ⟨0⟩ "x" hsource
  refine ⟨hsource, hfew, ?_, ?_⟩
  · rw [hsymbol]
    rfl
  · rw [hvalue hfew]
    rfl

end World

end Surmise
