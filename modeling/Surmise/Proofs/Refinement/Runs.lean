import Surmise.Proofs.Propagation.Passes
import Surmise.Proofs.Refinement.Merit
import Surmise.Proofs.Refinement.Recording
import Surmise.Proofs.Store.Productions

/-!
# Runs of the refinement

The symbols of a record are narrowed one after another. Which members an alternative supports does not
depend on what symbols hold, so each symbol is narrowed as if it were the only one.

* `World.supports_revalued`: support does not depend on the values of symbols.
* `run_refineSymbols`: the store after the symbols of a record were narrowed.
* `Recorder.exists_refined`: the same for a recorder, with what each symbol then holds.
-/

namespace Surmise

open World StoreM Value Store

/-! ## Some of the alternatives of a value -/

namespace Value

theorem eq_ofDisjuncts {v : Value} (h : v.WellFormed) : v = ofDisjuncts v.disjuncts := by
  cases v
  case union alternatives =>
    have hproper := h.proper.2
    rw [disjuncts]
    unfold ofDisjuncts
    split
    · exact absurd rfl hproper
    · rfl
  all_goals rfl

theorem byParts_eq_ofDisjuncts {v : Value} (h : v.WellFormed) : v.byParts = ofDisjuncts (v.disjuncts.map byParts) := by
  cases v
  case union alternatives => exact (byParts_ofDisjuncts h.proper.2).symm
  all_goals rfl

theorem flatten_of_flat {ds : List Value} (h : ∀ d ∈ ds, d.isUnion = false) : flatten ds = ds := by
  induction ds with
  | nil => rfl
  | cons d rest ih =>
    obtain ⟨hd, hrest⟩ := List.forall_mem_cons.mp h
    have htail := ih hrest
    rw [flatten] at htail ⊢
    rw [List.flatMap_cons, disjuncts_of_isUnion hd, htail, List.singleton_append]

variable {v : Value} {ds : List Value} {n : Nat}

/-- The join of some of the alternatives of a value is made of them. -/
theorem disjuncts_unite_sublist (h : v.WellFormed) (hds : ds.Sublist v.disjuncts) :
    (unite ds).disjuncts = ds.map byParts := by
  have hwell : ∀ d ∈ ds, d.WellFormed := fun d hd => h.of_mem_disjuncts (hds.subset hd)
  have hflat : ∀ d ∈ ds, d.isUnion = false := fun d hd => h.alternatives.flat d (hds.subset hd)
  -- the alternatives have different slots and are few, so nothing is grouped and nothing is cut
  have hdistinct : (ds.map slot).Nodup := h.alternatives.distinct.sublist (hds.map slot)
  have hfew : ds.length ≤ maxDisjuncts := Nat.le_trans hds.length_le h.alternatives.few
  rw [disjuncts_unite hwell, merged, flatten_of_flat hflat, grouped_of_nodup hdistinct,
    List.take_of_length_le (by rwa [List.length_map]), List.map_map]
  refine List.map_congr_left fun d hd => mergeGroup_singleton (hflat d hd) fun p hp => ?_
  exact unite_singleton ((hwell d hd).of_mem_parts hp.2)

theorem Given.of_mem_disjuncts {d : Value} (h : v.Given n) (hd : d ∈ v.disjuncts) : d.Given n :=
  ⟨h.sound.of_mem_disjuncts hd, isNumbered_of_mem_disjuncts h.numbered hd⟩

theorem byParts_byParts {d : Value} (h : d.WellFormed) : d.byParts.byParts = d.byParts := by
  rw [← unite_singleton h, byParts_unite (by simpa using h)]

/-- Kept, the join of some alternatives differs from them only in the identity of properties. -/
theorem disjuncts_number_unite (h : v.Given n) (hds : ds.Sublist v.disjuncts) (m : Nat) :
    ((unite ds).number m).1.disjuncts.map byParts = ds.map byParts := by
  have hgiven : ∀ d ∈ ds, d.Given n := fun d hd => h.of_mem_disjuncts (hds.subset hd)
  have hsettled : (unite ds).Settled := settled_unite fun d hd => (hgiven d hd).joinable.2
  rw [disjuncts_number, byParts_numberAll fun d hd k => byParts_number (hsettled.of_mem_disjuncts hd) k,
    disjuncts_unite_sublist h.sound.wellFormed hds, List.map_map]
  exact List.map_congr_left fun d hd => byParts_byParts (hgiven d hd).sound.wellFormed

/-- Where there is no property to be made anew, it is made of the alternatives themselves. -/
theorem number_unite_of_byParts (h : v.Given n) (hds : ds.Sublist v.disjuncts) (hparts : ∀ d ∈ ds, d.byParts = d)
    (m : Nat) : ((unite ds).number m).1 = ofDisjuncts ds := by
  have hwell : ∀ d ∈ ds, d.WellFormed := fun d hd => (h.of_mem_disjuncts (hds.subset hd)).sound.wellFormed
  have hunite : unite ds = ofDisjuncts ds := by
    have hself : ds.map byParts = ds := (List.map_congr_left hparts).trans (List.map_id ds)
    rw [eq_ofDisjuncts (wellFormed_unite hwell), disjuncts_unite_sublist h.sound.wellFormed hds, hself]
  rw [hunite, number_of_isNumbered]
  exact isNumbered_ofDisjuncts fun d hd => (h.of_mem_disjuncts (hds.subset hd)).numbered

end Value

/-! ## What refinement asks of a store -/

/-- The stores differ in nothing but what symbols hold, and in the next serial number. -/
def Store.Revalued (s s' : Store) : Prop :=
  ∃ symbols n, s' = { s with symbols := symbols, nextSerial := n }

theorem Store.Revalued.trans {s s' s'' : Store} (h : s.Revalued s') (h' : s'.Revalued s'') : s.Revalued s'' := by
  obtain ⟨symbols, n, rfl⟩ := h
  obtain ⟨symbols', n', rfl⟩ := h'
  exact ⟨symbols', n', rfl⟩

theorem Store.revalued_put (s : Store) (symbol : SymbolId) (v : Value) : s.Revalued (put symbol v s).2 := by
  rw [put_eq]
  exact ⟨_, _, rfl⟩

namespace World

variable {graph : Graph} {s s' : Store} {cancelled : Bool}

/-- **Support does not depend on what symbols hold.** -/
theorem supports_revalued (h : s.Revalued s') : supports ⟨graph, s', cancelled⟩ = supports ⟨graph, s, cancelled⟩ := by
  obtain ⟨symbols, n, rfl⟩ := h
  funext name v
  cases v <;> rfl

theorem refined?_revalued (h : s.Revalued s') : refined? ⟨graph, s', cancelled⟩ = refined? ⟨graph, s, cancelled⟩ := by
  have htelling : isTelling ⟨graph, s', cancelled⟩ = isTelling ⟨graph, s, cancelled⟩ := by
    funext alternatives name
    simp only [isTelling, supports_revalued h]
  have hscore : score ⟨graph, s', cancelled⟩ = score ⟨graph, s, cancelled⟩ := by
    funext names v
    simp only [score, supports_revalued h]
  funext names v
  simp only [refined?, htelling, hscore]

theorem informative_revalued (h : s.Revalued s') :
    informative ⟨graph, s', cancelled⟩ = informative ⟨graph, s, cancelled⟩ := by
  funext alternatives names
  ext name
  simp only [mem_informative, supports_revalued h]

theorem merit_revalued (h : s.Revalued s') : merit ⟨graph, s', cancelled⟩ = merit ⟨graph, s, cancelled⟩ := by
  funext alternatives names d
  rw [merit, merit, informative_revalued h]
  refine congrArg Finset.card (Finset.filter_congr fun name _ => ?_)
  rw [supports_revalued h]

theorem best_revalued (h : s.Revalued s') : best ⟨graph, s', cancelled⟩ = best ⟨graph, s, cancelled⟩ := by
  funext names alternatives
  refine List.filter_congr fun d _ => decide_eq_decide.mpr ?_
  rw [merit_revalued h]

/-- Narrowing that is not cancelled goes through. -/
theorem refine_eq_ok (names : List String) (v : Value) :
    refine ⟨graph, s, false⟩ names v = .ok (refined? ⟨graph, s, false⟩ names v) := by
  unfold refine
  split
  · next hnone =>
    refine congrArg Except.ok ?_
    unfold refined?
    rw [if_pos]
    rcases Bool.or_eq_true_iff.mp hnone with hfew | hnames
    · rw [hfew, Bool.true_or]
    · rw [List.isEmpty_iff.mp hnames]
      exact Bool.or_true _
  · rfl

/-- A value that is narrowed has several alternatives. -/
theorem two_le_of_refined? {w : World} {names : List String} {v u : Value} (h : w.refined? names v = some u) :
    2 ≤ v.disjuncts.length := by
  unfold refined? at h
  dsimp only at h
  split at h
  · cases h
  · next hmany =>
    rw [Bool.or_eq_true, decide_eq_true_eq, not_or] at hmany
    exact Nat.not_lt.mp hmany.1

end World

/-! ## The symbols of a record -/

/-- The symbols hold sound values with all their serial numbers. -/
def Store.Given (s : Store) : Prop := ∀ id, (s.value id).Given s.nextSerial

/-- The second store is the first after the symbols of a record were narrowed. -/
structure Narrowed (graph : Graph) (record : List (SymbolId × List String)) (s s' : Store) : Prop where
  revalued : s.Revalued s'
  kept : ∀ id, (∀ entry ∈ record, entry.1 = id → World.refined? ⟨graph, s, false⟩ entry.2 (s.value id) = none) →
    s'.value id = s.value id
  refined : ∀ entry ∈ record, ∀ v, World.refined? ⟨graph, s, false⟩ entry.2 (s.value entry.1) = some v →
    ∃ m, s'.value entry.1 = (v.number m).1
  given : s.Given → s'.Given

section Record

variable {graph : Graph} {s : Store} {symbol : SymbolId} {names : List String} {v : Value}

theorem given_put (hs : s.Given) (hv : v.Sound s.nextSerial) (symbol id : SymbolId) :
    ((put symbol v s).2.value id).Given (put symbol v s).2.nextSerial := by
  have hnext : (put symbol v s).2.nextSerial = (v.number s.nextSerial).2 := by rw [put_eq]
  rw [value_put, hnext]
  split
  · exact ⟨sound_number hv, isNumbered_number v _⟩
  · exact (hs id).mono (le_number v _)

/-- The symbol that is narrowed is one of the store. -/
theorem lt_size_of_refined? {w : World} (h : w.refined? names (s.value symbol) = some v) :
    symbol.index < s.symbols.size := by
  by_contra hout
  have hdefault : s.value symbol = .null := by
    rw [Store.value, Store.symbol, getD_of_size_le (Nat.not_lt.mp hout)]
    rfl
  have htwo := World.two_le_of_refined? h
  rw [hdefault] at htwo
  exact absurd htwo (by decide)

/-- **Narrowing the symbols of a record** narrows each from the value that it held at first. -/
theorem run_refineSymbols (graph : Graph) {record : List (SymbolId × List String)}
    (hkeys : (record.map Prod.fst).Nodup) (count : Nat) (s : Store) :
    ∃ s', (refineSymbols graph false record count).run s = (.ok (count + record.countP fun entry =>
          (refined? ⟨graph, s, false⟩ entry.2 (s.value entry.1)).isSome), s') ∧
      Narrowed graph record s s' := by
  induction record generalizing count s with
  | nil => exact ⟨s, rfl, ⟨s.symbols, s.nextSerial, rfl⟩, fun _ _ => rfl, by simp, fun h => h⟩
  | cons entry rest ih =>
    obtain ⟨symbol, names⟩ := entry
    rw [List.map_cons, List.nodup_cons] at hkeys
    obtain ⟨hfirst, hrest⟩ := hkeys
    rw [Run.run_refineSymbols_cons, refine_eq_ok]
    cases hrefined : refined? ⟨graph, s, false⟩ names (s.value symbol) with
    | none =>
      obtain ⟨s', hrun, hnarrowed⟩ := ih hrest count s
      refine ⟨s', ?_, hnarrowed.revalued, fun id hid => ?_, ?_, hnarrowed.given⟩
      · rw [List.countP_cons, hrefined]
        exact hrun
      · exact hnarrowed.kept id fun entry hentry => hid entry (List.mem_cons_of_mem _ hentry)
      · refine List.forall_mem_cons.mpr ⟨fun v hv => ?_, hnarrowed.refined⟩
        rw [hrefined] at hv
        cases hv
    | some v =>
      have hin := lt_size_of_refined? hrefined
      have hput := s.revalued_put symbol v
      -- the symbols of the rest are others, so they still hold what they held
      have hother : ∀ id, id ≠ symbol → (put symbol v s).2.value id = s.value id := by
        intro id hne
        rw [value_put, if_neg fun hsame => hne (congrArg SymbolId.mk hsame.1.symm)]
      have hsame : ∀ entry ∈ rest, refined? ⟨graph, (put symbol v s).2, false⟩ entry.2
            ((put symbol v s).2.value entry.1) =
          refined? ⟨graph, s, false⟩ entry.2 (s.value entry.1) := by
        intro entry hentry
        rw [refined?_revalued hput, hother]
        exact fun hid => hfirst (List.mem_map.mpr ⟨entry, hentry, hid⟩)
      obtain ⟨s', hrun, hnarrowed⟩ := ih hrest (count + 1) (put symbol v s).2
      have hcount : rest.countP (fun entry => (refined? ⟨graph, (put symbol v s).2, false⟩ entry.2
            ((put symbol v s).2.value entry.1)).isSome) =
          rest.countP fun entry => (refined? ⟨graph, s, false⟩ entry.2 (s.value entry.1)).isSome :=
        List.countP_congr fun entry hentry => by rw [hsame entry hentry]
      have hsymbol : s'.value symbol = (v.number s.nextSerial).1 := by
        rw [hnarrowed.kept symbol fun entry hentry hid => absurd (List.mem_map.mpr ⟨entry, hentry, hid⟩) hfirst,
          value_put, if_pos ⟨rfl, hin⟩]
      refine ⟨s', ?_, hput.trans hnarrowed.revalued, fun id hid => ?_, ?_, fun hs => ?_⟩
      · rw [List.countP_cons, hrefined, ← hcount]
        simp only [Option.isSome_some, if_true]
        rw [← Nat.add_assoc, Nat.add_right_comm]
        exact hrun
      · have hne : id ≠ symbol := by
          rintro rfl
          rw [hid _ List.mem_cons_self rfl] at hrefined
          cases hrefined
        rw [hnarrowed.kept id fun entry hentry hentry' => ?_, hother id hne]
        subst hentry'
        rw [hsame entry hentry]
        exact hid entry (List.mem_cons_of_mem _ hentry) rfl
      · refine List.forall_mem_cons.mpr ⟨fun u hu => ?_, fun entry hentry u hu => ?_⟩
        · obtain rfl := Option.some.inj (hrefined.symm.trans hu)
          exact ⟨_, hsymbol⟩
        · exact hnarrowed.refined entry hentry u ((hsame entry hentry).trans hu)
      · refine hnarrowed.given (given_put hs ?_ symbol)
        have hsound := Run.ensures_refine (w := ⟨graph, s, false⟩) names (hs symbol).sound
        rw [refine_eq_ok] at hsound
        exact hsound v hrefined

end Record

/-! ## The symbols of a recorder -/

namespace Recorder

/-- The members used on a symbol that tell the alternatives of its value apart. -/
def telling (graph : Graph) (events : List Event) (s : Store) (id : SymbolId) : Finset String :=
  World.informative ⟨graph, s, false⟩ (s.value id).disjuncts (usedOn events id)

/-- The alternatives of the value of a symbol that support best what is used on it. -/
def bestOf (graph : Graph) (events : List Event) (s : Store) (id : SymbolId) : List Value :=
  World.best ⟨graph, s, false⟩ (usedOn events id) (s.value id).disjuncts

/-- The symbols that have such members. -/
def toldApart (graph : Graph) (events : List Event) (s : Store) : Finset SymbolId :=
  (symbolsUsed events).filter fun id => telling graph events s id ≠ ∅

/-- The second store is the first after the symbols of a recorder were narrowed. -/
structure Refined (graph : Graph) (events : List Event) (s s' : Store) : Prop where
  revalued : s.Revalued s'
  unchanged : ∀ id, telling graph events s id = ∅ → s'.value id = s.value id
  narrowed : ∀ id, telling graph events s id ≠ ∅ →
    ∃ m, s'.value id = ((Value.unite (bestOf graph events s id)).number m).1
  given : s.Given → s'.Given

variable {graph : Graph} {events : List Event} {s s' : Store} {id : SymbolId}

theorem bestOf_sublist (graph : Graph) (events : List Event) (s : Store) (id : SymbolId) :
    (bestOf graph events s id).Sublist (s.value id).disjuncts :=
  List.filter_sublist

/-- Without a use there is nothing that tells. -/
theorem telling_of_usedOn (h : usedOn events id = ∅) : telling graph events s id = ∅ := by
  rw [telling, informative, h, Finset.filter_empty]

theorem mem_toldApart : id ∈ toldApart graph events s ↔ telling graph events s id ≠ ∅ := by
  rw [toldApart, Finset.mem_filter, mem_symbolsUsed, Finset.nonempty_iff_ne_empty]
  exact and_iff_right_of_imp fun htelling hnone => htelling (telling_of_usedOn hnone)

/-- A symbol that has members which tell has an entry in the record. -/
theorem exists_entry (h : telling graph events s id ≠ ∅) : ∃ names, (id, names) ∈ (ofEvents events).attrs :=
  exists_mem_attrs (Finset.nonempty_iff_ne_empty.mpr fun hnone => h (telling_of_usedOn hnone))

theorem refined?_of_mem_attrs {entry : SymbolId × List String} (h : entry ∈ (ofEvents events).attrs) :
    refined? ⟨graph, s, false⟩ entry.2 (s.value entry.1) =
      if telling graph events s entry.1 = ∅ then none else some (.unite (bestOf graph events s entry.1)) := by
  obtain ⟨hnodup, hnames⟩ := toFinset_of_mem_attrs h
  rw [refined?_eq hnodup, hnames]
  rfl

/-- How many symbols of the record are narrowed. -/
theorem countP_attrs (graph : Graph) (events : List Event) (s : Store) : (ofEvents events).attrs.countP (fun entry =>
      (refined? ⟨graph, s, false⟩ entry.2 (s.value entry.1)).isSome) = (toldApart graph events s).card := by
  have hkeys := (filed_ofEvents events).keys
  have hcount : (ofEvents events).attrs.countP (fun entry =>
        (refined? ⟨graph, s, false⟩ entry.2 (s.value entry.1)).isSome) =
      (ofEvents events).attrs.countP ((fun id => decide (telling graph events s id ≠ ∅)) ∘ Prod.fst) := by
    refine List.countP_congr fun entry hentry => ?_
    rw [refined?_of_mem_attrs hentry]
    split <;> simp_all
  -- a symbol has one entry, so entries and symbols are counted alike
  have hset : toldApart graph events s =
      (((ofEvents events).attrs.map Prod.fst).filter fun id => telling graph events s id ≠ ∅).toFinset := by
    ext id
    rw [mem_toldApart, List.mem_toFinset, List.mem_filter, decide_eq_true_eq]
    refine (and_iff_right_of_imp fun htelling => ?_).symm
    obtain ⟨names, hmem⟩ := exists_entry htelling
    exact List.mem_map_of_mem hmem
  rw [hcount, ← List.countP_map, hset, List.toFinset_card_of_nodup (hkeys.filter _), List.countP_eq_length_filter]

/-- **Narrowing the symbols of a recorder**, and how many are counted. -/
theorem exists_refined (graph : Graph) (events : List Event) (s : Store) :
    ∃ s', (refineSymbols graph false (ofEvents events).attrs 0).run s =
      (.ok (toldApart graph events s).card, s') ∧ Refined graph events s s' := by
  obtain ⟨s', hrun, hnarrowed⟩ := run_refineSymbols graph (filed_ofEvents events).keys 0 s
  rw [Nat.zero_add, countP_attrs] at hrun
  refine ⟨s', hrun, hnarrowed.revalued, fun id htelling => ?_, fun id htelling => ?_, hnarrowed.given⟩
  · refine hnarrowed.kept id fun entry hentry hid => ?_
    subst hid
    rw [refined?_of_mem_attrs hentry, if_pos htelling]
  · obtain ⟨names, hmem⟩ := exists_entry htelling
    exact hnarrowed.refined _ hmem _ ((refined?_of_mem_attrs hmem).trans (if_neg htelling))

/-! ### What symbols then hold -/

section Given

variable (h : Refined graph events s s') (hs : s.Given)

include h hs

/-- **A symbol holds its best alternatives**, up to the identity of their properties. -/
theorem Refined.disjuncts (id : SymbolId) :
    (s'.value id).disjuncts.map byParts = (bestOf graph events s id).map byParts := by
  by_cases htelling : telling graph events s id = ∅
  · rw [h.unchanged id htelling, bestOf, best_of_informative htelling]
  · obtain ⟨m, hvalue⟩ := h.narrowed id htelling
    rw [hvalue, disjuncts_number_unite (hs id) (bestOf_sublist graph events s id)]

/-- Where there is no property to be made anew, it holds the alternatives themselves. -/
theorem Refined.value_eq (hparts : ∀ d ∈ bestOf graph events s id, d.byParts = d) :
    s'.value id = .ofDisjuncts (bestOf graph events s id) := by
  by_cases htelling : telling graph events s id = ∅
  · rw [h.unchanged id htelling, bestOf, best_of_informative htelling]
    exact eq_ofDisjuncts (hs id).sound.wellFormed
  · obtain ⟨m, hvalue⟩ := h.narrowed id htelling
    rw [hvalue, number_unite_of_byParts (hs id) (bestOf_sublist graph events s id) hparts]

end Given

end Recorder

end Surmise
