import Mathlib.Data.Finset.Card
import Surmise.Capability

/-!
# What a recorder holds

A recorder files each use of a member under its symbol. What it holds depends only on which uses were
recorded, apart from the order.

* `Filed`: a table holds pairs by their first components, each key and each item once.
* `Recorder.filed_ofEvents`: the members that a recorder holds are those that were recorded.
-/

namespace Surmise

section Filed

variable {κ α : Type}

/-- The table holds these pairs by their first components, each key and each item once. -/
structure Filed (pairs : List (κ × α)) (table : List (κ × List α)) : Prop where
  keys : (table.map Prod.fst).Nodup
  items : ∀ entry ∈ table, entry.2.Nodup
  mem_iff : ∀ entry ∈ table, ∀ a, a ∈ entry.2 ↔ (entry.1, a) ∈ pairs
  complete : ∀ pair ∈ pairs, pair.1 ∈ table.map Prod.fst

theorem filed_nil : Filed ([] : List (κ × α)) [] := by
  constructor <;> simp

variable [DecidableEq κ] [DecidableEq α] {pairs : List (κ × α)} {table : List (κ × List α)} {key : κ} {a : α}

theorem map_fst_addUnder (key : κ) (a : α) (table : List (κ × List α)) : (addUnder key a table).map Prod.fst =
      if key ∈ table.map Prod.fst then table.map Prod.fst else table.map Prod.fst ++ [key] := by
  induction table with
  | nil => simp [addUnder]
  | cons entry rest ih =>
    obtain ⟨k, items⟩ := entry
    by_cases hk : k = key
    · simp [addUnder, hk]
    · simp only [addUnder, if_neg hk, List.map_cons, ih, List.mem_cons, Ne.symm hk, false_or]
      split <;> simp

/-- An entry is an old one of another key, or the one of the key, which was extended or is new. -/
theorem mem_addUnder {entry : κ × List α} (hkeys : (table.map Prod.fst).Nodup) (h : entry ∈ addUnder key a table) :
    entry.1 ≠ key ∧ entry ∈ table ∨ ∃ items, entry = (key, if a ∈ items then items else items ++ [a]) ∧
        ((key, items) ∈ table ∨ items = [] ∧ key ∉ table.map Prod.fst) := by
  induction table with
  | nil => exact .inr ⟨[], List.mem_singleton.mp h, .inr ⟨rfl, by simp⟩⟩
  | cons first rest ih =>
    obtain ⟨k, items⟩ := first
    rw [List.map_cons, List.nodup_cons] at hkeys
    by_cases hk : k = key
    · subst hk
      rw [addUnder, if_pos rfl] at h
      rcases List.mem_cons.mp h with rfl | hrest
      · exact .inr ⟨items, rfl, .inl List.mem_cons_self⟩
      · refine .inl ⟨?_, List.mem_cons_of_mem _ hrest⟩
        rintro rfl
        exact hkeys.1 (List.mem_map.mpr ⟨entry, hrest, rfl⟩)
    · rw [addUnder, if_neg hk] at h
      rcases List.mem_cons.mp h with rfl | h
      · exact .inl ⟨hk, List.mem_cons_self⟩
      · rcases ih hkeys.2 h with ⟨hne, h⟩ | ⟨old, rfl, hold⟩
        · exact .inl ⟨hne, List.mem_cons_of_mem _ h⟩
        · refine .inr ⟨old, rfl, hold.imp (List.mem_cons_of_mem _) fun hnew => ⟨hnew.1, ?_⟩⟩
          rw [List.map_cons, List.mem_cons, not_or]
          exact ⟨Ne.symm hk, hnew.2⟩

theorem Filed.addUnder (h : Filed pairs table) (key : κ) (a : α) :
    Filed (pairs ++ [(key, a)]) (addUnder key a table) where
  keys := by
    rw [map_fst_addUnder]
    split
    · exact h.keys
    · next hnew => exact List.nodup_append_comm.mp (List.nodup_cons.mpr ⟨hnew, h.keys⟩)
  items := by
    intro entry hentry
    rcases mem_addUnder h.keys hentry with ⟨-, hold⟩ | ⟨items, rfl, hitems⟩
    · exact h.items entry hold
    · have hnodup : items.Nodup := by
        rcases hitems with hold | ⟨rfl, -⟩
        · exact h.items _ hold
        · exact List.nodup_nil
      dsimp only
      split
      · exact hnodup
      · next hnew => exact List.nodup_append_comm.mp (List.nodup_cons.mpr ⟨hnew, hnodup⟩)
  mem_iff := by
    intro entry hentry b
    rw [List.mem_append, List.mem_singleton]
    rcases mem_addUnder h.keys hentry with ⟨hne, hold⟩ | ⟨items, rfl, hitems⟩
    · rw [h.mem_iff entry hold b, Prod.mk.injEq, or_iff_left fun hpair => hne hpair.1]
    · have hmem : b ∈ items ↔ (key, b) ∈ pairs := by
        rcases hitems with hold | ⟨rfl, hnew⟩
        · exact h.mem_iff _ hold b
        · exact iff_of_false List.not_mem_nil fun hpair => hnew (h.complete _ hpair)
      rw [← hmem, Prod.mk.injEq, and_iff_right rfl]
      dsimp only
      split
      · next ha =>
        refine ⟨.inl, ?_⟩
        rintro (hb | rfl)
        · exact hb
        · exact ha
      · rw [List.mem_append, List.mem_singleton]
  complete := by
    intro pair hpair
    rw [map_fst_addUnder]
    rcases List.mem_append.mp hpair with hpair | hpair
    · have hold := h.complete pair hpair
      split
      · exact hold
      · exact List.mem_append_left _ hold
    · rw [List.mem_singleton.mp hpair]
      split
      · next hold => exact hold
      · exact List.mem_append_right _ List.mem_cons_self

end Filed

namespace Recorder

/-- Something that is recorded. -/
inductive Event where
  | attr (symbol : SymbolId) (name : String)
  | flow (source target : SymbolId)
  deriving DecidableEq

def Event.record (r : Recorder) : Event → Recorder
  | .attr symbol name => r.recordAttr symbol name
  | .flow source target => r.recordFlow source target

def ofEvents (events : List Event) : Recorder := events.foldl Event.record .empty

/-- The use of a member that the event is. -/
def Event.use? : Event → Option (SymbolId × String)
  | .attr symbol name => some (symbol, name)
  | .flow .. => none

def uses (events : List Event) : List (SymbolId × String) := events.filterMap Event.use?

/-- The symbols on which members are used. -/
def symbolsUsed (events : List Event) : Finset SymbolId := ((uses events).map Prod.fst).toFinset

/-- The members that are used on a symbol. -/
def usedOn (events : List Event) (symbol : SymbolId) : Finset String :=
  (((uses events).filter fun use => use.1 = symbol).map Prod.snd).toFinset

variable {events : List Event} {symbol : SymbolId} {name : String}

theorem mem_uses : (symbol, name) ∈ uses events ↔ .attr symbol name ∈ events := by
  rw [uses, List.mem_filterMap]
  constructor
  · rintro ⟨event, hevent, huse⟩
    cases event <;> cases huse
    exact hevent
  · intro h
    exact ⟨_, h, rfl⟩

theorem mem_usedOn : name ∈ usedOn events symbol ↔ .attr symbol name ∈ events := by
  simp [usedOn, ← mem_uses]

theorem mem_symbolsUsed : symbol ∈ symbolsUsed events ↔ (usedOn events symbol).Nonempty := by
  simp [symbolsUsed, Finset.Nonempty, mem_usedOn, mem_uses]

theorem attrs_recordFlow (r : Recorder) (source target : SymbolId) : (r.recordFlow source target).attrs = r.attrs := by
  unfold recordFlow
  split <;> rfl

theorem filed_foldl {r : Recorder} {pairs : List (SymbolId × String)} (h : Filed pairs r.attrs) (events : List Event) :
    Filed (pairs ++ uses events) (events.foldl Event.record r).attrs := by
  induction events generalizing r pairs with
  | nil => simpa [uses] using h
  | cons event rest ih =>
    cases event with
    | attr symbol name =>
      have hnext := ih (r := r.recordAttr symbol name) (h.addUnder symbol name)
      rwa [List.append_assoc] at hnext
    | flow source target =>
      refine ih (r := r.recordFlow source target) ?_
      rw [attrs_recordFlow]
      exact h

/-- **The members that a recorder holds** are those that were recorded. -/
theorem filed_ofEvents (events : List Event) : Filed (uses events) (ofEvents events).attrs :=
  filed_foldl (r := .empty) filed_nil events

theorem toFinset_of_mem_attrs {entry : SymbolId × List String} (h : entry ∈ (ofEvents events).attrs) :
    entry.2.Nodup ∧ entry.2.toFinset = usedOn events entry.1 := by
  have hfiled := filed_ofEvents events
  refine ⟨hfiled.items entry h, Finset.ext fun name => ?_⟩
  rw [List.mem_toFinset, hfiled.mem_iff entry h, mem_uses, mem_usedOn]

theorem exists_mem_attrs (h : (usedOn events symbol).Nonempty) :
    ∃ names, (symbol, names) ∈ (ofEvents events).attrs := by
  obtain ⟨name, hname⟩ := h
  have hmem := (filed_ofEvents events).complete (symbol, name) (mem_uses.mpr (mem_usedOn.mp hname))
  obtain ⟨entry, hentry, rfl⟩ := List.mem_map.mp hmem
  exact ⟨entry.2, hentry⟩

end Recorder

end Surmise
