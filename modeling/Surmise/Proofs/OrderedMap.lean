import Surmise.OrderedMap

/-!
# What maps in order of insertion hold

A name holds what was written to it last. Each name has one entry, so the names and values of a map are those that
are found in it, and its entries make the map again.
-/

namespace Surmise.OrderedMap

variable {α : Type} {name : String} {a : α} {m : OrderedMap α} {entries : List (String × α)}

/-! ## Writes

What is written is found under its name, and nothing else changes.
-/

theorem find?_put (name other : String) (a : α) (entries : List (String × α)) :
    ((put name a entries).find? fun entry => entry.1 == other).map Prod.snd =
      if name = other then some a
      else (entries.find? fun entry => entry.1 == other).map Prod.snd := by
  induction entries with
  | nil => by_cases h : name = other <;> simp [put, h]
  | cons entry rest ih =>
    obtain ⟨key, b⟩ := entry
    by_cases hk : key = name
    · by_cases h : name = other <;> simp_all [put]
    · by_cases ho : key = other
      · subst ho
        have : name ≠ key := fun e => hk e.symm
        simp [put, hk, this]
      · simp [put, hk, ho, ih]

theorem get?_insert (m : OrderedMap α) (name other : String) (a : α) :
    (m.insert name a).get? other = if name = other then some a else m.get? other :=
  find?_put name other a m.entries

theorem mem_put {entry : String × α} (h : entry ∈ put name a entries) : entry = (name, a) ∨ entry ∈ entries := by
  induction entries with
  | nil => exact .inl (List.mem_singleton.mp h)
  | cons first rest ih =>
    obtain ⟨key, b⟩ := first
    unfold put at h
    split at h
    · next hkey =>
      rcases List.mem_cons.mp h with h | h
      · exact .inl (hkey ▸ h)
      · exact .inr (List.mem_cons_of_mem _ h)
    · rcases List.mem_cons.mp h with h | h
      · exact .inr (h ▸ List.mem_cons_self)
      · exact (ih h).imp_right (List.mem_cons_of_mem _)

theorem mem_values_insert {b : α} (h : b ∈ (m.insert name a).values) : b = a ∨ b ∈ m.values := by
  obtain ⟨entry, hentry, rfl⟩ := List.mem_map.mp h
  rcases mem_put hentry with rfl | hentry
  · exact .inl rfl
  · exact .inr (List.mem_map_of_mem hentry)

theorem put_of_find? (h : (entries.find? fun entry => entry.1 == name).map Prod.snd = some a) :
    put name a entries = entries := by
  induction entries with
  | nil => cases h
  | cons first rest ih =>
    obtain ⟨key, b⟩ := first
    by_cases hkey : key = name
    · obtain rfl : b = a := by simpa [hkey] using h
      exact if_pos hkey
    · rw [put, if_neg hkey, ih (by simpa [hkey] using h)]

theorem insert_of_get? (h : m.get? name = some a) : m.insert name a = m := by
  simp only [insert, put_of_find? h]

theorem put_of_notMem (h : name ∉ entries.map Prod.fst) (a : α) :
    put name a entries = entries ++ [(name, a)] := by
  induction entries with
  | nil => rfl
  | cons first rest ih =>
    obtain ⟨hne, hrest⟩ := List.ne_and_not_mem_of_not_mem_cons h
    rw [put, if_neg (Ne.symm hne), ih hrest, List.cons_append]

theorem foldl_insert (h : ((m.entries ++ entries).map Prod.fst).Nodup) :
    (entries.foldl (fun m entry => m.insert entry.1 entry.2) m).entries = m.entries ++ entries := by
  induction entries generalizing m with
  | nil => exact (List.append_nil _).symm
  | cons entry rest ih =>
    have hnew : entry.1 ∉ m.entries.map Prod.fst := by
      rw [List.map_append, List.nodup_append] at h
      exact fun hmem => h.2.2 _ hmem _ List.mem_cons_self rfl
    have hput : (m.insert entry.1 entry.2).entries = m.entries ++ [entry] := put_of_notMem hnew entry.2
    rw [List.append_cons, ← hput] at h ⊢
    exact ih h

/-- Entries with names of their own make the map that has them. -/
theorem ofList_entries (m : OrderedMap α) : ofList m.entries = m := by
  have hentries : (ofList m.entries).entries = m.entries := foldl_insert m.nodup
  obtain ⟨entries, hnodup⟩ := m
  generalize ofList entries = made at hentries
  obtain ⟨_, _⟩ := made
  subst hentries
  rfl

/-! ## Names and values

No two entries have one name, so an entry is found under its name.
-/

theorem contains_eq_isSome (m : OrderedMap α) (name : String) : m.contains name = (m.get? name).isSome := by
  rw [contains, get?, Option.isSome_map, Bool.eq_iff_iff, List.any_eq_true, List.find?_isSome]

theorem get?_of_mem (h : (name, a) ∈ m.entries) : m.get? name = some a := by
  obtain ⟨entries, nodup⟩ := m
  unfold get?
  induction entries with
  | nil => cases h
  | cons first rest ih =>
    simp only [List.map_cons, List.nodup_cons] at nodup
    rcases List.mem_cons.mp h with rfl | h
    · simp
    · have hne : (first.1 == name) = false := by
        rw [beq_eq_false_iff_ne]
        rintro rfl
        exact nodup.1 (List.mem_map.mpr ⟨_, h, rfl⟩)
      rw [List.find?_cons, hne]
      exact ih nodup.2 h

theorem exists_get?_of_mem_values (h : a ∈ m.values) : ∃ name, m.get? name = some a := by
  obtain ⟨⟨name, b⟩, hentry, rfl⟩ := List.mem_map.mp h
  exact ⟨name, get?_of_mem hentry⟩

theorem mem_values_of_get? (h : m.get? name = some a) : a ∈ m.values := by
  obtain ⟨entry, hentry, rfl⟩ := Option.map_eq_some_iff.mp h
  exact List.mem_map_of_mem (List.mem_of_find?_eq_some hentry)

theorem mem_keys_of_get? (h : m.get? name = some a) : name ∈ m.keys := by
  obtain ⟨entry, hentry, -⟩ := Option.map_eq_some_iff.mp h
  have hname := List.find?_some hentry
  rw [← eq_of_beq hname]
  exact List.mem_map_of_mem (List.mem_of_find?_eq_some hentry)

theorem mem_keys_iff : name ∈ m.keys ↔ (m.get? name).isSome := by
  constructor
  · intro hname
    obtain ⟨⟨_, a⟩, hentry, rfl⟩ := List.mem_map.mp hname
    rw [get?_of_mem hentry, Option.isSome_some]
  · intro hsome
    obtain ⟨a, ha⟩ := Option.isSome_iff_exists.mp hsome
    exact mem_keys_of_get? ha

end Surmise.OrderedMap
