import Surmise.Path

/-!
# Parents of paths

A parent has fewer components than the path, so no path lies in a directory that has the components of
the path itself.
-/

namespace Surmise

namespace Path

variable {p q : Path} {start levels : Nat} {part : Part}

theorem beq_iff : (p == q) = true ↔ p.components = q.components := by
  show decide (p.components = q.components) = true ↔ _
  exact decide_eq_true_iff

theorem beq_self (p : Path) : (p == p) = true := beq_iff.mpr rfl

/-! ## Cutting a text at the end of a stretch -/

theorem stretches_separator (start : Nat) (current rest : List Char) :
    stretches start current ('/' :: rest) = ⟨current.reverse, start⟩ :: stretches (start + 1) [] rest := by
  rw [stretches]

theorem stretches_char (start : Nat) (current : List Char) {c : Char} (hc : c ≠ '/') (rest : List Char) :
    stretches start current (c :: rest) = stretches (start + 1) (c :: current) rest := by
  rw [stretches]
  exact hc

theorem take_cons_of_lt {c : Char} {rest : List Char} {stop : Nat} (h : start + 1 ≤ stop) :
    (c :: rest).take (stop - start) = c :: rest.take (stop - (start + 1)) := by
  have hsucc : stop - start = stop - (start + 1) + 1 := by omega
  rw [hsucc, List.take_succ_cons]

/-- The stretches of a text that is cut where one of its stretches ends. -/
theorem stretches_take {current text : List Char} {before after : List Part}
    (h : stretches start current text = before ++ part :: after) :
    start ≤ part.stop ∧ stretches start current (text.take (part.stop - start)) = before ++ [part] := by
  induction text generalizing start current before with
  | nil =>
    rw [stretches] at h
    obtain ⟨rfl, hcons⟩ | ⟨before, rfl, hcons⟩ := List.cons_eq_append_iff.mp h
    · obtain ⟨rfl, rfl⟩ := List.cons.inj hcons
      simp [stretches]
    · simp at hcons
  | cons c rest ih =>
    by_cases hc : c = '/'
    · subst hc
      rw [stretches_separator] at h
      obtain ⟨rfl, hcons⟩ | ⟨before, rfl, hrest⟩ := List.cons_eq_append_iff.mp h
      · -- the cut is right before the separator
        obtain ⟨rfl, rfl⟩ := List.cons.inj hcons
        simp [stretches]
      · obtain ⟨hle, htake⟩ := ih hrest
        rw [take_cons_of_lt hle, stretches_separator, htake]
        exact ⟨by omega, rfl⟩
    · rw [stretches_char _ _ hc] at h
      obtain ⟨hle, htake⟩ := ih h
      rw [take_cons_of_lt hle, stretches_char _ _ hc, htake]
      exact ⟨by omega, rfl⟩

/-! ## The components of a parent -/

/-- A stretch behind the first one that is a component. -/
def counts (part : Part) : Bool := !part.text.isEmpty && part.text != ['.']

/-- The components among the stretches of a text. -/
def ofStretches : List Part → List Part
  | [] => []
  | first :: rest => if first.text.isEmpty then rest.filter counts else first :: rest.filter counts

theorem parts_eq (p : Path) : p.parts = ofStretches (stretches 0 [] p.text.toList) := by
  unfold parts
  generalize stretches 0 [] p.text.toList = stretched
  cases stretched <;> rfl

theorem filter_cut {α : Type} {keep : α → Bool} {xs before after : List α} {a : α}
    (h : xs.filter keep = before ++ a :: after) :
    ∃ front back, xs = front ++ a :: back ∧ (front ++ [a]).filter keep = before ++ [a] := by
  obtain ⟨front, back, rfl, hfront, hback⟩ := List.filter_eq_append_iff.mp h
  obtain ⟨skipped, rest, rfl, hskipped, hkeep, -⟩ := List.filter_eq_cons_iff.mp hback
  refine ⟨front ++ skipped, rest, (List.append_assoc ..).symm, ?_⟩
  have hnone : skipped.filter keep = [] := List.filter_eq_nil_iff.mpr hskipped
  rw [List.filter_append, List.filter_append, hfront, hnone, List.append_nil, List.filter_cons_of_pos hkeep]
  rfl

/-- The components up to one of them are those of the stretches up to it. -/
theorem ofStretches_cut {stretched before after : List Part}
    (h : ofStretches stretched = before ++ part :: after) :
    ∃ front back, stretched = front ++ part :: back ∧ ofStretches (front ++ [part]) = before ++ [part] := by
  cases stretched with
  | nil => simp [ofStretches] at h
  | cons first rest =>
    rw [ofStretches] at h
    split at h
    · next hempty =>
      obtain ⟨front, back, rfl, hcut⟩ := filter_cut h
      refine ⟨first :: front, back, rfl, ?_⟩
      rw [List.cons_append, ofStretches, if_pos hempty, hcut]
    · next hfull =>
      obtain ⟨rfl, hcons⟩ | ⟨before, rfl, hrest⟩ := List.cons_eq_append_iff.mp h
      · obtain ⟨rfl, rfl⟩ := List.cons.inj hcons
        exact ⟨[], rest, rfl, by simp [ofStretches, hfull]⟩
      · obtain ⟨front, back, rfl, hcut⟩ := filter_cut hrest
        refine ⟨first :: front, back, rfl, ?_⟩
        rw [List.cons_append, ofStretches, if_neg hfull, hcut]
        rfl

/-- **A parent has one component less.** -/
theorem length_parts_of_parent? (h : p.parent? = some q) : q.parts.length + 1 = p.parts.length := by
  unfold parent? at h
  split at h
  · cases h
  · next last hreverse =>
    have hparts : p.parts = [last] := by simpa using congrArg List.reverse hreverse
    obtain rfl := Option.some.inj h
    rw [hparts]
    split <;> rfl
  · next last before rest hreverse =>
    have hparts : p.parts = rest.reverse ++ before :: [last] := by simpa using congrArg List.reverse hreverse
    obtain rfl := Option.some.inj h
    obtain ⟨front, back, hstretched, hcut⟩ := ofStretches_cut ((parts_eq p).symm.trans hparts)
    obtain ⟨-, htake⟩ := stretches_take hstretched
    rw [hparts, parts_eq, String.toList_ofList]
    rw [Nat.sub_zero] at htake
    rw [htake, hcut]
    simp

/-- A directory some levels up has fewer components. -/
theorem length_parts_of_up? (h : p.up? levels = some q) : q.parts.length + levels = p.parts.length := by
  induction levels generalizing p with
  | zero =>
    obtain rfl := Option.some.inj h
    rfl
  | succ levels ih =>
    obtain ⟨parent, hparent, hup⟩ := Option.bind_eq_some_iff.mp h
    have hshorter := length_parts_of_parent? hparent
    have hlevels := ih hup
    omega

/-- No path lies below itself. -/
theorem up?_ne (h : p.up? (levels + 1) = some q) : (q == p) = false := by
  rw [Bool.eq_false_iff]
  intro hsame
  have hlength := congrArg (fun c => c.names.length) (beq_iff.mp hsame)
  simp only [components, List.length_map] at hlength
  have hup := length_parts_of_up? h
  omega

end Path

end Surmise
