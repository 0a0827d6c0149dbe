import Surmise.Propagation.Definition
import Mathlib.Data.List.Nodup
import Mathlib.Data.List.Perm.Subperm

/-!
# Addresses of scopes

Addresses are compared by their paths and by the components of their files. A scope whose address is taken
gets a number behind it; `freeAddress_fresh` says that the search for a free number succeeds.
-/

namespace Surmise

namespace Address

/-- What addresses are compared by. -/
def key (a : Address) : String × Path.Components := (a.path, a.file.components)

theorem beq_iff {a b : Address} : (a == b) = true ↔ a.key = b.key := by
  show (a.path == b.path && a.file.components == b.file.components) = true ↔ _
  simp [key]

theorem beq_self (a : Address) : (a == a) = true := beq_iff.mpr rfl

end Address

namespace Run

theorem path_numberedAddress (address : Address) (n : Nat) :
    (numberedAddress address n).path.toList = address.path.toList ++ '[' :: Nat.toDigits 10 n ++ [']'] := by
  show (address.path ++ "[" ++ toString n ++ "]").toList = _
  simp

theorem numberedAddress_ne (address : Address) (n : Nat) : (numberedAddress address n).key ≠ address.key := by
  intro h
  have hpath := congrArg String.toList (congrArg Prod.fst h)
  rw [show (numberedAddress address n).key.1 = (numberedAddress address n).path from rfl, path_numberedAddress] at hpath
  have hlength := congrArg List.length hpath
  simp [Address.key] at hlength

variable {address : Address}

theorem numberedAddress_inj {n m : Nat}
    (h : (numberedAddress address n).key = (numberedAddress address m).key) : n = m := by
  have hpath : (numberedAddress address n).path.toList = (numberedAddress address m).path.toList :=
    congrArg String.toList (congrArg Prod.fst h)
  rw [path_numberedAddress, path_numberedAddress, List.append_assoc, List.append_assoc] at hpath
  have hdigits := List.append_cancel_left hpath
  rw [List.cons_append, List.cons_append, List.cons.injEq] at hdigits
  have hdigits := List.append_cancel_right hdigits.2
  rw [← Nat.ofDigitChars_ten_toDigits (n := n), hdigits, Nat.ofDigitChars_ten_toDigits]

/-- The search ends at a free number, or all numbers that it tried are taken. -/
theorem freeAddress_or (reserved : List Address) (address : Address) (fuel n : Nat) :
    reserved.any (· == freeAddress reserved address fuel n) = false ∨
      ∀ i < fuel, reserved.any (· == numberedAddress address (n + i)) = true := by
  induction fuel generalizing n with
  | zero => exact .inr (by simp)
  | succ fuel ih =>
    unfold freeAddress
    split
    · next htaken =>
      refine (ih (n + 1)).imp_right fun hall i hi => ?_
      cases i with
      | zero => exact htaken
      | succ i =>
        rw [show n + (i + 1) = n + 1 + i by omega]
        exact hall i (by omega)
    · next hfree => exact .inl (by simpa using hfree)

/-- **The number that is put behind a taken address makes it free**: fewer addresses are taken than are
tried. -/
theorem freeAddress_fresh {reserved : List Address} (htaken : reserved.any (· == address) = true) :
    reserved.any (· == freeAddress reserved address reserved.length 2) = false := by
  refine (freeAddress_or reserved address reserved.length 2).resolve_right fun hall => ?_
  -- the address and all its numbered forms would be different and among those that are taken
  have hmem : ∀ a, reserved.any (· == a) = true → a.key ∈ reserved.map Address.key := by
    intro a ha
    obtain ⟨r, hr, heq⟩ := List.any_eq_true.mp ha
    exact List.mem_map.mpr ⟨r, hr, Address.beq_iff.mp heq⟩
  let numbers := (List.range reserved.length).map fun i => (numberedAddress address (2 + i)).key
  have hnodup : (address.key :: numbers).Nodup := by
    refine List.nodup_cons.mpr ⟨fun h => ?_, ?_⟩
    · obtain ⟨i, -, heq⟩ := List.mem_map.mp h
      exact numberedAddress_ne address _ heq
    · refine List.Nodup.map (fun i j hij => ?_) List.nodup_range
      have := numberedAddress_inj hij
      omega
  have hsubset : address.key :: numbers ⊆ reserved.map Address.key := by
    refine List.cons_subset.mpr ⟨hmem _ htaken, fun k hk => ?_⟩
    obtain ⟨i, hi, rfl⟩ := List.mem_map.mp hk
    exact hmem _ (hall i (List.mem_range.mp hi))
  have hlength := (List.subperm_of_subset hnodup hsubset).length_le
  simp only [numbers, List.length_cons, List.length_map, List.length_range] at hlength
  omega

theorem file_freeAddress (reserved : List Address) (address : Address) (fuel n : Nat) :
    (freeAddress reserved address fuel n).file = address.file := by
  induction fuel generalizing n with
  | zero => rfl
  | succ fuel ih =>
    unfold freeAddress
    split
    · exact ih (n + 1)
    · rfl

theorem path_freeAddress_ne (reserved : List Address) (address : Address) (fuel n : Nat) :
    (freeAddress reserved address fuel n).path ≠ "" := by
  have hnumbered : ∀ n, (numberedAddress address n).path ≠ "" := by
    intro n h
    have hlength := congrArg List.length (congrArg String.toList h)
    rw [path_numberedAddress] at hlength
    simp at hlength
  induction fuel generalizing n with
  | zero => exact hnumbered n
  | succ fuel ih =>
    unfold freeAddress
    split
    · exact ih (n + 1)
    · exact hnumbered n

end Run

end Surmise
