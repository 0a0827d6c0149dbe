import Mathlib.Data.Nat.Digits.Lemmas
import Surmise.Surface.Numeral

/-!
# What integer tokens stand for

A token names its radix, has any number of digits with separators among them, and may end with the old mark of a
long integer. Its value is that of the digits; it has none only if that is beyond the limit.

* `Numeral.Spells`, `Numeral.Token`: the digits of a text, and of a token.
* `Numeral.magnitude?_of_token`: the value of a token, whatever the limit is.
* `Numeral.integer?_of_token`: the main statement.
-/

namespace Surmise.Numeral

/-- The text has these digits in a radix, and separators anywhere among them. -/
inductive Spells (radix : Nat) : List Char → List Nat → Prop
  | nil : Spells radix [] []
  | digit {c : Char} {d : Nat} {text : List Char} {ds : List Nat} (hdigit : digit? c = some d) (hlt : d < radix)
      (h : Spells radix text ds) : Spells radix (c :: text) (d :: ds)
  | separator {text : List Char} {ds : List Nat} (h : Spells radix text ds) : Spells radix ('_' :: text) ds

/-- How a token may begin, with the radix that this stands for. -/
def marks : List (List Char × Nat) :=
  [([], 10), (['0', 'x'], 16), (['0', 'X'], 16), (['0', 'o'], 8), (['0', 'O'], 8), (['0', 'b'], 2), (['0', 'B'], 2)]

/-- An integer token with its radix and its digits. -/
inductive Token : Nat → List Char → List Nat → Prop
  | mk {radix : Nat} {mark body suffix : List Char} {ds : List Nat} (hmark : (mark, radix) ∈ marks)
      (hbody : Spells radix body ds) (hds : ds ≠ []) (hsuffix : suffix ∈ [[], ['l'], ['L']]) :
      Token radix (mark ++ body ++ suffix) ds

variable {radix : Nat} {text token : List Char} {ds : List Nat}

/-- The digits of a text, without separators. -/
def digitsOf (text : List Char) : List Char := text.filter (· ≠ '_')

theorem digitsOf_digit {c : Char} {d : Nat} (h : digit? c = some d) (text : List Char) :
    digitsOf (c :: text) = c :: digitsOf text := by
  refine List.filter_cons_of_pos (decide_eq_true ?_)
  rintro rfl
  cases h

namespace Spells

variable (h : Spells radix text ds)

include h

theorem readDigits_eq (acc : Nat) :
    readDigits radix acc (digitsOf text) = some (acc * radix ^ ds.length + Nat.ofDigits radix ds.reverse) := by
  induction h generalizing acc with
  | nil => simp [digitsOf, readDigits]
  | @digit c d text ds hdigit hlt _ ih =>
    rw [digitsOf_digit hdigit, readDigits, hdigit]
    dsimp only
    rw [if_pos hlt, ih, List.reverse_cons, Nat.ofDigits_append, Nat.ofDigits_singleton, List.length_reverse,
      List.length_cons]
    ring_nf
  | separator _ ih => exact ih acc

theorem digit?_of_mem {c : Char} (hc : c ∈ digitsOf text) : ∃ d, digit? c = some d ∧ d < radix := by
  induction h with
  | nil => cases hc
  | @digit _ d _ _ hdigit hlt _ ih =>
    rw [digitsOf_digit hdigit] at hc
    rcases List.mem_cons.mp hc with rfl | hc
    · exact ⟨d, hdigit, hlt⟩
    · exact ih hc
  | separator _ ih => exact ih hc

theorem digitsOf_ne_nil (hds : ds ≠ []) : digitsOf text ≠ [] := by
  induction h with
  | nil => exact absurd rfl hds
  | digit hdigit _ _ _ =>
    rw [digitsOf_digit hdigit]
    exact List.cons_ne_nil _ _
  | separator _ ih => exact ih hds

/-- The value of the digits, of which there is one at least. -/
theorem digitsValue_eq (hds : ds ≠ []) : digitsValue radix (digitsOf text) = some (Nat.ofDigits radix ds.reverse) := by
  have hvalue := h.readDigits_eq 0
  rw [Nat.zero_mul, Nat.zero_add] at hvalue
  rw [digitsValue, hvalue]
  exact h.digitsOf_ne_nil hds

/-- The mark of a long integer is no digit, so taking it off ends at the digits. -/
theorem significant_eq (hds : ds ≠ []) {mark suffix : List Char} (hmark : '_' ∉ mark)
    (hsuffix : suffix ∈ [[], ['l'], ['L']]) : significant (mark ++ text ++ suffix) = mark ++ digitsOf text := by
  obtain ⟨front, last, hlast⟩ := (List.eq_nil_or_concat (digitsOf text)).resolve_left (h.digitsOf_ne_nil hds)
  have hdigit : (last == 'l' || last == 'L') = false := by
    obtain ⟨d, hdigit, -⟩ := h.digit?_of_mem (c := last) (by simp [hlast])
    rw [Bool.or_eq_false_iff, beq_eq_false_iff_ne, beq_eq_false_iff_ne]
    constructor <;> rintro rfl <;> cases hdigit
  have hmark : mark.filter (· ≠ '_') = mark :=
    List.filter_eq_self.mpr fun c hc => decide_eq_true fun hsame => hmark (hsame ▸ hc)
  rw [List.concat_eq_append] at hlast
  have hdigits : text.filter (· ≠ '_') = front ++ [last] := hlast
  rw [significant, List.filter_append, List.filter_append, hmark, hdigits, hlast]
  simp only [List.mem_cons, List.not_mem_nil, or_false] at hsuffix
  rcases hsuffix with rfl | rfl | rfl <;> simp [hdigit]

end Spells

/-- The value of a token, which is not bounded. -/
theorem magnitude?_of_token (h : Token radix token ds) : magnitude? token = some (Nat.ofDigits radix ds.reverse) := by
  cases h with
  | @mk mark body suffix _ hmark hbody hds hsuffix =>
    have hvalue := hbody.digitsValue_eq hds
    have hseparator : '_' ∉ mark := by
      have hall : ∀ m ∈ marks, '_' ∉ m.1 := by decide
      exact hall _ hmark
    rw [magnitude?, hbody.significant_eq hds hseparator hsuffix]
    simp only [marks, List.mem_cons, Prod.mk.injEq, List.not_mem_nil, or_false] at hmark
    rcases hmark with ⟨rfl, rfl⟩ | hmark
    · -- the second digit of a decimal token is none of the letters
      rw [List.nil_append]
      have hletter : ∀ c digits, digitsOf body = '0' :: c :: digits → c ∉ ['x', 'X', 'o', 'O', 'b', 'B'] := by
        intro c digits heq hc
        obtain ⟨d, hdigit, hlt⟩ := hbody.digit?_of_mem (c := c) (by simp [heq])
        simp only [List.mem_cons, List.not_mem_nil, or_false] at hc
        rcases hc with rfl | rfl | rfl | rfl | rfl | rfl <;> cases hdigit <;> omega
      split
      case h_7 => exact hvalue
      all_goals
        next heq => exact absurd (by decide) (hletter _ _ heq)
    · rcases hmark with ⟨rfl, rfl⟩ | ⟨rfl, rfl⟩ | ⟨rfl, rfl⟩ | ⟨rfl, rfl⟩ | ⟨rfl, rfl⟩ | ⟨rfl, rfl⟩ <;> exact hvalue

/--
**Integer tokens are read exactly**, in every radix and with any number of digits: a token stands for the number that
its digits make up, or for none if that number is larger than the largest one.
-/
theorem integer?_of_token (h : Token radix token ds) :
    integer? token =
      if Nat.ofDigits radix ds.reverse ≤ 2 ^ 63 - 1 then some (Nat.ofDigits radix ds.reverse : Int) else none := by
  have hlimit : limit = 2 ^ 63 - 1 := by norm_num [limit]
  rw [integer?, magnitude?_of_token h, ← hlimit]
  norm_cast

/-- A binary token with a separator and the mark of a long integer. -/
theorem integer?_of_token_binary : Token 2 "0b1_0L".toList [1, 0] ∧ integer? "0b1_0L".toList = some 2 := by
  have htoken : Token 2 "0b1_0L".toList [1, 0] :=
    @Token.mk 2 ['0', 'b'] ['1', '_', '0'] ['L'] [1, 0] (by decide)
      (.digit rfl (by decide) (.separator (.digit rfl (by decide) .nil))) (by decide) (by decide)
  exact ⟨htoken, (integer?_of_token htoken).trans (by norm_num [Nat.ofDigits])⟩

end Surmise.Numeral
