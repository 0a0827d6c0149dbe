import Surmise.Text.Escape

/-!
# Escapes are undone, piece by piece

Resolving escapes gives back a text whose special characters were escaped. It can be done piece by piece, if no piece
but the last ends in the middle of an escape, that is in an odd number of backslashes.

* `backslashes_pair`: what begins with an escape ends in as many backslashes as what follows, up to an even number.
* `unescape_append`: two pieces.
* `unescape_undoes_escapes`: the main statement.
-/

namespace Surmise.Text

/-- A character as it is written between quotes. -/
def escape : Char → List Char
  | '\\' => ['\\', '\\']
  | '\n' => ['\\', 'n']
  | '\t' => ['\\', 't']
  | '\r' => ['\\', 'r']
  | '\x00' => ['\\', '0']
  | '\'' => ['\\', '\'']
  | '"' => ['\\', '"']
  | c => [c]

/-- How many backslashes a text ends in. -/
def backslashes (text : List Char) : Nat := (text.reverse.takeWhile (· == '\\')).length

theorem unescape_cons {c : Char} (hc : c ≠ '\\') (rest : List Char) : unescape (c :: rest) = c :: unescape rest :=
  unescape.eq_5 c rest (fun h _ => hc h) (fun _ h _ => hc h) fun _ _ h _ => hc h

theorem unescape_escape (c : Char) (rest : List Char) : unescape (escape c ++ rest) = c :: unescape rest := by
  unfold escape
  split
  case h_8 hc _ _ _ _ _ _ => exact unescape_cons hc rest
  all_goals rfl

theorem backslashes_le (text : List Char) : backslashes text ≤ text.length := by
  have hle := (List.takeWhile_sublist (· == '\\') (l := text.reverse)).length_le
  rwa [List.length_reverse] at hle

theorem backslashes_cons (c : Char) (text : List Char) : backslashes (c :: text) =
    if backslashes text = text.length ∧ c = '\\' then text.length + 1 else backslashes text := by
  unfold backslashes
  rw [List.reverse_cons, List.takeWhile_append, List.length_reverse]
  by_cases hall : (text.reverse.takeWhile (· == '\\')).length = text.length <;> by_cases hc : c = '\\' <;>
    simp [hall, hc]

/-- An escape takes the backslash and one more character, so it keeps the number even or odd. -/
theorem backslashes_pair (c : Char) (text : List Char) :
    backslashes ('\\' :: c :: text) % 2 = backslashes text % 2 := by
  have hle := backslashes_le text
  rw [backslashes_cons, backslashes_cons, List.length_cons]
  by_cases hrun : backslashes text = text.length ∧ c = '\\'
  · rw [if_pos hrun, if_pos ⟨rfl, rfl⟩, hrun.1]
    omega
  · rw [if_neg hrun, if_neg (by omega)]

/-- **Two pieces** can be resolved one after the other, unless the first ends in the middle of an escape. -/
theorem unescape_append {a : List Char} (ha : backslashes a % 2 = 0) (b : List Char) :
    unescape (a ++ b) = unescape a ++ unescape b := by
  fun_induction unescape a with
  | case1 => rfl
  | case2 => exact absurd ha (by decide)
  | case3 rest ih =>
    rw [backslashes_pair] at ha
    exact ih ha
  | case4 c rest hbreak d hd ih =>
    rw [backslashes_pair] at ha
    rw [List.cons_append, List.cons_append, unescape.eq_4 _ _ hbreak, hd, ih ha]
    rfl
  | case5 c rest hbreak hnone ih =>
    rw [backslashes_pair] at ha
    rw [List.cons_append, List.cons_append, unescape.eq_4 _ _ hbreak, hnone, ih ha]
    rfl
  | case6 c rest hend hbreak hpair ih =>
    have hc : c ≠ '\\' := by
      cases rest with
      | nil => exact fun hc => hend hc rfl
      | cons next rest => exact fun hc => hpair next rest hc rfl
    rw [backslashes_cons, if_neg fun h => hc h.2] at ha
    rw [List.cons_append, unescape_cons hc, ih ha, List.cons_append]

/--
**Resolving escapes undoes escaping and respects concatenation.** A text whose special characters are escaped is
read back. A text that does not end in an odd number of backslashes can be resolved apart from what follows it, so a
literal that is read in such pieces gives the text that it gives as a whole.
-/
theorem unescape_undoes_escapes :
    (∀ text, unescape (text.flatMap escape) = text) ∧
    (∀ a b, backslashes a % 2 ≠ 1 → unescape (a ++ b) = unescape a ++ unescape b) ∧
    ∀ pieces : List (List Char), (∀ a ∈ pieces.dropLast, backslashes a % 2 ≠ 1) →
      unescape pieces.flatten = pieces.flatMap unescape := by
  have happend : ∀ a b, backslashes a % 2 ≠ 1 → unescape (a ++ b) = unescape a ++ unescape b := fun a b ha =>
    unescape_append (by omega) b
  refine ⟨fun text => ?_, happend, fun pieces h => ?_⟩
  · induction text with
    | nil => rfl
    | cons c rest ih => rw [List.flatMap_cons, unescape_escape, ih]
  · induction pieces with
    | nil => rfl
    | cons first rest ih =>
      cases rest with
      | nil => simp
      | cons second rest =>
        rw [List.dropLast_cons_cons, List.forall_mem_cons] at h
        rw [List.flatten_cons, List.flatMap_cons, happend first _ h.1, ih h.2]

/-- An escaped backslash, a letter, and a line break that is left out. -/
theorem unescape_undoes_escapes_pieces :
    unescape (['a', '\\', '\n'].flatMap escape) = ['a', '\\', '\n'] ∧
      unescape (['\\', '\\'] ++ ['n']) = ['\\'] ++ ['n'] ∧
      unescape [['a', '\\', '\\'], ['n', '\\', '\n'], ['\\']].flatten = ['a', '\\', 'n', '\\'] :=
  ⟨unescape_undoes_escapes.1 _, unescape_undoes_escapes.2.1 _ _ (by decide),
    unescape_undoes_escapes.2.2 _ (by decide)⟩

end Surmise.Text
