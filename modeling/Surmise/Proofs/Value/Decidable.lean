import Surmise.Proofs.Value.WellFormed

/-!
# Comparing values part by part

Unlike `Value.same`, which is what the analysis compares values by, `Value.equals` looks at all of a value, serial
numbers included. So equality of values can be decided.
-/

namespace Surmise

namespace Value

mutual

/-- The values are made in the same way, with the same serial numbers. -/
def equals : Value → Value → Bool
  | .null, .null => true
  | .float, .float => true
  | .complex, .complex => true
  | .bytes, .bytes => true
  | .object, .object => true
  | .bool a, .bool b => a == b
  | .int a, .int b => a == b
  | .str a, .str b => a == b
  | .kwargs d, .kwargs d' => d == d'
  | .builtin b, .builtin b' => b == b'
  | .external p, .external p' => p == p'
  | .externalInstance p, .externalInstance p' => p == p'
  | .functionRef f, .functionRef f' => f == f'
  | .classRef c, .classRef c' => c == c'
  | .instanceOf c, .instanceOf c' => c == c'
  | .moduleRef m, .moduleRef m' => m == m'
  | .packageRef p, .packageRef p' => p == p'
  | .synthetic s, .synthetic s' => s == s'
  | .list e, .list e' => e.equals e'
  | .set e, .set e' => e.equals e'
  | .generator e, .generator e' => e.equals e'
  | .dict k v, .dict k' v' => k.equals k' && v.equals v'
  | .method n r name, .method n' r' name' => (n, name) == (n', name') && r.equals r'
  | .property n g s d, .property n' g' s' d' => n == n' && (g.equals g' && (s.equals s' && d.equals d'))
  | .tuple n items, .tuple n' items' => n == n' && equalsAll items items'
  | .super n bases, .super n' bases' => n == n' && equalsAll bases bases'
  | .union vs, .union vs' => equalsAll vs vs'
  | _, _ => false

def equalsAll : List Value → List Value → Bool
  | [], [] => true
  | v :: vs, w :: ws => v.equals w && equalsAll vs ws
  | _, _ => false

end

theorem eq_of_equalsAll {vs ws : List Value} (h : ∀ v ∈ vs, ∀ w, v.equals w = true → v = w)
    (hall : equalsAll vs ws = true) : vs = ws := by
  induction vs generalizing ws with
  | nil =>
    cases ws with
    | nil => rfl
    | cons w ws => cases hall
  | cons v rest ih =>
    cases ws with
    | nil => cases hall
    | cons w ws =>
      obtain ⟨hfirst, hrest⟩ := Bool.and_eq_true_iff.mp hall
      rw [h v List.mem_cons_self w hfirst, ih (fun u hu => h u (List.mem_cons_of_mem v hu)) hrest]

theorem eq_of_equals {v w : Value} (h : v.equals w = true) : v = w := by
  induction v generalizing w with
  | step v ih =>
    unfold equals at h
    -- one case for each sort of value, and one for values of different sorts
    split at h
    case h_1 | h_2 | h_3 | h_4 | h_5 => rfl
    case h_6 | h_7 | h_8 | h_9 | h_10 | h_11 | h_12 | h_13 | h_14 | h_15 | h_16 | h_17 | h_18 => rw [eq_of_beq h]
    case h_19 | h_20 | h_21 => rw [ih _ (by simp [parts]) h]
    case h_22 =>
      obtain ⟨hk, hv⟩ := Bool.and_eq_true_iff.mp h
      rw [ih _ (by simp [parts]) hk, ih _ (by simp [parts]) hv]
    case h_23 =>
      obtain ⟨hown, hr⟩ := Bool.and_eq_true_iff.mp h
      obtain ⟨rfl, rfl⟩ := Prod.mk.inj (eq_of_beq hown)
      rw [ih _ (by simp [parts]) hr]
    case h_24 =>
      obtain ⟨hn, hparts⟩ := Bool.and_eq_true_iff.mp h
      obtain ⟨hg, hrest⟩ := Bool.and_eq_true_iff.mp hparts
      obtain ⟨hs, hd⟩ := Bool.and_eq_true_iff.mp hrest
      rw [eq_of_beq hn, ih _ (by simp [parts]) hg, ih _ (by simp [parts]) hs, ih _ (by simp [parts]) hd]
    case h_25 n items n' items' | h_26 n items n' items' =>
      obtain ⟨hn, hitems⟩ := Bool.and_eq_true_iff.mp h
      have hall : items = items' := eq_of_equalsAll (fun p hp _ => ih p hp) hitems
      rw [eq_of_beq hn, hall]
    case h_27 vs vs' =>
      have hall : vs = vs' := eq_of_equalsAll (fun p hp _ => ih p hp) h
      rw [hall]
    case h_28 => cases h

theorem equalsAll_self {vs : List Value} (h : ∀ v ∈ vs, v.equals v = true) : equalsAll vs vs = true := by
  induction vs with
  | nil => rfl
  | cons v rest ih =>
    exact Bool.and_eq_true_iff.mpr ⟨h v List.mem_cons_self, ih fun w hw => h w (List.mem_cons_of_mem v hw)⟩

theorem equals_self (v : Value) : v.equals v = true := by
  induction v with
  | step v ih =>
    cases v
    case tuple n items | super n items =>
      have hall : equalsAll items items = true := equalsAll_self ih
      simp [equals, hall]
    case union vs => exact equalsAll_self ih
    all_goals simp_all [equals, parts]

instance : DecidableEq Value := fun v w =>
  decidable_of_iff (v.equals w = true) ⟨eq_of_equals, fun h => h ▸ v.equals_self⟩

end Value

end Surmise
