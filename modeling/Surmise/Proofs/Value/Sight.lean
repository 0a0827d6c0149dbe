import Surmise.Proofs.Value.Growth
import Surmise.Proofs.Value.Identity

/-!
# What a comparison sees

A key spells a value level by level and stops below `maxDepth`. What is left of the value at that point is a
scalar, which is not told from another one, or an object, which is known by its identity. A collection that is known
only by its parts may be left as well. How it compares depends on where it was made, which the parts do not tell, so
nothing is said of such values here.

* `Value.seen`: a value as a comparison of so many levels sees it.
* `Value.Shallow`: no collection is left below the last level.
* `Value.tree`: a value as a comparison of all levels would see it.
* `same_iff`: two shallow values compare equal exactly if they look the same.
* `tree_seen`: where no scalar lies below the last level, nothing of the value is hidden.
-/

namespace Surmise

namespace Value

/-- The number of levels that a comparison looks into, with the one below the deepest. -/
def sight : Nat := maxDepth + 1

/-- The value has neither parts nor an identity of its own. -/
def isScalar : Value → Bool
  | .null | .bool _ | .int _ | .float | .complex | .str _ | .bytes | .object | .builtin _ | .external _
  | .externalInstance _ => true
  | _ => false

/-- The value is known by what it is made of, and by nothing else. -/
def isLoose : Value → Bool
  | .list _ | .set _ | .dict .. | .generator _ | .union _ | .synthetic (.orm ..) => true
  | _ => false

/-- The value with other parts, and without what tells it from another that is made alike. -/
def remade (f : Value → Value) : Value → Value
  | .list e => .list (f e)
  | .set e => .set (f e)
  | .dict k v => .dict (f k) (f v)
  | .tuple _ items => .tuple none (items.map f)
  | .generator e => .generator (f e)
  | .method _ receiver name => .method none (f receiver) name
  | .super _ bases => .super none (bases.map f)
  | .synthetic (.labelled label _) => .synthetic (.labelled label 0)
  | .union alternatives => .union (alternatives.map f)
  | other => other

/-- The value as a comparison of that many levels sees it. Below the last level all scalars look the same. -/
def seen : Nat → Value → Value
  | 0, v => if v.isScalar then .null else v
  | n + 1, v => v.remade (seen n)

/-- The values that lie exactly that many levels deep. -/
def layer : Nat → Value → List Value
  | 0, v => [v]
  | n + 1, v => v.parts.flatMap (layer n)

/-- Nothing that many levels deep is known only by its parts. -/
def Open (n : Nat) (v : Value) : Prop := ∀ u ∈ v.layer n, u.isLoose = false

instance (n : Nat) (v : Value) : Decidable (v.Open n) := inferInstanceAs (Decidable (∀ u ∈ v.layer n, _))

/-- A comparison comes to the end of every collection in the value. -/
abbrev Shallow : Value → Prop := Open sight

variable {v : Value}

theorem Open.part {n : Nat} {p : Value} (h : v.Open (n + 1)) (hp : p ∈ v.parts) : p.Open n :=
  fun u hu => h u (List.mem_flatMap.mpr ⟨p, hp, hu⟩)

mutual

/--
The tree of the value: constants, objects of the program, keyword dictionaries and properties stand for
themselves, made-up values are known by their labels, and all others by their sort and their parts.
-/
def tree : Value → Value
  | .list e => .list e.tree
  | .set e => .set e.tree
  | .dict k v => .dict k.tree v.tree
  | .tuple _ items => .tuple none (treeAll items)
  | .generator e => .generator e.tree
  | .method _ receiver name => .method none receiver.tree name
  | .super _ bases => .super none (treeAll bases)
  | .synthetic (.labelled label _) => .synthetic (.labelled label 0)
  | .union alternatives => .union (treeAll alternatives)
  | other => other

def treeAll : List Value → List Value
  | [] => []
  | v :: rest => v.tree :: treeAll rest

end

/-! ## Trees -/

theorem treeAll_eq_map (vs : List Value) : treeAll vs = vs.map tree :=
  eq_map_of_cons rfl (fun _ _ => rfl) vs

theorem tree_eq_remade (v : Value) : v.tree = v.remade tree := by
  cases v
  case synthetic s => cases s <;> rfl
  all_goals simp [tree, remade, treeAll_eq_map]

theorem remade_congr {f g : Value → Value} (h : ∀ p ∈ v.parts, f p = g p) : v.remade f = v.remade g := by
  cases v
  case synthetic s => cases s <;> rfl
  all_goals simp_all [remade, parts]

theorem remade_remade (v : Value) (f g : Value → Value) : (v.remade f).remade g = v.remade fun p => g (f p) := by
  cases v
  case synthetic s => cases s <;> rfl
  all_goals simp [remade]

/-- **A comparison sees the whole tree** of a value in which no scalar lies just below its last level. -/
theorem tree_seen {n : Nat} (h : ∀ u ∈ v.layer n, u.isScalar = false) : (v.seen n).tree = v.tree := by
  induction n generalizing v with
  | zero => rw [seen, h v (List.mem_singleton_self v), if_neg Bool.false_ne_true]
  | succ n ih =>
    rw [seen, tree_eq_remade, remade_remade, tree_eq_remade v]
    exact remade_congr fun p hp => ih fun u hu => h u (List.mem_flatMap.mpr ⟨p, hp, hu⟩)

/-! ## What gets lost -/

section Keys

variable {objects : Nat → Value} {labels : Nat → String} {v w : Value} {n level : Nat}

/-- Where a collection gets lost in the key of a numbered value, level by level. -/
theorem lost_mem_keyAt (h : v.isNumbered = true) : .lost ∈ v.keyAt level ↔
      if maxDepth < level then v.isLoose = true
      else v.needsSerial = false ∧ ∃ p ∈ v.parts, .lost ∈ p.keyAt (level + 1) := by
  have hserial := (isNumbered_iff.mp h).1
  cases v
  case tuple serial items | super serial items | method serial receiver name =>
    obtain ⟨k, rfl⟩ := Option.isSome_iff_exists.mp (hserial rfl)
    simp [keyAt, lost_not_mem_serial, isLoose, needsSerial]
  case property serial g s d =>
    obtain ⟨k, rfl⟩ := Option.isSome_iff_exists.mp (hserial rfl)
    simp [keyAt, isLoose, needsSerial]
  case synthetic s => cases s <;> rw [keyAt] <;> split <;> simp_all [isLoose, parts]
  case list e | set e | generator e | dict e w | union vs =>
    rw [keyAt, Mark.collection]
    split <;> simp_all [isLoose, needsSerial, parts, mem_keysAt]
  case kwargs | functionRef | classRef | instanceOf | moduleRef | packageRef => simp [keyAt, isLoose, parts]
  all_goals
    rw [keyAt, Mark.scalar]
    split <;> simp [isLoose, parts]

/-- Nothing gets lost where a comparison comes to the end of every collection. -/
theorem lost_not_mem_keyAt (h : v.isNumbered = true) (hopen : v.Open n) (hlevel : n + level = maxDepth + 1) :
    .lost ∉ v.keyAt level := by
  induction n generalizing v level with
  | zero =>
    rw [lost_mem_keyAt h, if_pos (by omega), hopen v (List.mem_singleton_self v)]
    exact Bool.false_ne_true
  | succ n ih =>
    rw [lost_mem_keyAt h, if_neg (by omega)]
    rintro ⟨-, p, hp, hlost⟩
    exact ih ((isNumbered_iff.mp h).2 p hp) (hopen.part hp) (by omega) hlost

end Keys

end Value

/-! ## Reading a key

A key opens with a mark that says how many parts follow. So it can be read from left to right, given the
objects that have serial numbers.
-/

/-- How many parts follow the mark in a key. -/
def Mark.arity : Mark → Nat
  | .list | .set | .generator | .method _ => 1
  | .dict => 2
  | .tuple size | .super size | .union size => size
  | _ => 0

/-- What is seen of a value whose key begins with the mark, from what is seen of its parts. -/
def Mark.read (objects : Nat → Value) (labels : Nat → String) (mark : Mark) (parts : List Value) : Value :=
  match mark with
  | .null => .null
  | .bool constant => .bool constant
  | .int constant => .int constant
  | .float => .float
  | .complex => .complex
  | .str constant => .str constant
  | .bytes => .bytes
  | .object => .object
  | .list => .list (parts.getD 0 .null)
  | .set => .set (parts.getD 0 .null)
  | .dict => .dict (parts.getD 0 .null) (parts.getD 1 .null)
  | .tuple _ => .tuple none parts
  | .generator => .generator (parts.getD 0 .null)
  | .kwargs d => .kwargs d
  | .builtin b => .builtin b
  | .method name => .method none (parts.getD 0 .null) name
  | .numbered serial => objects serial
  | .super _ => .super none parts
  | .external path => .external path
  | .externalInstance path => .externalInstance path
  | .functionRef id => .functionRef id
  | .classRef id => .classRef id
  | .instanceOf id => .instanceOf id
  | .moduleRef id => .moduleRef id
  | .packageRef id => .packageRef id
  | .labelled label => .synthetic (.labelled label 0)
  | .labelledAt index => .synthetic (.labelled (labels index) index)
  | .orm role model => .synthetic (.orm role model)
  | .union _ => .union parts
  | .property | .deep | .lost => .null

namespace Value

/-- The mark that the key of a value opens with, above the last level. -/
def face : Value → Mark
  | .null => .null
  | .bool constant => .bool constant
  | .int constant => .int constant
  | .float => .float
  | .complex => .complex
  | .str constant => .str constant
  | .bytes => .bytes
  | .object => .object
  | .list _ => .list
  | .set _ => .set
  | .dict .. => .dict
  | .tuple _ items => .tuple items.length
  | .generator _ => .generator
  | .kwargs d => .kwargs d
  | .builtin b => .builtin b
  | .method _ _ name => .method name
  | .property (some serial) .. => .numbered serial
  | .property none .. => .property
  | .super _ bases => .super bases.length
  | .external path => .external path
  | .externalInstance path => .externalInstance path
  | .functionRef id => .functionRef id
  | .classRef id => .classRef id
  | .instanceOf id => .instanceOf id
  | .moduleRef id => .moduleRef id
  | .packageRef id => .packageRef id
  | .synthetic (.labelled label _) => .labelled label
  | .synthetic (.orm role model) => .orm role model
  | .union alternatives => .union alternatives.length

/-- The parts that the key of a value spells. -/
def shown : Value → List Value
  | .property (some _) .. => []
  | v => v.parts

section Reading

variable {objects : Nat → Value} {labels : Nat → String} {v w : Value} {n level : Nat} {rest rest' : Key}

theorem mem_parts_of_mem_shown {p : Value} (hp : p ∈ v.shown) : p ∈ v.parts := by
  unfold shown at hp
  split at hp
  · cases hp
  · exact hp

theorem keysAt_map {f : Value → Value} {vs : List Value} (h : ∀ p ∈ vs, (f p).keyAt level = p.keyAt level) :
    keysAt level (vs.map f) = keysAt level vs := by
  induction vs with
  | nil => rfl
  | cons p rest ih =>
    rw [List.map_cons, keysAt, keysAt, h p List.mem_cons_self, ih fun q hq => h q (List.mem_cons_of_mem p hq)]

/-- The key of a value whose parts are spelled. -/
theorem keyAt_of_open (hlevel : level ≤ maxDepth) (hspelled : .lost ∉ keysAt (level + 1) v.shown) :
    v.keyAt level = v.face :: keysAt (level + 1) v.shown := by
  have hshallow : ¬maxDepth < level := Nat.not_lt.mpr hlevel
  cases v
  case tuple serial items | super serial items | method serial receiver name =>
    simp_all [keyAt, Mark.serial, face, shown, parts, keysAt]
  case property serial g s d => cases serial <;> simp [keyAt, face, shown, parts, keysAt]
  case synthetic s => cases s <;> simp [keyAt, hshallow, face, shown, parts, keysAt]
  all_goals simp [keyAt, Mark.scalar, Mark.collection, hshallow, face, shown, parts, keysAt]

theorem length_shown (h : v.isNumbered = true) : v.shown.length = v.face.arity := by
  cases v
  case property serial g s d =>
    obtain ⟨k, rfl⟩ := Option.isSome_iff_exists.mp ((isNumbered_iff.mp h).1 rfl)
    rfl
  case synthetic s => cases s <;> rfl
  all_goals rfl

theorem face_remade (v : Value) (f : Value → Value) : (v.remade f).face = v.face := by
  cases v
  case synthetic s => cases s <;> rfl
  all_goals simp [remade, face]

theorem shown_remade (h : v.isNumbered = true) (f : Value → Value) : (v.remade f).shown = v.shown.map f := by
  cases v
  case property serial g s d =>
    obtain ⟨k, rfl⟩ := Option.isSome_iff_exists.mp ((isNumbered_iff.mp h).1 rfl)
    rfl
  case synthetic s => cases s <;> rfl
  all_goals rfl

theorem remade_eq_read (h : v.Kept objects labels) (f : Value → Value) :
    v.remade f = v.face.read objects labels (v.shown.map f) := by
  cases v
  case property serial g s d =>
    obtain ⟨k, hk, hobject⟩ := h.exists_serial rfl
    cases hk
    exact hobject.symm
  case synthetic s => cases s <;> rfl
  all_goals rfl

/-- The parts of an open value are spelled. -/
theorem lost_not_mem_shown (h : v.isNumbered = true) (hopen : v.Open (n + 1)) (hlevel : n + 1 + level = maxDepth + 1) :
    .lost ∉ keysAt (level + 1) v.shown := by
  rw [mem_keysAt]
  rintro ⟨p, hp, hlost⟩
  have hp := mem_parts_of_mem_shown hp
  exact lost_not_mem_keyAt ((isNumbered_iff.mp h).2 p hp) (hopen.part hp) (by omega) hlost

/-- The key of a value is the key of what is seen of it. -/
theorem keyAt_seen (h : v.isNumbered = true) (hopen : v.Open n) (hlevel : n + level = maxDepth + 1) :
    (v.seen n).keyAt level = v.keyAt level := by
  induction n generalizing v level with
  | zero =>
    rw [seen]
    split
    · next hscalar =>
      have hdeep : maxDepth < level := by omega
      cases v <;> cases hscalar <;> simp [keyAt, Mark.scalar, hdeep]
    · rfl
  | succ n ih =>
    have hkeys : keysAt (level + 1) (v.shown.map (seen n)) = keysAt (level + 1) v.shown := by
      refine keysAt_map fun p hp => ?_
      have hp := mem_parts_of_mem_shown hp
      exact ih ((isNumbered_iff.mp h).2 p hp) (hopen.part hp) (by omega)
    have hlost := lost_not_mem_shown h hopen hlevel
    have hspelled : .lost ∉ keysAt (level + 1) (v.remade (seen n)).shown := by rwa [shown_remade h, hkeys]
    rw [seen, keyAt_of_open (by omega) hlost, keyAt_of_open (by omega) hspelled, face_remade, shown_remade h, hkeys]

/-- A key below the last level is one mark. -/
theorem exists_mark (h : v.Kept objects labels) (hdeep : maxDepth < level) (hloose : v.isLoose = false) :
    ∃ mark, v.keyAt level = [mark] ∧ v.seen 0 = mark.read objects labels [] := by
  cases v
  case tuple serial items | super serial items | method serial receiver name | property serial g s d =>
    obtain ⟨k, hk, hobject⟩ := h.exists_serial rfl
    cases hk
    refine ⟨.numbered k, ?_, hobject.symm⟩
    simp [keyAt, Mark.serial, Nat.not_le.mpr hdeep]
  case list | set | dict | generator | union => cases hloose
  case synthetic s =>
    cases s with
    | labelled label i =>
      refine ⟨.labelledAt i, by rw [keyAt, if_pos hdeep], ?_⟩
      rw [Mark.read, h.known.here.2 label i rfl]
      rfl
    | orm => cases hloose
  case kwargs d => exact ⟨.kwargs d, rfl, rfl⟩
  case functionRef id => exact ⟨.functionRef id, rfl, rfl⟩
  case classRef id => exact ⟨.classRef id, rfl, rfl⟩
  case instanceOf id => exact ⟨.instanceOf id, rfl, rfl⟩
  case moduleRef id => exact ⟨.moduleRef id, rfl, rfl⟩
  case packageRef id => exact ⟨.packageRef id, rfl, rfl⟩
  all_goals exact ⟨.deep, by simp [keyAt, Mark.scalar, hdeep], rfl⟩

theorem seenAll_eq_of_keysAt {vs ws : List Value}
    (hread : ∀ v ∈ vs, ∀ w ∈ ws, ∀ rest rest' : Key, v.keyAt level ++ rest = w.keyAt level ++ rest' →
      v.seen n = w.seen n ∧ rest = rest')
    (hlength : vs.length = ws.length) (h : keysAt level vs ++ rest = keysAt level ws ++ rest') :
    vs.map (seen n) = ws.map (seen n) ∧ rest = rest' := by
  induction vs generalizing ws with
  | nil =>
    cases List.length_eq_zero_iff.mp hlength.symm
    exact ⟨rfl, h⟩
  | cons v vs ih =>
    cases ws with
    | nil => cases hlength
    | cons w ws =>
      rw [keysAt, keysAt, List.append_assoc, List.append_assoc] at h
      obtain ⟨hfirst, h⟩ := hread v List.mem_cons_self w List.mem_cons_self _ _ h
      obtain ⟨hothers, hrest⟩ := ih (fun v hv w hw => hread v (List.mem_cons_of_mem _ hv) w (List.mem_cons_of_mem _ hw))
        (Nat.succ.inj hlength) h
      exact ⟨by rw [List.map_cons, List.map_cons, hfirst, hothers], hrest⟩

/--
**A key tells what is seen.** Of two keys that begin two words alike, both end at the same place, and
they are keys of values that look the same. The induction is on the levels that are left.
-/
theorem seen_eq_of_keyAt (hv : v.Kept objects labels) (hw : w.Kept objects labels) (hvopen : v.Open n)
    (hwopen : w.Open n) (hlevel : n + level = maxDepth + 1)
    (h : v.keyAt level ++ rest = w.keyAt level ++ rest') : v.seen n = w.seen n ∧ rest = rest' := by
  induction n generalizing v w level rest rest' with
  | zero =>
    have hdeep : maxDepth < level := by omega
    obtain ⟨mark, hvkey, hvseen⟩ := exists_mark hv hdeep (hvopen v (List.mem_singleton_self v))
    obtain ⟨mark', hwkey, hwseen⟩ := exists_mark hw hdeep (hwopen w (List.mem_singleton_self w))
    rw [hvkey, hwkey] at h
    obtain ⟨rfl, hrest⟩ := List.cons.inj h
    exact ⟨hvseen.trans hwseen.symm, hrest⟩
  | succ n ih =>
    rw [keyAt_of_open (by omega) (lost_not_mem_shown hv.numbered hvopen hlevel),
      keyAt_of_open (by omega) (lost_not_mem_shown hw.numbered hwopen hlevel)] at h
    -- equal marks have equally many parts, which are read one after another
    obtain ⟨hface, hkeys⟩ := List.cons.inj h
    have hread : ∀ p ∈ v.shown, ∀ q ∈ w.shown, ∀ rest rest' : Key,
        p.keyAt (level + 1) ++ rest = q.keyAt (level + 1) ++ rest' → p.seen n = q.seen n ∧ rest = rest' := by
      intro p hp q hq rest rest' hfirst
      have hp := mem_parts_of_mem_shown hp
      have hq := mem_parts_of_mem_shown hq
      exact ih (hv.part hp) (hw.part hq) (hvopen.part hp) (hwopen.part hq) (by omega) hfirst
    have hlength : v.shown.length = w.shown.length := by
      rw [length_shown hv.numbered, length_shown hw.numbered, hface]
    obtain ⟨hparts, hrest⟩ := seenAll_eq_of_keysAt hread hlength hkeys
    rw [seen, seen, remade_eq_read hv, remade_eq_read hw, hface, hparts]
    exact ⟨rfl, hrest⟩

/-- Two shallow values have the same key exactly if they look the same. -/
theorem key_eq_iff (hv : v.Kept objects labels) (hw : w.Kept objects labels) (hvopen : v.Shallow) (hwopen : w.Shallow) :
    v.key = w.key ↔ v.seen sight = w.seen sight := by
  have hlevel : sight + 0 = maxDepth + 1 := rfl
  constructor
  · intro hkey
    have hwords : v.keyAt 0 ++ [] = w.keyAt 0 ++ [] := congrArg (· ++ []) hkey
    exact (seen_eq_of_keyAt hv hw hvopen hwopen hlevel hwords).1
  · intro hseen
    rw [key, key, ← keyAt_seen hv.numbered hvopen hlevel, hseen, keyAt_seen hw.numbered hwopen hlevel]

/-- **Two shallow values compare equal exactly if they look the same.** -/
theorem same_iff (hv : v.Kept objects labels) (hw : w.Kept objects labels) (hvopen : v.Shallow) (hwopen : w.Shallow) :
    v.same w = true ↔ v.seen sight = w.seen sight := by
  have hlost : v.key.contains .lost = false := by
    rw [List.contains_eq_mem, decide_eq_false_iff_not]
    exact lost_not_mem_keyAt hv.numbered hvopen rfl
  rw [same, hlost, Bool.not_false, Bool.and_true, beq_iff_eq]
  exact key_eq_iff hv hw hvopen hwopen

end Reading

end Value

end Surmise
