import Surmise.Proofs.Store.Sound
import Surmise.Proofs.Value.Shift
import Surmise.Query.Calls

/-!
# What queries answer

A query about sound values in a store of sound values gives a sound value: members, calls, elements and
subscripts, at every budget. It is answered unless the analysis is cancelled, whatever the values are. So what is
known of values is asked for under a condition only, which may be false. Asked about shifted values of a store that
reads like the first one, shifted, it gives the shifted answer. One walk through the queries shows all of that.

* `Agree`: two queries at once.
* `Store.Reads`: what queries read from the second store.
* `Queries.Answering`: what is asked of a set of queries; `World.Reads.queries`: every budget's queries have it, by
  induction on the budget.
* `World.ensures_member`, `World.ensures_call`, `World.ensures_elem`, `World.ensures_index`,
  `World.ensures_slice`: so each single query gives a sound value.
* `World.answers_member` and so on: it gives an answer, whatever it is asked.
-/

namespace Surmise

open Value World Native OrderedMap Store

/-- The query is answered by something that satisfies `P`, unless the analysis is cancelled. -/
def Ensures {α : Type} (o : Except AnalysisError α) (P : α → Prop) : Prop :=
  match o with
  | .ok a => P a
  | .error e => e = .cancelled

/-- The query gives an answer, or the analysis is cancelled. -/
abbrev Answers {α : Type} (o : Except AnalysisError α) : Prop := Ensures o fun _ => True

abbrev Value.SoundIf (p : Prop) (n : Nat) (v : Value) : Prop := p → v.Sound n

/-- The second value is the first one shifted, which is sound if the condition holds. -/
structure Value.Kin (π : Shift) (p : Prop) (n : Nat) (v v' : Value) : Prop where
  same : v' = v.shift π
  sound : v.SoundIf p n

/-- The second query gives the image of what the first one gives, which satisfies `P`. -/
structure Agree {α β : Type} (g : α → β) (P : α → Prop) (o : Except AnalysisError α) (o' : Except AnalysisError β) :
    Prop where
  ensures : Ensures o P
  same : o' = g <$> o

/-- The second query gives the shifted answer, and the first one is sound if the condition holds. -/
abbrev Agrees (π : Shift) (p : Prop) (n : Nat) : Outcome → Outcome → Prop := Agree (Value.shift π) (SoundIf p n)

section Kin

variable {π : Shift} {p : Prop} {n : Nat} {v v' u u' : Value}

theorem kin_shift (hv : v.SoundIf p n) : Kin π p n v (v.shift π) := ⟨rfl, hv⟩

/-- A value that does not depend on what is asked about. -/
theorem kin_fixed (hv : ∀ m, v.Sound m) : Kin π p n v v := ⟨(shift_of_sound π (hv _)).symm, fun _ => hv n⟩

theorem kin_empty : Kin π p n empty empty := kin_fixed fun _ => sound_empty

theorem kin_ite {c : Prop} [Decidable c] (hv : Kin π p n v v') (hu : Kin π p n u u') :
    Kin π p n (if c then v else u) (if c then v' else u') := by
  split <;> assumption

theorem Value.Kin.unite (hv : Kin π p n v v') (hu : Kin π p n u u') : Kin π p n (.unite [v, u]) (.unite [v', u']) :=
  ⟨by simp [hv.same, hu.same], fun hp => by simp [hv.sound hp, hu.sound hp]⟩

theorem Value.Kin.listOf (hv : Kin π p n v v') : Kin π p n (.listOf v) (.listOf v') :=
  ⟨by simp [hv.same], fun hp => sound_listOf (hv.sound hp)⟩

end Kin

section Agree

variable {α β γ δ : Type} {g : α → β} {P : α → Prop} {k : γ → δ} {Q : γ → Prop} {o : Except AnalysisError α}
  {o' : Except AnalysisError β} {π : Shift} {p : Prop} {n : Nat} {v : Value} {f f' : Value → Outcome}
  {vs : List Value}

theorem ensures_pure {a : α} (h : P a) : Ensures (pure a) P := h

theorem Ensures.imp {Q : α → Prop} (h : Ensures o P) (himp : ∀ a, P a → Q a) : Ensures o Q := by
  cases o with
  | ok a => exact himp a h
  | error e => exact h

theorem Ensures.answers (h : Ensures o P) : Answers o := h.imp fun _ _ => trivial

theorem Ensures.sound {o : Outcome} (h : Ensures o (SoundIf True n)) : Ensures o (Sound n) :=
  h.imp fun _ hv => hv trivial

theorem World.Ensures.check {w : World} (h : Ensures o P) : Ensures (w.check >>= fun _ => o) P := by
  unfold World.check
  split
  · exact rfl
  · exact h

theorem agree_pure {a : α} {b : β} (hb : b = g a) (ha : P a) : Agree g P (pure a) (pure b) :=
  ⟨ha, congrArg Except.ok hb⟩

theorem Agree.bind {f : α → Except AnalysisError γ} {f' : β → Except AnalysisError δ} (h : Agree g P o o')
    (hf : ∀ a, P a → Agree k Q (f a) (f' (g a))) : Agree k Q (o >>= f) (o' >>= f') := by
  obtain ⟨hensures, rfl⟩ := h
  cases o with
  | error e => exact ⟨hensures, rfl⟩
  | ok a => exact hf a hensures

theorem agree_mapM {e : γ → δ} {f : γ → Except AnalysisError α} {f' : δ → Except AnalysisError β} {xs : List γ}
    (h : ∀ x ∈ xs, Agree g P (f x) (f' (e x))) :
    Agree (List.map g) (fun as => ∀ a ∈ as, P a) (xs.mapM f) ((xs.map e).mapM f') := by
  induction xs with
  | nil => exact agree_pure rfl (List.forall_mem_nil P)
  | cons x rest ih =>
    rw [List.map_cons, List.mapM_cons, List.mapM_cons]
    refine (h x List.mem_cons_self).bind fun a ha => ?_
    refine (ih fun y hy => h y (List.mem_cons_of_mem x hy)).bind fun as has => ?_
    exact agree_pure rfl (List.forall_mem_cons.mpr ⟨ha, has⟩)

theorem Value.Kin.agrees {v' : Value} (h : Kin π p n v v') : Agrees π p n (pure v) (pure v') :=
  agree_pure h.same h.sound

theorem agrees_overDisjuncts (hv : v.SoundIf p n) (h : ∀ d, d.SoundIf p n → Agrees π p n (f d) (f' (d.shift π))) :
    Agrees π p n (overDisjuncts v f) (overDisjuncts (v.shift π) f') := by
  unfold overDisjuncts uniteM
  rw [disjuncts_shift]
  refine (agree_mapM fun d hd => h d fun hp => (hv hp).of_mem_disjuncts hd).bind fun vs hvs => ?_
  exact agree_pure (shift_unite π vs).symm fun hp => sound_unite fun u hu => hvs u hu hp

theorem agrees_firstOutcome (h : ∀ v ∈ vs, Agrees π p n (f v) (f' (v.shift π))) :
    Agrees π p n (firstOutcome f vs) (firstOutcome f' (vs.map (shift π))) := by
  induction vs with
  | nil => exact kin_empty.agrees
  | cons v rest ih =>
    refine (h v List.mem_cons_self).bind fun found hfound => ?_
    rw [isEmpty_shift]
    split
    · exact ih fun w hw => h w (List.mem_cons_of_mem v hw)
    · exact (kin_shift hfound).agrees

theorem Value.Kin.found {v' : Value} (h : Kin π p n v v') (visited : List ClassId) :
    Agree (Prod.map id (shift π)) (fun r => r.2.SoundIf p n) (pure (visited, v)) (pure (visited, v')) :=
  agree_pure (congrArg (Prod.mk visited) h.same) h.sound

/-- A search gives a sound value if every single try does. -/
theorem agree_firstFound {search search' : List ClassId → Value → Except AnalysisError (List ClassId × Value)}
    (h : ∀ visited, ∀ v ∈ vs, Agree (Prod.map id (shift π)) (fun r => r.2.SoundIf p n)
      (search visited v) (search' visited (v.shift π))) (visited : List ClassId) :
    Agree (Prod.map id (shift π)) (fun r => r.2.SoundIf p n) (firstFound search visited vs)
      (firstFound search' visited (vs.map (shift π))) := by
  induction vs generalizing visited with
  | nil => exact kin_empty.found visited
  | cons v rest ih =>
    refine (h visited v List.mem_cons_self).bind fun r hr => ?_
    show Agree _ _ (if r.2.isEmpty then _ else _) (if (r.2.shift π).isEmpty then _ else _)
    rw [isEmpty_shift]
    split
    · exact ih (fun visited w hw => h visited w (List.mem_cons_of_mem v hw)) r.1
    · exact agree_pure rfl hr

end Agree

/-! ## Arguments -/

structure Args.Sound (n : Nat) (a : Args) : Prop where
  positional : ∀ v ∈ a.positional, v.Sound n
  keywords : ∀ entry ∈ a.keywords, entry.2.Sound n
  vararg : ∀ v ∈ a.vararg, v.Sound n
  kwarg : ∀ v ∈ a.kwarg, v.Sound n

section Shifted

variable (π : Shift)

def shiftEntries (entries : List (String × Value)) : List (String × Value) :=
  entries.map fun entry => (entry.1, entry.2.shift π)

theorem map_fst_shiftEntries (entries : List (String × Value)) :
    (shiftEntries π entries).map Prod.fst = entries.map Prod.fst := by
  simp [shiftEntries]

theorem map_snd_shiftEntries (entries : List (String × Value)) :
    (shiftEntries π entries).map Prod.snd = (entries.map Prod.snd).map (shift π) := by
  simp [shiftEntries]

theorem find?_shiftEntries (entries : List (String × Value)) (name : String) :
    (shiftEntries π entries).find? (fun entry => entry.1 == name) =
      (entries.find? fun entry => entry.1 == name).map fun entry => (entry.1, entry.2.shift π) := by
  rw [shiftEntries, List.find?_map]
  rfl

def Args.shift (a : Args) : Args where
  positional := a.positional.map (Value.shift π)
  keywords := shiftEntries π a.keywords
  vararg := a.vararg.map (Value.shift π)
  kwarg := a.kwarg.map (Value.shift π)

end Shifted

namespace Args

section Shift

variable (π : Shift) (a : Args)

@[simp] theorem positional_shift : (a.shift π).positional = a.positional.map (Value.shift π) := rfl

@[simp] theorem keywords_shift : (a.shift π).keywords = shiftEntries π a.keywords := rfl

@[simp] theorem vararg_shift : (a.shift π).vararg = a.vararg.map (Value.shift π) := rfl

@[simp] theorem kwarg_shift : (a.shift π).kwarg = a.kwarg.map (Value.shift π) := rfl

@[simp] theorem get_shift (i : Nat) : (a.shift π).get i = (a.get i).shift π := by
  rw [get, get, shift, List.getElem?_map]
  cases a.positional[i]? <;> rfl

@[simp] theorem keyword?_shift (name : String) : (a.shift π).keyword? name = (a.keyword? name).map (Value.shift π) := by
  rw [keyword?, keyword?, shift, find?_shiftEntries, Option.map_map, Option.map_map]
  rfl

@[simp] theorem arg_shift (i : Nat) (name : String) : (a.shift π).arg i name = (a.arg i name).shift π := by
  rw [arg, arg, get_shift, keyword?_shift, shift_unite]
  cases a.keyword? name <;> rfl

end Shift

variable {n : Nat} {a : Args}

theorem sound_ofPositional {vs : List Value} (h : ∀ v ∈ vs, v.Sound n) : (ofPositional vs).Sound n :=
  ⟨h, nofun, nofun, nofun⟩

theorem sound_none : ({} : Args).Sound n := sound_ofPositional nofun

theorem Sound.get (h : a.Sound n) (i : Nat) : (a.get i).Sound n :=
  sound_getD (fun v hv => h.positional v (List.mem_of_getElem? hv)) sound_empty

theorem Sound.keyword (h : a.Sound n) (name : String) : ((a.keyword? name).getD .empty).Sound n := by
  refine sound_getD (fun v hv => ?_) sound_empty
  obtain ⟨entry, hentry, rfl⟩ := Option.map_eq_some_iff.mp hv
  exact h.keywords entry (List.mem_of_find?_eq_some hentry)

theorem Sound.arg (h : a.Sound n) (i : Nat) (name : String) : (a.arg i name).Sound n :=
  sound_unite (by simp [h.get i, h.keyword name])

end Args

/-! ## Instances of builtin types -/

section Constants

variable (π : Shift) {n : Nat}

@[simp] theorem Value.text?_shift (v : Value) : (v.shift π).text? = v.text? := by cases v <;> rfl

@[simp] theorem Value.int?_shift (v : Value) : (v.shift π).int? = v.int? := by cases v <;> rfl

@[simp] theorem Value.isInstance_shift (v : Value) : (v.shift π).isInstance = v.isInstance := by cases v <;> rfl

@[simp] theorem Value.shift_ofInt (n : Int) : (ofInt n).shift π = ofInt n := shift_of_sound π (sound_ofInt n)

namespace Native

@[simp] theorem sound_anInstance (t : BuiltinType) : t.anInstance.Sound n := by
  cases t <;> simp [BuiltinType.anInstance, ofType]

theorem typesOf_eq_map (vs : List Value) : typesOf vs = vs.map typeOf :=
  eq_map_of_cons rfl (fun _ _ => rfl) vs

@[simp] theorem sound_typeOf (v : Value) : (typeOf v).Sound n := by
  induction v with
  | step v ih =>
    cases v
    case union alternatives =>
      rw [typeOf, typesOf_eq_map]
      exact sound_unite (List.forall_mem_map.mpr ih)
    case builtin b => cases b <;> simp [typeOf, ofType]
    all_goals simp [typeOf, ofType]

theorem typeOf_shift (v : Value) : typeOf (v.shift π) = typeOf v := by
  induction v with
  | step v ih =>
    cases v
    case union alternatives =>
      rw [shift, typeOf, typeOf, shiftAll_eq_map, typesOf_eq_map, typesOf_eq_map, List.map_map]
      exact congrArg unite (List.map_congr_left ih)
    case builtin b => cases b <;> rfl
    all_goals rfl

variable {path : String} {v receiver : Value}

theorem sound_ofPath? (h : ofPath? path = some v) : v.Sound n := by
  obtain ⟨name, -, h⟩ := Option.bind_eq_some_iff.mp h
  split at h
  · cases h
    simp [ofType]
  · obtain ⟨f, -, rfl⟩ := Option.map_eq_some_iff.mp h
    simp [ofFunction]

theorem sound_instanceOfPath? (h : instanceOfPath? path = some v) : v.Sound n := by
  obtain ⟨name, -, h⟩ := Option.bind_eq_some_iff.mp h
  split at h
  · cases h
    simp
  · cases h
    simp
  · obtain ⟨t, -, rfl⟩ := Option.map_eq_some_iff.mp h
    exact sound_anInstance t

theorem sound_numberPart? {part : Value} {name : String} (h : numberPart? receiver name = some part) :
    part.Sound n := by
  unfold numberPart? at h
  split at h
  case h_5 => cases h
  all_goals
    split at h
    · cases h
      simp
    · cases h

theorem memberNames_shift (v : Value) : memberNames (v.shift π) = memberNames v := by cases v <;> rfl

theorem kin_member {p : Prop} (h : receiver.SoundIf p n) (name : String) :
    Kin π p n (member receiver name) (member (receiver.shift π) name) := by
  have hpart : numberPart? (receiver.shift π) name = numberPart? receiver name := by cases receiver <;> rfl
  rw [member, member, memberNames_shift, hpart, typeOf_shift]
  split
  · exact kin_empty
  · cases hnumber : numberPart? receiver name with
    | some part => exact kin_fixed fun _ => sound_numberPart? hnumber
    | none =>
      dsimp only
      split
      · exact kin_fixed fun _ => sound_typeOf receiver
      · split
        · exact kin_fixed fun _ => sound_of_isAtom rfl
        · exact kin_shift fun hp => sound_methodOf (h hp)

theorem sound_member (h : receiver.Sound n) (name : String) : (member receiver name).Sound n :=
  (kin_member ⟨0, 0⟩ (fun _ => h) name).sound trivial

end Native

end Constants

/-! ## What queries look at -/

namespace OrderedMap

variable (π : Shift) (m : OrderedMap Value)

def shift : OrderedMap Value := ⟨shiftEntries π m.entries, by rw [map_fst_shiftEntries]; exact m.nodup⟩

theorem get?_shift (name : String) : (m.shift π).get? name = (m.get? name).map (Value.shift π) := by
  rw [get?, get?, shift, find?_shiftEntries, Option.map_map, Option.map_map]
  rfl

theorem getD_get?_shift (name : String) :
    ((m.shift π).get? name).getD .empty = ((m.get? name).getD .empty).shift π := by
  rw [get?_shift]
  cases m.get? name <;> rfl

theorem values_shift : (m.shift π).values = m.values.map (Value.shift π) :=
  map_snd_shiftEntries π m.entries

end OrderedMap

/-- Queries read from the second store what they read from the first one, shifted. -/
structure Store.Reads (π : Shift) (s s' : Store) : Prop where
  value : ∀ id, s'.value id = (s.value id).shift π
  function : ∀ f, s'.function f = s.function f
  module : ∀ m, s'.module m = s.module m
  package : ∀ p, s'.package p = s.package p
  members : ∀ c, (s'.classOf c).members = (s.classOf c).members
  bases : ∀ c, (s'.classOf c).bases = (s.classOf c).bases.map (Value.shift π)
  subclassesOf : ∀ c, s'.subclassesOf c = s.subclassesOf c
  kwargsOf : ∀ d, s'.kwargsOf d = (s.kwargsOf d).shift π
  labelledMembers : ∀ i, s'.labelledMembers i = shiftEntries π (s.labelledMembers i)
  inClass : ∀ c name, s'.get? (s.classOf c).members name = s.get? (s.classOf c).members name
  inModule : ∀ m name, s'.get? (s.module m).members name = s.get? (s.module m).members name
  inPackage : ∀ p name, s'.get? (s.package p).entries name = s.get? (s.package p).entries name

namespace Store.Reads

theorem refl (s : Store) : s.Reads ⟨0, 0⟩ s := by
  have hentries : ∀ entries, shiftEntries ⟨0, 0⟩ entries = entries := fun entries => by
    simp [shiftEntries, shift_zero]
  constructor <;> intros <;> try rfl
  case value => rw [shift_zero]
  case bases => rw [funext shift_zero, List.map_id']
  case kwargsOf d => simp only [OrderedMap.shift, hentries]
  case labelledMembers => rw [hentries]

variable {π : Shift} {s s' : Store} (h : s.Reads π s')

include h

theorem kwargsValues (d : KwargsId) : s'.kwargsValues d = (s.kwargsValues d).shift π := by
  rw [Store.kwargsValues, Store.kwargsValues, h.kwargsOf, OrderedMap.values_shift, shift_unite]

theorem flatten_bases (c : ClassId) : flatten (s'.classOf c).bases =
    (flatten (s.classOf c).bases).map (Value.shift π) := by
  rw [h.bases, flatten_map_shift]

theorem valueIn {t : TableId} {name : String} (ht : s'.get? t name = s.get? t name) :
    s'.valueIn t name = (s.valueIn t name).shift π := by
  rw [Store.valueIn, Store.valueIn, ht]
  cases s.get? t name with
  | some symbol => exact h.value symbol
  | none => rfl

end Store.Reads

/-- Queries look at the same in the two worlds, up to a shift. -/
structure World.Reads (π : Shift) (w w' : World) : Prop where
  graph : w'.graph = w.graph
  cancelled : w'.cancelled = w.cancelled
  store : w.store.Reads π w'.store

theorem World.Reads.refl (w : World) : w.Reads ⟨0, 0⟩ w := ⟨rfl, rfl, .refl w.store⟩

/-! ## Members -/

namespace World

abbrev serial (w : World) : Nat := w.store.nextSerial

variable {w w' : World} {n : Nat} {p : Prop} {v : Value} {π : Shift} {name : String}

@[simp] theorem sound_externalInstance (path : String) : (externalInstance path).Sound n :=
  sound_getD (fun _ h => sound_instanceOfPath? h) (by simp)

@[simp] theorem sound_externalValue (path : String) : (w.externalValue path).Sound n := by
  unfold externalValue
  split
  · split <;> simp
  · exact sound_getD (fun _ h => sound_ofPath? h) (by simp)
  · simp

theorem sound_ownExternalMember? {path : String} (h : w.ownExternalMember? name path = some v) : v.Sound n := by
  unfold ownExternalMember? at h
  split at h
  · cases h
    simp
  · split at h
    · next native hnative =>
      split at h
      · cases h
      · cases h
        exact sound_member (sound_instanceOfPath? hnative) name
    · cases h

@[simp] theorem sound_externalMember (path name : String) : (w.externalMember path name).Sound n := by
  refine sound_getD (fun v h => ?_) sound_empty
  obtain ⟨p, -, hp⟩ := List.exists_of_findSome?_eq_some h
  exact sound_ownExternalMember? hp

theorem sound_ownMember? (hs : w.store.Sound) {c : ClassId} (h : w.ownMember? c name = some v) :
    v.Sound w.serial := by
  unfold ownMember? at h
  simp only at h
  split at h
  · cases h
  · cases h
    exact hs.valueIn _ _

namespace Reads

variable (h : w.Reads π w') (hs : p → w.store.Sound)

include h

theorem check {α β : Type} {g : α → β} {P : α → Prop} {o : Except AnalysisError α} {o' : Except AnalysisError β}
    (hagree : Agree g P o o') : Agree g P (w.check >>= fun _ => o) (w'.check >>= fun _ => o') := by
  unfold World.check
  rw [h.cancelled]
  split
  · exact ⟨rfl, rfl⟩
  · exact hagree

theorem externalMember (path name : String) : w'.externalMember path name = w.externalMember path name := by
  have hown : w'.ownExternalMember? name = w.ownExternalMember? name := by
    funext path
    simp only [World.ownExternalMember?, World.externalValue, h.graph]
  rw [World.externalMember, World.externalMember, h.graph, hown]

theorem kin_externalMember (path name : String) :
    Kin π p n (w.externalMember path name) (w'.externalMember path name) := by
  rw [h.externalMember]
  exact kin_fixed fun _ => sound_externalMember path name

theorem foreignMember (name : String) (v : Value) :
    Kin π p n (w.foreignMember name v) (w'.foreignMember name (v.shift π)) := by
  cases v
  case external path => exact h.kin_externalMember path name
  case builtin b =>
    cases b with
    | type t => exact kin_fixed fun _ => sound_member (sound_anInstance t) name
    | function f => exact kin_empty
  all_goals exact kin_empty

theorem ownMember? (c : ClassId) (name : String) :
    w'.ownMember? c name = (w.ownMember? c name).map (Value.shift π) := by
  rw [World.ownMember?, World.ownMember?, h.store.members, h.store.valueIn (h.store.inClass c name)]
  simp only [isEmpty_shift]
  split <;> rfl

include hs

theorem classMemberFrom (name : String) (budget : Nat) (visited : List ClassId) (c : ClassId) :
    Agree (Prod.map id (Value.shift π)) (fun r => r.2.SoundIf p w.serial)
      (w.classMemberFrom name budget visited c) (w'.classMemberFrom name budget visited c) := by
  induction budget generalizing visited c
  all_goals
    unfold World.classMemberFrom
    rw [h.ownMember?]
    split
    · exact kin_empty.found visited
    rcases hv : w.ownMember? c name with _ | v
    rotate_left
    · exact agree_pure rfl fun hp => sound_ownMember? (hs hp) hv
    refine h.check ?_
  case zero => exact kin_empty.found _
  case succ budget ih _ =>
    simp only [h.store.flatten_bases]
    refine agree_firstFound (fun visited base _ => ?_) _
    cases base
    case classRef => exact ih visited _
    all_goals exact (h.foreignMember name _).found visited

theorem classMember (budget : Nat) (c : ClassId) (name : String) :
    Agrees π p w.serial (w.classMember budget c name) (w'.classMember budget c name) :=
  (h.classMemberFrom hs name budget [] c).bind fun _ hr => (kin_shift hr).agrees

theorem baseMember (budget : Nat) (name : String) (v : Value) :
    Agrees π p w.serial (w.baseMember budget name v) (w'.baseMember budget name (v.shift π)) := by
  cases v
  case classRef c => exact h.classMember hs budget c name
  all_goals exact (h.foreignMember name _).agrees

theorem packageMember (q : PackageId) (name : String) :
    Kin π p w.serial (w.packageMember q name) (w'.packageMember q name) := by
  refine ⟨?_, fun hp => ?_⟩
  · simp only [World.packageMember, h.store.package, h.store.valueIn (h.store.inPackage q name)]
    cases (w.store.package q).init with
    | none => rfl
    | some m =>
      simp only [h.store.module, h.store.valueIn (h.store.inModule m name), isEmpty_shift]
      split <;> rfl
  · unfold World.packageMember
    dsimp only
    split <;> split <;> first | exact (hs hp).valueIn _ _ | exact sound_empty

omit hs in
theorem functionMember (f : FunctionId) (name : String) :
    Kin π p n (w.functionMember f name) (w'.functionMember f name) := by
  rw [World.functionMember, World.functionMember, h.store.function]
  refine kin_fixed fun _ => ?_
  split
  · simp [ofText]
  · split
    · simp
    · split <;> simp

theorem syntheticMember (name : String) (t : Synthetic) :
    Kin π p w.serial (w.store.syntheticMember name t) (w'.store.syntheticMember name t) := by
  cases t with
  | labelled label i =>
    simp only [Store.syntheticMember, h.store.labelledMembers, find?_shiftEntries]
    cases hentry : (w.store.labelledMembers i).find? fun entry => entry.1 == name with
    | none => exact kin_empty
    | some entry => exact kin_shift fun hp => (hs hp).labelled _ _ (List.mem_of_find?_eq_some hentry)
  | orm role model =>
    cases role <;> simp only [Store.syntheticMember]
    case method => exact kin_empty
    all_goals
      refine kin_fixed fun _ => ?_
      split
      · simp
      · split <;> simp

theorem memberOf (budget : Nat) (name : String) (hv : v.SoundIf p w.serial) :
    Agrees π p w.serial (w.memberOf budget name v) (w'.memberOf budget name (v.shift π)) := by
  have part := fun u hu hp => (hv hp).of_mem_parts (p := u) hu
  cases v
  case instanceOf c =>
    simp only [Value.shift, World.memberOf]
    split
    · exact (kin_fixed (by simp)).agrees
    · split
      · exact (kin_fixed (by simp)).agrees
      · exact h.classMember hs budget c name
  case classRef c =>
    simp only [Value.shift, World.memberOf]
    split
    · exact (kin_fixed (by simp [ofType])).agrees
    · split
      · exact (kin_fixed (by simp)).agrees
      · exact h.classMember hs budget c name
  case moduleRef m =>
    simp only [Value.shift, World.memberOf, h.store.module, h.store.valueIn (h.store.inModule m name)]
    exact (kin_shift fun hp => (hs hp).valueIn _ _).agrees
  case packageRef q => exact (h.packageMember hs q name).agrees
  case functionRef f => exact (h.functionMember f name).agrees
  case external path | externalInstance path => exact (h.kin_externalMember path name).agrees
  case super serial bases =>
    simp only [Value.shift, World.memberOf, shiftAll_eq_map]
    exact agrees_firstOutcome fun b _ => h.baseMember hs budget name b
  case property serial g s d =>
    refine Kin.agrees ?_
    split
    · exact kin_shift fun hp => sound_methodOf (hv hp)
    · split
      · exact kin_shift (part g (by simp [parts]))
      · split
        · exact kin_shift (part s (by simp [parts]))
        · split
          · exact kin_shift (part d (by simp [parts]))
          · exact kin_empty
  case builtin b =>
    cases b with
    | type t =>
      refine (kin_fixed fun _ => ?_).agrees
      split
      · simp [ofText]
      · split <;> simp
    | function f => exact (Native.kin_member π hv name).agrees
  case synthetic t => exact (h.syntheticMember hs name t).agrees
  all_goals exact (Native.kin_member π hv name).agrees

/-- **Members of kindred values are kindred.** -/
theorem member (budget : Nat) (hv : v.SoundIf p w.serial) (name : String) :
    Agrees π p w.serial (w.member budget v name) (w'.member budget (v.shift π) name) := by
  unfold World.member
  refine h.check ?_
  cases budget with
  | zero => exact kin_empty.agrees
  | succ budget => exact agrees_overDisjuncts hv fun d hd => h.memberOf hs budget name hd

end Reads

end World

/-! ## Calls, elements and subscripts -/

/-- Queries that answer, and answer kindred values with kindred values. -/
structure Queries.Answering (π : Shift) (p : Prop) (n : Nat) (q q' : Queries) : Prop where
  member : ∀ {v : Value} (name), v.SoundIf p n → Agrees π p n (q.member v name) (q'.member (v.shift π) name)
  classMember : ∀ c name, Agrees π p n (q.classMember c name) (q'.classMember c name)
  call : ∀ {callee : Value} {a : Args}, callee.SoundIf p n → (p → a.Sound n) →
    Agrees π p n (q.call callee a) (q'.call (callee.shift π) (a.shift π))
  elem : ∀ {v : Value}, v.SoundIf p n → Agrees π p n (q.elem v) (q'.elem (v.shift π))
  index : ∀ {v k : Value}, v.SoundIf p n → k.SoundIf p n →
    Agrees π p n (q.index v k) (q'.index (v.shift π) (k.shift π))

namespace Queries

/-! ### Methods of builtin types -/

section Methods

variable {π : Shift} {p : Prop} {n : Nat} {args : Args} {e : Value} (name : String)

/-- What methods of strings and numbers give does not depend on anything. -/
theorem sound_callAtom : (callStr name).Sound n ∧ (callBytes name).Sound n ∧ (callNumber name).Sound n ∧
    (callFloat name).Sound n ∧ (callObject name).Sound n := by
  unfold callStr callBytes callNumber callFloat callObject
  refine ⟨?_, ?_, ?_, ?_, ?_⟩
  all_goals
    repeat' refine sound_ite ?_ ?_
    all_goals simp

theorem kin_callList (he : (list e).SoundIf p n) : Kin π p n (callList e name) (callList (e.shift π) name) := by
  have hpart : e.SoundIf p n := fun hp => (he hp).of_mem_parts (by simp [parts])
  unfold callList
  exact kin_ite (kin_shift he) (kin_ite (kin_fixed (by simp)) (kin_ite (kin_shift hpart) (kin_fixed (by simp))))

theorem kin_callGenerator (he : (generator e).SoundIf p n) :
    Kin π p n (callGenerator e name) (callGenerator (e.shift π) name) := by
  have hpart : e.SoundIf p n := fun hp => (he hp).of_mem_parts (by simp [parts])
  unfold callGenerator
  exact kin_ite (kin_fixed (by simp)) (kin_ite (kin_shift he) (kin_shift hpart))

variable (ha : p → args.Sound n)

include ha

theorem kin_get (i : Nat) : Kin π p n (args.get i) ((args.shift π).get i) :=
  ⟨args.get_shift π i, fun hp => (ha hp).get i⟩

theorem kin_callDict {k v : Value} (hd : (dict k v).SoundIf p n) :
    Kin π p n (callDict k v name args) (callDict (k.shift π) (v.shift π) name (args.shift π)) := by
  have hk : Kin π p n k (k.shift π) := kin_shift fun hp => (hd hp).of_mem_parts (by simp [parts])
  have hv : Kin π p n v (v.shift π) := kin_shift fun hp => (hd hp).of_mem_parts (by simp [parts])
  have hdefault : Kin π p n ((args.positional[1]?).getD .null) (((args.shift π).positional[1]?).getD .null) := by
    rw [Args.positional_shift, List.getElem?_map]
    cases hsecond : args.positional[1]? with
    | none => exact kin_fixed (by simp)
    | some u => exact kin_shift fun hp => (ha hp).positional u (List.mem_of_getElem? hsecond)
  have hpair : Kin π p n (.tupleOf [k, v]) (.tupleOf [k.shift π, v.shift π]) :=
    ⟨by simp, fun hp => by simp [hk.sound hp, hv.sound hp]⟩
  unfold callDict
  split
  · exact hv.unite hdefault
  · exact hpair.listOf
  · exact hk.listOf
  · exact hv.listOf
  · exact hv.unite (kin_get ha 1)
  · exact hv.unite (kin_get ha 1)
  · exact hpair
  · exact kin_shift hd
  · exact kin_shift hd
  · exact kin_fixed (by simp)

theorem kin_callProperty {serial : Option Nat} {g s d : Value} (hv : (property serial g s d).SoundIf p n) :
    Kin π p n (callProperty g s d name args)
      (callProperty (g.shift π) (s.shift π) (d.shift π) name (args.shift π)) := by
  have part := fun u hu hp => (hv hp).of_mem_parts (p := u) hu
  simp only [parts, List.mem_cons, List.not_mem_nil, or_false, forall_eq_or_imp, forall_eq] at part
  obtain ⟨hg, hs, hd⟩ := part
  have hfirst := fun hp => (ha hp).get 0
  unfold callProperty
  rw [Args.get_shift]
  split
  · exact ⟨by simp, fun hp => sound_propertyOf (hg hp) (hfirst hp) (hd hp)⟩
  · exact ⟨by simp, fun hp => sound_propertyOf (hfirst hp) (hs hp) (hd hp)⟩
  · exact ⟨by simp, fun hp => sound_propertyOf (hg hp) (hs hp) (hfirst hp)⟩
  · exact kin_empty

end Methods

theorem kin_callKwargs {π : Shift} {p : Prop} {args : Args} {s s' : Store} (h : s.Reads π s') (hs : p → s.Sound)
    (ha : p → args.Sound s.nextSerial) (dict : KwargsId) (name : String) :
    Kin π p s.nextSerial (callKwargs s dict name args) (callKwargs s' dict name (args.shift π)) := by
  have hvalues : Kin π p s.nextSerial (s.kwargsValues dict) (s'.kwargsValues dict) :=
    ⟨h.kwargsValues dict, fun hp => (hs hp).kwargsValues dict⟩
  have hfound : ∀ key, Kin π p s.nextSerial (((s.kwargsOf dict).get? key).getD .empty)
      (((s'.kwargsOf dict).get? key).getD .empty) := fun key =>
    ⟨by rw [h.kwargsOf, OrderedMap.getD_get?_shift], fun hp => (hs hp).kwarg dict key⟩
  have hpair : Kin π p s.nextSerial (.tupleOf [.str none, s.kwargsValues dict])
      (.tupleOf [.str none, s'.kwargsValues dict]) :=
    ⟨by simp [hvalues.same, Value.shift], fun hp => by simp [hvalues.sound hp]⟩
  unfold callKwargs
  dsimp only
  split
  · rw [Args.get_shift, text?_shift]
    split
    · exact (hfound _).unite (kin_get ha 1)
    · exact hvalues.unite (kin_get ha 1)
  · exact hpair.listOf
  · exact kin_fixed (by simp)
  · exact hvalues.listOf
  · exact hvalues.unite (kin_get ha 1)
  · exact hvalues.unite (kin_get ha 1)
  · exact hpair
  · exact kin_fixed (by simp)
  · exact kin_fixed (by simp)

end Queries

namespace Queries.Answering

variable {π : Shift} {p : Prop} {n : Nat} {q q' : Queries} (h : q.Answering π p n q') {args : Args} {e : Value}

include h

theorem callSet (he : (set e).SoundIf p n) (name : String) (ha : p → args.Sound n) :
    Agrees π p n (q.callSet e name args) (q'.callSet (e.shift π) name (args.shift π)) := by
  unfold Queries.callSet
  rw [Args.get_shift]
  split
  · exact (kin_fixed (by simp)).agrees
  · split
    · exact (kin_shift fun hp => (he hp).of_mem_parts (by simp [parts])).agrees
    · split
      · exact (kin_shift he).agrees
      · split
        · refine (h.elem fun hp => (ha hp).get 0).bind fun v hv => ?_
          exact ((kin_shift he).unite ⟨by simp, fun hp => sound_setOf (hv hp)⟩).agrees
        · exact (kin_fixed (by simp)).agrees

theorem callMethod {s s' : Store} (hreads : s.Reads π s') (hs : p → s.Sound) (hn : n = s.nextSerial) {receiver : Value}
    (hr : receiver.SoundIf p n) (name : String) (ha : p → args.Sound n) :
    Agrees π p n (q.callMethod s receiver name args) (q'.callMethod s' (receiver.shift π) name (args.shift π)) := by
  have hatom := fun m => sound_callAtom (n := m) name
  cases receiver
  case classRef c =>
    simp only [Value.shift, Queries.callMethod, hreads.subclassesOf]
    refine (kin_fixed fun _ => sound_ite (sound_listOf (sound_unite ?_)) sound_empty).agrees
    exact List.forall_mem_map.mpr fun c _ => by simp
  case str => exact (kin_fixed fun m => (hatom m).1).agrees
  case bytes => exact (kin_fixed fun m => (hatom m).2.1).agrees
  case int | bool => exact (kin_fixed fun m => (hatom m).2.2.1).agrees
  case float => exact (kin_fixed fun m => (hatom m).2.2.2.1).agrees
  case object => exact (kin_fixed fun m => (hatom m).2.2.2.2).agrees
  case list e => exact (kin_callList name hr).agrees
  case dict k v => exact (kin_callDict name ha hr).agrees
  case kwargs dict =>
    subst hn
    exact (kin_callKwargs hreads hs ha dict name).agrees
  case set e => exact h.callSet hr name ha
  case property serial g s d => exact (kin_callProperty name ha hr).agrees
  case generator e => exact (kin_callGenerator name hr).agrees
  case tuple | complex => exact (kin_fixed (by simp)).agrees
  all_goals exact kin_empty.agrees

variable (ha : p → args.Sound n)

include ha

theorem dictOfArg : Agrees π p n (q.dictOfArg args) (q'.dictOfArg (args.shift π)) := by
  have hfirst := fun hp => (ha hp).get 0
  have hitem : ∀ (i : Int) {pair : Value}, pair.SoundIf p n →
      Agrees π p n (q.index pair (.ofInt i)) (q'.index (pair.shift π) (.ofInt i)) := by
    intro i pair hpair
    have hindex := h.index hpair fun _ => sound_ofInt i
    rwa [shift_ofInt] at hindex
  have hpairs : Agrees π p n (if args.positional.isEmpty then return .empty
        else do
          let pair ← q.elem (args.get 0)
          let key ← q.index pair (.ofInt 0)
          let value ← q.index pair (.ofInt 1)
          return .dictOf key value)
      (if (args.shift π).positional.isEmpty then return .empty
        else do
          let pair ← q'.elem ((args.get 0).shift π)
          let key ← q'.index pair (.ofInt 0)
          let value ← q'.index pair (.ofInt 1)
          return .dictOf key value) := by
    rw [Args.positional_shift, List.isEmpty_map]
    split
    · exact kin_empty.agrees
    · refine (h.elem hfirst).bind fun pair hpair => (hitem 0 hpair).bind fun key hkey => ?_
      refine (hitem 1 hpair).bind fun value hvalue => ?_
      exact agree_pure (by simp) fun hp => sound_dictOf (hkey hp) (hvalue hp)
  unfold Queries.dictOfArg
  rw [Args.get_shift]
  generalize args.get 0 = first at hfirst hpairs
  cases first
  case dict k v => exact (kin_shift hfirst).agrees
  all_goals exact hpairs

theorem construct (t : BuiltinType) : Agrees π p n (q.construct t args) (q'.construct t (args.shift π)) := by
  have hfirst := fun hp => (ha hp).get 0
  have helem := h.elem hfirst
  cases t <;> simp only [Queries.construct, Args.get_shift, Args.positional_shift, List.isEmpty_map, List.length_map]
  case type =>
    rw [Native.typeOf_shift]
    refine (kin_fixed fun _ => ?_).agrees
    split <;> simp [ofType]
  case list | set =>
    split
    · exact (kin_fixed (by simp)).agrees
    · exact helem.bind fun e he => agree_pure (by simp) fun hp => by simp [he hp]
  case tuple =>
    have hone : Agrees π p n
        (if args.positional.isEmpty then return .tupleOf [] else return .tupleOf [← q.elem (args.get 0)])
        (if args.positional.isEmpty then return .tupleOf []
          else return .tupleOf [← q'.elem ((args.get 0).shift π)]) := by
      split
      · exact (kin_fixed (by simp)).agrees
      · exact helem.bind fun e he => agree_pure (by simp) fun hp => by simp [he hp]
    generalize args.get 0 = first at hfirst hone
    cases first
    case tuple serial items => exact (kin_shift hfirst).agrees
    all_goals exact hone
  case dict =>
    have hnamed : Kin π p n
        (if args.keywords.isEmpty then .empty
          else .dictOf (.str none) (.unite (args.keywords.map fun entry => entry.2.widen)))
        (if (args.shift π).keywords.isEmpty then .empty
          else .dictOf (.str none) (.unite ((args.shift π).keywords.map fun entry => entry.2.widen))) := by
      have hempty : (args.shift π).keywords.isEmpty = args.keywords.isEmpty := by simp [shiftEntries]
      rw [hempty]
      refine kin_ite kin_empty
        ⟨by simp [shiftEntries, Function.comp_def, Value.shift], fun hp => sound_dictOf (by simp) ?_⟩
      exact sound_unite (List.forall_mem_map.mpr fun entry he => sound_widen ((ha hp).keywords entry he))
    refine (h.dictOfArg ha).bind fun made hmade => ?_
    have hboth := (kin_shift (π := π) hmade).unite hnamed
    refine Kin.agrees ?_
    rw [hboth.same, isEmpty_shift]
    exact kin_ite (kin_fixed (by simp)) (kin_shift hboth.sound)
  case property =>
    exact agree_pure (by simp) fun hp => sound_propertyOf ((ha hp).arg _ _) ((ha hp).arg _ _) ((ha hp).arg _ _)
  case super => exact kin_empty.agrees
  all_goals exact (kin_fixed fun _ => Native.sound_anInstance _).agrees

omit ha in
theorem elemAll {vs : List Value} (hvs : p → ∀ v ∈ vs, v.Sound n) :
    Agree (List.map (Value.shift π)) (fun es => p → ∀ e ∈ es, e.Sound n) (vs.mapM q.elem)
      ((vs.map (Value.shift π)).mapM q'.elem) := by
  obtain ⟨hensures, hsame⟩ := agree_mapM fun v hv => h.elem fun hp => hvs hp v hv
  exact ⟨hensures.imp fun _ hes hp e he => hes e he hp, hsame⟩

theorem callFunction (f : BuiltinFunction) :
    Agrees π p n (q.callFunction f args) (q'.callFunction f (args.shift π)) := by
  have hfirst := fun hp => (ha hp).get 0
  have helem := h.elem hfirst
  have hdefault : Kin π p n ((args.keyword? "default").getD .empty)
      (((args.shift π).keyword? "default").getD .empty) := by
    refine ⟨?_, fun hp => (ha hp).keyword "default"⟩
    rw [Args.keyword?_shift]
    cases args.keyword? "default" <;> rfl
  cases f <;> simp only [Queries.callFunction, Args.get_shift]
  case enumerate | sorted | reversed | iter =>
    exact helem.bind fun e he => agree_pure (by simp [Value.shift]) fun hp => by simp [he hp]
  case zip =>
    exact (h.elemAll fun hp => (ha hp).positional).bind fun es hes =>
      agree_pure (by simp) fun hp => sound_listOf (sound_tupleOf (hes hp))
  case next => exact helem.bind fun e he => ((kin_shift he).unite (kin_shift fun hp => (ha hp).get 1)).agrees
  case min | max =>
    rw [Args.positional_shift, List.length_map]
    split
    · exact helem.bind fun e he => ((kin_shift he).unite hdefault).agrees
    · exact (Kin.unite ⟨(shift_unite π _).symm, fun hp => sound_unite (ha hp).positional⟩ hdefault).agrees
  case sum =>
    refine helem.bind fun e he => Kin.agrees ?_
    rw [← shift_widen, isEmpty_shift]
    exact kin_ite (kin_fixed (by simp)) (kin_shift fun hp => sound_widen (he hp))
  case map =>
    rw [Args.positional_shift, ← List.map_drop]
    refine (h.elemAll fun hp v hv => (ha hp).positional v (List.mem_of_mem_drop hv)).bind fun es hes => ?_
    exact (h.call hfirst fun hp => Args.sound_ofPositional (hes hp)).bind fun r hr => (kin_shift hr).listOf.agrees
  case filter => exact (h.elem fun hp => (ha hp).get 1).bind fun e he => (kin_shift he).listOf.agrees
  case getattr =>
    have hlast : Kin π p n (args.get 2) ((args.get 2).shift π) := kin_shift fun hp => (ha hp).get 2
    rw [text?_shift]
    split
    · exact (h.member _ hfirst).bind fun v hv => ((kin_shift hv).unite hlast).agrees
    · exact (kin_empty.unite hlast).agrees
  all_goals exact (kin_fixed (by simp)).agrees

end Queries.Answering

namespace World

variable {w w' : World} {p : Prop} {π : Shift} {n : Nat} {v : Value}

@[simp] theorem sound_ormCall (model : ClassId) (name : String) : (Orm.callMethod model name).Sound n := by
  unfold Orm.callMethod
  refine sound_ite (by simp) (sound_ite (by simp) ?_)
  split <;> simp

theorem sound_syntheticCall (t : Synthetic) : t.call.Sound n := by
  unfold Synthetic.call
  split <;> simp

theorem sound_syntheticElem (t : Synthetic) : t.elem.Sound n := by
  unfold Synthetic.elem
  split <;> simp

theorem sound_callExternal (path : String) : (w.callExternal path).Sound n := by
  unfold callExternal
  split
  · exact sound_externalInstance path
  · split <;> simp
  · exact sound_empty

theorem kin_indexTuple {items : List Value} (hitems : p → ∀ u ∈ items, u.Sound n) (key : Value) :
    Kin π p n (indexTuple items key) (indexTuple (items.map (shift π)) (key.shift π)) := by
  have hall : Kin π p n (unite items) (unite (items.map (shift π))) :=
    ⟨(shift_unite π items).symm, fun hp => sound_unite (hitems hp)⟩
  unfold indexTuple
  rw [int?_shift]
  split
  · next i _ =>
    rw [List.length_map, List.getElem?_map]
    refine kin_ite ?_ hall
    cases hitem : items[i.toNat]? with
    | none => exact kin_empty
    | some u => exact kin_shift fun hp => hitems hp u (List.mem_of_getElem? hitem)
  · exact hall

namespace Reads

variable (h : w.Reads π w') (hs : p → w.store.Sound) {q q' : Queries} (hq : q.Answering π p w.serial q')
  {args : Args}

include h hs

theorem indexKwargs (dict : KwargsId) (key : Value) :
    Kin π p w.serial (w.indexKwargs dict key) (w'.indexKwargs dict (key.shift π)) := by
  rw [World.indexKwargs, World.indexKwargs, text?_shift]
  split
  · exact ⟨by rw [h.store.kwargsOf, OrderedMap.getD_get?_shift], fun hp => (hs hp).kwarg dict _⟩
  · exact ⟨h.store.kwargsValues dict, fun hp => (hs hp).kwargsValues dict⟩

include hq

omit hs in
theorem callExternalMember (path name : String) (ha : p → args.Sound w.serial) :
    Agrees π p w.serial (q.call (w.externalMember path name) args)
      (q'.call (w'.externalMember path name) (args.shift π)) := by
  obtain ⟨hsame, hsound⟩ := h.kin_externalMember (p := p) (n := w.serial) path name
  rw [hsame]
  exact hq.call hsound ha

theorem callOne (ha : p → args.Sound w.serial) (hv : v.SoundIf p w.serial) :
    Agrees π p w.serial (w.callOne q args v) (w'.callOne q' (args.shift π) (v.shift π)) := by
  cases v
  case functionRef f =>
    simp only [Value.shift, World.callOne, h.store.function, h.store.value]
    exact (kin_shift fun hp => (hs hp).value _).agrees
  case classRef c => exact (kin_fixed (by simp)).agrees
  case builtin b =>
    cases b with
    | type t => exact hq.construct ha t
    | function f => exact hq.callFunction ha f
  case method serial receiver name =>
    exact hq.callMethod h.store hs rfl (fun hp => (hv hp).of_mem_parts (by simp [parts])) name ha
  case external path =>
    refine Kin.agrees ?_
    have hsame : w'.callExternal path = w.callExternal path := by rw [World.callExternal, World.callExternal, h.graph]
    rw [hsame]
    exact kin_fixed fun _ => sound_callExternal path
  case instanceOf c => exact (hq.classMember c _).bind fun m hm => hq.call hm ha
  case externalInstance path => exact h.callExternalMember hq path _ ha
  case synthetic t => exact (kin_fixed fun _ => sound_syntheticCall t).agrees
  all_goals exact kin_empty.agrees

theorem indexOne {key : Value} (hk : key.SoundIf p w.serial) (hv : v.SoundIf p w.serial) :
    Agrees π p w.serial (w.indexOne q key v) (w'.indexOne q' (key.shift π) (v.shift π)) := by
  have hargs : p → (Args.ofPositional [key]).Sound w.serial := fun hp =>
    Args.sound_ofPositional (by simpa using hk hp)
  cases v
  case str | bytes => exact (kin_fixed (by simp)).agrees
  case list | dict => exact (kin_shift fun hp => (hv hp).of_mem_parts (by simp [parts])).agrees
  case tuple serial items =>
    rw [Value.shift, shiftAll_eq_map]
    exact (kin_indexTuple (fun hp u hu => (hv hp).of_mem_parts hu) key).agrees
  case kwargs dict => exact (h.indexKwargs hs dict key).agrees
  case instanceOf c => exact (hq.classMember c _).bind fun m hm => hq.call hm hargs
  case externalInstance path => exact h.callExternalMember hq path _ hargs
  case synthetic t => exact (kin_fixed fun _ => sound_syntheticElem t).agrees
  all_goals exact kin_empty.agrees

omit h hs in
theorem iterateInstance (c : ClassId) : Agrees π p w.serial (iterateInstance q c) (iterateInstance q' c) := by
  refine (hq.classMember c _).bind fun m hm => (hq.call hm fun _ => Args.sound_none).bind fun iterator hiterator => ?_
  refine agrees_overDisjuncts hiterator fun d hd => ?_
  cases d
  case instanceOf inner => exact (hq.classMember inner _).bind fun m hm => hq.call hm fun _ => Args.sound_none
  all_goals exact hq.elem hd

omit hs in
theorem elemOne (hv : v.SoundIf p w.serial) :
    Agrees π p w.serial (w.elemOne q v) (w'.elemOne q' (v.shift π)) := by
  cases v
  case list e | set e | generator e | dict e _ =>
    exact (kin_shift fun hp => (hv hp).of_mem_parts (by simp [parts])).agrees
  case tuple serial items =>
    simp only [Value.shift, World.elemOne, shiftAll_eq_map]
    exact agree_pure (shift_unite π items).symm fun hp => sound_unite fun _ hu => (hv hp).of_mem_parts hu
  case str | kwargs | bytes => exact (kin_fixed (by simp)).agrees
  case instanceOf c => exact iterateInstance hq c
  case externalInstance path =>
    refine (h.callExternalMember hq path _ fun _ => Args.sound_none).bind fun iterator hiterator => ?_
    exact (hq.member _ hiterator).bind fun m hm => hq.call hm fun _ => Args.sound_none
  case synthetic t => exact (kin_fixed fun _ => sound_syntheticElem t).agrees
  all_goals exact kin_empty.agrees

omit hq

/-- **At every budget the queries answer, and answer kindred values with kindred values.** -/
theorem queries (budget : Nat) : (w.queries budget).Answering π p w.serial (w'.queries budget) := by
  induction budget with
  | zero =>
    have hnothing := h.check (kin_empty (π := π) (p := p) (n := w.serial)).agrees
    exact ⟨fun name hv => h.member hs 0 hv name, h.classMember hs 0, fun _ _ => hnothing, fun _ => hnothing,
      fun _ _ => hnothing⟩
  | succ budget ih =>
    exact ⟨fun name hv => h.member hs (budget + 1) hv name, h.classMember hs (budget + 1),
      fun hc ha => h.check (agrees_overDisjuncts hc fun _ hd => h.callOne hs ih ha hd),
      fun hv => h.check (agrees_overDisjuncts hv fun _ hd => h.elemOne ih hd),
      fun hv hk => h.check (agrees_overDisjuncts hv fun _ hd => h.indexOne hs ih hk hd)⟩

theorem slice (budget : Nat) (hv : v.SoundIf p w.serial) :
    Agrees π p w.serial (w.slice budget v) (w'.slice budget (v.shift π)) := by
  refine agrees_overDisjuncts hv fun d hd => ?_
  have hobject : ∀ m, object.Sound m := by simp
  cases d
  case str | bytes => exact (kin_fixed (by simp)).agrees
  case list | tuple => exact (kin_shift hd).agrees
  case instanceOf | externalInstance => exact (h.queries hs budget).index hd fun _ => hobject _
  all_goals exact kin_empty.agrees

end Reads

/-! ## Single queries -/

section Sound

variable (hs : w.store.Sound) (budget : Nat)

include hs

theorem ensures_member (hv : v.Sound w.serial) (name : String) :
    Ensures (w.member budget v name) (Sound w.serial) :=
  ((Reads.refl w).member (fun _ => hs) budget (fun _ => hv) name).ensures.sound

theorem ensures_call {callee : Value} {args : Args} (hc : callee.Sound w.serial)
    (ha : args.Sound w.serial) : Ensures (w.call budget callee args) (Sound w.serial) :=
  (((Reads.refl w).queries (fun _ => hs) budget).call (fun _ => hc) fun _ => ha).ensures.sound

theorem ensures_elem (hv : v.Sound w.serial) : Ensures (w.elem budget v) (Sound w.serial) :=
  (((Reads.refl w).queries (fun _ => hs) budget).elem fun _ => hv).ensures.sound

theorem ensures_index {key : Value} (hv : v.Sound w.serial) (hk : key.Sound w.serial) :
    Ensures (w.index budget v key) (Sound w.serial) :=
  (((Reads.refl w).queries (fun _ => hs) budget).index (fun _ => hv) fun _ => hk).ensures.sound

theorem ensures_slice (hv : v.Sound w.serial) : Ensures (w.slice budget v) (Sound w.serial) :=
  ((Reads.refl w).slice (fun _ => hs) budget fun _ => hv).ensures.sound

end Sound

section Answers

variable (w) (budget : Nat) (v : Value)

theorem answers_member (name : String) : Answers (w.member budget v name) :=
  ((Reads.refl w).member False.elim budget False.elim name).ensures.answers

theorem answers_call (args : Args) : Answers (w.call budget v args) :=
  (((Reads.refl w).queries False.elim budget).call False.elim (a := args) False.elim).ensures.answers

theorem answers_elem : Answers (w.elem budget v) :=
  (((Reads.refl w).queries False.elim budget).elem False.elim).ensures.answers

theorem answers_index (key : Value) : Answers (w.index budget v key) :=
  (((Reads.refl w).queries False.elim budget).index False.elim (k := key) False.elim).ensures.answers

theorem answers_slice : Answers (w.slice budget v) :=
  ((Reads.refl w).slice False.elim budget False.elim).ensures.answers

theorem answers_dir : Answers (w.dir v) := Ensures.check (ensures_pure trivial)

end Answers

end World

end Surmise
