import Surmise.Proofs.Reached

/-!
# Values stay well formed

Every place that makes a value makes a well-formed one: the constructors, the joins and the queries give
well-formed values when they are given such. So no state of an assembler holds any other value, and
neither does any state that a build passes through.
-/

namespace Surmise

/-- Every value that the store keeps is well formed: those of symbols, of the bases of classes, and of the
entries of keyword dictionaries. -/
structure Store.WellFormed (s : Store) : Prop where
  symbols : ∀ id, (s.value id).WellFormed
  bases : ∀ c, ∀ b ∈ (s.classOf c).bases, b.WellFormed
  kwargs : ∀ dict, ∀ v ∈ (s.kwargsOf dict).values, v.WellFormed

theorem Store.Sound.wellFormed {s : Store} (h : s.Sound) : s.WellFormed where
  symbols id := (h.value id).wellFormed
  bases c b hb := (h.bases c b hb).wellFormed
  kwargs dict v hv := (h.kwargs dict v hv).1.wellFormed

/-- What values are made by gives values that satisfy `P` when it is given such values. -/
structure Value.MadeWithin (P : Value → Prop) : Prop where
  atom : ∀ v : Value, v.isAtom = true → P v
  int : ∀ n, P (.ofInt n)
  list : ∀ e, P e → P (.listOf e)
  set : ∀ e, P e → P (.setOf e)
  generator : ∀ e, P e → P (.generatorOf e)
  dict : ∀ k v, P k → P v → P (.dictOf k v)
  tuple : ∀ items, (∀ v ∈ items, P v) → P (.tupleOf items)
  method : ∀ receiver name, P receiver → P (.methodOf receiver name)
  property : ∀ g s d, P g → P s → P d → P (.propertyOf g s d)
  unite : ∀ vs, (∀ v ∈ vs, P v) → P (.unite vs)
  widen : ∀ v : Value, P v → P v.widen

theorem Value.madeWithin_wellFormed : MadeWithin WellFormed where
  atom _ h := wellFormed_of_isAtom h
  int n := wellFormed_ofInt n
  list _ h := wellFormed_listOf h
  set _ h := (formed_setOf (fun _ _ => trivial) h.formed).wellFormed
  generator _ h := (formed_generatorOf (fun _ _ => trivial) h.formed).wellFormed
  dict _ _ hk hv := (formed_dictOf (fun _ _ => trivial) hk.formed hv.formed).wellFormed
  tuple _ h := (formed_tupleOf (fun _ _ => trivial) fun v hv => (h v hv).formed).wellFormed
  method _ _ h := (formed_methodOf (fun _ _ => trivial) h.formed).wellFormed
  property _ _ _ hg hs hd := (formed_propertyOf (fun _ _ => trivial) hg.formed hs.formed hd.formed).wellFormed
  unite _ h := wellFormed_unite h
  widen _ h := (formed_widen (fun _ _ => trivial) h.formed).wellFormed

/--
The queries, asked in a state of an analysis about well-formed values, give well-formed values or are
cancelled. The values that can be asked about have no serial numbers that are yet to be given.
-/
structure Session.AnswersWellFormed (σ : Setting) (s : Session) : Prop where
  member : ∀ cancelled budget v name, v.Sound s.store.nextSerial →
    Ensures (World.member ⟨σ.graph, s.store, cancelled⟩ budget v name) Value.WellFormed
  call : ∀ cancelled budget callee args, callee.Sound s.store.nextSerial → args.Sound s.store.nextSerial →
    Ensures (World.call ⟨σ.graph, s.store, cancelled⟩ budget callee args) Value.WellFormed
  index : ∀ cancelled budget v key, v.Sound s.store.nextSerial → key.Sound s.store.nextSerial →
    Ensures (World.index ⟨σ.graph, s.store, cancelled⟩ budget v key) Value.WellFormed
  slice : ∀ cancelled budget v, v.Sound s.store.nextSerial →
    Ensures (World.slice ⟨σ.graph, s.store, cancelled⟩ budget v) Value.WellFormed
  elem : ∀ cancelled budget v, v.Sound s.store.nextSerial →
    Ensures (World.elem ⟨σ.graph, s.store, cancelled⟩ budget v) Value.WellFormed
  setIndex : ∀ base key v, base.Sound s.store.nextSerial → key.Sound s.store.nextSerial →
    v.Sound s.store.nextSerial → (StoreM.setIndex base key v s.store).1.WellFormed

theorem Session.Inv.answersWellFormed {σ : Setting} {s : Session} (h : s.Inv σ) : AnswersWellFormed σ s := by
  have hs := h.consistent.sound
  constructor
  case member => exact fun _ budget v name hv => (World.ensures_member hs budget hv name).imp fun _ => (·.wellFormed)
  case call => exact fun _ budget _ _ hc ha => (World.ensures_call hs budget hc ha).imp fun _ => (·.wellFormed)
  case index => exact fun _ budget _ _ hv hk => (World.ensures_index hs budget hv hk).imp fun _ => (·.wellFormed)
  case slice => exact fun _ budget _ hv => (World.ensures_slice hs budget hv).imp fun _ => (·.wellFormed)
  case elem => exact fun _ budget _ hv => (World.ensures_elem hs budget hv).imp fun _ => (·.wellFormed)
  case setIndex => exact fun _ _ _ hb hk hv => (StoreM.does_setIndex hb hk hv).2.wellFormed

namespace Assembler

open Session

/--
**Values stay well formed.** Every value of a state of an assembler is well formed, and so is every value of
each state that moves of the analysis lead to from there. A build, with any options and however it ends, is
made of such moves; for what makes values keeps them well formed.
-/
theorem Reached.values_wellFormed {a : Assembler} (h : a.Reached) (steps : Nat) (handle : CancelHandle) :
    Value.MadeWithin Value.WellFormed ∧
      (∀ s, Moves a.setting a.session s → s.store.WellFormed ∧ AnswersWellFormed a.setting s) ∧
      Moves a.setting a.session (a.perform (Run.build steps handle)).2.session := by
  refine ⟨Value.madeWithin_wellFormed, fun s hmoves => ?_, moves_build h.ordered.inv steps handle⟩
  have hinv := h.ordered.inv.afterMoves hmoves
  exact ⟨hinv.consistent.sound.wellFormed, hinv.answersWellFormed⟩

/-- An integer in so many lists. -/
def nestedList : Nat → Node
  | 0 => .literal (.int (some 2000))
  | depth + 1 => .list [nestedList depth]

/-- An assembler with a module that binds `x` to an integer in eight lists. -/
def ofNestedList : Assembler :=
  ofModule 3 [.assign [.ident "x"] (nestedList 8)]

set_option maxRecDepth 100000 in
/-- After a build the symbol of `x` holds lists that are nested six deep. -/
theorem values_wellFormed_ofNestedList :
    ((ofNestedList.perform (Run.build 20 .new)).2.session.store.value ⟨56⟩).depth = 6 ∧
      ((ofNestedList.perform (Run.build 20 .new)).2.session.store.value ⟨56⟩).WellFormed := by
  have hreached := Reached.build (reached_ofModule 3 [.assign [.ident "x"] (nestedList 8)]) 20 .new
  refine ⟨by decide +kernel, ?_⟩
  unfold ofNestedList
  generalize ((ofModule _ _).perform (Run.build 20 .new)).2 = built at hreached
  exact ((hreached.values_wellFormed 20 .new).2.1 _ .refl).1.symbols ⟨56⟩

end Assembler

end Surmise
