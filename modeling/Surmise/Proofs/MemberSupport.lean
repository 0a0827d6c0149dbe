import Surmise.Proofs.ExternalMembers
import Surmise.Proofs.MemberSearch
import Surmise.Proofs.Refinement

/-!
# Members that are supported

Whether an alternative supports a name is decided apart from what the name gives on it. The two agree but for some
members that are built in.

* `World.Overlooked`: what gives something for a name without supporting it.
* `World.members_are_supported`: the main statement.
* `World.refine_drops_builtin_type`: refinement drops an alternative that has the member.
-/

namespace Surmise

open Store Value

/-! ## Values that are not empty -/

variable {name : String}

theorem Store.isSome_get?_of_valueIn {s : Store} {t : TableId}
    (h : (s.valueIn t name).isEmpty = false) : (s.get? t name).isSome := by
  unfold valueIn at h
  split at h
  · next hid => rw [hid, Option.isSome_some]
  · cases h

theorem Store.contains_syntheticNames {s : Store} {x : Synthetic}
    (h : (s.syntheticMember name x).isEmpty = false) : (s.syntheticNames x).contains name = true := by
  rw [List.contains_iff_mem]
  cases x with
  | labelled label index =>
    unfold syntheticMember at h
    dsimp only at h
    split at h
    · next entry hfound =>
      have hkey : entry.1 = name := by simpa using List.find?_some hfound
      rw [← hkey]
      exact List.mem_map_of_mem (List.mem_of_find?_eq_some hfound)
    · cases h
  | orm role model =>
    have hlisted : (if name = "model" then classRef model
        else if Orm.methods.contains name then .synthetic (.orm (.method name) model) else .empty).isEmpty = false →
        name ∈ Orm.methods ++ ["model"] := by
      intro hsome
      rw [List.mem_append, List.mem_singleton]
      split at hsome
      · next hname => exact .inr hname
      · split at hsome
        · next hmethod => exact .inl (List.contains_iff_mem.mp hmethod)
        · cases hsome
    cases role with
    | method _ => cases h
    | _ => exact hlisted h

namespace World

variable {w : World} {c : ClassId} {name : String} {v : Value} {budget : Nat} {d : Value}

theorem isEmpty_foreignMember (w : World) (name : String) (base : Value) :
    (w.foreignMember name base).isEmpty = !w.foreignHas name base := by
  cases base with
  | external path => exact (Bool.not_not _).symm
  | builtin b =>
    cases b with
    | type t => exact Native.isEmpty_member t.anInstance name
    | function f => rfl
  | _ => rfl

/-- What a class provides counts as a member of the class. -/
theorem Provides.classHas (h : w.Provides c name v) (hv : v.isEmpty = false) : w.classHas c name = true := by
  obtain ⟨a, ha, hown | ⟨base, hbase, rfl⟩⟩ := h
  all_goals
    have hlineage := mem_lineage_iff.mpr ha
    rw [World.classHas, Bool.or_eq_true, List.any_eq_true, List.any_eq_true]
  · refine .inl ⟨a, hlineage, ?_⟩
    unfold ownMember? at hown
    dsimp only at hown
    split at hown
    · cases hown
    · next hsome => exact isSome_get?_of_valueIn (Bool.eq_false_iff.mpr hsome)
  · rw [isEmpty_foreignMember, Bool.not_eq_false'] at hv
    exact .inr ⟨a, hlineage, List.any_eq_true.mpr ⟨base, hbase, hv⟩⟩

theorem classHas_of_classMember (hopen : w.cancelled = false) (h : w.classMember budget c name = .ok v)
    (hv : v.isEmpty = false) : w.classHas c name = true := by
  obtain ⟨r, heq, hr⟩ := classMemberFrom_gives hopen name budget [] c
  rw [classMember, heq] at h
  cases h
  exact (hr.value hv).classHas hv

theorem supports_of_packageMember {p : PackageId} (h : (w.packageMember p name).isEmpty = false) :
    w.supports name (.packageRef p) = true := by
  unfold packageMember at h
  unfold supports
  dsimp only at h ⊢
  rw [Bool.or_eq_true]
  cases hinit : (w.store.package p).init with
  | none =>
    rw [hinit] at h
    exact .inl (isSome_get?_of_valueIn h)
  | some init =>
    rw [hinit] at h
    dsimp only at h
    split at h
    · exact .inl (isSome_get?_of_valueIn h)
    · exact .inr (isSome_get?_of_valueIn h)

theorem supports_of_functionMember {f : FunctionId} (h : (w.functionMember f name).isEmpty = false) :
    w.supports name (.functionRef f) = true := by
  unfold functionMember at h
  unfold supports
  split at h
  · grind
  · split at h
    · grind
    · split at h
      · grind
      · cases h

/-! ## All values -/

/--
The value may give something for the name that it does not support: a builtin type, a property and a `super` object
support nothing, and of what classes and their instances are given without a search only that counts which the class
or a base binds.
-/
def Overlooked (w : World) (name : String) : Value → Prop
  | .builtin (.type _) | .property .. | .super .. => True
  | .classRef c => name ∈ ["__mro__", "__subclasses__"] ∧ w.classHas c name = false
  | .instanceOf c => name ∈ ["__class__", "__dict__"] ∧ w.classHas c name = false
  | _ => False

/-- What is given without a search is supported unless it is overlooked, and so is what a search finds. -/
theorem classHas_iff_of_memberOf (hopen : w.cancelled = false) {first second : Value} {a b : String}
    (h : (if name = a then .ok first else if name = b then .ok second else w.classMember budget c name) = .ok v)
    (hv : v.isEmpty = false) :
    w.classHas c name = true ↔ ¬ (name ∈ [a, b] ∧ w.classHas c name = false) := by
  cases hhas : w.classHas c name with
  | true => exact iff_of_true rfl fun hoverlooked => Bool.false_ne_true hoverlooked.2.symm
  | false =>
    refine iff_of_false Bool.false_ne_true (not_not_intro ⟨?_, rfl⟩)
    split at h
    · next hname => exact List.mem_pair.mpr (.inl hname)
    · split at h
      · next hname => exact List.mem_pair.mpr (.inr hname)
      · cases hhas.symm.trans (classHas_of_classMember hopen h hv)

theorem supports_iff_of_native (hmember : w.memberOf budget name d = .ok (Native.member d name))
    (hsupports : w.supports name d = (Native.memberNames d).contains name) (hcovered : ¬ w.Overlooked name d)
    (h : w.memberOf budget name d = .ok v) (hv : v.isEmpty = false) :
    w.supports name d = true ↔ ¬ w.Overlooked name d := by
  cases hmember.symm.trans h
  rw [Native.isEmpty_member, Bool.not_eq_false', ← hsupports] at hv
  exact iff_of_true hv hcovered

/-- An alternative that gives something supports the name, unless it is overlooked. -/
theorem supports_iff_of_memberOf (hopen : w.cancelled = false) (hunion : d.isUnion = false)
    (h : w.memberOf budget name d = .ok v) (hv : v.isEmpty = false) :
    w.supports name d = true ↔ ¬ w.Overlooked name d := by
  cases d with
  | instanceOf c | classRef c =>
    unfold memberOf at h
    exact classHas_iff_of_memberOf hopen h hv
  | moduleRef m =>
    cases h
    exact iff_of_true (isSome_get?_of_valueIn hv) id
  | packageRef p =>
    cases h
    exact iff_of_true (supports_of_packageMember hv) id
  | functionRef f =>
    cases h
    exact iff_of_true (supports_of_functionMember hv) id
  | external path | externalInstance path =>
    cases h
    exact iff_of_true (by rw [supports, hv]; rfl) id
  | super | property => exact iff_of_false Bool.false_ne_true (not_not_intro trivial)
  | builtin b =>
    cases b with
    | type t => exact iff_of_false Bool.false_ne_true (not_not_intro trivial)
    | function f => exact supports_iff_of_native rfl rfl id h hv
  | synthetic x =>
    cases h
    exact iff_of_true (contains_syntheticNames hv) id
  | union alternatives => cases hunion
  | _ => exact supports_iff_of_native rfl rfl id h hv

theorem exists_firstOutcome {f : Value → Outcome} (h : ∀ v, ∃ found, f v = .ok found) (vs : List Value) :
    ∃ found, firstOutcome f vs = .ok found := by
  induction vs with
  | nil => exact ⟨_, rfl⟩
  | cons v rest ih =>
    obtain ⟨found, heq⟩ := h v
    rw [firstOutcome, heq]
    cases hempty : found.isEmpty with
    | true => exact ih.imp fun _ hrest => (if_pos hempty).trans hrest
    | false => exact ⟨found, if_neg (Bool.eq_false_iff.mp hempty)⟩

theorem exists_memberOf (hopen : w.cancelled = false) (budget : Nat) (name : String) (d : Value) :
    ∃ v, w.memberOf budget name d = .ok v := by
  have hclass : ∀ c, ∃ v, w.classMember budget c name = .ok v := by
    intro c
    obtain ⟨r, heq, -⟩ := classMemberFrom_gives hopen name budget [] c
    rw [classMember, heq]
    exact ⟨r.2, rfl⟩
  have hbase : ∀ v, ∃ found, w.baseMember budget name v = .ok found := by
    intro v
    unfold baseMember
    split
    · exact hclass _
    · exact ⟨_, rfl⟩
  cases d with
  | instanceOf c | classRef c =>
    unfold memberOf
    dsimp only
    split
    · exact ⟨_, rfl⟩
    · split
      · exact ⟨_, rfl⟩
      · exact hclass c
  | super serial bases => exact exists_firstOutcome hbase bases
  | builtin b => cases b <;> exact ⟨_, rfl⟩
  | _ => exact ⟨_, rfl⟩

/-- A query for a member of a single alternative gives what the alternative has, and nothing without a budget. -/
theorem exists_member (hopen : w.cancelled = false) (budget : Nat) (hunion : d.isUnion = false) (name : String) :
    ∃ v, w.member budget d name = .ok v ∧
      (v.isEmpty = false → ∃ left v', w.memberOf left name d = .ok v' ∧ v'.isEmpty = false) := by
  have hcheck : w.check = .ok () := by rw [check, hopen]; rfl
  unfold member
  rw [hcheck]
  cases budget with
  | zero => exact ⟨.empty, rfl, fun h => by cases h⟩
  | succ left =>
    obtain ⟨v', heq⟩ := exists_memberOf hopen left name d
    refine ⟨.unite [v'], ?_, fun hsome => ⟨left, v', heq, ?_⟩⟩
    · change uniteM d.disjuncts _ = _
      rw [disjuncts_of_isUnion hunion, uniteM, List.mapM_cons, heq]
      rfl
    · by_contra hempty
      rw [Bool.not_eq_false] at hempty
      rw [eq_empty_of_isEmpty hempty, unite_empty_cons] at hsome
      cases hsome

/-- An alternative that supports every name which tells the alternatives apart is among the best. -/
theorem mem_best_of_supports {alternatives : List Value} {names : Finset String} (hd : d ∈ alternatives)
    (h : ∀ name ∈ w.informative alternatives names, w.supports name d = true) : d ∈ w.best names alternatives := by
  refine mem_best.mpr ⟨hd, fun e _ => ?_⟩
  unfold merit
  rw [Finset.filter_true_of_mem h]
  exact Finset.card_filter_le _ _

/--
**A member that gives something is supported.** Whatever a single alternative is asked for, there is an answer, and
the name is supported or not. If the answer is not empty, it is supported exactly unless it is overlooked. So
refinement keeps an alternative that gives something for every name by which it is judged, if none is overlooked.
-/
theorem members_are_supported (graph : Graph) (s : Store) (budget : Nat) {d : Value} (hunion : d.isUnion = false) :
    (∀ name, ∃ v supported, member ⟨graph, s, false⟩ budget d name = .ok v ∧
      hasMember ⟨graph, s, false⟩ d name = .ok supported ∧
      (v.isEmpty = false → (supported = true ↔ ¬ Overlooked ⟨graph, s, false⟩ name d))) ∧
    ∀ alternatives names, d ∈ alternatives →
      (∀ name ∈ informative ⟨graph, s, false⟩ alternatives names, ¬ Overlooked ⟨graph, s, false⟩ name d ∧
        ∃ v, member ⟨graph, s, false⟩ budget d name = .ok v ∧ v.isEmpty = false) →
      d ∈ best ⟨graph, s, false⟩ names alternatives := by
  have hsupports : ∀ name, ∃ v, member ⟨graph, s, false⟩ budget d name = .ok v ∧ (v.isEmpty = false →
      (supports ⟨graph, s, false⟩ name d = true ↔ ¬ Overlooked ⟨graph, s, false⟩ name d)) := by
    intro name
    obtain ⟨v, heq, hmember⟩ := exists_member (w := ⟨graph, s, false⟩) rfl budget hunion name
    refine ⟨v, heq, fun hv => ?_⟩
    obtain ⟨left, v', heq', hv'⟩ := hmember hv
    exact supports_iff_of_memberOf rfl hunion heq' hv'
  refine ⟨fun name => ?_, fun alternatives names hd hgives => mem_best_of_supports hd fun name hname => ?_⟩
  · obtain ⟨v, heq, hiff⟩ := hsupports name
    exact ⟨v, _, heq, hasMember_eq_ok graph s d name, hiff⟩
  · obtain ⟨hcovered, v, heq, hv⟩ := hgives name hname
    obtain ⟨v', heq', hiff⟩ := hsupports name
    cases heq.symm.trans heq'
    exact (hiff hv).mpr hcovered

/-- A store with a single class, which binds the name for the dictionary of an instance as every class does. -/
def singleClass : Store :=
  { Store.empty with
    symbols := #[⟨"__dict__", ⟨⟨"/a.py"⟩, "C.__dict__"⟩, .empty, false⟩]
    tables := #[⟨⟨⟨"/a.py"⟩, "C"⟩, .ofList [("__dict__", ⟨0⟩)], none⟩]
    classes := #[⟨"C", ⟨0⟩, [], none⟩] }

/-- The dictionary of an instance is supported, because the class binds that name. -/
theorem members_are_supported_instance :
    (Value.instanceOf ⟨0⟩).isUnion = false ∧ ¬ Overlooked ⟨.empty, singleClass, false⟩ "__dict__" (.instanceOf ⟨0⟩) ∧
      ∃ v, member ⟨.empty, singleClass, false⟩ callLimit (.instanceOf ⟨0⟩) "__dict__" = .ok v ∧ v.isEmpty = false ∧
        hasMember ⟨.empty, singleClass, false⟩ (.instanceOf ⟨0⟩) "__dict__" = .ok true := by
  have hbound : ¬ Overlooked ⟨.empty, singleClass, false⟩ "__dict__" (.instanceOf ⟨0⟩) := by
    rintro ⟨-, hnone⟩
    have hhas : classHas ⟨.empty, singleClass, false⟩ ⟨0⟩ "__dict__" = true := rfl
    cases hhas.symm.trans hnone
  have hgives : member ⟨.empty, singleClass, false⟩ callLimit (.instanceOf ⟨0⟩) "__dict__" =
      .ok (.dictOf (.str none) .empty) := rfl
  obtain ⟨v, supported, heq, hhas, hiff⟩ :=
    (members_are_supported .empty singleClass callLimit (d := .instanceOf ⟨0⟩) rfl).1 "__dict__"
  obtain rfl := Except.ok.inj (hgives.symm.trans heq)
  refine ⟨rfl, hbound, _, hgives, rfl, ?_⟩
  rw [hhas, (hiff rfl).mpr hbound]

/-- A symbol that is a builtin type or an instance of it. -/
def typeOrInstance : Store :=
  { Store.empty with
    symbols := #[⟨"x", ⟨⟨"/a.py"⟩, "x"⟩, .union [.ofType .dict, .dict (.str none) (.int none)], false⟩] }

/-- **A builtin type that has the member is dropped**, because it does not count as supporting it. -/
theorem refine_drops_builtin_type :
    member ⟨.empty, typeOrInstance, false⟩ callLimit (.ofType .dict) "fromkeys" =
        .ok (.methodOf (.dictOf .empty .empty) "fromkeys") ∧
      hasMember ⟨.empty, typeOrInstance, false⟩ (.ofType .dict) "fromkeys" = .ok false ∧
      ∃ s', (refineSymbols .empty false (Recorder.ofEvents [.attr ⟨0⟩ "fromkeys"]).attrs 0).run typeOrInstance =
          (.ok 1, s') ∧ s'.value ⟨0⟩ = .dict (.str none) (.int none) :=
  ⟨rfl, rfl, _, rfl, rfl⟩

end World

end Surmise
