import Surmise.Proofs.MemberSupport

/-!
# Names that are listed

The names of the members of a value are listed apart from the decision which names an alternative of it supports. The
list follows tables, source bases, external bases and the tables of builtin types to their ends, and the decision stops
at the first of them that answers.

* `World.Declares`: what the names of an alternative come from, without the order in which they are collected.
* `World.mem_namesOf_iff`: the names of an alternative are those that it declares.
* `World.supports_of_declares`: an alternative supports what it declares.
* `World.listed_names_are_supported`: the main statement.
-/

namespace Surmise

open Traversal Store

/-! ## Keys -/

theorem Store.mem_names_iff {s : Store} {t : TableId} {name : String} : name ∈ s.names t ↔ (s.get? t name).isSome :=
  OrderedMap.mem_keys_iff

namespace Graph

variable {g : Graph} {path name : String}

theorem mem_children_iff : name ∈ g.children path ↔ (g.member? path name).isSome := by
  unfold children member?
  cases g.node? path with
  | none => simp
  | some node => exact OrderedMap.mem_keys_iff

/-- The paths that are searched for a member are those that can be reached through bases. -/
theorem mem_baseOrder_iff {p : String} : p ∈ g.baseOrder path ↔ Reaches g.basesOf path p := by
  obtain ⟨seen, hseen, hspread⟩ := g.exists_spread_baseOrder path
  rw [← hseen]
  exact hspread.mem_iff

end Graph

namespace World

variable {seen : List String} {names : List String} {c : ClassId} {p : PackageId}

/-! ## Lists without repetitions -/

/-- A name that is noted behind those that are noted already. -/
def noted (seen : List String) (name : String) : List String :=
  if seen.contains name then seen else seen ++ [name]

theorem mem_noted_iff {first name : String} : name ∈ noted seen first ↔ name ∈ seen ∨ name = first := by
  unfold noted
  split
  · next hfirst =>
    have hmem : first ∈ seen := List.contains_iff_mem.mp hfirst
    refine ⟨.inl, ?_⟩
    rintro (h | rfl)
    · exact h
    · exact hmem
  · rw [List.mem_append, List.mem_singleton]

theorem nodup_noted (h : seen.Nodup) (name : String) : (noted seen name).Nodup := by
  unfold noted
  split
  · exact h
  · next hname =>
    rw [← List.concat_eq_append]
    exact h.concat (by simpa using hname)

theorem nodup_distinct (names : List String) : (distinct names).Nodup := by
  show (names.foldl noted []).Nodup
  apply List.foldlRecOn
  · exact List.nodup_nil
  · intro seen hseen name _
    exact nodup_noted hseen name

theorem mem_foldl_noted_iff {name : String} :
    name ∈ names.foldl noted seen ↔ name ∈ seen ∨ name ∈ names := by
  induction names generalizing seen with
  | nil => simp
  | cons first rest ih => rw [List.foldl_cons, ih, mem_noted_iff, List.mem_cons, or_assoc]

theorem mem_distinct_iff {name : String} : name ∈ distinct names ↔ name ∈ names := by
  show name ∈ names.foldl noted [] ↔ _
  rw [mem_foldl_noted_iff, or_iff_right List.not_mem_nil]

/-! ## What an alternative declares -/

variable {w : World} {name : String} {d : Value}

/--
An alternative declares a name: a table of the object binds it, or one of a source class that can be reached through
bases, or a graph path that can be reached through bases has it as a member, or it is built in.
-/
def Declares (w : World) (name : String) : Value → Prop
  | .moduleRef m => (w.store.get? (w.store.module m).members name).isSome
  | .packageRef p =>
    (∃ init, (w.store.package p).init = some init ∧ (w.store.get? (w.store.module init).members name).isSome) ∨
      (w.store.get? (w.store.package p).entries name).isSome
  | .classRef c | .instanceOf c =>
    ∃ ancestor, Reaches w.store.sourceBases c ancestor ∧ (w.store.get? (w.store.classOf ancestor).members name).isSome
  | .external path | .externalInstance path => ∃ p, Reaches w.graph.basesOf path p ∧ (w.graph.member? p name).isSome
  | .synthetic x => name ∈ w.store.syntheticNames x
  | other => name ∈ Native.memberNames other

theorem mem_flatMap_lineage_iff :
    name ∈ (w.store.lineage c).flatMap (fun c => w.store.names (w.store.classOf c).members) ↔
      ∃ ancestor, Reaches w.store.sourceBases c ancestor ∧
        (w.store.get? (w.store.classOf ancestor).members name).isSome := by
  simp only [List.mem_flatMap, mem_lineage_iff, mem_names_iff]

theorem mem_flatMap_baseOrder_iff {path : String} : name ∈ (w.graph.baseOrder path).flatMap w.graph.children ↔
      ∃ p, Reaches w.graph.basesOf path p ∧ (w.graph.member? p name).isSome := by
  simp only [List.mem_flatMap, Graph.mem_baseOrder_iff, Graph.mem_children_iff]

theorem mem_packageNames_iff : name ∈ w.namesOf (.packageRef p) ↔ w.Declares name (.packageRef p) := by
  unfold namesOf Declares
  cases hinit : (w.store.package p).init with
  | none | some => simp [hinit, mem_names_iff]

/-- **The names of an alternative are those that it declares.** -/
theorem mem_namesOf_iff : name ∈ w.namesOf d ↔ w.Declares name d := by
  cases d
  case moduleRef m => exact mem_names_iff
  case packageRef p => exact mem_packageNames_iff
  case classRef | instanceOf => exact mem_flatMap_lineage_iff
  case external | externalInstance => exact mem_flatMap_baseOrder_iff
  -- The names of all other alternatives are those of a table.
  all_goals exact Iff.rfl

/-- A name that a class or an ancestor of it binds is supported, whatever the foreign bases have. -/
theorem classHas_of_bound (h : ∃ ancestor, Reaches w.store.sourceBases c ancestor ∧
    (w.store.get? (w.store.classOf ancestor).members name).isSome) : w.classHas c name = true := by
  obtain ⟨ancestor, hreach, hbound⟩ := h
  unfold classHas
  rw [Bool.or_eq_true]
  apply Or.inl
  rw [List.any_eq_true]
  exact ⟨ancestor, mem_lineage_iff.mpr hreach, hbound⟩

/-- A member of a path that can be reached makes the search find something, be it at a path that is nearer. -/
theorem isEmpty_externalMember_of_member (hvalid : w.graph.dangling? = none) {path p : String}
    (hreach : Reaches w.graph.basesOf path p) (hmember : (w.graph.member? p name).isSome) :
    (w.externalMember path name).isEmpty = false := by
  have hown : (w.ownExternalMember? name p).isSome := isSome_ownExternalMember?_iff.mpr (.inl hmember)
  obtain ⟨v, hv⟩ := Option.isSome_iff_exists.mp
    (List.findSome?_isSome_iff.mpr ⟨p, Graph.mem_baseOrder_iff.mpr hreach, hown⟩)
  rw [isEmpty_externalMember_iff hvalid, externalMember, hv]
  rfl

theorem supports_package_of_declares (h : w.Declares name (.packageRef p)) :
    w.supports name (.packageRef p) = true := by
  unfold supports
  show (_ || _) = true
  rw [Bool.or_eq_true]
  rcases h with ⟨init, hinit, hbound⟩ | hentry
  · apply Or.inr
    rw [hinit]
    exact hbound
  · exact .inl hentry

/-- **An alternative supports what it declares.** -/
theorem supports_of_declares (hvalid : w.graph.dangling? = none) (h : w.Declares name d) :
    w.supports name d = true := by
  have hexternal : ∀ path, (∃ p, Reaches w.graph.basesOf path p ∧ (w.graph.member? p name).isSome) →
      (!(w.externalMember path name).isEmpty) = true := by
    rintro path ⟨p, hreach, hmember⟩
    rw [isEmpty_externalMember_of_member hvalid hreach hmember, Bool.not_false]
  cases d
  case moduleRef m => exact h
  case packageRef p => exact supports_package_of_declares h
  case classRef | instanceOf => exact classHas_of_bound h
  case external path | externalInstance path => exact hexternal path h
  case functionRef f =>
    -- A function supports five names, and lists none.
    cases h
  all_goals exact List.contains_iff_mem.mpr h

/--
**All that is listed is supported.** Where no reference of the graph dangles, listing the names of a value that is not
cancelled goes through. The list has no name twice, it has exactly the names that some alternative of the value
declares, and each of them is supported by some alternative.
-/
theorem listed_names_are_supported (graph : Graph) (hvalid : graph.dangling? = none) (s : Store) (v : Value) :
    ∃ names, dir ⟨graph, s, false⟩ v = .ok names ∧ names.Nodup ∧
      (∀ name, name ∈ names ↔ ∃ d ∈ v.disjuncts, Declares ⟨graph, s, false⟩ name d) ∧
      ∀ name ∈ names, ∃ d ∈ v.disjuncts, hasMember ⟨graph, s, false⟩ d name = .ok true := by
  have hlisted : ∀ name, name ∈ distinct (v.disjuncts.flatMap (namesOf ⟨graph, s, false⟩)) ↔
      ∃ d ∈ v.disjuncts, Declares ⟨graph, s, false⟩ name d := by
    intro name
    simp only [mem_distinct_iff, List.mem_flatMap, mem_namesOf_iff]
  refine ⟨_, rfl, nodup_distinct _, hlisted, fun name hname => ?_⟩
  obtain ⟨d, hd, hdeclares⟩ := (hlisted name).mp hname
  refine ⟨d, hd, ?_⟩
  rw [hasMember_eq_ok, supports_of_declares hvalid hdeclares]

/--
An external type whose bases make a cycle, beside an instance of a source class. A name of a base two steps away is
listed, and so are those of the class.
-/
theorem listed_names_are_supported_cyclic :
    cyclicTypes.dangling? = none ∧
      dir ⟨cyclicTypes, singleClass, false⟩ (.union [.external "p.A", .instanceOf ⟨0⟩]) = .ok ["run", "__dict__"] ∧
      ∀ name ∈ ["run", "__dict__"], ∃ d ∈ [Value.external "p.A", .instanceOf ⟨0⟩],
        hasMember ⟨cyclicTypes, singleClass, false⟩ d name = .ok true := by
  have hvalid : cyclicTypes.dangling? = none := by decide
  have hdir : dir ⟨cyclicTypes, singleClass, false⟩ (.union [.external "p.A", .instanceOf ⟨0⟩]) =
      .ok ["run", "__dict__"] := rfl
  obtain ⟨names, heq, -, -, hsupported⟩ :=
    listed_names_are_supported cyclicTypes hvalid singleClass (.union [.external "p.A", .instanceOf ⟨0⟩])
  obtain rfl : ["run", "__dict__"] = names := Except.ok.inj (hdir.symm.trans heq)
  exact ⟨hvalid, hdir, hsupported⟩

end World

end Surmise
