import Surmise.Proofs.Traversal.BreadthFirst
import Surmise.Query.Members

/-!
# Members of external types

A member of a graph path is looked for breadth first along the bases. In a graph in which no reference dangles,
it is found if there is one at all, and it is the one of a nearest path.

* `Native.isEmpty_member`: an instance of a builtin type has the members that it lists.
* `Graph.kind?_isSome_of_member`: a member stands for a node.
* `Graph.Offers`: a path has a member itself.
* `Graph.exhausts_baseOrder`, `Graph.exists_spread_baseOrder`: the order in which paths are searched.
* `World.external_search_nearest`: the main statement.
-/

namespace Surmise

open Native

/-! ## Instances of builtin types -/

namespace Native

theorem isEmpty_anInstance (t : BuiltinType) : t.anInstance.isEmpty = false := by
  cases t <;> rfl

variable {path : String} {v receiver : Value}

theorem isEmpty_instanceOfPath? (h : instanceOfPath? path = some v) : v.isEmpty = false := by
  obtain ⟨name, -, h⟩ := Option.bind_eq_some_iff.mp h
  split at h
  · cases h
    rfl
  · cases h
    rfl
  · obtain ⟨t, -, rfl⟩ := Option.map_eq_some_iff.mp h
    exact isEmpty_anInstance t

theorem isEmpty_ofPath? (h : ofPath? path = some v) : v.isEmpty = false := by
  obtain ⟨name, -, h⟩ := Option.bind_eq_some_iff.mp h
  split at h
  · cases h
    rfl
  · obtain ⟨f, -, rfl⟩ := Option.map_eq_some_iff.mp h
    rfl

theorem isEmpty_numberPart? {part : Value} {name : String} (h : numberPart? receiver name = some part) :
    part.isEmpty = false := by
  unfold numberPart? at h
  split at h
  case h_5 => cases h
  all_goals
    split at h
    · cases h
      rfl
    · cases h

/-- Only a plain object lists its class. -/
theorem eq_object_of_class_mem (h : (memberNames receiver).contains "__class__" = true) :
    receiver = .object := by
  unfold memberNames at h
  split at h
  case h_13 => rfl
  all_goals exact absurd h (by decide)

/-- **An instance of a builtin type has exactly the members that it lists.** -/
theorem isEmpty_member (receiver : Value) (name : String) :
    (member receiver name).isEmpty = !(memberNames receiver).contains name := by
  unfold member
  cases hlisted : (memberNames receiver).contains name with
  | false => rfl
  | true =>
    simp only [Bool.not_true, Bool.false_eq_true, if_false]
    split
    · next part hpart => exact isEmpty_numberPart? hpart
    · split
      · next hname =>
        obtain rfl : receiver = .object := eq_object_of_class_mem (hname ▸ hlisted)
        rfl
      · split <;> rfl

end Native

/-! ## Graphs -/

namespace Graph

open Traversal

variable {g : Graph} {path name target : String}

theorem mem_entries_of_node? {node : GraphNode} (h : g.node? path = some node) : (path, node) ∈ g.nodes.entries := by
  obtain ⟨⟨key, _⟩, hentry, rfl⟩ := Option.map_eq_some_iff.mp h
  obtain rfl : key = path := by simpa using List.find?_some hentry
  exact List.mem_of_find?_eq_some hentry

/-- **Where no reference dangles, a member stands for a node.** -/
theorem kind?_isSome_of_member (hvalid : g.dangling? = none) (hmember : g.member? path name = some target) :
    (g.kind? target).isSome := by
  obtain ⟨node, hnode, htarget⟩ := Option.bind_eq_some_iff.mp hmember
  have hentry := List.findSome?_eq_none_iff.mp hvalid _ (mem_entries_of_node? hnode)
  have hreference : target ∈ node.references := by
    obtain ⟨entry, hentry, rfl⟩ := Option.map_eq_some_iff.mp htarget
    exact List.mem_append_left _ (List.mem_append_left _ (List.mem_map_of_mem (List.mem_of_find?_eq_some hentry)))
  have hcontains := List.find?_eq_none.mp (Option.map_eq_none_iff.mp hentry) target hreference
  rw [Bool.not_eq_true, Bool.not_eq_false', OrderedMap.contains, List.any_eq_true] at hcontains
  obtain ⟨entry, hmem, hkey⟩ := hcontains
  unfold kind? node? OrderedMap.get?
  rw [Option.isSome_map, Option.isSome_map, List.find?_isSome]
  exact ⟨entry, hmem, hkey⟩

/-- A path has a member of that name, or it names a builtin type whose instances list the name. -/
def Offers (g : Graph) (name path : String) : Prop :=
  (g.member? path name).isSome ∨ ∃ native, Native.instanceOfPath? path = some native ∧ name ∈ Native.memberNames native

/-! ### The order of a search -/

/-- All bases, each behind the path that has it. -/
def baseEntries (g : Graph) : List (String × String) :=
  g.nodes.entries.flatMap fun entry => entry.2.bases.map fun base => (entry.1, base)

theorem length_baseEntries (g : Graph) : g.baseEntries.length + 1 = g.baseSteps := by
  unfold baseEntries baseSteps
  generalize 1 = n
  induction g.nodes.entries generalizing n with
  | nil => exact Nat.zero_add n
  | cons entry rest ih =>
    rw [List.flatMap_cons, List.length_append, List.length_map, List.foldl_cons, ← ih]
    omega

theorem entries_basesOf (g : Graph) : Entries g.basesOf g.baseEntries := by
  intro path
  unfold basesOf
  split
  · next node hnode =>
    obtain ⟨before, after, hsplit⟩ := List.append_of_mem (mem_entries_of_node? hnode)
    have hown : (node.bases.map fun base => (path, base)).countP (fun e => e.1 = path) = node.bases.length := by
      rw [List.countP_map, List.countP_eq_length.mpr fun v _ => by simp]
    unfold baseEntries
    rw [hsplit, List.flatMap_append, List.flatMap_cons, List.countP_append, List.countP_append]
    dsimp only
    omega
  · exact Nat.zero_le _

/-- The search along the bases of a path comes to its end, whatever cycles they make. -/
theorem exhausts_baseOrder (g : Graph) (path : String) : Exhausts g.basesOf [] [path] (g.baseOrder path) := by
  refine exhausts_breadthFirst g.entries_basesOf ?_
  have hle : unvisited g.baseEntries [] ≤ g.baseEntries.length := List.countP_le_length
  have hlength := g.length_baseEntries
  rw [List.length_singleton]
  omega

theorem exists_spread_baseOrder (g : Graph) (path : String) :
    ∃ seen, seen.map Prod.fst = g.baseOrder path ∧ Spread g.basesOf path seen [] :=
  exists_spread (g.exhausts_baseOrder path) rfl rfl (spread_begins g.basesOf path)

end Graph

namespace World

open Traversal

variable {w : World} {path name : String}

theorem isEmpty_externalInstance (path : String) : (externalInstance path).isEmpty = false := by
  unfold externalInstance
  cases hnative : instanceOfPath? path with
  | none => rfl
  | some native => exact isEmpty_instanceOfPath? hnative

/-- A node stands for something. -/
theorem isEmpty_externalValue (h : (w.graph.kind? path).isSome) : (w.externalValue path).isEmpty = false := by
  unfold externalValue
  split
  · split
    · exact isEmpty_externalInstance _
    · rfl
  · cases hnative : ofPath? path with
    | none => rfl
    | some native => exact isEmpty_ofPath? hnative
  · next hnone =>
    rw [hnone] at h
    cases h

/-- What a path itself has is never empty. -/
theorem isEmpty_ownExternalMember? (hvalid : w.graph.dangling? = none) {v : Value}
    (h : w.ownExternalMember? name path = some v) : v.isEmpty = false := by
  unfold ownExternalMember? at h
  split at h
  · next target htarget =>
    cases h
    exact isEmpty_externalValue (Graph.kind?_isSome_of_member hvalid htarget)
  · split at h
    · split at h
      · cases h
      · next hsome =>
        cases h
        exact Bool.eq_false_iff.mpr hsome
    · cases h

/-- A path has something itself just when it offers the name. -/
theorem isSome_ownExternalMember?_iff : (w.ownExternalMember? name path).isSome ↔ w.graph.Offers name path := by
  unfold ownExternalMember? Graph.Offers
  cases w.graph.member? path name with
  | some target => simp
  | none =>
    cases instanceOfPath? path with
    | none => simp
    | some native =>
      simp only [isEmpty_member]
      cases hlisted : (memberNames native).contains name <;> simp_all

/-- What is found is never empty, so something was found if the answer is not. -/
theorem isEmpty_externalMember_iff (hvalid : w.graph.dangling? = none) : (w.externalMember path name).isEmpty = false ↔
      (w.graph.baseOrder path).findSome? (w.ownExternalMember? name) = some (w.externalMember path name) := by
  unfold externalMember
  cases hfound : (w.graph.baseOrder path).findSome? (w.ownExternalMember? name) with
  | none => exact ⟨fun h => absurd h (by decide), fun h => by cases h⟩
  | some v =>
    obtain ⟨p, -, hp⟩ := List.exists_of_findSome?_eq_some hfound
    exact ⟨fun _ => rfl, fun _ => isEmpty_ownExternalMember? hvalid hp⟩

/--
**The search for a member of an external type.** Where no reference of the graph dangles, the search along the bases
comes to its end, whatever cycles they make. It finds something just when a path that can be reached through bases
offers the name, and what it finds is what such a path with the fewest steps has.
-/
theorem external_search_nearest (w : World) (hvalid : w.graph.dangling? = none) (path name : String) :
    Exhausts w.graph.basesOf [] [path] (w.graph.baseOrder path) ∧
      ((w.externalMember path name).isEmpty = false ↔
        ∃ p, Reaches w.graph.basesOf path p ∧ w.graph.Offers name p) ∧
      ((w.externalMember path name).isEmpty = false →
        ∃ p n, ReachesIn w.graph.basesOf path n p ∧ w.graph.Offers name p ∧
          w.ownExternalMember? name p = some (w.externalMember path name) ∧
          ∀ p' n', ReachesIn w.graph.basesOf path n' p' → w.graph.Offers name p' → n ≤ n') := by
  obtain ⟨seen, hseen, hspread⟩ := w.graph.exists_spread_baseOrder path
  refine ⟨w.graph.exhausts_baseOrder path, ⟨fun hsome => ?_, ?_⟩, fun hsome => ?_⟩
  · obtain ⟨p, hp, hown⟩ := List.exists_of_findSome?_eq_some ((isEmpty_externalMember_iff hvalid).mp hsome)
    rw [← hseen, hspread.mem_iff] at hp
    exact ⟨p, hp, isSome_ownExternalMember?_iff.mp (Option.isSome_of_eq_some hown)⟩
  · rintro ⟨p, hp, hoffers⟩
    rw [← hspread.mem_iff, hseen] at hp
    obtain ⟨v, hv⟩ := Option.isSome_iff_exists.mp
      (List.findSome?_isSome_iff.mpr ⟨p, hp, isSome_ownExternalMember?_iff.mpr hoffers⟩)
    rw [isEmpty_externalMember_iff hvalid, externalMember, hv]
    rfl
  · have hfound := (isEmpty_externalMember_iff hvalid).mp hsome
    rw [← hseen] at hfound
    obtain ⟨p, n, hin, hown, hnearest⟩ := hspread.exists_nearest hfound
    exact ⟨p, n, hin, isSome_ownExternalMember?_iff.mp (Option.isSome_of_eq_some hown), hown,
      fun p' n' hin' hoffers => hnearest p' n' hin' (isSome_ownExternalMember?_iff.mpr hoffers)⟩

/-- Two types that derive from each other, one of which derives from a third type as well. -/
def cyclicTypes : Graph :=
  ⟨.empty, .ofList
    [("p.A", { GraphNode.ofKind .type with bases := ["p.B"] }),
      ("p.B", { GraphNode.ofKind .type with bases := ["p.A", "p.C"] }),
      ("p.C", { GraphNode.ofKind .type with members := .ofList [("run", "p.run")] }),
      ("p.run", .ofKind .function)]⟩

/-- The member of the third type is found from the first one, two steps away. -/
theorem external_search_nearest_cyclic :
    cyclicTypes.dangling? = none ∧ ∃ n ≤ 2, ∃ p, ReachesIn cyclicTypes.basesOf "p.A" n p ∧
      ownExternalMember? ⟨cyclicTypes, .empty, false⟩ "run" p =
        some (externalMember ⟨cyclicTypes, .empty, false⟩ "p.A" "run") := by
  have hvalid : cyclicTypes.dangling? = none := by decide
  have hoffers : cyclicTypes.Offers "run" "p.C" := .inl (by decide)
  have hin : ReachesIn cyclicTypes.basesOf "p.A" 2 "p.C" :=
    (ReachesIn.here.follow (b := "p.B") (by decide)).follow (by decide)
  obtain ⟨-, hsome, hnearest⟩ := external_search_nearest ⟨cyclicTypes, .empty, false⟩ hvalid "p.A" "run"
  obtain ⟨p, n, hp, -, hown, hleast⟩ := hnearest (hsome.mpr ⟨"p.C", reaches_iff_reachesIn.mpr ⟨2, hin⟩, hoffers⟩)
  exact ⟨hvalid, n, hleast "p.C" 2 hin hoffers, p, hp, hown⟩

end World

end Surmise
