import Mathlib
import Surmise.Graph.Document
import Surmise.Proofs.Graph.Navigation

/-!
# Graph documents are read back

A graph that is written and read again is the same graph, with everything in its order, unless a reference leads
nowhere. Then the document is refused with the first such reference.

* `ofJson?_toJson`: what is read from the document of a graph, before its references are looked at.
* `read_print`: the main statement, about the texts of documents.
-/

namespace Surmise

open OrderedMap

namespace Graph

/-! ## Documents -/

section Parts

variable {α : Type} {read : Json → Option α} {write : α → Json}

theorem mapM_map_eq {β : Type} {f : β → Option α} {e : α → β} {xs : List α} (h : ∀ x ∈ xs, f (e x) = some x) :
    (xs.map e).mapM f = some xs := by
  induction xs with
  | nil => rfl
  | cons x rest ih =>
    rw [List.map_cons, List.mapM_cons, h x List.mem_cons_self, ih fun y hy => h y (List.mem_cons_of_mem x hy)]
    rfl

theorem list?_ofTexts (texts : List String) : list? Json.text? (.ofTexts texts) = some texts :=
  mapM_map_eq fun _ _ => rfl

theorem map?_ofFields {m : OrderedMap α} (h : ∀ a ∈ m.values, read (write a) = some a) :
    map? read (.ofFields (m.entries.map fun entry => (entry.1, write entry.2))) = some m := by
  have hentries : (((m.entries.map fun entry => (entry.1, write entry.2)).map fun field =>
      ((some field.1, field.2) : Option String × Json)).mapM fun field => do
        return ((← field.1), (← read field.2))) = some m.entries := by
    rw [List.map_map]
    refine mapM_map_eq fun entry hentry => ?_
    show (read (write entry.2) >>= fun a => some (entry.1, a)) = some entry
    rw [h entry.2 (List.mem_map_of_mem hentry)]
    rfl
  show (_ >>= fun entries => some (ofList entries)) = some m
  rw [hentries]
  exact congrArg some m.ofList_entries

theorem popularity?_ofNat {n : Nat} (h : n ≤ maxPopularity) : popularity? (.ofNat n) = some n := by
  have hdigits : Json.natOfDigits? (toString n).toList = some n := by
    have hall : (Nat.toDigits 10 n).all Char.isDigit = true :=
      List.all_eq_true.mpr fun c hc => Nat.isDigit_of_mem_toDigits (b := 10) (by decide) (by decide) hc
    have hsome : (Nat.toDigits 10 n).isEmpty = false := by simp [Nat.toDigits_ne_nil]
    rw [Nat.toString_eq_repr, Nat.repr_eq_ofList_toDigits, String.toList_ofList, Json.natOfDigits?, hall, hsome]
    exact congrArg some (Nat.ofDigitChars_ten_toDigits (n := n))
  show (Json.natOfDigits? (toString n).toList >>= fun n => if n ≤ maxPopularity then some n else none) = some n
  rw [hdigits]
  exact if_pos h

end Parts

theorem readNode?_nodeToJson {node : GraphNode} (h : node.popularity ≤ maxPopularity) :
    readNode? (nodeToJson node) = some node := by
  obtain ⟨kind, members, bases, returns, popularity⟩ := node
  have hkind : kindOf? (.ofText kind.label) = some kind := by cases kind <;> rfl
  have hmembers : map? Json.text? (ofTextMap members) = some members := map?_ofFields fun _ _ => rfl
  have hreturns : optional? Json.text? (.ofOption .ofText returns) = some returns := by cases returns <;> rfl
  simp [readNode?, nodeToJson, record?, Json.ofFields, fieldOr, hkind, hmembers, list?_ofTexts, hreturns,
    popularity?_ofNat h]

variable {g : Graph} {reference : Dangling}

/-- **The document of a graph holds the graph.** -/
theorem ofJson?_toJson (h : ∀ node ∈ g.nodes.values, node.popularity ≤ maxPopularity) :
    ofJson? g.toJson = some g := by
  have hdistributions : map? (list? Json.text?)
      (.ofFields (g.distributions.entries.map fun entry => (entry.1, .ofTexts entry.2))) = some g.distributions :=
    map?_ofFields fun names _ => list?_ofTexts names
  have hnodes : map? readNode? (.ofFields (g.nodes.entries.map fun entry => (entry.1, nodeToJson entry.2))) =
      some g.nodes :=
    map?_ofFields fun node hnode => readNode?_nodeToJson (h node hnode)
  simp only [Json.ofFields] at hdistributions hnodes
  simp [-List.map_map, ofJson?, toJson, record?, Json.ofFields, fieldOr, hdistributions, hnodes]

/-! ## References -/

/-- All these targets are nodes. -/
def Resolves (g : Graph) (targets : List String) : Prop := ∀ target ∈ targets, (g.node? target).isSome

/-- All references lead to nodes. -/
def Closed (g : Graph) : Prop := ∀ node ∈ g.nodes.values, g.Resolves node.references

/-- The target is no node, and everything that is referred to before it is one. -/
def FirstMissing (g : Graph) (reference : Dangling) : Prop :=
  ∃ front node back before after, g.nodes.entries = front ++ (reference.origin, node) :: back ∧
    node.references = before ++ reference.target :: after ∧ g.node? reference.target = none ∧
    (∀ entry ∈ front, g.Resolves entry.2.references) ∧ g.Resolves before

theorem resolves_of_find? {targets : List String}
    (h : targets.find? (fun target => !g.nodes.contains target) = none) : g.Resolves targets := by
  intro target htarget
  have hknown := List.find?_eq_none.mp h target htarget
  rwa [Bool.not_eq_true, Bool.not_eq_false', contains_eq_isSome] at hknown

theorem closed_of_dangling? (h : g.dangling? = none) : g.Closed := by
  intro node hnode
  obtain ⟨entry, hentry, rfl⟩ := List.mem_map.mp hnode
  exact resolves_of_find? (Option.map_eq_none_iff.mp (List.findSome?_eq_none_iff.mp h entry hentry))

theorem firstMissing_of_dangling? (h : g.dangling? = some reference) : g.FirstMissing reference := by
  obtain ⟨front, ⟨path, node⟩, back, hentries, hfound, hfront⟩ := List.findSome?_eq_some_iff.mp h
  obtain ⟨target, htarget, rfl⟩ := Option.map_eq_some_iff.mp hfound
  obtain ⟨hmissing, before, after, hreferences, hbefore⟩ := List.find?_eq_some_iff_append.mp htarget
  refine ⟨front, node, back, before, after, hentries, hreferences, ?_, fun entry hentry => ?_, fun other hother => ?_⟩
  · rwa [Bool.not_eq_true', contains_eq_isSome, Option.isSome_eq_false_iff, Option.isNone_iff_eq_none] at hmissing
  · exact resolves_of_find? (Option.map_eq_none_iff.mp (hfront entry hentry))
  · have hknown := hbefore other hother
    rwa [Bool.not_not, contains_eq_isSome] at hknown

theorem FirstMissing.not_closed (h : g.FirstMissing reference) : ¬ g.Closed := by
  obtain ⟨front, node, back, before, after, hentries, hreferences, hmissing, -, -⟩ := h
  intro hclosed
  have hnode : node ∈ g.nodes.values := by simp [values, hentries]
  have hsome := hclosed node hnode reference.target (by simp [hreferences])
  rw [hmissing] at hsome
  cases hsome

/--
**A document is read back as the graph it was written from**, exactly if all references of the graph lead to nodes.
Otherwise it is refused with the first reference that does not. The text is assumed to be read as it was printed.
-/
theorem read_print (g : Graph) (hpopularity : ∀ node ∈ g.nodes.values, node.popularity ≤ maxPopularity)
    (hprinted : Json.read? g.print = some g.toJson) :
    (read g.print = .ok g ↔ g.Closed) ∧
      (¬ g.Closed → ∃ reference, g.FirstMissing reference ∧ read g.print = .error (.dangling reference)) := by
  have hread : read g.print = g.validated := by
    unfold read
    rw [hprinted, Option.bind_some, ofJson?_toJson hpopularity]
  rw [hread, validated]
  cases hdangling : g.dangling? with
  | none =>
    have hclosed := closed_of_dangling? hdangling
    exact ⟨iff_of_true rfl hclosed, fun hopen => absurd hclosed hopen⟩
  | some reference =>
    have hmissing := firstMissing_of_dangling? hdangling
    exact ⟨iff_of_false (by simp) hmissing.not_closed, fun _ => ⟨reference, hmissing, rfl⟩⟩

/-- A function that returns a type which is not declared. -/
def ofMissingType : Graph :=
  ⟨.ofList [("p", ["lib"])], .ofList [("p", ⟨.function, .ofList [("q", "p")], [], some "t", maxPopularity⟩)]⟩

theorem read_print_ofMissingType : (read ofMissingType.print = .ok ofMissingType ↔ ofMissingType.Closed) ∧
    (¬ ofMissingType.Closed → ∃ reference, ofMissingType.FirstMissing reference ∧
      read ofMissingType.print = .error (.dangling reference)) :=
  read_print ofMissingType (by decide +kernel) (by cbv)

end Graph

end Surmise
