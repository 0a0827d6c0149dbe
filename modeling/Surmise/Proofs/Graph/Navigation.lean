import Mathlib.Data.List.TakeWhile
import Surmise.Graph.Builder
import Surmise.Proofs.OrderedMap

/-!
# Graphs that declarations build

Whatever is declared, and in whatever order: every node of the graph is found from the package that its path begins
with, member by member, and a package has a distribution. So only bases and types of results can be missing.

* `Adds`: what it means to add the node of a path.
* `Rooted`: every node is a member of the one around it. Adding a node keeps this.
* `navigable_build`: what follows for a graph that is built by any calls.
-/

namespace Surmise

open OrderedMap

/-- The node with the kind, the bases and the type of another one. -/
def GraphNode.redeclared (old node : GraphNode) : GraphNode :=
  { old with kind := node.kind, bases := node.bases, returns := node.returns }

namespace Graph

variable {g g' : Graph} {path other parent name : String} {node : GraphNode}

/-! ## Paths -/

theorem splitLast?_eq_some (h : splitLast? path = some (parent, name)) :
    path = parent ++ "." ++ name ∧ '.' ∉ name.toList := by
  unfold splitLast? at h
  dsimp only at h
  split at h
  · cases h
  · next dot front hdrop =>
    cases h
    have hdot : dot = '.' := by
      have hhead := List.head?_dropWhile_not (fun c => decide (c ≠ '.')) path.toList.reverse
      rw [hdrop] at hhead
      simpa using hhead
    refine ⟨String.toList_inj.mp ?_, fun hmem => ?_⟩
    · have hsplit := List.takeWhile_append_dropWhile (p := fun c => decide (c ≠ '.')) (l := path.toList.reverse)
      rw [hdrop, hdot] at hsplit
      simpa using congrArg List.reverse hsplit.symm
    · rw [String.toList_ofList, List.mem_reverse] at hmem
      simpa using List.mem_takeWhile_imp hmem

theorem splitLast?_eq_none (h : splitLast? path = none) : '.' ∉ path.toList := by
  unfold splitLast? at h
  dsimp only at h
  split at h
  · next hdrop => simpa using List.dropWhile_eq_nil_iff.mp hdrop '.'
  · cases h

theorem length_lt_of_splitLast? (h : splitLast? path = some (parent, name)) : parent.length < path.length := by
  rw [(splitLast?_eq_some h).1, String.length_append, String.length_append]
  exact Nat.lt_of_lt_of_le (Nat.lt_succ_self _) (Nat.le_add_right ..)

/-! ## Nodes -/

theorem node?_setNode (g : Graph) (path other : String) (node : GraphNode) : (g.setNode path node).node? other =
    if path = other then some ((g.node? path).elim node (GraphNode.redeclared · node)) else g.node? other := by
  unfold setNode node?
  cases g.nodes.get? path <;> exact get?_insert ..

theorem node?_modifyNode (g : Graph) (path other : String) (f : GraphNode → GraphNode) :
    (g.modifyNode path f).node? other = if path = other then (g.node? other).map f else g.node? other := by
  unfold modifyNode node?
  cases h : g.nodes.get? path with
  | none => grind
  | some node => grind [get?_insert]

theorem isSome_modifyNode (g : Graph) (path other : String) (f : GraphNode → GraphNode) :
    ((g.modifyNode path f).node? other).isSome = (g.node? other).isSome := by
  rw [node?_modifyNode]
  split <;> simp

theorem distributions_modifyNode (g : Graph) (path : String) (f : GraphNode → GraphNode) :
    (g.modifyNode path f).distributions = g.distributions := by
  unfold modifyNode
  split <;> rfl

theorem distributions_setNode (g : Graph) (path : String) (node : GraphNode) :
    (g.setNode path node).distributions = g.distributions := by
  unfold setNode
  split <;> rfl

theorem member?_setNode (g : Graph) (path other name : String) (hnew : node.members = .empty) :
    (g.setNode path node).member? other name = g.member? other name := by
  rw [member?, member?, node?_setNode]
  split
  · next hsame =>
    subst hsame
    cases g.node? path with
    | none => exact congrArg (get? · name) hnew
    | some old => rfl
  · rfl

/-- The second graph has the node of a path too, if one is added, as a member of the node around it. -/
structure Adds (added : Option String) (g g' : Graph) : Prop where
  nodes : ∀ other, (g'.node? other).isSome ↔ added = some other ∨ (g.node? other).isSome
  member : ∀ parent name, g'.member? parent name =
    if added.bind splitLast? = some (parent, name) then added else g.member? parent name
  distributions : g'.distributions = g.distributions ∨
    ∃ top names, names ≠ [] ∧ g'.distributions = g.distributions.insert top names
  package : ∀ path, added = some path → splitLast? path = none → (g'.distributions.get? path).isSome

/-- A package has a distribution, every other node is a member of the one around it, and members are nodes. -/
structure Rooted (g : Graph) : Prop where
  provided : ∀ names ∈ g.distributions.values, names ≠ []
  package : ∀ path, (g.node? path).isSome → splitLast? path = none → (g.distributions.get? path).isSome
  member : ∀ path parent name, (g.node? path).isSome → splitLast? path = some (parent, name) →
    g.member? parent name = some path
  node : ∀ parent name path, g.member? parent name = some path → (g.node? path).isSome

/-- **A change that adds a node keeps the nodes in their places.** -/
theorem Rooted.adds {added : Option String} (h : g.Rooted) (hadds : Adds added g g') : g'.Rooted where
  provided := by
    rcases hadds.distributions with hsame | ⟨top, names, hne, hsame⟩
    · exact hsame ▸ h.provided
    · rw [hsame]
      intro others hothers
      rcases mem_values_insert hothers with rfl | hothers
      · exact hne
      · exact h.provided others hothers
  package path hpath hsplit := by
    rcases (hadds.nodes path).mp hpath with hadded | hpath
    · exact hadds.package path hadded hsplit
    · have hold := h.package path hpath hsplit
      rcases hadds.distributions with hsame | ⟨top, names, -, hsame⟩
      · exact hsame ▸ hold
      · rw [hsame, get?_insert]
        split
        · rfl
        · exact hold
  member path parent name hpath hsplit := by
    rw [hadds.member]
    rcases (hadds.nodes path).mp hpath with rfl | hpath
    · exact if_pos hsplit
    · split
      · next hsame =>
        -- the path that was added lies at the same place, so it is the same path
        obtain ⟨other, rfl, hother⟩ := Option.bind_eq_some_iff.mp hsame
        rw [(splitLast?_eq_some hsplit).1, (splitLast?_eq_some hother).1]
      · exact h.member path parent name hpath hsplit
  node parent name path hmember := by
    rw [hadds.member] at hmember
    split at hmember
    · exact (hadds.nodes path).mpr (.inl hmember)
    · exact (hadds.nodes path).mpr (.inr (h.node parent name path hmember))

/-- A node is added to the one around it. -/
theorem adds_setNode (hsplit : splitLast? path = some (parent, name)) (hparent : (g.node? parent).isSome)
    (hnew : node.members = .empty) : Adds (some path) g ((g.modifyNode parent fun around =>
      { around with members := around.members.insert name path }).setNode path node) where
  nodes other := by
    rw [node?_setNode, Option.some_inj]
    split
    · next hsame => simp [hsame]
    · next hne => simp [hne, isSome_modifyNode]
  member other key := by
    obtain ⟨around, haround⟩ := Option.isSome_iff_exists.mp hparent
    rw [member?_setNode _ _ _ _ hnew, member?, node?_modifyNode, Option.bind_some, hsplit]
    by_cases hother : parent = other
    · subst hother
      simp [haround, get?_insert, member?]
    · simp [hother, member?]
  distributions := .inl ((distributions_setNode ..).trans (distributions_modifyNode ..))
  package other hother hnone := by
    cases hother
    rw [hsplit] at hnone
    cases hnone

/-- A package is added. -/
theorem adds_package (hsplit : splitLast? path = none) (hprovided : (g.distributions.get? path).isSome)
    (hnew : node.members = .empty) : Adds (some path) g (g.setNode path node) where
  nodes other := by
    rw [node?_setNode, Option.some_inj]
    split
    · next hsame => simp [hsame]
    · next hne => simp [hne]
  member other key := by
    rw [member?_setNode _ _ _ _ hnew, Option.bind_some, hsplit]
    simp
  distributions := .inl (distributions_setNode ..)
  package other hother _ := by
    cases hother
    rwa [distributions_setNode]

theorem adds_distribution (top : String) {names : List String} (hne : names ≠ []) :
    Adds none g { g with distributions := g.distributions.insert top names } :=
  ⟨by simp [node?], by simp [member?, node?], .inr ⟨top, names, hne, rfl⟩, by simp⟩

/-- The nodes around a new node are added before it; paths get shorter from one to the next. -/
theorem Rooted.insertWithin {fuel : Nat} (h : g.Rooted) (hfuel : path.length < fuel) (hnew : node.members = .empty) :
    (insertWithin fuel g path node).Rooted ∧ ((insertWithin fuel g path node).node? path).isSome := by
  induction fuel generalizing g path node with
  | zero => exact absurd hfuel (Nat.not_lt_zero _)
  | succ fuel ih =>
    have hfinish : ∀ {g' g''}, g'.Rooted → Adds (some path) g' g'' → g''.Rooted ∧ (g''.node? path).isSome :=
      fun h' hadds => ⟨h'.adds hadds, (hadds.nodes path).mpr (.inl rfl)⟩
    unfold Graph.insertWithin
    cases hsplit : splitLast? path with
    | none =>
      dsimp only
      rw [contains_eq_isSome]
      split
      · next hknown => exact hfinish h (adds_package hsplit hknown hnew)
      · refine hfinish (h.adds (adds_distribution path (List.cons_ne_nil path []))) (adds_package hsplit ?_ hnew)
        rw [get?_insert, if_pos rfl]
        rfl
    | some parts =>
      obtain ⟨parent, name⟩ := parts
      dsimp only
      rw [contains_eq_isSome]
      split
      · next hparent => exact hfinish h (adds_setNode hsplit hparent hnew)
      · have hshorter := length_lt_of_splitLast? hsplit
        obtain ⟨hrooted, hparent⟩ := @ih g parent (.ofKind .module) h (by omega) rfl
        exact hfinish hrooted (adds_setNode hsplit hparent hnew)

/-- **Declaring a node again** gives it its kind, bases and type, and changes nothing else. -/
theorem Rooted.insertNode_of_node? {old : GraphNode} (h : g.Rooted) (hold : g.node? path = some old) :
    g.insertNode path node = { g with nodes := g.nodes.insert path (old.redeclared node) } := by
  have hpath : (g.node? path).isSome := Option.isSome_iff_exists.mpr ⟨old, hold⟩
  have hset : g.setNode path node = { g with nodes := g.nodes.insert path (old.redeclared node) } := by
    unfold setNode
    rw [show g.nodes.get? path = some old from hold]
    rfl
  unfold insertNode Graph.insertWithin
  cases hsplit : splitLast? path with
  | none =>
    dsimp only
    rw [contains_eq_isSome, if_pos (h.package path hpath hsplit), hset]
  | some parts =>
    obtain ⟨parent, name⟩ := parts
    obtain ⟨around, haround, hmember⟩ := Option.bind_eq_some_iff.mp (h.member path parent name hpath hsplit)
    have haround : g.nodes.get? parent = some around := haround
    dsimp only
    rw [contains_eq_isSome, haround, Option.isSome_some, if_pos rfl, modifyNode, haround]
    dsimp only
    rw [insert_of_get? hmember, insert_of_get? haround, hset]

/-- What is declared is there. -/
theorem exists_node?_insertNode (g : Graph) (path : String) (node : GraphNode) :
    ∃ old : GraphNode, (g.insertNode path node).node? path = some (old.redeclared node) := by
  unfold insertNode Graph.insertWithin
  dsimp only
  rw [node?_setNode, if_pos rfl]
  cases node? _ path with
  | none => exact ⟨node, rfl⟩
  | some old => exact ⟨old, rfl⟩

/-! ## Calls -/

/-- A call that declares something, other than another name for a node. -/
inductive Call where
  | module (path : String)
  | class (path : String) (bases : List String)
  | function (path : String) (returns : Option String)
  | instance (path type : String)
  | distribution (top name : String)
  | popularity (path : String) (count : Nat)

def Call.run (g : Graph) : Call → Graph
  | .module path => g.declareModule path
  | .class path bases => g.declareClass path bases
  | .function path returns => g.declareFunction path returns
  | .instance path type => g.declareInstance path type
  | .distribution top name => g.declareDistribution top name
  | .popularity path count => g.setPopularity path count

/-- The graph that some calls build. -/
def build (calls : List Call) : Graph := calls.foldl Call.run empty

theorem Rooted.run (h : g.Rooted) (call : Call) : (call.run g).Rooted := by
  have hinsert : ∀ path node, node.members = .empty → (g.insertNode path node).Rooted :=
    fun path node hnew => (h.insertWithin (Nat.lt_succ_self path.length) hnew).1
  cases call with
  | module path | «class» path _ | function path _ | «instance» path _ => exact hinsert path _ rfl
  | distribution top name =>
    unfold Call.run declareDistribution
    dsimp only
    split
    · exact h
    · exact h.adds (adds_distribution top (List.append_ne_nil_of_right_ne_nil _ (List.cons_ne_nil name [])))
  | popularity path count =>
    have hadds : Adds none g (g.setPopularity path count) := by
      refine ⟨fun other => ?_, fun other key => ?_, .inl (distributions_modifyNode ..), by simp⟩
      · simp [setPopularity, isSome_modifyNode]
      · rw [setPopularity, member?, node?_modifyNode]
        split
        · cases h : g.node? other <;> simp [member?, h]
        · simp [member?]
    exact h.adds hadds

theorem rooted_build (calls : List Call) : (build calls).Rooted := by
  have hempty : empty.Rooted := by
    constructor <;> simp [empty, OrderedMap.values, OrderedMap.empty, node?, member?, OrderedMap.get?]
  exact List.foldlRecOn calls Call.run hempty fun _ h call _ => h.run call

/-! ## Navigation -/

/-- The path of what is found from a package through members of these names. -/
def dotted (top : String) (names : List String) : String := names.foldl (fun path name => path ++ "." ++ name) top

theorem dotted_concat (top : String) (names : List String) (name : String) :
    dotted top (names ++ [name]) = dotted top names ++ "." ++ name :=
  List.foldl_append ..

/--
The path leads from a package that has a distribution through members to its node, one name after the other, and
everything on the way is a node.
-/
def Leads (g : Graph) (top : String) (names : List String) : Prop :=
  g.distributionsOf top ≠ [] ∧ (∀ front, front <+: names → (g.node? (dotted top front)).isSome) ∧
    names.foldlM g.member? top = some (dotted top names)

/-- Nodes are found from their packages, and what is declared again keeps its place and its members. -/
structure Navigable (g : Graph) : Prop where
  leads : ∀ path, (g.node? path).isSome → ∃ top names, path = dotted top names ∧
    (∀ name ∈ top :: names, '.' ∉ name.toList) ∧ g.Leads top names
  declared : ∀ path node, ∃ old : GraphNode, (g.insertNode path node).node? path = some (old.redeclared node)
  redeclared : ∀ path old node, g.node? path = some old →
    g.insertNode path node = { g with nodes := g.nodes.insert path (old.redeclared node) }
  dangling : ∀ reference, g.dangling? = some reference → ∃ node, g.node? reference.origin = some node ∧
    (reference.target ∈ node.bases ∨ reference.target ∈ node.returns)

theorem Rooted.leads (h : g.Rooted) (hpath : (g.node? path).isSome) : ∃ top names, path = dotted top names ∧
    (∀ name ∈ top :: names, '.' ∉ name.toList) ∧ g.Leads top names := by
  induction hlength : path.length using Nat.strong_induction_on generalizing path with
  | h length ih =>
    cases hsplit : splitLast? path with
    | none =>
      obtain ⟨names, hnames⟩ := Option.isSome_iff_exists.mp (h.package path hpath hsplit)
      refine ⟨path, [], rfl, by simpa using splitLast?_eq_none hsplit, ?_, fun front hfront => ?_, rfl⟩
      · rw [distributionsOf, hnames]
        exact h.provided names (mem_values_of_get? hnames)
      · rw [List.prefix_nil.mp hfront]
        exact hpath
    | some parts =>
      obtain ⟨parent, name⟩ := parts
      have hmember := h.member path parent name hpath hsplit
      obtain ⟨around, haround, -⟩ := Option.bind_eq_some_iff.mp hmember
      obtain ⟨hjoined, hname⟩ := splitLast?_eq_some hsplit
      obtain ⟨top, names, rfl, hdotless, hprovided, hnodes, hfollow⟩ :=
        ih _ (hlength ▸ length_lt_of_splitLast? hsplit) (Option.isSome_iff_exists.mpr ⟨around, haround⟩) rfl
      rw [← dotted_concat] at hjoined
      subst hjoined
      refine ⟨top, names ++ [name], rfl, ?_, hprovided, fun front hfront => ?_, ?_⟩
      · rw [← List.cons_append]
        exact List.forall_mem_append.mpr ⟨hdotless, by simpa using hname⟩
      · rcases List.prefix_concat_iff.mp hfront with rfl | hfront
        · exact hpath
        · exact hnodes front hfront
      · rw [List.foldlM_append, hfollow]
        simpa using hmember

/-- **Graphs that declarations build are navigable**, whatever is declared, and in whatever order. -/
theorem navigable_build (calls : List Call) : (build calls).Navigable := by
  have h := rooted_build calls
  refine ⟨fun _ => h.leads, exists_node?_insertNode _, fun _ _ _ => h.insertNode_of_node?,
    fun reference hdangling => ?_⟩
  obtain ⟨⟨path, node⟩, hentry, hreference⟩ := List.exists_of_findSome?_eq_some hdangling
  obtain ⟨target, htarget, rfl⟩ := Option.map_eq_some_iff.mp hreference
  have hhas : (build calls).node? path = some node := OrderedMap.get?_of_mem hentry
  refine ⟨node, hhas, ?_⟩
  have hmissing := List.find?_some htarget
  rcases List.mem_append.mp (List.mem_of_find?_eq_some htarget) with hmem | hreturns
  · rcases List.mem_append.mp hmem with hmember | hbase
    · -- members are nodes, and this target is none
      obtain ⟨name, hname⟩ := OrderedMap.exists_get?_of_mem_values hmember
      have hnode : ((build calls).nodes.get? target).isSome :=
        h.node path name target (Option.bind_eq_some_iff.mpr ⟨node, hhas, hname⟩)
      rw [OrderedMap.contains_eq_isSome, hnode] at hmissing
      cases hmissing
    · exact .inl hbase
  · exact .inr (Option.mem_toList.mp hreturns)

end Graph

end Surmise
