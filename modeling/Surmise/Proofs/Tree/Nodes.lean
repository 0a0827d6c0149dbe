import Surmise.Tree.Children
import Mathlib.Logic.Basic

/-!
# The nodes of a tree

All nodes of a tree with the tree itself, how high they are, and the definitions among them.
-/

namespace Surmise.Node

variable {node x : Node} {child : Node}

/-- Induction along the children of a node. -/
theorem children_induction {P : Node → Prop} (h : ∀ node, (∀ child ∈ node.children, P child) → P node)
    (node : Node) : P node :=
  h node fun child _ => children_induction h child
termination_by node
decreasing_by exact Node.sizeOf_lt_of_mem_children ‹_›

/-- A node and all nodes below it. -/
def nodes (node : Node) : List Node :=
  node :: node.children.attach.flatMap fun ⟨child, _⟩ => child.nodes
termination_by node
decreasing_by exact Node.sizeOf_lt_of_mem_children ‹_›

theorem nodes_eq (node : Node) : node.nodes = node :: node.children.flatMap nodes := by
  rw [nodes, List.flatMap_subtype fun _ _ => rfl, List.unattach_attach]

theorem mem_nodes : x ∈ node.nodes ↔ x = node ∨ ∃ child ∈ node.children, x ∈ child.nodes := by
  rw [nodes_eq, List.mem_cons, List.mem_flatMap]

theorem self_mem_nodes (node : Node) : node ∈ node.nodes := mem_nodes.mpr (.inl rfl)

/-- What is below a node of a tree is a node of the tree. -/
theorem mem_nodes_of_child (hx : x ∈ node.nodes) (hchild : child ∈ x.children) : child ∈ node.nodes := by
  induction node using children_induction with
  | h node ih =>
    rcases mem_nodes.mp hx with rfl | ⟨top, htop, hx⟩
    · exact mem_nodes.mpr (.inr ⟨child, hchild, self_mem_nodes child⟩)
    · exact mem_nodes.mpr (.inr ⟨top, htop, ih top htop hx⟩)

/-! ## Height -/

theorem foldl_max_le_iff {a h : Nat} {xs : List Nat} : xs.foldl max a ≤ h ↔ a ≤ h ∧ ∀ x ∈ xs, x ≤ h := by
  induction xs generalizing a with
  | nil => simp
  | cons x rest ih => rw [List.foldl_cons, ih, Nat.max_le, List.forall_mem_cons, and_assoc]

theorem height_eq (node : Node) : node.height = (node.children.map height).foldl max 0 + 1 := by
  rw [height, List.map_subtype fun _ _ => rfl, List.unattach_attach]

theorem height_pos (node : Node) : 0 < node.height := by
  rw [height_eq]
  exact Nat.succ_pos _

theorem height_le_succ_iff {h : Nat} : node.height ≤ h + 1 ↔ ∀ child ∈ node.children, child.height ≤ h := by
  rw [height_eq, Nat.add_le_add_iff_right, foldl_max_le_iff, List.forall_mem_map]
  exact and_iff_right (Nat.zero_le h)

theorem height_lt_of_mem_children (h : child ∈ node.children) : child.height < node.height := by
  rw [height_eq node]
  exact Nat.lt_succ_of_le (height_le_succ_iff.mp (Nat.le_of_eq (height_eq node)) child h)

theorem height_le_of_mem_nodes (h : x ∈ node.nodes) : x.height ≤ node.height := by
  induction node using children_induction with
  | h node ih =>
    rcases mem_nodes.mp h with rfl | ⟨top, htop, hx⟩
    · exact Nat.le_refl _
    · exact Nat.le_trans (ih top htop hx) (Nat.le_of_lt (height_lt_of_mem_children htop))

/-! ## Definitions -/

def functionId? : Node → Option Nat
  | .functionDef id .. => some id
  | _ => none

def lambdaId? : Node → Option Nat
  | .lambda id .. => some id
  | _ => none

/-- How many `def` statements and lambdas a tree has. -/
def definitionCount (node : Node) : Nat :=
  (node.nodes.filterMap functionId?).length + (node.nodes.filterMap lambdaId?).length

end Surmise.Node
