import Surmise.Proofs.CallChain.Visits

/-!
# Passes over a chain of calls

A pass visits the module and then the functions in the order in which they are written. It takes the
constant as far as `progress` says.
-/

namespace Surmise.CallChain

open Run Evaluator

variable {c : CallChain} {file : SourceFile} {l : Layout} {names : List String} {p : Found} {reached : Nat}
  {σ : Setting} {steps : Nat}

theorem Wired.item (h : c.Wired file l c.written names p) (index : Nat) :
    p.assembly.order[index + 1]? = c.written[index]?.map fun i => .function (c.function i) := by
  rw [← Array.getElem?_toList, h.order, List.getElem?_cons_succ, List.getElem?_map]

/-- The functions that are left in a pass are visited in turn. -/
theorem leads_visitFunctions (hgraph : c.Quiet σ.graph) (hnames : c.Complete names)
    (h : c.Stage file l c.written names reached p) {before rest : List Nat} (hwritten : c.written = before ++ rest)
    (hsteps : rest.length < steps) (depth : Nat) :
    Leads σ p (visitItems (ofDepth (depth + 3)) steps (before.length + 1)) fun _ p' =>
      c.Stage file l c.written names (rest.foldl (visited c.depth) reached) p' := by
  induction rest generalizing before reached p steps with
  | nil =>
    obtain _ | steps := steps
    · exact absurd hsteps (Nat.not_lt_zero _)
    refine leads_visitItems_end ?_ h
    rw [h.wired.item, hwritten, List.append_nil, List.getElem?_length]
    rfl
  | cons i rest ih =>
    obtain _ | steps := steps
    · exact absurd hsteps (Nat.not_lt_zero _)
    have hi : i < c.depth := (c.mem_written i).mp (hwritten ▸ List.mem_append_right _ List.mem_cons_self)
    have hitem : p.assembly.order[before.length + 1]? = some (.function (c.function i)) := by
      rw [h.wired.item, hwritten, List.getElem?_append_right (Nat.le_refl _), Nat.sub_self]
      rfl
    have hmore : c.written = before ++ [i] ++ rest := by rw [hwritten, List.append_cons]
    have hlength : before.length + 1 = (before ++ [i]).length := by rw [List.length_append, List.length_singleton]
    refine leads_visitItems hitem (leads_visitFunction hgraph h hnames hi depth) fun p' h' => ?_
    rw [hlength]
    exact ih h' hmore (Nat.lt_of_succ_lt_succ hsteps)

/-- What is found after some passes. -/
def AfterPasses (c : CallChain) (file : SourceFile) (passes : Nat) (p : Found) : Prop :=
  ∃ l made names, (made = c.written ∧ c.Complete names ∨ made = [] ∧ passes = 0) ∧
    c.Stage file l made names (progress c.depth c.written passes) p

/-- **A pass** takes the constant as far as the order of the functions lets it. -/
theorem AfterPasses.pass {passes : Nat} (h : c.AfterPasses file passes p) (hgraph : c.Quiet σ.graph)
    (htree : file.tree = c.tree) (hsteps : c.depth + 2 ≤ steps) (current total : Nat) :
    Leads σ p (pass steps current total) fun _ p' => c.AfterPasses file (passes + 1) p' := by
  obtain ⟨l, made, names, hmade, h⟩ := h
  have hpositive := c.positive
  have hlength : c.written.length = c.depth := c.complete.length_eq.trans List.length_range
  obtain ⟨k, rfl⟩ : ∃ k, steps = k + 3 := ⟨steps - 3, by omega⟩
  have hmodule : p.assembly.order[0]? = some (.module 0) := by
    rw [← Array.getElem?_toList, h.wired.order]
    rfl
  have hstart : made = [] ∨ made = c.written := hmade.symm.imp And.left And.left
  refine leads_pass (leads_visitItems hmodule (leads_visitModule hgraph htree h hstart k) ?_)
  rintro p' ⟨names', hnames', h'⟩
  have hall : c.written = [] ++ c.written := rfl
  have henough : c.written.length < k + 2 := by omega
  exact (leads_visitFunctions hgraph hnames' h' hall henough k).imp fun _ p'' h'' =>
    ⟨l, c.written, names', .inl ⟨rfl, hnames'⟩, h''⟩

/-- **All passes.** -/
theorem AfterPasses.passes {passes : Nat} (h : c.AfterPasses file passes p) (hgraph : c.Quiet σ.graph)
    (htree : file.tree = c.tree) (hsteps : c.depth + 2 ≤ steps) (total left : Nat) :
    Leads σ p (Run.passes steps total left) fun _ p' => c.AfterPasses file (passes + left) p' := by
  induction left generalizing passes p with
  | zero => exact leads_pure h
  | succ left ih =>
    refine (h.pass hgraph htree hsteps _ total).bind fun _ p' h' => ?_
    have hrest := ih h'
    rw [Nat.add_right_comm] at hrest
    exact hrest

end Surmise.CallChain
