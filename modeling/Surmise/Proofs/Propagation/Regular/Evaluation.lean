import Surmise.Build
import Surmise.Proofs.Propagation.Lockstep.Evaluation

/-!
# Visits are regular

* `Run.regular_visitItem`: a visit to a module or a function is regular once it has looked at the state.
* `Run.regular_visitItems`: so are visits to all that is on the list, if steps may run out.
-/

namespace Surmise

open Evaluator

namespace Run

variable {K : Reading} {texts : Bool} {depth : Nat}

theorem regular_bindReceiver (g : FunctionId) : Regular K texts (bindReceiver g) := by
  refine .getStore fun st => ?_
  dsimp only
  split
  · split
    · exact .pure ()
    · exact .inStore (StoreM.keeps_put _ _)
    · exact .inStore (StoreM.keeps_put _ _)
  · exact .pure ()

/-- Whether nodes that are known fit the depth. -/
def Suffices (K : Reading) (texts : Bool) (depth : Nat) : Prop := K.MayExhaust texts ∨ K.bound < depth

theorem Suffices.fits (h : Suffices K texts depth) {origin : Origin} {node : Node}
    (hnode : K.Known texts origin node) : K.Fits texts (depth - 1) origin node := by
  refine ⟨hnode, ?_⟩
  rcases h with h | hdepth
  · exact .inl h
  · cases texts with
    | true => exact .inl (.inl rfl)
    | false =>
      have hbound := K.bounded hnode
      exact .inr (by omega)

/--
In a state with known functions and files, the computation is regular once it has looked at the store and
the assembly.
-/
def LooksThenRegular (K : Reading) (texts : Bool) (act : Run Unit) : Prop :=
  ∃ next : Session → Run Unit, act = get >>= next ∧
    (∀ s s' : Session, s.store = s'.store → s.assembly = s'.assembly → next s = next s') ∧
    ∀ s, K.Knows texts s.store → K.Has texts s.assembly → Regular K texts (next s)

theorem regular_visitFunction (h : Suffices K texts depth) (g : FunctionId) :
    LooksThenRegular K texts (visitFunction (.ofDepth depth) g) := by
  have hev := walks_ofDepth ⟨.empty, .standard, [], ⟨0⟩, .idle, default⟩ K depth
  refine ⟨_, rfl, fun s s' hstore _ => by rw [hstore], fun s hknows _ => ?_⟩
  generalize s.store = st at hknows
  refine .bind (.say _) fun _ => .bind (regular_bindReceiver g) fun _ => ?_
  by_cases hg : g.index < st.functions.size
  · have hnode : K.Known texts (st.function g).origin (st.function g).node := by
      refine hknows _ ?_
      rw [Store.function, Array.getD_eq_getD_getElem?, Array.getElem?_eq_getElem hg]
      exact Array.getElem_mem hg
    generalize st.function g = info at hnode
    split
    · next heq =>
      rw [heq] at hnode
      refine regular_of_walk fun hf => walk_block hev hf fun x hx => h.fits (K.child hnode ?_)
      simp [Node.children, hx]
    · next heq =>
      rw [heq] at hnode
      refine regular_of_walk fun hf => (hev.part hf (h.fits (K.child hnode ?_))).bind fun v => walk_produceReturn hf v
      simp [Node.children]
    · exact .pure ()
  · -- there is no such function, and what stands for it has no body
    have hnone : st.function g = default := getD_of_size_le (Nat.le_of_not_lt hg) _
    rw [hnone]
    exact .pure ()

theorem regular_visitModule (h : Suffices K texts depth) (index : Nat) :
    LooksThenRegular K texts (visitModule (.ofDepth depth) index) := by
  have hev := walks_ofDepth ⟨.empty, .standard, [], ⟨0⟩, .idle, default⟩ K depth
  refine ⟨_, rfl, fun s s' hstore hassembly => ?_, fun s _ hhas => ?_⟩
  · rw [hstore, hassembly]
  · split
    · exact .pure ()
    · next file hfile =>
      split
      · exact .pure ()
      · refine .bind (.say _) fun _ => regular_of_walk fun hf => walk_block hev hf fun x hx => h.fits ?_
        exact hhas index file hfile x hx

theorem regular_visitItem (h : Suffices K texts depth) (item : WorkItem) :
    LooksThenRegular K texts (visitItem (.ofDepth depth) item) := by
  cases item with
  | module index => exact regular_visitModule h index
  | function g => exact regular_visitFunction h g

/-- A visit is regular in any state if all nodes are known. -/
theorem regular_visitItem_of_known (hall : ∀ origin node, K.Known true origin node) (depth : Nat)
    (item : WorkItem) : Regular K true (visitItem (.ofDepth depth) item) := by
  obtain ⟨next, hnext, hsame, hregular⟩ : LooksThenRegular K true (visitItem (.ofDepth depth) item) :=
    regular_visitItem (.inl (.inl rfl)) item
  rw [hnext]
  exact .get hsame fun s => hregular s (fun _ _ => hall _ _) fun _ _ _ _ _ => hall _ _

/-- Visiting all that is on the list is regular, if steps may run out. -/
theorem regular_visitItems (hall : ∀ origin node, K.Known true origin node) (depth steps index : Nat) :
    Regular K true (visitItems (.ofDepth depth) steps index) := by
  induction steps generalizing index with
  | zero => exact .exhausted (.inl rfl)
  | succ steps ih =>
    refine .get (fun s s' _ hassembly => by rw [hassembly]) fun s => ?_
    cases s.assembly.order[index]? with
    | none => exact .pure ()
    | some item =>
      exact .bind .check fun _ => .bind (regular_visitItem_of_known hall depth item) fun _ => ih (index + 1)

end Run

end Surmise
