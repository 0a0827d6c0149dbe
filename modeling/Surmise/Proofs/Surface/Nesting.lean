import Surmise.Proofs.Tree.Nodes
import Surmise.Surface.Lowering

/-!
# Lowered trees are not high

Lowering goes a fixed number of levels down, whatever the text is like, and a level of a surface tree makes at most two
levels of nodes: a subscript with several indices, or a clause over several iterables, holds a tuple that has none of
its own in the surface tree.

* `Surface.lowerMetered`: lowering, with a meter of how many levels are being lowered.
* `Lower.Stays`: what lowering something comes to, with the meter and without.
* `Surface.stays_level`: one level of a surface tree, by cases on its sort.
* `Surface.lowering_bounded`: the main statement.
-/

namespace Surmise

/-- How many levels are being lowered, and how many were at most at any time. -/
structure Meter where
  active : Nat
  peak : Nat

namespace Meter

def start : Meter := ⟨0, 0⟩

def enter (meter : Meter) : Meter := ⟨meter.active + 1, max meter.peak (meter.active + 1)⟩

def leave (meter : Meter) : Meter := ⟨meter.active - 1, meter.peak⟩

end Meter

/-- Lowering, with a meter of the levels that are being lowered. -/
def Surface.lowerMetered : (depth : Nat) → Surface → StateT Meter Lower Node
  | 0, _ => return .bad []
  | depth + 1, surface => do
    modify Meter.enter
    let node ← surface.level (monadLift Lower.fresh) (Surface.lowerMetered depth)
    modify Meter.leave
    return node

namespace Lower

variable {α β : Type} {depth : Nat} {P : α → Prop} {Q : β → Prop}

/--
With the meter and without it the same comes out, which satisfies `P`. The meter is left as it was found, and has shown
at most so many levels more.
-/
def Stays (depth : Nat) (P : α → Prop) (metered : StateT Meter Lower α) (plain : Lower α) : Prop :=
  ∀ meter n, P (plain n).1 ∧ ∃ peak ≤ max meter.peak (meter.active + depth),
    metered meter n = (((plain n).1, ⟨meter.active, peak⟩), (plain n).2)

theorem stays_pure {a : α} (h : P a) : Stays depth P (pure a) (pure a) :=
  fun meter _ => ⟨h, meter.peak, Nat.le_max_left .., rfl⟩

theorem Stays.bind {metered : StateT Meter Lower α} {plain : Lower α} {next : α → StateT Meter Lower β}
    {next' : α → Lower β} (h : Stays depth P metered plain) (hnext : ∀ a, P a → Stays depth Q (next a) (next' a)) :
    Stays depth Q (metered >>= next) (plain >>= next') := by
  intro meter n
  obtain ⟨hp, peak, hpeak, hrun⟩ := h meter n
  obtain ⟨hq, peak', hpeak', hrun'⟩ := hnext _ hp ⟨meter.active, peak⟩ (plain n).2
  refine ⟨hq, peak', by dsimp only at hpeak'; omega, ?_⟩
  have hbind : (metered >>= next) meter n =
      next (metered meter n).1.1 (metered meter n).1.2 (metered meter n).2 := rfl
  rw [hbind, hrun]
  exact hrun'

theorem Stays.imp {P' : α → Prop} {metered : StateT Meter Lower α} {plain : Lower α} (h : Stays depth P metered plain)
    (himp : ∀ a, P a → P' a) : Stays depth P' metered plain :=
  fun meter n => (h meter n).imp_left (himp _)

theorem stays_fresh : Stays depth (fun _ => True) (monadLift Lower.fresh) Lower.fresh :=
  fun meter _ => ⟨trivial, meter.peak, Nat.le_max_left .., rfl⟩

section Parts

variable {f : α → StateT Meter Lower β} {f' : α → Lower β} (h : ∀ a, Stays depth Q (f a) (f' a))

include h

theorem stays_all (as : List α) : Stays depth (fun bs => ∀ b ∈ bs, Q b) (all f as) (all f' as) := by
  induction as with
  | nil => exact stays_pure (List.forall_mem_nil _)
  | cons a rest ih =>
    exact (h a).bind fun b hb => ih.bind fun bs hbs => stays_pure (List.forall_mem_cons.mpr ⟨hb, hbs⟩)

theorem stays_optional (o : Option α) : Stays depth (fun o => ∀ b ∈ o.toList, Q b) (optional f o) (optional f' o) := by
  cases o with
  | none => exact stays_pure (List.forall_mem_nil _)
  | some a => exact (h a).bind fun b hb => stays_pure (List.forall_mem_singleton.mpr hb)

theorem stays_keyword (k : Keyword α) : Stays depth (fun k => Q k.value) (keyword f k) (keyword f' k) :=
  (h k.value).bind fun _ hb => stays_pure hb

theorem stays_pair (p : α × α) : Stays depth (fun p => Q p.1 ∧ Q p.2) (pair f p) (pair f' p) :=
  (h p.1).bind fun _ hb => (h p.2).bind fun _ hb' => stays_pure ⟨hb, hb'⟩

theorem stays_branch (b : Branch α) : Stays depth (fun b => ∀ x ∈ b.children, Q x) (branch f b) (branch f' b) :=
  (h b.test).bind fun _ hb => (stays_all h b.body).bind fun _ hbs => stays_pure (List.forall_mem_cons.mpr ⟨hb, hbs⟩)

theorem stays_withItem (i : WithItem α) : Stays depth (fun i => ∀ x ∈ i.children, Q x) (withItem f i) (withItem f' i) :=
  (h i.context).bind fun _ hb => (stays_optional h i.target).bind fun _ hbs =>
    stays_pure (List.forall_mem_cons.mpr ⟨hb, hbs⟩)

theorem stays_handler (e : Handler α) : Stays depth (fun e => ∀ x ∈ e.children, Q x) (handler f e) (handler f' e) := by
  refine (stays_optional h e.kind).bind fun _ hkind => (stays_optional h e.name).bind fun _ hname => ?_
  refine (stays_all h e.body).bind fun _ hbody => stays_pure ?_
  exact List.forall_mem_append.mpr ⟨List.forall_mem_append.mpr ⟨hkind, hname⟩, hbody⟩

theorem stays_parameters (p : Parameters α) :
    Stays depth (fun p => ∀ x ∈ p.children, Q x) (parameters f p) (parameters f' p) := by
  have hparam : ∀ p : Parameter α,
      Stays depth (fun p => ∀ x ∈ p.children, Q x) (parameter f p) (parameter f' p) := fun p =>
    (stays_optional h p.default).bind fun _ hdefault => (stays_optional h p.hint).bind fun _ hhint =>
      stays_pure (List.forall_mem_append.mpr ⟨hdefault, hhint⟩)
  have hvar : ∀ p : VarParameter α,
      Stays depth (fun p => ∀ x ∈ p.children, Q x) (varParameter f p) (varParameter f' p) := fun p =>
    (stays_optional h p.hint).bind fun _ hhint => stays_pure hhint
  refine (stays_all hparam p.params).bind fun _ hparams => (stays_optional hvar p.vararg).bind fun _ hvararg => ?_
  refine (stays_optional hvar p.kwarg).bind fun _ hkwarg => stays_pure fun x hx => ?_
  simp only [Parameters.children, List.mem_append, List.mem_flatMap] at hx
  grind

end Parts

section Nodes

variable {b : Nat} {nodes : List Node}

theorem height_joined (h : ∀ x ∈ nodes, x.height ≤ b + 1) : (joined nodes).height ≤ b + 2 := by
  unfold joined
  split
  · exact Nat.le_succ_of_le (h _ List.mem_cons_self)
  · exact Node.height_le_succ_iff.mpr (List.forall_mem_nil _)
  · exact Node.height_le_succ_iff.mpr h

theorem stays_clause {f : α → StateT Meter Lower Node} {f' : α → Lower Node}
    (h : ∀ a, Stays depth (fun x => x.height ≤ b + 1) (f a) (f' a)) (c : ForClause α) :
    Stays depth (fun c => ∀ x ∈ c.children, x.height ≤ b + 2) (clause f c) (clause f' c) := by
  refine (h c.target).bind fun _ htarget => (stays_all h c.iters).bind fun _ hiters => ?_
  refine (stays_all h c.conditions).bind fun _ hconditions => stays_pure ?_
  refine List.forall_mem_cons.mpr ⟨Nat.le_succ_of_le htarget, List.forall_mem_cons.mpr ⟨height_joined hiters, ?_⟩⟩
  exact fun x hx => Nat.le_succ_of_le (hconditions x hx)

theorem height_deleted {node : Node} (h : node.height ≤ b + 1) : ∀ x ∈ deleted node, x.height ≤ b + 1 := by
  unfold deleted
  split
  · exact fun x hx => Nat.le_succ_of_le (Node.height_le_succ_iff.mp h x hx)
  · exact List.forall_mem_singleton.mpr h

theorem height_unwrapped (h : ∀ x ∈ nodes, x.height ≤ b + 1) : (unwrapped nodes).height ≤ b + 2 := by
  unfold unwrapped
  split
  · exact Node.height_le_succ_iff.mpr (List.forall_mem_nil _)
  · exact Nat.le_succ_of_le (h _ List.mem_cons_self)
  · exact Node.height_le_succ_iff.mpr h

/-- The values of adjacent literals are those of the formatted ones. -/
theorem height_adjacent {parts : List Node} (h : ∀ x ∈ parts, x.height ≤ b + 1) :
    (parts.foldl Adjacent.add {}).node.height ≤ b + 1 := by
  have hvalues : ∀ acc : Adjacent, (∀ x ∈ acc.values, x.height ≤ b) →
      ∀ x ∈ (parts.foldl Adjacent.add acc).values, x.height ≤ b := by
    induction parts with
    | nil => exact fun _ hacc => hacc
    | cons part rest ih =>
      obtain ⟨hpart, hrest⟩ := List.forall_mem_cons.mp h
      refine fun acc hacc => ih hrest _ ?_
      unfold Adjacent.add
      split
      case h_3 => exact List.forall_mem_append.mpr ⟨hacc, Node.height_le_succ_iff.mp hpart⟩
      all_goals exact hacc
  unfold Adjacent.node
  split
  · exact Node.height_le_succ_iff.mpr (hvalues {} (List.forall_mem_nil _))
  · split <;> exact Node.height_le_succ_iff.mpr (List.forall_mem_nil _)

end Nodes

end Lower

open Lower in
/-- One level of a surface tree makes at most two levels of nodes. -/
theorem Surface.stays_level {depth b : Nat} {go : Surface → StateT Meter Lower Node} {go' : Surface → Lower Node}
    (h : ∀ s, Stays depth (fun x => x.height ≤ b + 1) (go s) (go' s)) (surface : Surface) :
    Stays depth (fun x => x.height ≤ b + 3) (surface.level (monadLift Lower.fresh) go)
      (surface.level Lower.fresh go') := by
  cases surface <;> unfold level <;> dsimp only
  case deleteStmt target =>
    refine (h target).bind fun _ hx => stays_pure (Node.height_le_succ_iff.mpr fun x hx' => ?_)
    exact Nat.le_succ_of_le (height_deleted hx x hx')
  case statement parts =>
    exact (stays_all h parts).bind fun _ hx => stays_pure (Nat.le_succ_of_le (height_unwrapped hx))
  case group | asPattern => exact (h _).imp fun _ hx => by omega
  case adjacent parts =>
    exact (stays_all h parts).bind fun _ hx => stays_pure (Nat.le_trans (height_adjacent hx) (by omega))
  case subscript value indices =>
    refine (h value).bind fun _ hvalue => (stays_all h indices).bind fun _ hindices => stays_pure ?_
    exact Node.height_le_succ_iff.mpr (List.forall_mem_cons.mpr
      ⟨Nat.le_succ_of_le hvalue, List.forall_mem_singleton.mpr (height_joined hindices)⟩)
  all_goals
    with_reducible
      repeat' first
        | refine (h _).bind fun _ _ => ?_
        | refine (stays_all h _).bind fun _ _ => ?_
        | refine (stays_optional h _).bind fun _ _ => ?_
        | refine stays_fresh.bind fun _ _ => ?_
        | refine (stays_parameters h _).bind fun _ _ => ?_
        | refine (stays_all (stays_keyword h) _).bind fun _ _ => ?_
        | refine (stays_all (stays_pair h) _).bind fun _ _ => ?_
        | refine (stays_all (stays_branch h) _).bind fun _ _ => ?_
        | refine (stays_all (stays_withItem h) _).bind fun _ _ => ?_
        | refine (stays_all (stays_handler h) _).bind fun _ _ => ?_
        | refine (stays_all (stays_clause h) _).bind fun _ _ => ?_
        | refine stays_pure (Node.height_le_succ_iff.mpr fun x hx => ?_)
  all_goals simp only [Node.children, List.mem_append, List.mem_cons, List.mem_flatMap, List.mem_map,
    List.not_mem_nil, or_false] at hx
  all_goals grind

open Lower in
theorem Surface.stays_lower (depth : Nat) (surface : Surface) :
    Stays depth (fun x => x.height ≤ 2 * depth + 1) (surface.lowerMetered depth) (surface.lower depth) := by
  induction depth generalizing surface with
  | zero => exact stays_pure (Node.height_le_succ_iff.mpr (List.forall_mem_nil _))
  | succ depth ih =>
    intro meter n
    obtain ⟨hheight, peak, hpeak, hrun⟩ := stays_level ih surface meter.enter n
    refine ⟨hheight, peak, ?_, ?_⟩
    · simp only [Meter.enter] at hpeak
      omega
    · have hlevel : surface.lowerMetered (depth + 1) meter n = (fun out => ((out.1.1, out.1.2.leave), out.2))
            (surface.level (monadLift Lower.fresh) (Surface.lowerMetered depth) meter.enter n) := rfl
      rw [hlevel, hrun]
      rfl

/--
**Lowered trees have bounded height**, however deep a text is nested. While a surface tree is lowered, at most
`maxNesting` levels of it are being lowered at any time.
-/
theorem Surface.lowering_bounded (text : String) (surface : Surface) :
    (Node.ofText text).height ≤ 2 * maxNesting + 1 ∧ surface.toNode.height ≤ 2 * maxNesting + 1 ∧
      ∃ peak ≤ maxNesting, surface.lowerMetered maxNesting .start 0 =
        ((surface.toNode, ⟨0, peak⟩), (surface.lower maxNesting 0).2) := by
  have hlow : ∀ surface : Surface, surface.toNode.height ≤ 2 * maxNesting + 1 := fun surface =>
    (surface.stays_lower maxNesting .start 0).1
  refine ⟨?_, hlow surface, ?_⟩
  · unfold Node.ofText Node.ofText?
    cases Surface.read text with
    | error =>
      have hrefused : (Node.module [.bad []]).height = 2 := by simp [Node.height_eq, Node.children]
      exact Nat.le_trans (Nat.le_of_eq hrefused) (by decide)
    | ok surface => exact hlow surface
  · obtain ⟨-, peak, hpeak, hrun⟩ := surface.stays_lower maxNesting .start 0
    exact ⟨peak, by simpa [Meter.start] using hpeak, hrun⟩

end Surmise
