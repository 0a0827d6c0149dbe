import Surmise.Tree.Basic

/-!
# Children and height

The direct children of a node, in source order, and how high a tree is. Every child is smaller than its
node (`sizeOf_lt_of_mem_children`), so a tree can be searched along its children.
-/

namespace Surmise

def Parameter.children {α : Type} (p : Parameter α) : List α := p.default.toList ++ p.hint.toList

def VarParameter.children {α : Type} (p : VarParameter α) : List α := p.hint.toList

def Parameters.children {α : Type} (p : Parameters α) : List α :=
  p.params.flatMap Parameter.children ++ p.vararg.toList.flatMap VarParameter.children ++
    p.kwarg.toList.flatMap VarParameter.children

def Branch.children {α : Type} (b : Branch α) : List α := b.test :: b.body

def Handler.children {α : Type} (h : Handler α) : List α := h.kind.toList ++ h.name.toList ++ h.body

def WithItem.children {α : Type} (i : WithItem α) : List α := i.context :: i.target.toList

def Clause.children {α : Type} (c : Clause α) : List α := c.target :: c.iter :: c.conditions

def Node.children : Node → List Node
  | .module body => body
  | .functionDef _ _ params body decorators returns _ _ =>
    params.children ++ body ++ decorators ++ returns.toList
  | .classDef _ _ bases keywords body decorators _ =>
    bases ++ keywords.map Keyword.value ++ body ++ decorators
  | .assign targets value => targets ++ [value]
  | .annotated target hint value => target :: hint :: value.toList
  | .augmented target _ value => [target, value]
  | .returnStmt value => value.toList
  | .ifStmt branches otherwise => branches.flatMap Branch.children ++ otherwise
  | .forStmt target iter body otherwise => target :: iter :: (body ++ otherwise)
  | .whileStmt test body otherwise => test :: (body ++ otherwise)
  | .tryStmt body handlers otherwise final =>
    body ++ handlers.flatMap Handler.children ++ otherwise ++ final
  | .withStmt items body => items.flatMap WithItem.children ++ body
  | .assertStmt test message => test :: message.toList
  | .raiseStmt exception cause => exception.toList ++ cause.toList
  | .deleteStmt targets => targets
  | .bad pieces => pieces
  | .formatted values => values
  | .member object _ => [object]
  | .call function args keywords starArgs kwArgs =>
    function :: (args ++ keywords.map Keyword.value ++ starArgs.toList ++ kwArgs.toList)
  | .subscript value index => [value, index]
  | .slice lower upper step => lower.toList ++ upper.toList ++ step.toList
  | .binary left _ right => [left, right]
  | .unary _ operand => [operand]
  | .compare left _ comparators => left :: comparators
  | .conditional test body otherwise => [test, body, otherwise]
  | .lambda _ params body => params.children ++ [body]
  | .listComp _ element clauses | .setComp _ element clauses | .generatorExp _ element clauses =>
    element :: clauses.flatMap Clause.children
  | .dictComp _ key value clauses => key :: value :: clauses.flatMap Clause.children
  | .tuple elements | .list elements | .set elements => elements
  | .dict items splats => items.flatMap (fun item => [item.1, item.2]) ++ splats
  | .starred value | .named _ value | .await value => [value]
  | .yield value _ => value.toList
  | .importStmt _ | .importFrom .. | .globalStmt _ | .nonlocalStmt _ | .passStmt | .breakStmt
  | .continueStmt | .ident _ | .literal _ => []

section Sizes

variable {α : Type} [SizeOf α] {n : Nat}

/-- All members of the list are smaller than `n`. -/
def AllSmaller (n : Nat) (as : List α) : Prop := ∀ a ∈ as, sizeOf a < n

theorem allSmaller_nil : AllSmaller n ([] : List α) := List.forall_mem_nil _

theorem allSmaller_cons {a : α} {as : List α} (ha : sizeOf a < n) (h : AllSmaller n as) : AllSmaller n (a :: as) :=
  List.forall_mem_cons.mpr ⟨ha, h⟩

theorem allSmaller_append {as bs : List α} (h : AllSmaller n as) (h' : AllSmaller n bs) : AllSmaller n (as ++ bs) :=
  List.forall_mem_append.mpr ⟨h, h'⟩

theorem allSmaller_list {as : List α} (h : sizeOf as ≤ n) : AllSmaller n as :=
  fun _ ha => Nat.lt_of_lt_of_le (List.sizeOf_lt_of_mem ha) h

theorem allSmaller_option {o : Option α} (h : sizeOf o ≤ n) : AllSmaller n o.toList := by
  cases o with
  | none => exact allSmaller_nil
  | some a =>
    simp only [Option.some.sizeOf_spec] at h
    exact allSmaller_cons (by omega) allSmaller_nil

/-- What is in listed items is smaller than the list, if it is smaller than its item. -/
theorem allSmaller_flatMap {β : Type} [SizeOf β] {f : β → List α} (hf : ∀ b, AllSmaller (sizeOf b) (f b))
    {items : List β} (h : sizeOf items ≤ n) : AllSmaller n (items.flatMap f) := by
  intro a ha
  obtain ⟨b, hb, ha⟩ := List.mem_flatMap.mp ha
  exact Nat.lt_trans (hf b a ha) (Nat.lt_of_lt_of_le (List.sizeOf_lt_of_mem hb) h)

theorem allSmaller_flatMapOption {β : Type} [SizeOf β] {f : β → List α} (hf : ∀ b, AllSmaller (sizeOf b) (f b))
    {o : Option β} (h : sizeOf o ≤ n) : AllSmaller n (o.toList.flatMap f) := by
  intro a ha
  obtain ⟨b, hb, ha⟩ := List.mem_flatMap.mp ha
  exact Nat.lt_trans (hf b a ha) (allSmaller_option h b hb)

theorem Parameter.allSmaller_children (p : Parameter α) : AllSmaller (sizeOf p) p.children := by
  cases p
  exact allSmaller_append (allSmaller_option (by simp; omega)) (allSmaller_option (by simp; omega))

theorem VarParameter.allSmaller_children (p : VarParameter α) : AllSmaller (sizeOf p) p.children := by
  cases p
  exact allSmaller_option (by simp)

theorem Parameters.allSmaller_children {p : Parameters α} (h : sizeOf p ≤ n) : AllSmaller n p.children := by
  obtain ⟨params, vararg, kwarg⟩ := p
  simp only [Parameters.mk.sizeOf_spec] at h
  unfold Parameters.children
  refine allSmaller_append (allSmaller_append ?_ ?_) ?_ <;> dsimp only
  · exact allSmaller_flatMap Parameter.allSmaller_children (by omega)
  · exact allSmaller_flatMapOption VarParameter.allSmaller_children (by omega)
  · exact allSmaller_flatMapOption VarParameter.allSmaller_children (by omega)

theorem Branch.allSmaller_children (b : Branch α) : AllSmaller (sizeOf b) b.children := by
  cases b
  exact allSmaller_cons (by simp; omega) (allSmaller_list (by simp))

theorem Handler.allSmaller_children (h : Handler α) : AllSmaller (sizeOf h) h.children := by
  cases h
  refine allSmaller_append (allSmaller_append ?_ ?_) (allSmaller_list (by simp))
  · exact allSmaller_option (by simp; omega)
  · exact allSmaller_option (by simp; omega)

theorem WithItem.allSmaller_children (i : WithItem α) : AllSmaller (sizeOf i) i.children := by
  cases i
  exact allSmaller_cons (by simp; omega) (allSmaller_option (by simp))

theorem Clause.allSmaller_children (c : Clause α) : AllSmaller (sizeOf c) c.children := by
  cases c
  exact allSmaller_cons (by simp; omega) (allSmaller_cons (by simp; omega) (allSmaller_list (by simp)))

theorem allSmaller_keywords {keywords : List (Keyword α)} (h : sizeOf keywords ≤ n) :
    AllSmaller n (keywords.map Keyword.value) := by
  intro a ha
  obtain ⟨k, hk, rfl⟩ := List.mem_map.mp ha
  have hlt := List.sizeOf_lt_of_mem hk
  obtain ⟨name, value⟩ := k
  simp only [Keyword.mk.sizeOf_spec] at hlt
  show sizeOf value < n
  omega

theorem allSmaller_pair (item : α × α) : AllSmaller (sizeOf item) [item.1, item.2] := by
  obtain ⟨key, value⟩ := item
  show AllSmaller (sizeOf (key, value)) [key, value]
  rw [Prod.mk.sizeOf_spec]
  exact allSmaller_cons (by omega) (allSmaller_cons (by omega) allSmaller_nil)

end Sizes

theorem Node.allSmaller_children (node : Node) : AllSmaller (sizeOf node) node.children := by
  -- The children are put together from fields of the node, and each of these is smaller.
  cases node <;> rw [Node.children]
  all_goals
    with_reducible
      repeat' first
        | apply allSmaller_nil
        | apply allSmaller_append
        | apply allSmaller_cons
        | apply allSmaller_option
        | apply Parameters.allSmaller_children
        | apply allSmaller_keywords
        | apply allSmaller_flatMap Branch.allSmaller_children
        | apply allSmaller_flatMap Handler.allSmaller_children
        | apply allSmaller_flatMap WithItem.allSmaller_children
        | apply allSmaller_flatMap Clause.allSmaller_children
        | apply allSmaller_flatMap allSmaller_pair
        | apply allSmaller_list
  all_goals simp <;> omega

/-- A child is smaller than its node. -/
theorem Node.sizeOf_lt_of_mem_children {node child : Node} (h : child ∈ node.children) : sizeOf child < sizeOf node :=
  node.allSmaller_children child h

/-- The number of nodes on the longest way from a node down to a leaf. -/
def Node.height (node : Node) : Nat :=
  (node.children.attach.map fun ⟨child, _⟩ => child.height).foldl max 0 + 1
termination_by node
decreasing_by exact Node.sizeOf_lt_of_mem_children ‹_›

end Surmise
