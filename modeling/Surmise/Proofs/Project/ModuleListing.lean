import Surmise.Proofs.Project.ModuleOrder

/-!
# Each file is listed once

Imports may be cyclic, and the walk behind the order of modules carries a bound on how deep it goes. The bound
never ends it: the files that are entered inside each other are different files, and there is room for all of
them. So the walk ends by itself, and what it lists are the given files, each once.

* `ModuleOrder.Walks`: the walk without a bound.
* `ModuleOrder.advance`: the walk with a stack, step by step, which comes to the same (`Walks.stackWalks_iff`).
* `ModuleOrder.completed_walk`: walking with room for all files is such a walk.
* `moduleOrder_lists_each_file_once`: the main statement.
-/

namespace Surmise

namespace ModuleOrder

variable {w w₁ w₂ : Walk}

/--
A walk from files in turn, as long as it takes. Nothing is done for a file that has been entered. Any other
file is entered, its links are walked from, and it is left.
-/
inductive Walks (links : Path → List Path) : Walk → List Path → Walk → Prop
  | done (w : Walk) : Walks links w [] w
  | seen {w w' : Walk} {file : Path} {rest : List Path} (hseen : isAmong file w.entered)
      (hrest : Walks links w rest w') : Walks links w (file :: rest) w'
  | visit {w w₁ w' : Walk} {file : Path} {rest : List Path} (hnew : ¬ isAmong file w.entered)
      (hlinks : Walks links { w with entered := w.entered ++ [file] } (links file) w₁)
      (hrest : Walks links { w₁ with left := w₁.left ++ [file] } rest w') : Walks links w (file :: rest) w'

variable {links : Path → List Path} {first rest paths : List Path} {file : Path}

theorem Walks.trans (h : Walks links w first w₁) (hrest : Walks links w₁ rest w₂) :
    Walks links w (first ++ rest) w₂ := by
  induction h with
  | done => exact hrest
  | seen hseen _ ih => exact .seen hseen (ih hrest)
  | visit hnew hlinks _ _ ih => exact .visit hnew hlinks (ih hrest)

/-! ## The walk with a stack -/

/--
One step of the walk with a stack of the open files, the innermost first, each with the number of its links that have
been looked at. A new link is opened, and a file without further links is left.
-/
def advance (links : Path → List Path) : Walk × List (Path × Nat) → Option (Walk × List (Path × Nat))
  | (_, []) => none
  | (w, (file, next) :: stack) =>
    match (links file)[next]? with
    | none => some ({ w with left := w.left ++ [file] }, stack)
    | some dep =>
      some (if isAmong dep w.entered then (w, (file, next + 1) :: stack)
        else ({ w with entered := w.entered ++ [dep] }, (dep, 0) :: (file, next + 1) :: stack))

/-- The stack runs from one state to another. -/
def Runs (links : Path → List Path) : Walk × List (Path × Nat) → Walk × List (Path × Nat) → Prop :=
  Relation.ReflTransGen fun a b => advance links a = some b

/-- A walk from files in turn, each of which is alone on the stack at first and runs until the stack is empty. -/
inductive StackWalks (links : Path → List Path) : Walk → List Path → Walk → Prop
  | done (w : Walk) : StackWalks links w [] w
  | seen {w w' : Walk} {file : Path} {rest : List Path} (hseen : isAmong file w.entered)
      (hrest : StackWalks links w rest w') : StackWalks links w (file :: rest) w'
  | visit {w w₁ w' : Walk} {file : Path} {rest : List Path} (hnew : ¬ isAmong file w.entered)
      (hruns : Runs links ({ w with entered := w.entered ++ [file] }, [(file, 0)]) (w₁, []))
      (hrest : StackWalks links w₁ rest w') : StackWalks links w (file :: rest) w'

theorem look_of_drop {next : Nat} {dep : Path} (h : paths.drop next = dep :: rest) :
    paths[next]? = some dep ∧ paths.drop (next + 1) = rest := by
  rw [← List.head?_drop, ← List.tail_drop, h]
  exact ⟨rfl, rfl⟩

/-- Walking from the links of the innermost file that are left is to run until the file is left. -/
theorem Walks.runs (h : Walks links w rest w₁) {next : Nat} (hnext : (links file).drop next = rest)
    (stack : List (Path × Nat)) :
    Runs links (w, (file, next) :: stack) ({ w₁ with left := w₁.left ++ [file] }, stack) := by
  induction h generalizing file next stack with
  | done => exact .single (by rw [advance, List.getElem?_eq_none (List.drop_eq_nil_iff.mp hnext)])
  | seen hseen _ ih =>
    obtain ⟨hlook, hrest⟩ := look_of_drop hnext
    exact .head (by rw [advance, hlook]; exact congrArg some (if_pos hseen)) (ih hrest stack)
  | visit hnew _ _ ihlinks ihrest =>
    obtain ⟨hlook, hrest⟩ := look_of_drop hnext
    -- the link is left with the file on top of the stack again
    refine .head ?_ ((ihlinks List.drop_zero ((file, next + 1) :: stack)).trans (ihrest hrest stack))
    rw [advance, hlook]
    exact congrArg some (if_neg hnew)

theorem Runs.unique {a : Walk × List (Path × Nat)} (h₁ : Runs links a (w₁, [])) (h₂ : Runs links a (w₂, [])) :
    w₁ = w₂ := by
  have hended : ∀ {w : Walk} {b}, Runs links (w, []) b → b = (w, []) := by
    intro w b h
    rcases h.cases_head with rfl | ⟨c, hstep, -⟩
    · rfl
    · cases hstep
  have hunique : Relator.RightUnique fun a b => advance links a = some b := fun a b c hb hc =>
    Option.some.inj (hb.symm.trans hc)
  rcases Relation.ReflTransGen.total_of_right_unique hunique h₁ h₂ with h | h
  · exact congrArg Prod.fst (hended h).symm
  · exact congrArg Prod.fst (hended h)

/-- **The walk with a stack comes to the same.** -/
theorem Walks.stackWalks_iff (h : Walks links w paths w₁) : StackWalks links w paths w₂ ↔ w₂ = w₁ := by
  constructor
  · intro h'
    induction h with
    | done =>
      cases h'
      rfl
    | seen hseen _ ih =>
      cases h' with
      | seen _ hrest => exact ih hrest
      | visit hnew _ _ => exact absurd hseen hnew
    | visit hnew hlinks _ _ ih =>
      cases h' with
      | seen hseen _ => exact absurd hseen hnew
      | visit _ hruns hrest => exact ih ((hlinks.runs List.drop_zero []).unique hruns ▸ hrest)
  · rintro rfl
    induction h with
    | done w => exact .done w
    | seen hseen _ ih => exact .seen hseen ih
    | visit hnew hlinks _ _ ih => exact .visit hnew (hlinks.runs rfl []) ih

/-- A walk has one outcome. -/
theorem Walks.unique (h₁ : Walks links w paths w₁) (h₂ : Walks links w paths w₂) : w₁ = w₂ :=
  h₂.stackWalks_iff.mp (h₁.stackWalks_iff.mpr rfl)

/-! ## The walk with a bound -/

/-- What is known after walking from some files with room for all of them. -/
structure Completed (links : Path → List Path) (known : List Path) (w : Walk) (paths : List Path) (w' : Walk) :
    Prop where
  walks : Walks links w paths w'
  within : w'.Within known
  length : w.entered.length ≤ w'.entered.length

variable {known : List Path}

theorem Completed.trans (h : Completed links known w first w₁)
    (hrest : Completed links known w₁ rest w₂) : Completed links known w (first ++ rest) w₂ :=
  ⟨h.walks.trans hrest.walks, hrest.within, Nat.le_trans h.length hrest.length⟩

/-- Walking from files in turn, if one of them can be walked from whenever enough files have been entered. -/
theorem completed_foldl {step : Walk → Path → Walk} (room : Nat)
    (hstep : ∀ {w : Walk} {file}, w.Within known → room ≤ w.entered.length → file ∈ paths →
      Completed links known w [file] (step w file))
    (hw : w.Within known) (hroom : room ≤ w.entered.length) :
    Completed links known w paths (paths.foldl step w) := by
  induction paths generalizing w with
  | nil => exact ⟨.done w, hw, Nat.le_refl _⟩
  | cons file rest ih =>
    have hfile := hstep hw hroom List.mem_cons_self
    have hrest := ih (fun hw' hroom' hmem => hstep hw' hroom' (List.mem_cons_of_mem _ hmem)) hfile.within
      (Nat.le_trans hroom hfile.length)
    exact hfile.trans hrest

/-- The induction is on the fuel, which exceeds the number of files that have not been entered. -/
theorem completed_walk (hlinks : ∀ file, keys (links file) ⊆ keys known) (fuel : Nat)
    (hw : w.Within known) (hfuel : known.length + 1 ≤ fuel + w.entered.length)
    (hknown : file.components ∈ keys known) : Completed links known w [file] (walk links fuel w file) := by
  induction fuel generalizing w file with
  | zero =>
    -- all files have been entered
    have hseen : isAmong file w.entered := by
      by_contra hnew
      have hlt := hw.length_lt hknown (mt isAmong_iff.mpr hnew)
      omega
    exact ⟨.seen hseen (.done w), hw, Nat.le_refl _⟩
  | succ fuel ih =>
    rw [walk]
    split
    · next hseen => exact ⟨.seen hseen (.done w), hw, Nat.le_refl _⟩
    · next hnew =>
      have hentered := hw.enter hknown (mt isAmong_iff.mpr hnew)
      have hlength : (w.entered ++ [file]).length = w.entered.length + 1 := List.length_append
      have hinner : Completed links known { w with entered := w.entered ++ [file] } (links file)
          ((links file).foldl (walk links fuel) { w with entered := w.entered ++ [file] }) := by
        refine completed_foldl (w.entered ++ [file]).length ?_ hentered (Nat.le_refl _)
        intro w' dep hw' hroom hdep
        exact ih hw' (by omega) (hlinks file (List.mem_map_of_mem hdep))
      refine ⟨.visit hnew hinner.walks (.done _), ⟨hinner.within.known, hinner.within.nodup⟩, ?_⟩
      exact Nat.le_trans (hlength ▸ Nat.le_succ _) hinner.length

/-- The walk from all files, with room for all of them, ends by itself. -/
theorem walks_files (files : List (Path × List ImportDecl)) (roots : List Path) :
    Walks (ModuleOrder.links files roots) ⟨[], []⟩ (files.map Prod.fst)
      ((files.map Prod.fst).foldl (walk (ModuleOrder.links files roots) (files.length + 1)) ⟨[], []⟩) := by
  have hlinks : ∀ file, keys (ModuleOrder.links files roots file) ⊆ keys (files.map Prod.fst) := by
    intro file k hk
    obtain ⟨dep, hdep, rfl⟩ := List.mem_map.mp hk
    exact (mem_keys_links.mp (List.mem_map_of_mem hdep)).target_mem
  have hempty : Walk.Within (files.map Prod.fst) ⟨[], []⟩ := ⟨List.nil_subset _, List.nodup_nil⟩
  refine (completed_foldl 0 (fun hw _ hmem => ?_) hempty (Nat.zero_le _)).walks
  exact completed_walk hlinks _ hw (by simp) (List.mem_map_of_mem hmem)

/-- **The order is what a walk with a stack leaves**, which can end in one way only. -/
theorem stackWalks_files (files : List (Path × List ImportDecl)) (roots : List Path) :
    (∃ w, StackWalks (ModuleOrder.links files roots) ⟨[], []⟩ (files.map Prod.fst) w) ∧
      ∀ w, StackWalks (ModuleOrder.links files roots) ⟨[], []⟩ (files.map Prod.fst) w →
        w.left = moduleOrder files roots := by
  have hwalks := walks_files files roots
  refine ⟨⟨_, hwalks.stackWalks_iff.mpr rfl⟩, fun w hw => ?_⟩
  rw [hwalks.stackWalks_iff.mp hw]
  rfl

/-- How often a file is listed. -/
theorem count_moduleOrder (files : List (Path × List ImportDecl)) (roots : List Path) (p : Path) :
    (moduleOrder files roots).countP (· == p) = if isAmong p (files.map Prod.fst) then 1 else 0 := by
  have hcount : (moduleOrder files roots).countP (· == p) = (keys (moduleOrder files roots)).count p.components := by
    rw [List.count, List.countP_map]
    refine List.countP_congr fun q _ => ?_
    rw [Path.beq_iff, Function.comp_apply, beq_iff_eq]
  rw [hcount, (nodup_moduleOrder files roots).count]
  exact if_congr ((mem_moduleOrder files roots _).trans isAmong_iff.symm) rfl rfl

end ModuleOrder

open ModuleOrder in
/--
**Each file is listed once.** Whatever the files import, the walk behind their order ends by itself, in one
way. The order has each of the files once and nothing else, where paths with the same components are the same
file.
-/
theorem moduleOrder_lists_each_file_once (files : List (Path × List ImportDecl)) (roots : List Path) :
    (∃ w, (∀ w', Walks (links files roots) ⟨[], []⟩ (files.map Prod.fst) w' ↔ w' = w) ∧
        w.left = moduleOrder files roots) ∧
      ∀ p, (moduleOrder files roots).countP (· == p) = if isAmong p (files.map Prod.fst) then 1 else 0 := by
  have hwalks := walks_files files roots
  refine ⟨⟨_, fun w' => ⟨fun hw' => hw'.unique hwalks, ?_⟩, rfl⟩, count_moduleOrder files roots⟩
  rintro rfl
  exact hwalks

end Surmise
