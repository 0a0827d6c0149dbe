import Mathlib.Algebra.BigOperators.Ring.Nat
import Surmise.Proofs.Propagation.Builds
import Surmise.Proofs.WorkList.Scheduling

/-!
# Visiting the list

A pass visits in turn what is on the list at its end, also what was put there meanwhile. If the program
evaluates no text, the list has at most one item for each file and one for each definition in the files,
so passes end.

* `Session.size_le_workCount`: how long the list can be.
* `Run.visitAll_of_visitItems`: a pass that ends has visited its list.
* `Run.located_visitItems`: it ends if there are enough steps for the files.
* `Run.sweeps_passes`: all passes of a build.
-/

namespace Surmise

/-- The number of files and of definitions in them. -/
def SourceFile.workCount (files : List SourceFile) : Nat :=
  files.length + (files.map fun file => file.tree.definitionCount).sum

namespace Session

section Count

variable {files : List SourceFile} {modules : List Nat} {s : Session}

theorem Listed.nodup (hs : s.Listed modules) (hmodules : modules.Nodup) : s.assembly.order.toList.Nodup := by
  have hids : (s.assembly.definitions.map Prod.snd).Nodup := by
    rw [hs.ids.nodup_iff]
    exact List.nodup_range.map fun i j hij => congrArg FunctionId.index hij
  have hfunctions : (s.assembly.definitions.map fun entry => WorkItem.function entry.2) =
      (s.assembly.definitions.map Prod.snd).map .function := List.map_map.symm
  rw [hs.order.nodup_iff, Assembly.work, hfunctions]
  refine List.nodup_append.mpr ⟨hmodules.map fun _ _ => WorkItem.module.inj,
    hids.map fun _ _ => WorkItem.function.inj, fun item hitem item' hitem' => ?_⟩
  obtain ⟨_, -, rfl⟩ := List.mem_map.mp hitem
  obtain ⟨_, -, rfl⟩ := List.mem_map.mp hitem'
  intro h
  cases h

/-- The places of definitions of some sort in the files. -/
def places (id? : Node → Option Nat) (files : List SourceFile) : List Site :=
  files.zipIdx.flatMap fun (file, i) => (file.tree.nodes.filterMap id?).map (Site.mk (.file i))

theorem length_places (id? : Node → Option Nat) (files : List SourceFile) :
    (places id? files).length = (files.map fun file => (file.tree.nodes.filterMap id?).length).sum := by
  have hfiles : files.zipIdx.map Prod.fst = files := List.zipIdx_map_fst 0 files
  rw [places, List.length_flatMap]
  simp only [List.length_map]
  conv_rhs => rw [← hfiles, List.map_map]
  rfl

theorem length_le_places {id? : Node → Option Nat} {entries : List (Site × FunctionId)}
    (hnodup : (entries.map Prod.fst).Nodup)
    (hplaces : ∀ entry ∈ entries, ∃ node, StandsIn files entry.1.origin node ∧ id? node = some entry.1.node) :
    entries.length ≤ (places id? files).length := by
  rw [← List.length_map (f := Prod.fst)]
  refine (hnodup.subperm fun site hsite => ?_).length_le
  obtain ⟨entry, hentry, rfl⟩ := List.mem_map.mp hsite
  obtain ⟨node, ⟨i, file, horigin, hfile, hnode⟩, hid⟩ := hplaces entry hentry
  refine List.mem_flatMap.mpr ⟨(file, i), List.mem_zipIdx_iff_getElem?.mpr hfile, ?_⟩
  refine List.mem_map.mpr ⟨entry.1.node, List.mem_filterMap.mpr ⟨node, hnode, hid⟩, ?_⟩
  rw [← horigin]

/-- There is at most one item for each file and one for each definition. -/
theorem size_le_workCount (hs : s.Listed (List.range files.length)) (hlocated : s.Located files) :
    s.assembly.order.size ≤ SourceFile.workCount files := by
  have hsize : s.assembly.order.size = files.length + (s.assembly.functions.length + s.assembly.lambdas.length) := by
    rw [← Array.length_toList, hs.order.length_eq, Assembly.work, Assembly.definitions, List.length_append,
      List.length_map, List.length_range, List.length_map, List.length_append]
  have hfunctions := length_le_places hs.functions hlocated.functions
  have hlambdas := length_le_places hs.lambdas hlocated.lambdas
  rw [length_places] at hfunctions hlambdas
  have hcount : (files.map fun file => file.tree.definitionCount).sum =
      (files.map fun file => (file.tree.nodes.filterMap Node.functionId?).length).sum +
        (files.map fun file => (file.tree.nodes.filterMap Node.lambdaId?).length).sum :=
    List.sum_map_add
  rw [hsize, SourceFile.workCount, hcount]
  omega

end Count

end Session

namespace Run

open Session

variable {σ : Setting} {s s' : Session} {depth steps : Nat} {files : List SourceFile} {exhausts : Prop}

/-! ## Visiting

The list may grow behind the item that is visited. -/

/-- Visits the items of a list in turn. -/
def visitAll (ev : Evaluator) : List WorkItem → Run Unit
  | [] => return ()
  | item :: rest => do
    check
    visitItem ev item
    visitAll ev rest

theorem regular_visitAll {K : Reading} (hall : ∀ origin node, K.Known true origin node) (depth : Nat)
    (items : List WorkItem) : Regular K true (visitAll (.ofDepth depth) items) := by
  induction items with
  | nil => exact .pure ()
  | cons item rest ih => exact .bind .check fun _ => .bind (regular_visitItem_of_known hall depth item) fun _ => ih

/-- Visiting from a place on, if there is nothing there or an item that is visited next. -/
theorem visitItems_succ (ev : Evaluator) (steps index : Nat) (σ : Setting) (s : Session) :
    visitItems ev (steps + 1) index σ s =
      match s.assembly.order[index]? with
      | none => (.ok (), s)
      | some item => (do check; visitItem ev item; visitItems ev steps (index + 1) : Run Unit) σ s := by
  rw [visitItems, get_bind_apply]
  cases s.assembly.order[index]? <;> rfl

theorem visitNext_apply (ev : Evaluator) (item : WorkItem) (next : Run Unit) (σ : Setting) (s : Session) :
    (do check; visitItem ev item; next : Run Unit) σ s =
      match s.handle.check with
      | .error e => (.error e, s)
      | .ok _ =>
        match visitItem ev item σ s with
        | (.error e, t) => (.error e, t)
        | (.ok _, t) => next σ t := by
  rw [bind_apply, check_apply]
  cases s.handle.check with
  | error e => rfl
  | ok _ =>
    dsimp only
    rw [bind_apply]
    rcases visitItem ev item σ s with ⟨_ | _, _⟩ <;> rfl

theorem check_ne_exhausted (handle : CancelHandle) : handle.check ≠ .error .exhausted := by
  unfold CancelHandle.check
  split <;> nofun

theorem size_le_of_continues (h : s.Continues s') : s.assembly.order.size ≤ s'.assembly.order.size :=
  h.order.length_le

variable (hσ : σ.Benign) {index total left : Nat}

include hσ

theorem works_visitItem (depth : Nat) (item : WorkItem) (modules : List Nat) (s : Session) :
    Works modules s (visitItem (.ofDepth depth) item σ s).2 :=
  (regular_visitItem_of_known (K := .ofFiles True []) (fun _ _ => .inl rfl) depth item).listed
    (fun _ => id) hσ modules s

theorem works_visitItems (depth steps index : Nat) (modules : List Nat) (s : Session) :
    Works modules s (visitItems (.ofDepth depth) steps index σ s).2 :=
  (regular_visitItems (K := .ofFiles True []) (fun _ _ => .inl rfl) depth steps index).listed (fun _ => id) hσ modules s

/-- **What has been visited from a place on is what stands there in the end**, also what was added meanwhile. -/
theorem visitAll_of_visitItems (h : visitItems (.ofDepth depth) steps index σ s = (.ok (), s')) :
    visitAll (.ofDepth depth) (s'.assembly.order.toList.drop index) σ s = (.ok (), s') := by
  induction steps generalizing index s with
  | zero => cases h
  | succ steps ih =>
    have hfinal : s.Continues s' := by
      have hall := (works_visitItems hσ depth (steps + 1) index [] s).2
      rw [h] at hall
      exact hall
    rw [visitItems_succ] at h
    cases hitem : s.assembly.order[index]? with
    | none =>
      rw [hitem] at h
      obtain rfl : s = s' := congrArg Prod.snd h
      have hsize : s.assembly.order.toList.length ≤ index := Array.getElem?_eq_none_iff.mp hitem
      rw [List.drop_eq_nil_of_le hsize]
      rfl
    | some item =>
      -- the list is only added to, so the item is there in the end
      have hthere : s'.assembly.order.toList[index]? = some item := by
        obtain ⟨later, hlater⟩ := hfinal.order
        rw [← Array.getElem?_toList] at hitem
        rw [← hlater, List.getElem?_append_left (List.getElem?_eq_some_iff.mp hitem).1, hitem]
      obtain ⟨hlt, hget⟩ := List.getElem?_eq_some_iff.mp hthere
      rw [hitem] at h
      rw [List.drop_eq_getElem_cons hlt, hget, visitAll, visitNext_apply]
      dsimp only at h
      rw [visitNext_apply] at h
      cases hcheck : s.handle.check with
      | error e =>
        rw [hcheck] at h
        cases h
      | ok _ =>
        rw [hcheck] at h
        dsimp only at h ⊢
        generalize visitItem (.ofDepth depth) item σ s = out at h ⊢
        obtain ⟨e | _, t⟩ := out
        · cases h
        · exact ih h

/-- A visit in a state whose definitions stand in the files. -/
theorem located_visitItem (hdepth : ¬exhausts → (Reading.ofFiles exhausts files).bound < depth)
    (hfiles : s.assembly.files = files) (hs : s.Located files) (item : WorkItem)
    (hend : (visitItem (.ofDepth depth) item σ s).2.evaluated = s.evaluated) :
    (visitItem (.ofDepth depth) item σ s).2.Located files ∧
      ((visitItem (.ofDepth depth) item σ s).1 = .error .exhausted → exhausts) := by
  have hsuffices : Suffices (.ofFiles exhausts files) false depth := by
    by_cases hexhausts : exhausts
    · exact .inl (.inr hexhausts)
    · exact .inr (hdepth hexhausts)
  obtain ⟨next, hnext, -, hregular⟩ := regular_visitItem hsuffices item
  have hrun : visitItem (.ofDepth depth) item σ s = next s σ s := by
    rw [hnext]
    rfl
  have hhas : (Reading.ofFiles exhausts files).Has false s.assembly := by
    intro i file hfile node hnode
    rw [hfiles] at hfile
    refine .inr ⟨i, file, rfl, hfile, Node.mem_nodes_of_child (Node.self_mem_nodes file.tree) ?_⟩
    cases htree : file.tree with
    | module body =>
      rw [htree] at hnode
      exact hnode
    | _ => rw [htree] at hnode; cases hnode
  rw [hrun] at hend ⊢
  exact (hregular s (fun info hinfo => .inr (hs.nodes info hinfo)) hhas).located rfl hσ hs hend

/--
**Visiting ends.** If no text is evaluated, definitions stay in the files, and steps do not run out where
there are more of them than items and than nodes are nested.
-/
theorem located_visitItems (hdepth : ¬exhausts → (Reading.ofFiles exhausts files).bound < depth)
    (hsteps : ¬exhausts → SourceFile.workCount files < steps + index ∧ index ≤ s.assembly.order.size)
    (hfiles : s.assembly.files = files) (hlisted : s.Listed (List.range files.length)) (hs : s.Located files)
    (hend : (visitItems (.ofDepth depth) steps index σ s).2.evaluated = s.evaluated) :
    (visitItems (.ofDepth depth) steps index σ s).2.Located files ∧
      ((visitItems (.ofDepth depth) steps index σ s).1 = .error .exhausted → exhausts) := by
  induction steps generalizing index s with
  | zero =>
    refine ⟨hs, fun _ => ?_⟩
    by_contra hexhausts
    obtain ⟨hcount, hindex⟩ := hsteps hexhausts
    have hsize := size_le_workCount hlisted hs
    omega
  | succ steps ih =>
    rw [visitItems_succ] at hend ⊢
    cases hitem : s.assembly.order[index]? with
    | none => exact ⟨hs, nofun⟩
    | some item =>
      obtain ⟨hlists, hvisit⟩ := works_visitItem hσ depth item (List.range files.length) s
      have hlocated := located_visitItem hσ hdepth hfiles hs item
      rw [hitem] at hend
      dsimp only at hend ⊢
      rw [visitNext_apply] at hend ⊢
      cases hcheck : s.handle.check with
      | error e => exact ⟨hs, fun he => absurd (hcheck.trans he) (check_ne_exhausted _)⟩
      | ok _ =>
        rw [hcheck] at hend
        dsimp only at hend ⊢
        generalize visitItem (.ofDepth depth) item σ s = out at hend hlists hvisit hlocated ⊢
        obtain ⟨e | _, t⟩ := out
        · obtain ⟨hmid, hresult⟩ := hlocated hend
          exact ⟨hmid, fun he => hresult (congrArg Except.error (Except.error.inj he))⟩
        · have hrest := (works_visitItems hσ depth steps (index + 1) [] t).2
          have hmid := hvisit.evaluated_eq hrest hend
          refine ih (fun hexhausts => ?_) (hvisit.files.trans hfiles) (hlists hlisted) (hlocated hmid).1
            (hend.trans hmid.symm)
          obtain ⟨hcount, -⟩ := hsteps hexhausts
          have hindex := (Array.getElem?_eq_some_iff.mp hitem).1
          have hgrown := size_le_of_continues hvisit
          dsimp only at hgrown
          omega

/-! ## Passes

A pass visits the list from its start. -/

/-- Only what is kept for observers changes before a pass visits. -/
theorem same_begun (current total : Nat) (s : Session) :
    (begun current total σ s).store = s.store ∧ (begun current total σ s).assembly = s.assembly ∧
      (begun current total σ s).evaluated = s.evaluated := by
  obtain ⟨_, _, htell⟩ := tell_eq hσ.delegate (.pass current total)
    (say (fun _ => ["### PROPAGATION PASS ", toString current]) σ s).2
  rw [begun, htell, say_apply]
  exact ⟨rfl, rfl, rfl⟩

theorem works_pass (steps current total : Nat) (modules : List Nat) (s : Session) :
    Works modules s (pass steps current total σ s).2 := by
  obtain ⟨hstore, hassembly, hevaluated⟩ := same_begun hσ current total s
  have hbegun : Works modules s (begun current total σ s) :=
    works_of_same (by rw [hstore]) hassembly (hevaluated ▸ List.suffix_refl _)
  have hvisits := works_visitItems hσ steps steps 0 modules (begun current total σ s)
  rw [pass_apply]
  exact ⟨fun hs => hvisits.1 (hbegun.1 hs), hbegun.2.trans hvisits.2⟩

theorem works_passes (steps total left : Nat) (modules : List Nat) (s : Session) :
    Works modules s (passes steps total left σ s).2 := by
  induction left generalizing s with
  | zero => exact ⟨id, .refl s⟩
  | succ left ih =>
    rw [passes]
    exact state_bind (works_pass hσ steps (total - left) total modules s) fun _ t ht => ht.trans (ih t)

/--
Passes that lead from one state to another. Each visits in turn what is on the list at its end, and no item
is there twice.
-/
inductive Sweeps (σ : Setting) (steps total : Nat) : (left : Nat) → Session → Session → Prop
  | done (s : Session) : Sweeps σ steps total 0 s s
  | pass {left : Nat} {s s₁ s' : Session}
      (hvisits : visitAll (.ofDepth steps) s₁.assembly.order.toList σ (begun (total - left) total σ s) =
        (.ok (), s₁))
      (honce : s₁.assembly.order.toList.Nodup) (hrest : Sweeps σ steps total left s₁ s') :
      Sweeps σ steps total (left + 1) s s'

theorem sweeps_passes {modules : List Nat} (hmodules : modules.Nodup)
    (hs : s.Listed modules) (h : passes steps total left σ s = (.ok (), s')) :
    Sweeps σ steps total left s s' := by
  induction left generalizing s with
  | zero =>
    obtain rfl : s = s' := congrArg Prod.snd h
    exact .done s
  | succ left ih =>
    have hpass := (works_pass hσ steps (total - left) total modules s).1 hs
    have hvisits := pass_apply steps (total - left) total σ s
    rw [passes, bind_apply] at h
    generalize pass steps (total - left) total σ s = out at h hpass hvisits
    obtain ⟨_ | _, t⟩ := out
    · cases h
    · exact .pass (visitAll_of_visitItems hσ hvisits.symm) (hpass.nodup hmodules) (ih hpass h)

theorem located_passes (hdepth : ¬exhausts → (Reading.ofFiles exhausts files).bound < steps)
    (hsteps : ¬exhausts → SourceFile.workCount files < steps)
    (hfiles : s.assembly.files = files) (hlisted : s.Listed (List.range files.length)) (hs : s.Located files)
    (hend : (passes steps total left σ s).2.evaluated = s.evaluated) :
    (passes steps total left σ s).2.Located files ∧
      ((passes steps total left σ s).1 = .error .exhausted → exhausts) := by
  induction left generalizing s with
  | zero => exact ⟨hs, nofun⟩
  | succ left ih =>
    obtain ⟨hstore, hassembly, hevaluated⟩ := same_begun hσ (total - left) total s
    obtain ⟨hlists, hpass⟩ := works_pass hσ steps (total - left) total (List.range files.length) s
    have hlisted' : (begun (total - left) total σ s).Listed (List.range files.length) :=
      hlisted.of_same (by rw [hstore]) (by rw [hassembly]) (by rw [hassembly]) (by rw [hassembly])
    have hs' : (begun (total - left) total σ s).Located files :=
      hs.of_same (by rw [hstore]) (by rw [hassembly]) (by rw [hassembly])
    have hcount : ¬exhausts → SourceFile.workCount files < steps + 0 ∧
        0 ≤ (begun (total - left) total σ s).assembly.order.size := fun hexhausts =>
      ⟨hsteps hexhausts, Nat.zero_le _⟩
    have hlocated := located_visitItems hσ hdepth hcount (by rw [hassembly]; exact hfiles) hlisted' hs'
    rw [← pass_apply, hevaluated] at hlocated
    rw [passes, bind_apply] at hend ⊢
    generalize pass steps (total - left) total σ s = out at hend hlists hpass hlocated ⊢
    obtain ⟨e | _, t⟩ := out
    · obtain ⟨hmid, hresult⟩ := hlocated hend
      exact ⟨hmid, fun he => hresult (congrArg Except.error (Except.error.inj he))⟩
    · have hmid := hpass.evaluated_eq (works_passes hσ steps total left [] t).2 hend
      exact ih (hpass.files.trans hfiles) (hlists hlisted) (hlocated hmid).1 (hend.trans hmid.symm)

end Run

end Surmise
