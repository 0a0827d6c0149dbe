import Surmise.Proofs.Propagation.Regular.Evaluation

/-!
# What evaluation adds to the list of what is visited

Evaluation puts a function on the list when it makes it, and makes one for each place of a definition, so
the list holds each function once. As long as the program evaluates no text itself, all places are in the
files, and steps do not run out.

* `Session.Listed`: the list holds some modules and all functions, each once.
* `Session.Continues`: files stay, the list and the evaluated texts are only added to.
* `Run.Regular.listed`: evaluation keeps the first and does the second.
* `Session.Located`, `Run.Regular.located`: where definitions stand.
-/

namespace Surmise

/-- All functions with their places: those of `def` statements, then those of lambdas. -/
def Assembly.definitions (a : Assembly) : List (Site × FunctionId) := a.functions ++ a.lambdas

/-- Some modules, and all functions. -/
def Assembly.work (a : Assembly) (modules : List Nat) : List WorkItem :=
  modules.map .module ++ a.definitions.map fun entry => .function entry.2

namespace Session

/-- What is visited is, in some order, the given modules and all functions. -/
structure Listed (modules : List Nat) (s : Session) : Prop where
  order : s.assembly.order.toList.Perm (s.assembly.work modules)
  ids : (s.assembly.definitions.map Prod.snd).Perm ((List.range s.store.functions.size).map FunctionId.mk)
  /-- No two functions have one place. -/
  functions : (s.assembly.functions.map Prod.fst).Nodup
  lambdas : (s.assembly.lambdas.map Prod.fst).Nodup

/-- Files stay as they are, and the list of what is visited and the evaluated texts are only added to. -/
structure Continues (s s' : Session) : Prop where
  files : s'.assembly.files = s.assembly.files
  tree : s'.assembly.tree = s.assembly.tree
  order : s.assembly.order.toList <+: s'.assembly.order.toList
  evaluated : s.evaluated <:+ s'.evaluated

section Kept

variable {s s' s'' : Session} {modules : List Nat}

theorem Continues.refl (s : Session) : s.Continues s :=
  ⟨rfl, rfl, List.prefix_refl _, List.suffix_refl _⟩

theorem Continues.trans (h : s.Continues s') (h' : s'.Continues s'') : s.Continues s'' :=
  ⟨h'.files.trans h.files, h'.tree.trans h.tree, h.order.trans h'.order, h.evaluated.trans h'.evaluated⟩

/-- Texts that are not evaluated on the whole way are not evaluated on a part of it. -/
theorem Continues.evaluated_eq (h : s.Continues s') (h' : s'.Continues s'')
    (hend : s''.evaluated = s.evaluated) : s'.evaluated = s.evaluated := by
  have hle := h'.evaluated.length_le
  rw [hend] at hle
  exact (h.evaluated.eq_of_length_le hle).symm

theorem Listed.of_same (hs : s.Listed modules) (hfunctions : s'.store.functions = s.store.functions)
    (hdefs : s'.assembly.functions = s.assembly.functions)
    (hlambdas : s'.assembly.lambdas = s.assembly.lambdas)
    (horder : s'.assembly.order = s.assembly.order) : s'.Listed modules where
  order := by
    rw [horder, Assembly.work, Assembly.definitions, hdefs, hlambdas]
    exact hs.order
  ids := by
    rw [hfunctions, Assembly.definitions, hdefs, hlambdas]
    exact hs.ids
  functions := by rw [hdefs]; exact hs.functions
  lambdas := by rw [hlambdas]; exact hs.lambdas

end Kept

end Session

namespace Run

open Session

/-- What a computation does to the list of what is visited. -/
def Works (modules : List Nat) (s s' : Session) : Prop :=
  (s.Listed modules → s'.Listed modules) ∧ s.Continues s'

section Works

variable {modules : List Nat} {s s' : Session} {entries : List (Site × FunctionId)} {site : Site}

theorem Works.trans {s'' : Session} (h : Works modules s s') (h' : Works modules s' s'') : Works modules s s'' :=
  ⟨fun hs => h'.1 (h.1 hs), h.2.trans h'.2⟩

/-- A change of symbols and of what is kept beside the store. -/
theorem works_of_same (hfunctions : s'.store.functions = s.store.functions)
    (hassembly : s'.assembly = s.assembly) (hevaluated : s.evaluated <:+ s'.evaluated) :
    Works modules s s' := by
  refine ⟨fun hs => hs.of_same hfunctions ?_ ?_ ?_, ?_, ?_, ?_, hevaluated⟩
  · rw [hassembly]
  · rw [hassembly]
  · rw [hassembly]
  · rw [hassembly]
  · rw [hassembly]
  · exact hassembly ▸ List.prefix_refl _

theorem not_mem_keys_of_lookup (h : entries.lookup site = none) : site ∉ entries.map Prod.fst := by
  intro hmem
  obtain ⟨entry, hentry, rfl⟩ := List.mem_map.mp hmem
  have hne := List.lookup_eq_none_iff.mp h entry hentry
  exact bne_iff_ne.mp hne rfl

theorem nodup_append_place (g : FunctionId)
    (h : (entries.map Prod.fst).Nodup) (hnew : entries.lookup site = none) :
    ((entries ++ [(site, g)]).map Prod.fst).Nodup := by
  rw [List.map_append]
  refine List.nodup_append.mpr ⟨h, List.nodup_singleton _, fun x hx y hy => ?_⟩
  obtain rfl := List.mem_singleton.mp hy
  rintro rfl
  exact not_mem_keys_of_lookup hnew hx

theorem size_definedStore (f : Frame) (signature : Signature) (s : Session) :
    (definedStore f signature s).functions.size = s.store.functions.size + 1 := by
  obtain ⟨info, -, -, hpushed⟩ := (addsFunctionTo_definedStore f signature s).function
  rw [hpushed, Array.size_push]

/-- One more function is made at a place, and put on the list of what is visited. -/
theorem listed_define (hs : s.Listed modules) (site : Site) (hdefinitions : s'.assembly.definitions.Perm
      (s.assembly.definitions ++ [(site, ⟨s.store.functions.size⟩)]))
    (horder : s'.assembly.order = s.assembly.order.push (.function ⟨s.store.functions.size⟩))
    (hsize : s'.store.functions.size = s.store.functions.size + 1)
    (hfunctions : (s'.assembly.functions.map Prod.fst).Nodup)
    (hlambdas : (s'.assembly.lambdas.map Prod.fst).Nodup) : s'.Listed modules where
  order := by
    have hwork : (s'.assembly.work modules).Perm (s.assembly.work modules ++ [.function ⟨s.store.functions.size⟩]) := by
      refine ((hdefinitions.map _).append_left _).trans ?_
      rw [List.map_append, ← List.append_assoc]
      exact List.Perm.refl _
    rw [horder, Array.toList_push]
    exact (hs.order.append_right _).trans hwork.symm
  ids := by
    rw [hsize, List.range_succ, List.map_append]
    refine (hdefinitions.map _).trans ?_
    rw [List.map_append]
    exact hs.ids.append_right _
  functions := hfunctions
  lambdas := hlambdas

theorem works_withDefinition (form : Form) (f : Frame) {id : Nat} (signature : Signature)
    (hnew : (form.places s.assembly).lookup (f.site id) = none) :
    Works modules s (withDefinition form f id signature s) := by
  have horder : s.assembly.order.toList <+: (s.assembly.order.push (.function ⟨s.store.functions.size⟩)).toList := by
    rw [Array.toList_push]
    exact List.prefix_append _ _
  have hsize := size_definedStore f signature s
  cases form with
  | statement =>
    refine ⟨fun hs => listed_define hs (f.site id) ?_ rfl hsize (nodup_append_place _ hs.functions hnew) hs.lambdas,
      rfl, rfl, horder, List.suffix_refl _⟩
    -- the new entry stands before the lambdas
    show (s.assembly.functions ++ [_] ++ s.assembly.lambdas).Perm (s.assembly.functions ++ s.assembly.lambdas ++ [_])
    rw [List.append_assoc, List.append_assoc]
    exact List.perm_append_comm.append_left _
  | lambda =>
    refine ⟨fun hs => listed_define hs (f.site id) ?_ rfl hsize hs.functions (nodup_append_place _ hs.lambdas hnew),
      rfl, rfl, horder, List.suffix_refl _⟩
    show (s.assembly.functions ++ (s.assembly.lambdas ++ [_])).Perm (s.assembly.functions ++ s.assembly.lambdas ++ [_])
    rw [List.append_assoc]

end Works

variable {K : Reading} {σ : Setting}

theorem works_effect {modules : List Nat} {s t : Session} (h : Effect K σ s t)
    (hbenign : K.Benign) : Works modules s t := by
  cases h with
  | aside | setBases => exact works_of_same rfl rfl (List.suffix_refl _)
  | tell hσ notice =>
    obtain ⟨_, _, htell⟩ := tell_eq (hbenign _ hσ).delegate notice s
    rw [htell]
    exact works_of_same rfl rfl (List.suffix_refl _)
  | noteText text => exact works_of_same rfl rfl (List.suffix_cons text _)
  | store h => exact works_of_same (h hbenign).functions rfl (List.suffix_refl _)
  | assembly => exact ⟨fun hs => hs.of_same rfl rfl rfl rfl, rfl, rfl, List.prefix_rfl, List.suffix_refl _⟩
  | define form f signature hnew => exact works_withDefinition form f signature hnew
  | newClass f id name =>
    exact ⟨fun hs => hs.of_same (keeps_classMade f name s).functions rfl rfl rfl, rfl, rfl, List.prefix_rfl,
      List.suffix_refl _⟩

/-- **Evaluation lists each function that it makes.** -/
theorem Regular.listed {texts : Bool} {α : Type} {act : Run α} (h : Regular K texts act)
    (hbenign : K.Benign) (hσ : K.Trusted σ) (modules : List Nat) (s : Session) :
    Works modules s (act σ s).2 := by
  have heffects := h.effects hσ s
  generalize (act σ s).2 = t at heffects
  induction heffects with
  | refl => exact works_of_same rfl rfl (List.suffix_refl _)
  | tail _ heffect ih => exact ih.trans (works_effect heffect hbenign)

end Run

/-! ## Where definitions stand -/

/-- The node stands in one of the files, and the origin is that file. -/
def StandsIn (files : List SourceFile) (origin : Origin) (node : Node) : Prop :=
  ∃ i file, origin = .file i ∧ files[i]? = some file ∧ node ∈ file.tree.nodes

/--
The nodes of some files. Once the program has evaluated a text, nothing is asked of nodes. Steps run out
only then, unless they may run out anywhere.
-/
def Reading.ofFiles (exhausts : Prop) (files : List SourceFile) : Reading where
  Known texts origin node := texts = true ∨ StandsIn files origin node
  bound := 2 * (files.map fun file => file.tree.height).foldl max 0
  exhausts
  Trusted σ := σ.Benign
  child h hchild := h.imp_right fun ⟨i, file, horigin, hfile, hnode⟩ =>
    ⟨i, file, horigin, hfile, Node.mem_nodes_of_child hnode hchild⟩
  bounded h := by
    obtain h | ⟨i, file, -, hfile, hnode⟩ := h
    · cases h
    · have hheight : file.tree.height ≤ (files.map fun file => file.tree.height).foldl max 0 :=
        (Node.foldl_max_le_iff.mp (Nat.le_refl _)).2 _ (List.mem_map_of_mem (List.mem_of_getElem? hfile))
      exact Nat.mul_le_mul_left 2 (Nat.le_trans (Node.height_le_of_mem_nodes hnode) hheight)
  text _ := .inl rfl

namespace Session

/-- All places are those of definitions in the files, and all functions are made from nodes of these. -/
structure Located (files : List SourceFile) (s : Session) : Prop where
  nodes : ∀ info ∈ s.store.functions, StandsIn files info.origin info.node
  functions : ∀ entry ∈ s.assembly.functions, ∃ node,
    StandsIn files entry.1.origin node ∧ node.functionId? = some entry.1.node
  lambdas : ∀ entry ∈ s.assembly.lambdas, ∃ node,
    StandsIn files entry.1.origin node ∧ node.lambdaId? = some entry.1.node

variable {files : List SourceFile} {s s' : Session}

theorem Located.of_same (hs : s.Located files) (hstore : s'.store.functions = s.store.functions)
    (hfunctions : s'.assembly.functions = s.assembly.functions)
    (hlambdas : s'.assembly.lambdas = s.assembly.lambdas) : s'.Located files where
  nodes := by rw [hstore]; exact hs.nodes
  functions := by rw [hfunctions]; exact hs.functions
  lambdas := by rw [hlambdas]; exact hs.lambdas

theorem Located.nodes_definedStore (hs : s.Located files) {f : Frame} {signature : Run.Signature}
    (hnode : StandsIn files f.origin signature.node) :
    ∀ info ∈ (Run.definedStore f signature s).functions, StandsIn files info.origin info.node := by
  obtain ⟨info, hinfo, horigin, hpushed⟩ := (Run.addsFunctionTo_definedStore f signature s).function
  intro info' hmem
  rw [hpushed] at hmem
  rcases Array.mem_push.mp hmem with hold | rfl
  · exact hs.nodes info' hold
  · rw [hinfo, horigin]
    exact hnode

end Session

namespace Run

section Located

variable {files : List SourceFile} {s : Session}

/--
**As long as no text is evaluated, definitions stand in the files**, and evaluation does not run out of
steps on the nodes that fit it.
-/
theorem Regular.located {exhausts : Prop} {texts : Bool} {α : Type} {act : Run α}
    (h : Regular (.ofFiles exhausts files) texts act) (htexts : texts = false) {σ : Setting}
    (hσ : σ.Benign) (hs : s.Located files)
    (hend : (act σ s).2.evaluated = s.evaluated) :
    (act σ s).2.Located files ∧ ((act σ s).1 = .error .exhausted → exhausts) := by
  have hanswers : ∀ {α : Type} {o : Except AnalysisError α}, Answers o → o = .error .exhausted → exhausts := by
    rintro α _ ho rfl
    cases ho
  induction h generalizing s with
  | @bind _ _ _ act next hact hnext ih ihnext =>
    have hcontinues := (hact.listed (fun _ => id) hσ [] s).2
    have hlater := fun a t => ((hnext a).listed (fun _ => id) hσ [] t).2
    have hfirst := ih htexts hs
    rw [bind_apply] at hend ⊢
    generalize act σ s = out at hcontinues hfirst hend ⊢
    obtain ⟨e | a, t⟩ := out
    · obtain ⟨hlocated, hresult⟩ := hfirst hend
      exact ⟨hlocated, fun he => hresult (congrArg Except.error (Except.error.inj he))⟩
    · have hmid := hcontinues.evaluated_eq (hlater a t) hend
      exact ihnext a htexts (hfirst hmid).1 (hend.trans hmid.symm)
  | @setBases _ _ act _ _ ih =>
    have hfirst := ih htexts hs
    rw [bind_apply] at hend ⊢
    generalize act σ s = out at hfirst hend ⊢
    obtain ⟨e | bases, t⟩ := out
    · obtain ⟨hlocated, hresult⟩ := hfirst hend
      exact ⟨hlocated, fun he => hresult (congrArg Except.error (Except.error.inj he))⟩
    · exact ⟨(hfirst hend).1.of_same rfl rfl rfl, nofun⟩
  | exhausted h =>
    subst htexts
    exact ⟨hs, fun _ => h.resolve_left nofun⟩
  | check =>
    rw [check_apply]
    refine ⟨hs, ?_⟩
    unfold CancelHandle.check
    split <;> nofun
  | ask h =>
    rw [ask_apply]
    exact ⟨hs, hanswers (h _)⟩
  | getStore _ ihnext => exact ihnext s.store htexts hs hend
  | get _ _ ihnext => exact ihnext s htexts hs hend
  | read _ _ ihnext => exact ihnext σ hσ htexts hs hend
  | inStore h => exact ⟨hs.of_same (h s.store).functions rfl rfl, nofun⟩
  | policies graph htrusted c body =>
    rw [inAnalysis_apply]
    obtain ⟨hkept, hresult⟩ := Analysis.keeps_applyPolicies htrusted.policies graph c body s.store
    exact ⟨hs.of_same hkept.functions rfl rfl, fun he => absurd he hresult⟩
  | @modifyAssembly _ f h =>
    obtain ⟨_, _, heq, -⟩ := h s.assembly
    rw [show (Run.modifyAssembly f σ s).2 = { s with assembly := f s.assembly } from rfl, heq]
    exact ⟨hs.of_same rfl rfl rfl, nofun⟩
  | classAt f id name =>
    rw [classAt_apply]
    split
    · exact ⟨hs, nofun⟩
    · exact ⟨hs.of_same (keeps_classMade f name s).functions rfl rfl, nofun⟩
  | @definedAt _ form f id signature hnode hid =>
    subst htexts
    rw [definedAt_apply]
    cases (form.places s.assembly).lookup (f.site id) with
    | some g => exact ⟨hs, nofun⟩
    | none =>
      have hstands := hnode.resolve_left nofun
      have hplaced : ∀ entries : List (Site × FunctionId), (∀ entry ∈ entries, ∃ node,
          StandsIn files entry.1.origin node ∧ form.id? node = some entry.1.node) →
          ∀ entry ∈ entries ++ [(f.site id, ⟨s.store.functions.size⟩)], ∃ node,
            StandsIn files entry.1.origin node ∧ form.id? node = some entry.1.node := by
        intro entries hentries
        exact List.forall_mem_append.mpr ⟨hentries, List.forall_mem_singleton.mpr ⟨_, hstands, hid⟩⟩
      refine ⟨?_, nofun⟩
      cases form with
      | statement => exact ⟨hs.nodes_definedStore hstands, hplaced _ hs.functions, hs.lambdas⟩
      | lambda => exact ⟨hs.nodes_definedStore hstands, hs.functions, hplaced _ hs.lambdas⟩
  | say =>
    rw [say_apply]
    exact ⟨hs.of_same rfl rfl rfl, nofun⟩
  | tell notice =>
    obtain ⟨_, _, htell⟩ := tell_eq hσ.delegate notice s
    rw [htell]
    exact ⟨hs.of_same rfl rfl rfl, nofun⟩
  | idle h =>
    obtain ⟨_, recorder, -, hact⟩ := h σ s
    have hrun := hact s.trace s.observer
    rw [show (_ : Run Unit) σ s = _ from hrun]
    exact ⟨hs.of_same rfl rfl rfl, nofun⟩
  | @noteText _ _ text next hnext ih =>
    -- the text stays among the evaluated ones
    have hcontinues := ((hnext ()).listed (fun _ => id) hσ [] { s with evaluated := text :: s.evaluated }).2
    have hle := hcontinues.evaluated.length_le
    have hsame : (next () σ { s with evaluated := text :: s.evaluated }).2.evaluated = s.evaluated := hend
    rw [hsame] at hle
    exact absurd hle (Nat.not_succ_le_self _)
  | pure | world | narrowed | opened => exact ⟨hs.of_same rfl rfl rfl, nofun⟩

end Located

end Run

end Surmise
