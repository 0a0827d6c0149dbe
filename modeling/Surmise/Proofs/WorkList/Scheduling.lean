import Surmise.Proofs.Project.ModuleOrder
import Surmise.Proofs.WorkList.Evaluation

/-!
# Scheduling modules

Before its passes a build puts each module on the list of what is visited that is not there yet. The paths
of all files are different, so a path stands for one file.

* `mem_unscheduled`: which files are put there.
* `Session.Listed.schedule`: afterwards all modules are on the list, each once.
-/

namespace Surmise

open ModuleOrder

/-- No two files have one path, by its components. -/
def SourceFile.Distinct (files : List SourceFile) : Prop := (keys (files.map SourceFile.path)).Nodup

section Indices

variable {files : List SourceFile} {paths : List Path} {i : Nat}

/-- The places of the files with some paths. -/
def indices (files : List SourceFile) (paths : List Path) : List Nat :=
  paths.filterMap fun path => files.findIdx? fun file => file.path == path

theorem SourceFile.Distinct.index_eq (h : Distinct files) {j : Nat} {file file' : SourceFile}
    (hi : files[i]? = some file) (hj : files[j]? = some file')
    (hpath : file.path.components = file'.path.components) : i = j := by
  have hget : ∀ {k : Nat} {file : SourceFile}, files[k]? = some file →
      (keys (files.map SourceFile.path))[k]? = some file.path.components := by
    intro k file hk
    rw [List.getElem?_map, List.getElem?_map, hk]
    rfl
  have hlt : i < (keys (files.map SourceFile.path)).length := (List.getElem?_eq_some_iff.mp (hget hi)).1
  refine (List.getElem?_inj hlt h).mp ?_
  rw [hget hi, hget hj, hpath]

theorem findIdx?_eq_some (h : SourceFile.Distinct files) {path : Path} :
    files.findIdx? (fun file => file.path == path) = some i ↔
      ∃ file, files[i]? = some file ∧ file.path.components = path.components := by
  rw [List.findIdx?_eq_some_iff_getElem]
  constructor
  · rintro ⟨hlt, hfile, -⟩
    exact ⟨files[i], List.getElem?_eq_getElem hlt, Path.beq_iff.mp hfile⟩
  · rintro ⟨file, hfile, hpath⟩
    obtain ⟨hlt, rfl⟩ := List.getElem?_eq_some_iff.mp hfile
    refine ⟨hlt, Path.beq_iff.mpr hpath, fun j hj hsame => ?_⟩
    -- an earlier file with the path would be the same file
    have hearlier := h.index_eq (List.getElem?_eq_getElem (Nat.lt_trans hj hlt)) hfile
      ((Path.beq_iff.mp hsame).trans hpath.symm)
    omega

theorem mem_indices (h : SourceFile.Distinct files) :
    i ∈ indices files paths ↔ ∃ file, files[i]? = some file ∧ file.path.components ∈ keys paths := by
  rw [indices, List.mem_filterMap]
  constructor
  · rintro ⟨path, hpath, hfound⟩
    obtain ⟨file, hfile, hsame⟩ := (findIdx?_eq_some h).mp hfound
    exact ⟨file, hfile, hsame ▸ List.mem_map_of_mem hpath⟩
  · rintro ⟨file, hfile, hkey⟩
    obtain ⟨path, hpath, hsame⟩ := List.mem_map.mp hkey
    exact ⟨path, hpath, (findIdx?_eq_some h).mpr ⟨file, hfile, hsame.symm⟩⟩

theorem nodup_indices (h : SourceFile.Distinct files) (hpaths : (keys paths).Nodup) : (indices files paths).Nodup := by
  rw [indices, List.Nodup, List.pairwise_filterMap]
  refine (List.pairwise_map.mp hpaths).imp fun {p q} hne i hi j hj hij => hne ?_
  obtain ⟨file, hfile, hp⟩ := (findIdx?_eq_some h).mp hi
  obtain ⟨file', hfile', hq⟩ := (findIdx?_eq_some h).mp hj
  rw [← hij, hfile] at hfile'
  obtain rfl := Option.some.inj hfile'
  exact hp.symm.trans hq

end Indices

/-- The files that are put on the list are those whose modules are not there. -/
theorem mem_unscheduled {a : Assembly} {k : Path.Components} : k ∈ keys ((Run.unscheduled a).map Prod.fst) ↔
      ∃ i file, a.files[i]? = some file ∧ .module i ∉ a.order ∧ file.path.components = k := by
  simp only [keys, Run.unscheduled, List.map_map, List.mem_map, List.mem_filter, Function.comp,
    Bool.not_eq_true', ← Bool.not_eq_true, Array.contains_iff_mem, Prod.exists, List.mem_zipIdx_iff_getElem?]
  constructor
  · rintro ⟨file, i, ⟨hfile, hnew⟩, hk⟩
    exact ⟨i, file, hfile, hnew, hk⟩
  · rintro ⟨i, file, hfile, hnew, hk⟩
    exact ⟨file, i, ⟨hfile, hnew⟩, hk⟩

namespace Session

/-- Some modules were put on the list of what is visited. -/
structure Schedules (modules : List Nat) (s s' : Session) : Prop where
  store : s'.store = s.store
  evaluated : s'.evaluated = s.evaluated
  handle : s'.handle = s.handle
  observer : s'.observer = s.observer
  files : s'.assembly.files = s.assembly.files
  tree : s'.assembly.tree = s.assembly.tree
  functions : s'.assembly.functions = s.assembly.functions
  lambdas : s'.assembly.lambdas = s.assembly.lambdas
  order : s'.assembly.order.toList = s.assembly.order.toList ++ modules.map .module

section Schedules

variable {modules modules' : List Nat} {s s' s'' : Session}

theorem Schedules.trans (h : s.Schedules modules s') (h' : s'.Schedules modules' s'') :
    s.Schedules (modules ++ modules') s'' where
  store := h'.store.trans h.store
  evaluated := h'.evaluated.trans h.evaluated
  handle := h'.handle.trans h.handle
  observer := h'.observer.trans h.observer
  files := h'.files.trans h.files
  tree := h'.tree.trans h.tree
  functions := h'.functions.trans h.functions
  lambdas := h'.lambdas.trans h.lambdas
  order := by rw [h'.order, h.order, List.map_append, List.append_assoc]

theorem Schedules.continues (h : s.Schedules modules s') : s.Continues s' where
  files := h.files
  tree := h.tree
  order := by
    rw [h.order]
    exact List.prefix_append _ _
  evaluated := h.evaluated ▸ List.suffix_refl _

theorem Listed.schedules (hs : s.Listed modules) (h : s.Schedules modules' s') : s'.Listed (modules ++ modules') where
  order := by
    rw [h.order, Assembly.work, Assembly.definitions, h.functions, h.lambdas, List.map_append, List.append_assoc]
    refine (hs.order.append_right _).trans ?_
    rw [Assembly.work, List.append_assoc]
    exact List.perm_append_comm.append_left _
  ids := by
    rw [Assembly.definitions, h.functions, h.lambdas, h.store]
    exact hs.ids
  functions := by rw [h.functions]; exact hs.functions
  lambdas := by rw [h.lambdas]; exact hs.lambdas

theorem Listed.of_perm (hs : s.Listed modules) (h : modules.Perm modules') : s.Listed modules' :=
  { hs with order := hs.order.trans ((h.map _).append_right _) }

theorem Listed.mem_module (hs : s.Listed modules) {i : Nat} : .module i ∈ s.assembly.order ↔ i ∈ modules := by
  rw [← Array.mem_toList_iff, hs.order.mem_iff, Assembly.work, List.mem_append, List.mem_map, List.mem_map]
  constructor
  · rintro (⟨j, hj, heq⟩ | ⟨entry, -, heq⟩)
    · cases heq
      exact hj
    · cases heq
  · exact fun hi => .inl ⟨i, hi, rfl⟩

end Schedules

end Session

namespace Run

open Session

variable {σ : Setting} {s : Session}

theorem schedules_schedule (path : Path) :
    ∃ s', schedule path σ s = (.ok (), s') ∧ s.Schedules (indices s.assembly.files [path]) s' := by
  rw [schedule, get_bind_apply, indices, List.filterMap_cons, List.filterMap_nil]
  cases s.assembly.files.findIdx? fun file => file.path == path with
  | none => exact ⟨s, rfl, rfl, rfl, rfl, rfl, rfl, rfl, rfl, rfl, (List.append_nil _).symm⟩
  | some index =>
    dsimp only
    rw [bind_apply, say_apply]
    exact ⟨_, rfl, rfl, rfl, rfl, rfl, rfl, rfl, rfl, rfl, Array.toList_push⟩

theorem schedules_loop (paths : List Path) :
    ∃ s', (forIn paths () fun path _ => schedule path >>= fun _ => pure (ForInStep.yield ())) σ s =
      (.ok (), s') ∧ s.Schedules (indices s.assembly.files paths) s' := by
  induction paths generalizing s with
  | nil => exact ⟨s, rfl, rfl, rfl, rfl, rfl, rfl, rfl, rfl, rfl, (List.append_nil _).symm⟩
  | cons path rest ih =>
    obtain ⟨s₁, hfirst, hone⟩ := schedules_schedule (σ := σ) (s := s) path
    obtain ⟨s₂, hrest, hmore⟩ := ih (s := s₁)
    refine ⟨s₂, ?_, ?_⟩
    · rw [List.forIn_cons, bind_apply, bind_apply, hfirst]
      exact hrest
    · have hboth := hone.trans hmore
      rw [hone.files, indices, indices, ← List.filterMap_append] at hboth
      exact hboth

/-- Modules that are not on the list are put on it, in their order. -/
theorem schedules_scheduleModules (σ : Setting) (s : Session) : ∃ s', scheduleModules σ s = (.ok (), s') ∧
    s.Schedules (indices s.assembly.files (moduleOrder (unscheduled s.assembly) s.assembly.searchPaths)) s' := by
  obtain ⟨s', hrun, hschedules⟩ := schedules_loop (σ := σ) (s := s)
    (moduleOrder (unscheduled s.assembly) s.assembly.searchPaths)
  refine ⟨s', ?_, hschedules⟩
  rw [scheduleModules, get_bind_apply, bind_apply, hrun]
  rfl

/-- **All modules are put on the list, each once.** -/
theorem listed_scheduleModules {modules : List Nat} (hs : s.Listed modules) (hnodup : modules.Nodup)
    (hfiles : ∀ i ∈ modules, i < s.assembly.files.length) (hdistinct : SourceFile.Distinct s.assembly.files) :
    ∃ s', scheduleModules σ s = (.ok (), s') ∧ (∃ modules', s.Schedules modules' s') ∧
      s'.Listed (List.range s.assembly.files.length) := by
  obtain ⟨s', hrun, hschedules⟩ := schedules_scheduleModules σ s
  refine ⟨s', hrun, ⟨_, hschedules⟩, (hs.schedules hschedules).of_perm ?_⟩
  · have hnew : ∀ i, i ∈ indices s.assembly.files (moduleOrder (unscheduled s.assembly) s.assembly.searchPaths) ↔
          i < s.assembly.files.length ∧ i ∉ modules := by
      intro i
      rw [mem_indices hdistinct]
      constructor
      · rintro ⟨file, hfile, hkey⟩
        obtain ⟨j, file', hfile', hunlisted, hsame⟩ := mem_unscheduled.mp ((mem_moduleOrder _ _ _).mp hkey)
        obtain rfl := hdistinct.index_eq hfile' hfile hsame
        rw [hs.mem_module] at hunlisted
        exact ⟨(List.getElem?_eq_some_iff.mp hfile).1, hunlisted⟩
      · rintro ⟨hlt, hunlisted⟩
        rw [← hs.mem_module] at hunlisted
        refine ⟨_, List.getElem?_eq_getElem hlt, (mem_moduleOrder _ _ _).mpr (mem_unscheduled.mpr ?_)⟩
        exact ⟨i, _, List.getElem?_eq_getElem hlt, hunlisted, rfl⟩
    have hindices := nodup_indices hdistinct (nodup_moduleOrder (unscheduled s.assembly) s.assembly.searchPaths)
    refine (List.perm_ext_iff_of_nodup ?_ List.nodup_range).mpr fun i => ?_
    · exact List.nodup_append.mpr ⟨hnodup, hindices, fun i hi j hj hij => ((hnew j).mp hj).2 (hij ▸ hi)⟩
    · rw [List.mem_append, hnew, List.mem_range]
      by_cases hi : i ∈ modules
      · exact ⟨fun _ => hfiles i hi, fun _ => .inl hi⟩
      · exact ⟨fun h => (h.resolve_left hi).1, fun h => .inr ⟨h, hi⟩⟩

end Run

end Surmise
