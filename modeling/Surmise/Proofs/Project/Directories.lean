import Surmise.Proofs.Store.Bindings

/-!
# Directories of packages

No two packages of a tree lie in one directory, and a package has a named entry only if a file lies below
it.

* `SourceTree.Housed`: this, for any condition on the directories with entries.
* `SourceTree.Loads.housed`: adding files keeps it.
-/

namespace Surmise

open StoreM

/-- The path lies somewhere below the directory. -/
def Path.LiesBelow (p dir : Path) : Prop :=
  ∃ levels above, p.up? (levels + 1) = some above ∧ (dir == above) = true

instance (p dir : Path) : Decidable (p.LiesBelow dir) :=
  decidable_of_iff (∃ levels < p.parts.length, ((p.up? (levels + 1)).any fun above => dir == above) = true) <| by
    constructor
    · rintro ⟨levels, -, hany⟩
      obtain ⟨above, hup, habove⟩ := (Option.any_eq_true _ _).mp hany
      exact ⟨levels, above, hup, habove⟩
    · rintro ⟨levels, above, hup, habove⟩
      have hlength := Path.length_parts_of_up? hup
      exact ⟨levels, by omega, (Option.any_eq_true _ _).mpr ⟨above, hup, habove⟩⟩

/-- Of entries with different paths, none two have the same components. -/
theorem Path.eq_of_components {α : Type} {entries : List (Path × α)}
    (h : entries.Pairwise fun e e' => (e.1 == e'.1) = false) {e e' : Path × α} (he : e ∈ entries)
    (he' : e' ∈ entries) (hsame : e.1.components = e'.1.components) : e = e' := by
  have hnodup : (entries.map fun e => e.1.components).Nodup := by
    refine List.pairwise_map.mpr (h.imp fun hne heq => ?_)
    rw [Path.beq_iff.mpr heq] at hne
    cases hne
  exact List.inj_on_of_nodup_map hnodup he he' hsame

namespace SourceTree

/-- Every package lies in a directory of its own, and has a named entry only if its directory satisfies
`R`. -/
structure Housed (R : Path → Prop) (a : Store × SourceTree) : Prop where
  dirs : a.2.dirs.Pairwise fun e e' => (e.1 == e'.1) = false
  known : ∀ p : PackageId, p.index < a.1.packages.size → (a.1.package p).entries.index < a.1.tables.size
  address : ∀ p : PackageId, p.index < a.1.packages.size →
    (a.1.table (a.1.package p).entries).address = .ofFile (a.1.package p).dir
  entries : ∀ p : PackageId, p.index < a.1.packages.size → ∀ name id,
    a.1.get? (a.1.package p).entries name = some id → name = "" ∨ R (a.1.package p).dir

variable {t : SourceTree} {R Q : Path → Prop} {a b : Store × SourceTree}

theorem forall_of_dir?_eq_none {dir : Path} (h : t.dir? dir = none) :
    ∀ e ∈ t.dirs, (e.1 == dir) = false := by
  intro e he
  have hnone := List.find?_eq_none.mp (Option.map_eq_none_iff.mp h) e he
  exact Bool.eq_false_iff.mpr hnone

theorem Housed.imp {R' : Path → Prop} (h : Housed R a) (himp : ∀ d, R d → R' d) : Housed R' a :=
  { h with entries := fun p hp name id hid => (h.entries p hp name id hid).imp_right (himp _) }

/-- What has to be shown of a later store: packages that were there get named entries only in directories that satisfy
`R`, and new ones have none. -/
theorem Housed.extend {s s' : Store} {t' : SourceTree} (h : Housed R (s, t)) (hx : s.Extends s')
    (hdirs : t'.dirs.Pairwise fun e e' => (e.1 == e'.1) = false)
    (hold : ∀ p : PackageId, p.index < s.packages.size → ∀ name id, s'.get? (s.package p).entries name = some id →
      s.get? (s.package p).entries name = some id ∨ name = "" ∨ R (s.package p).dir)
    (hnew : ∀ p : PackageId, p.index < s'.packages.size → p.index < s.packages.size ∨
      (s'.package p).entries.index < s'.tables.size ∧
        (s'.table (s'.package p).entries).address = .ofFile (s'.package p).dir ∧
          ∀ name, s'.get? (s'.package p).entries name = none) : Housed R (s', t') := by
  refine ⟨hdirs, fun p hp => ?_, fun p hp => ?_, fun p hp name id hid => ?_⟩
  all_goals
    dsimp only at *
    rcases hnew p hp with hlt | ⟨hknown, haddress, hnone⟩
    on_goal 1 => obtain ⟨hdir, hentries⟩ := hx.package p hlt
  · rw [hentries]
    exact Nat.lt_of_lt_of_le (h.known p hlt) hx.tables
  · exact hknown
  · rw [hdir, hentries, (hx.table _ (h.known p hlt)).1]
    exact h.address p hlt
  · exact haddress
  · rw [hentries] at hid
    rw [hdir]
    exact (hold p hlt name id hid).elim (h.entries p hlt name id) fun hnamed => hnamed
  · cases (hnone name).symm.trans hid

/-- Where the packages and their entries stay the same, each keeps its directory. -/
theorem Housed.keep {st st' : Store} (h : Housed R (st, t))
    (hx : st.Extends st') (hk : st.PackagesKept st') : Housed R (st', t) := by
  refine h.extend hx h.dirs (fun p hp name id hid => .inl ?_) fun p hp => .inl (hk.packages ▸ hp)
  rwa [hk.entries _ ⟨p, hp, rfl⟩] at hid

theorem Load.housed (hQR : ∀ d, Q d → R d) (h : Load Q a b) (ha : Housed R a) : Housed R b := by
  have hx := h.extension
  cases h with
  | @package s t dir hnew =>
    have hget : ∀ scope name, (packageAdded dir s).get? scope name = s.get? scope name :=
      get?_opened (.ofFile dir) none s
    refine ha.extend hx ?_ (fun p _ name id hid => .inl (hget _ _ ▸ hid)) fun p hp => ?_
    · refine List.pairwise_append.mpr ⟨ha.dirs, List.pairwise_singleton _ _, fun e he e' he' => ?_⟩
      obtain rfl := List.mem_singleton.mp he'
      exact forall_of_dir?_eq_none hnew e he
    · simp only [packageAdded, Array.size_push] at hp
      by_cases hlast : p.index = s.packages.size
      · refine .inr ?_
        rw [package_packageAdded, if_pos hlast]
        refine ⟨by simp [packageAdded, opened], ?_, fun name => ?_⟩
        · show ((opened (.ofFile dir) none s).table ⟨s.tables.size⟩).address = _
          rw [table_opened, if_pos rfl]
        · rw [hget]
          exact get?_of_size_le (Nat.le_refl _) name
      · exact .inl (by omega)
  | @entry s t p hp name hname v hv =>
    have hpackages := (sameObjects_produceIn (s.package p).entries name v s).packages
    refine ha.extend hx ha.dirs (fun q hq other id hid => ?_) fun q hq => .inl (hpackages ▸ hq)
    rcases Store.get?_produceIn s (s.package p).entries name v (s.package q).entries other with
      hold | ⟨hscope, hother, -⟩
    · exact .inl (hold ▸ hid)
    · -- packages with one scope have one directory
      have haddress := ha.address q hq
      dsimp only at haddress
      rw [hscope, ha.address p hp] at haddress
      have hdir : (s.package p).dir = (s.package q).dir := congrArg Address.file haddress
      exact .inr (hname.imp hother.trans fun hq' => hdir ▸ hQR _ hq')
  | init s t p m =>
    have hsize : (setInit p m s).2.packages.size = s.packages.size := Array.size_modify
    refine ha.extend hx ha.dirs (fun q _ name id hid => .inl ?_) fun q hq => .inl (hsize ▸ hq)
    rwa [Store.get?_of_tables rfl] at hid

theorem Loads.housed (hQR : ∀ d, Q d → R d) (h : Loads Q a b) (ha : Housed R a) : Housed R b := by
  induction h with
  | refl => exact ha
  | tail _ hload ih => exact hload.housed hQR ih

end SourceTree

end Surmise
