import Surmise.Project.Importer
import Surmise.Proofs.Query.Answers

/-!
# Imports give sound values

What is imported is found by queries for members, so it is sound, and there is an answer unless the analysis is
cancelled.
-/

namespace Surmise.Importer

open Value

variable {w w' : World} {π : Shift} {p : Prop} (h : w.Reads π w') (hs : p → w.store.Sound) (i : Importer)

include h

theorem localSymbol?_of_reads (name : String) : i.localSymbol? w' name = i.localSymbol? w name := by
  have hentry : ∀ dir, i.tree.entry? w'.store dir name = i.tree.entry? w.store dir name := by
    intro dir
    refine congrArg (i.tree.dir? dir).bind (funext fun p => ?_)
    rw [h.store.package, h.store.inPackage]
  simp only [localSymbol?, SourceTree.importAbsolute, hentry]

include hs

theorem kin_root (name : String) : Kin π p w.store.nextSerial (i.root w name) (i.root w' name) := by
  have hgraph : graphValue w' name = graphValue w name := by simp only [graphValue, World.externalValue, h.graph]
  unfold root
  rw [i.localSymbol?_of_reads h, hgraph]
  refine Kin.unite ?_ (kin_fixed fun _ => sound_ite (World.sound_externalValue name) sound_empty)
  split
  · exact ⟨h.store.value _, fun hp => (hs hp).value _⟩
  · exact kin_empty

theorem agrees_traverse (path : List String) {v : Value} (hv : v.SoundIf p w.store.nextSerial) :
    Agrees π p w.store.nextSerial (traverse w v path) (traverse w' (v.shift π) path) := by
  induction path generalizing v with
  | nil => exact (kin_shift hv).agrees
  | cons name rest ih =>
    unfold traverse
    rw [isEmpty_shift]
    split
    · exact (kin_shift hv).agrees
    · exact (h.member hs callLimit hv name).bind fun m hm => ih hm

theorem agrees_absolute (path : List String) :
    Agrees π p w.store.nextSerial (i.absolute w path) (i.absolute w' path) := by
  cases path with
  | nil => exact kin_empty.agrees
  | cons first rest =>
    obtain ⟨hsame, hsound⟩ := i.kin_root h hs first
    rw [absolute, absolute, hsame]
    exact agrees_traverse h hs rest hsound

theorem agrees_resolve (dots : Nat) (path : List String) :
    Agrees π p w.store.nextSerial (i.resolve w dots path) (i.resolve w' dots path) := by
  have hrelative : ∀ m, (i.relative dots).Sound m := fun m => by
    unfold relative
    split <;> simp
  have htraverse := agrees_traverse h hs path fun _ => hrelative w.store.nextSerial
  rw [shift_of_sound π (hrelative _)] at htraverse
  unfold resolve
  split
  · exact i.agrees_absolute h hs path
  · exact htraverse

end Surmise.Importer
