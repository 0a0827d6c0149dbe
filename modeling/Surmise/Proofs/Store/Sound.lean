import Surmise.Proofs.OrderedMap
import Surmise.Proofs.Value.Serial
import Surmise.Store.Objects

/-!
# Stores of sound values

Every value that a store keeps is well formed and numbered below the counter of the store.
-/

namespace Surmise

open OrderedMap Value

/-- Every value in the store is sound, and those of symbols and keyword dictionaries are numbered. -/
structure Store.Sound (s : Store) : Prop where
  value : ∀ id, (s.value id).Sound s.nextSerial
  numbered : ∀ id, (s.value id).isNumbered = true
  bases : ∀ c, ∀ b ∈ (s.classOf c).bases, b.Sound s.nextSerial
  kwargs : ∀ dict, ∀ v ∈ (s.kwargsOf dict).values, v.Sound s.nextSerial ∧ v.isNumbered = true
  labelled : ∀ index, ∀ entry ∈ s.labelledMembers index, entry.2.Sound s.nextSerial

theorem Store.sound_empty : Store.empty.Sound where
  value := fun _ => (by simp : Value.Sound 0 .null)
  numbered := fun _ => rfl
  bases := nofun
  kwargs := nofun
  labelled := nofun

namespace Store.Sound

variable {s : Store} (h : s.Sound)

include h

theorem valueIn (table : TableId) (name : String) : (s.valueIn table name).Sound s.nextSerial := by
  unfold Store.valueIn
  split
  · exact h.value _
  · exact Value.sound_empty

theorem kwargsValues (dict : KwargsId) : (s.kwargsValues dict).Sound s.nextSerial :=
  sound_unite fun v hv => (h.kwargs dict v hv).1

theorem kwarg (dict : KwargsId) (name : String) : (((s.kwargsOf dict).get? name).getD .empty).Sound s.nextSerial :=
  Value.sound_getD (fun v hv => (h.kwargs dict v (OrderedMap.mem_values_of_get? hv)).1) Value.sound_empty

theorem base {c : ClassId} {v : Value} (hv : v ∈ flatten (s.classOf c).bases) : v.Sound s.nextSerial := by
  obtain ⟨b, hb, hv⟩ := mem_flatten hv
  exact (h.bases c b hb).of_mem_disjuncts hv

end Store.Sound

end Surmise
