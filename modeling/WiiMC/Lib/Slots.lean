import Mathlib.Data.List.Nodup
import Mathlib.Data.Nat.ModEq
import Mathlib.Tactic.Common

/-!
# Numbered slots

A queue in a fixed number of slots that are taken in turn: what comes as number `i` stands in slot
`i % size`. As long as a window of the numbers is no longer than the number of slots, no two of
them share a slot.

* `slots`: the slots of the numbers of a window.
* `nodup_slots`, `not_mem_slots_of_le`: what does not share a slot.
-/

namespace Slots

variable {size lo m n a b : ℕ}

/-- The slots of the numbers from `lo` on, `n` of them. -/
def slots (size lo n : ℕ) : List ℕ := (List.range' lo n).map (· % size)

@[simp]
theorem length_slots : (slots size lo n).length = n := by
  rw [slots, List.length_map, List.length_range']

theorem slots_add : slots size lo (m + n) = slots size lo m ++ slots size (lo + m) n := by
  rw [slots, ← List.range'_append_1, List.map_append]
  rfl

theorem slots_succ : slots size lo (n + 1) = slots size lo n ++ [(lo + n) % size] := slots_add

theorem drop_slots (h : m ≤ n) : (slots size lo n).drop m = slots size (lo + m) (n - m) := by
  obtain ⟨k, rfl⟩ := Nat.exists_eq_add_of_le h
  rw [slots_add, List.drop_left' length_slots, Nat.add_sub_cancel_left]

theorem slots_prefix_slots (h : m ≤ n) : slots size lo m <+: slots size lo n := by
  obtain ⟨k, rfl⟩ := Nat.exists_eq_add_of_le h
  rw [slots_add]
  exact List.prefix_append _ _

theorem mem_slots : a ∈ slots size lo n ↔ ∃ i, lo ≤ i ∧ i < lo + n ∧ i % size = a := by
  simp only [slots, List.mem_map, List.mem_range'_1, and_assoc]

/-- Two numbers less than `size` apart that share a slot are the same. -/
theorem eq_of_mod_eq (hab : a ≤ b) (hlt : b < a + size) (h : a % size = b % size) : a = b := by
  have hdiff : (b - a) % size = 0 := (Nat.modEq_iff_dvd' hab).mp h |> Nat.mod_eq_zero_of_dvd
  rw [Nat.mod_eq_of_lt (Nat.sub_lt_left_of_lt_add hab hlt)] at hdiff
  exact Nat.le_antisymm hab (Nat.le_of_sub_eq_zero hdiff)

theorem nodup_slots (h : n ≤ size) : (slots size lo n).Nodup := by
  refine List.Nodup.map_on (fun i hi j hj hij => ?_) List.nodup_range'
  rw [List.mem_range'_1] at hi hj
  rcases Nat.le_total i j with hle | hle
  · exact eq_of_mod_eq hle (by omega) hij
  · exact (eq_of_mod_eq hle (by omega) hij.symm).symm

/-- A number behind the window. -/
theorem not_mem_slots_of_le (ha : lo + n ≤ a) (hlt : a < lo + size) :
    a % size ∉ slots size lo n := by
  intro h
  obtain ⟨i, hlo, hhi, hi⟩ := mem_slots.mp h
  have := eq_of_mod_eq (Nat.le_trans hhi.le ha) (by omega) hi
  omega

end Slots
