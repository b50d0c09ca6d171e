import Mathlib.Order.Basic
import Mathlib.Tactic.Common
import Mathlib.Algebra.Order.Ring.Int

/-!
# Binary search by a three-way comparison

A search over the indices from `lo` to `hi`, by a comparison that says where the key lies: before
the element at an index, at it, or behind it. The upper one of two middles is probed, and the index
of the last probe is part of the result.

* `Search.Ordered`: the key is behind every element in front of one that it is not before.
* `Search.loop_found`: what is found is at the key.
* `Search.loop_lost`: if nothing is found, the last probe is next to the place of the key.
-/

namespace Search

/-- The search between `i` and `j`; `last` is the index of the probe before. -/
def loop (cmp : ℤ → Ordering) (i j last : ℤ) : Bool × ℤ :=
  if i ≤ j then
    let m := (i + j + 1) / 2
    match cmp m with
    | .lt => loop cmp i (m - 1) m
    | .gt => loop cmp (m + 1) j m
    | .eq => (true, m)
  else (false, last)
termination_by (j + 1 - i).toNat
decreasing_by all_goals omega

/-- The elements are in order, from the view of the key. -/
def Ordered (cmp : ℤ → Ordering) (lo hi : ℤ) : Prop :=
  ∀ a b, lo ≤ a → a < b → b ≤ hi → cmp b ≠ .lt → cmp a = .gt

variable {cmp : ℤ → Ordering} {lo hi i j last k : ℤ}

/-- In front of an element that the key is before, the key may be anywhere; behind it, it is before
all. -/
theorem Ordered.lt_of_ne_gt (h : Ordered cmp lo hi) {a b : ℤ} (ha : lo ≤ a) (hab : a < b)
    (hb : b ≤ hi) (hcmp : cmp a ≠ .gt) : cmp b = .lt := by
  by_contra hne
  exact hcmp (h a b ha hab hb hne)

/-- Where the search stands: what is left out in front is behind, what is left out behind is before,
and the last probe, if there was one, is next to the rest. -/
structure Narrowed (cmp : ℤ → Ordering) (lo hi i j last : ℤ) : Prop where
  low : lo ≤ i
  high : j ≤ hi
  front : ∀ k, lo ≤ k → k < i → cmp k = .gt
  back : ∀ k, j < k → k ≤ hi → cmp k = .lt
  probe : i ≤ j ∨ (lo ≤ last ∧ last ≤ hi ∧
    (last = j + 1 ∧ i ≤ last ∧ cmp last = .lt ∨ last = i - 1 ∧ last ≤ j ∧ cmp last = .gt))

theorem Narrowed.init (h : lo ≤ hi) (last : ℤ) : Narrowed cmp lo hi lo hi last :=
  ⟨le_rfl, le_rfl, fun k hk hlt => by omega, fun k hlt hk => by omega, Or.inl h⟩

/-- The probe is before the key. -/
theorem Narrowed.left (h : Narrowed cmp lo hi i j last) (ho : Ordered cmp lo hi) (hij : i ≤ j)
    (hcmp : cmp ((i + j + 1) / 2) = .lt) :
    Narrowed cmp lo hi i ((i + j + 1) / 2 - 1) ((i + j + 1) / 2) := by
  have hlow := h.low
  have hhigh := h.high
  refine ⟨hlow, by omega, h.front, fun k hlt hk => ?_, Or.inr ⟨by omega, by omega, Or.inl ?_⟩⟩
  · by_cases heq : k = (i + j + 1) / 2
    · rw [heq]
      exact hcmp
    · exact ho.lt_of_ne_gt (a := (i + j + 1) / 2) (by omega) (by omega) hk
        (by rw [hcmp]; exact fun h => by cases h)
  · exact ⟨by omega, by omega, hcmp⟩

/-- The probe is behind the key. -/
theorem Narrowed.right (h : Narrowed cmp lo hi i j last) (ho : Ordered cmp lo hi) (hij : i ≤ j)
    (hcmp : cmp ((i + j + 1) / 2) = .gt) :
    Narrowed cmp lo hi ((i + j + 1) / 2 + 1) j ((i + j + 1) / 2) := by
  have hlow := h.low
  have hhigh := h.high
  refine ⟨by omega, hhigh, fun k hk hlt => ?_, h.back, Or.inr ⟨by omega, by omega, Or.inr ?_⟩⟩
  · by_cases heq : k = (i + j + 1) / 2
    · rw [heq]
      exact hcmp
    · exact ho k ((i + j + 1) / 2) hk (by omega) (by omega)
        (by rw [hcmp]; exact fun h => by cases h)
  · exact ⟨by omega, by omega, hcmp⟩

theorem loop_found (h : Narrowed cmp lo hi i j last) (ho : Ordered cmp lo hi)
    (hfound : loop cmp i j last = (true, k)) : lo ≤ k ∧ k ≤ hi ∧ cmp k = .eq := by
  fun_induction loop cmp i j last with
  | case1 i j last hij m hcmp ih => exact ih (h.left ho hij hcmp) hfound
  | case2 i j last hij m hcmp ih => exact ih (h.right ho hij hcmp) hfound
  | case3 i j last hij m hcmp =>
    have hk : (i + j + 1) / 2 = k := (Prod.mk.inj hfound).2
    have hlow := h.low
    have hhigh := h.high
    rw [← hk]
    exact ⟨by omega, by omega, hcmp⟩
  | case4 => cases hfound

/-- The last probe is the first element behind the key, or the last one before it. -/
theorem loop_lost (h : Narrowed cmp lo hi i j last) (ho : Ordered cmp lo hi)
    (hlost : loop cmp i j last = (false, k)) : lo ≤ k ∧ k ≤ hi ∧
      (cmp k = .lt ∧ (∀ l, lo ≤ l → l < k → cmp l = .gt) ∨
        cmp k = .gt ∧ ∀ l, k < l → l ≤ hi → cmp l = .lt) := by
  fun_induction loop cmp i j last with
  | case1 i j last hij m hcmp ih => exact ih (h.left ho hij hcmp) hlost
  | case2 i j last hij m hcmp ih => exact ih (h.right ho hij hcmp) hlost
  | case3 => cases hlost
  | case4 i j last hij =>
    cases hlost
    rcases h.probe with hle | ⟨hlo, hhi, ⟨heq, hi', hcmp⟩ | ⟨heq, hj, hcmp⟩⟩
    · exact absurd hle hij
    · exact ⟨hlo, hhi, Or.inl ⟨hcmp, fun l hl hlt => h.front l hl (by omega)⟩⟩
    · exact ⟨hlo, hhi, Or.inr ⟨hcmp, fun l hlt hl => h.back l (by omega) hl⟩⟩

/-- If nothing is found, the key is at no element. -/
theorem cmp_ne_eq_of_lost (h : lo ≤ hi) (ho : Ordered cmp lo hi)
    (hlost : loop cmp lo hi last = (false, k)) {l : ℤ} (hl : lo ≤ l) (hle : l ≤ hi) :
    cmp l ≠ .eq := by
  obtain ⟨hlo, hhi, ⟨hcmp, hfront⟩ | ⟨hcmp, hback⟩⟩ := loop_lost (.init h last) ho hlost
  · rcases lt_trichotomy l k with hlt | rfl | hgt
    · rw [hfront l hl hlt]
      exact fun h => by cases h
    · rw [hcmp]
      exact fun h => by cases h
    · rw [ho.lt_of_ne_gt hlo hgt hle (by rw [hcmp]; exact fun h => by cases h)]
      exact fun h => by cases h
  · rcases lt_trichotomy l k with hlt | rfl | hgt
    · rw [ho l k hl hlt hhi (by rw [hcmp]; exact fun h => by cases h)]
      exact fun h => by cases h
    · rw [hcmp]
      exact fun h => by cases h
    · rw [hback l hgt hle]
      exact fun h => by cases h

end Search
