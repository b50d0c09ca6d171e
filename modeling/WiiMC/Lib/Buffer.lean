import Mathlib.Tactic.Common

/-!
# Arrays that are read and written in place

A write says where it begins and what it stores, and a read how many elements it takes. They fail
where they would go past the end of the array, so that a function that returns a value has kept to
its arrays.

* `put`: the write.
* `put_append`: a write and the next one, which begins where the first has ended, are one.
* `take_put`, `drop_put`: what stands around a write is left as it is.
* `get`: elements are read, where they are inside of the array.
* `get_append`: what is read is what stands there.
-/

namespace Buffer

variable {α : Type*} {i : ℕ} {xs ys a b : List α}

/-- `memcpy(a + i, xs, n)`, where `xs` has `n` elements. -/
def put (i : ℕ) (xs a : List α) : Option (List α) :=
  if i + xs.length ≤ a.length then some (a.take i ++ xs ++ a.drop (i + xs.length)) else none

theorem put_of_le (h : i + xs.length ≤ a.length) :
    put i xs a = some (a.take i ++ xs ++ a.drop (i + xs.length)) := if_pos h

theorem put_eq_some_iff :
    put i xs a = some b ↔
      i + xs.length ≤ a.length ∧ a.take i ++ xs ++ a.drop (i + xs.length) = b := by
  unfold put
  rw [Option.ite_none_right_eq_some, Option.some.injEq]

theorem exists_put (h : i + xs.length ≤ a.length) : ∃ b, put i xs a = some b := ⟨_, if_pos h⟩

theorem length_put (h : put i xs a = some b) : b.length = a.length := by
  obtain ⟨hle, rfl⟩ := put_eq_some_iff.mp h
  simp only [List.length_append, List.length_take, List.length_drop]
  omega

/-- What stands in front of a write is left as it is. -/
theorem take_put (h : put i xs a = some b) : b.take (i + xs.length) = a.take i ++ xs := by
  obtain ⟨hle, rfl⟩ := put_eq_some_iff.mp h
  refine List.take_left' ?_
  rw [List.length_append, List.length_take]
  omega

/-- What stands behind a write is left as it is. -/
theorem drop_put (h : put i xs a = some b) :
    b.drop (i + xs.length) = a.drop (i + xs.length) := by
  obtain ⟨hle, rfl⟩ := put_eq_some_iff.mp h
  refine List.drop_left' ?_
  rw [List.length_append, List.length_take]
  omega

/-- Writing nothing. -/
theorem put_nil (h : i ≤ a.length) : put i [] a = some a := by
  rw [put_of_le (by simpa using h), List.append_nil, List.length_nil, Nat.add_zero,
    List.take_append_drop]

/-- A write and the one behind it are one write. -/
theorem put_append (i : ℕ) (xs ys a : List α) :
    (put i xs a).bind (put (i + xs.length) ys) = put i (xs ++ ys) a := by
  by_cases hle : i + xs.length + ys.length ≤ a.length
  · rcases hput : put i xs a with _ | b
    · rw [put_of_le (by omega)] at hput
      cases hput
    · have hlen := length_put hput
      have hdrop : b.drop (i + xs.length + ys.length) = a.drop (i + xs.length + ys.length) := by
        rw [← List.drop_drop, drop_put hput, List.drop_drop]
      rw [Option.bind_some, put_of_le (by omega), put_of_le (by rw [List.length_append]; omega),
        take_put hput, hdrop, List.length_append, Nat.add_assoc, List.append_assoc (a.take i)]
  · have hnone : put i (xs ++ ys) a = none := if_neg (by rw [List.length_append]; omega)
    rw [hnone]
    rcases hput : put i xs a with _ | b
    · rfl
    · exact if_neg (by rw [length_put hput]; exact hle)

/-! ## Reading -/

/-- The `n` elements from `a + i` on. -/
def get (i n : ℕ) (a : List α) : Option (List α) :=
  if i + n ≤ a.length then some ((a.drop i).take n) else none

theorem get_of_le {n : ℕ} (h : i + n ≤ a.length) : get i n a = some ((a.drop i).take n) :=
  if_pos h

theorem get_append (pre xs post : List α) {n : ℕ} (hn : xs.length = n) :
    get pre.length n (pre ++ (xs ++ post)) = some xs := by
  rw [get_of_le (by simp only [List.length_append]; omega), List.drop_left, List.take_left' hn]

end Buffer
