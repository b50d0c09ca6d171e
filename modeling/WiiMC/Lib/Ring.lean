import Mathlib.Tactic.Common
import Mathlib.Tactic.Ring
import Mathlib.Data.Int.ModEq

/-!
# Circular memory

A memory of `size` cells holds a window `[lo, hi)` of an unbounded sequence `src`: position `p`
lives in cell `(p - offset) % size`. Positions are integers and the memory is a function on
cells, so the lemmas below are about which cells an operation touches.

* `Holds mem size offset src lo hi`: the window `[lo, hi)` of `src` is in `mem`.
* `Holds.write_of_disjoint`: writing the cells of the positions `[q, q + n)` keeps every window
  that ends at `q` and is at most `size - n` long.
* `Holds.of_write`: after writing `src[q, q + n)` into its own cells, `[q, q + n)` is held.
* `Holds.extend`: the two together, the window extended by what is written.
* `Holds.slice`: a contiguous run of cells inside the window reads back as `src`.
-/

namespace Ring

variable {α : Type*}

/-- The `n` values of `src` from position `p` on. -/
def slice (src : ℤ → α) (p : ℤ) (n : ℕ) : List α :=
  (List.range n).map fun i : ℕ => src (p + i)

/-- `mem` with `data` copied to the cells from `at_` on. -/
def write (mem : ℤ → α) (at_ : ℤ) (data : List α) : ℤ → α := fun i =>
  if at_ ≤ i then (data[(i - at_).toNat]?).getD (mem i) else mem i

/-- The window `[lo, hi)` of `src` is in the circular memory. -/
def Holds (mem : ℤ → α) (size offset : ℤ) (src : ℤ → α) (lo hi : ℤ) : Prop :=
  ∀ p, lo ≤ p → p < hi → mem ((p - offset) % size) = src p

/-! ## Slices -/

/-- A slice has its length. -/
@[simp]
theorem length_slice (src : ℤ → α) (p : ℤ) (n : ℕ) : (slice src p n).length = n := by
  simp [slice]

/-- The elements of a slice are those of the source. -/
theorem getElem?_slice (src : ℤ → α) (p : ℤ) {n i : ℕ} (h : i < n) :
    (slice src p n)[i]? = some (src (p + i)) := by
  simp [slice, h]

/-- A slice of no length is empty. -/
@[simp]
theorem slice_zero (src : ℤ → α) (p : ℤ) : slice src p 0 = [] := rfl

/-- Two slices that meet are one. -/
theorem slice_add (src : ℤ → α) (p : ℤ) (m n : ℕ) :
    slice src p (m + n) = slice src p m ++ slice src (p + m) n := by
  simp [slice, List.range_add, add_assoc]

/-- The beginning of a slice is a slice. -/
theorem take_slice (src : ℤ → α) (p : ℤ) {m n : ℕ} (h : m ≤ n) :
    (slice src p n).take m = slice src p m := by
  obtain ⟨k, rfl⟩ := Nat.exists_eq_add_of_le h
  rw [slice_add, List.take_left' (length_slice src p m)]

/-- The end of a slice is a slice. -/
theorem drop_slice (src : ℤ → α) (p : ℤ) {m n : ℕ} (h : m ≤ n) :
    (slice src p n).drop m = slice src (p + m) (n - m) := by
  obtain ⟨k, rfl⟩ := Nat.exists_eq_add_of_le h
  rw [slice_add, List.drop_left' (length_slice src p m), Nat.add_sub_cancel_left]

/-- Two sequences that agree on `n` positions have the same slice there. -/
theorem slice_congr {src src' : ℤ → α} {p p' : ℤ} {n : ℕ}
    (h : ∀ i : ℕ, i < n → src (p + i) = src' (p' + i)) : slice src p n = slice src' p' n := by
  apply List.map_congr_left
  intro i hi
  exact h i (List.mem_range.mp hi)

/-! ## Writes -/

/-- What stands in front of a write is left as it is. -/
theorem write_of_lt (mem : ℤ → α) {at_ i : ℤ} (data : List α) (h : i < at_) :
    write mem at_ data i = mem i := by
  rw [write, if_neg (by omega)]

/-- What stands behind a write is left as it is. -/
theorem write_of_ge (mem : ℤ → α) {at_ i : ℤ} (data : List α) (h : at_ + data.length ≤ i) :
    write mem at_ data i = mem i := by
  rw [write, if_pos (by omega), List.getElem?_eq_none (by omega), Option.getD_none]

/-- A slice that is written is read back. -/
theorem write_slice (mem src : ℤ → α) (at_ p : ℤ) {n : ℕ} {i : ℤ} (h : at_ ≤ i)
    (hi : i < at_ + n) : write mem at_ (slice src p n) i = src (p + (i - at_)) := by
  rw [write, if_pos h, getElem?_slice src p (by omega), Option.getD_some]
  congr 2
  omega

/-- Writing nothing changes nothing. -/
@[simp]
theorem write_nil (mem : ℤ → α) (at_ : ℤ) : write mem at_ [] = mem := by
  funext i
  simp [write]

/-! ## Cells -/

/-- Positions from `q` on live in consecutive cells up to the end of the memory. -/
theorem cell_add {size offset q d : ℤ} (hsize : 0 < size) (hd : 0 ≤ d)
    (hfit : (q - offset) % size + d < size) :
    (q + d - offset) % size = (q - offset) % size + d := by
  have hnn := Int.emod_nonneg (q - offset) hsize.ne'
  rw [show q + d - offset = (q - offset) + d by ring, Int.add_emod,
    Int.emod_eq_of_lt hd (by omega), Int.emod_eq_of_lt (by omega) hfit]

/-- The cell of a position less than `size` before or after the offset. -/
theorem cell_of_lt {size offset p : ℤ} (h0 : 0 ≤ p - offset) (h1 : p - offset < size) :
    (p - offset) % size = p - offset :=
  Int.emod_eq_of_lt h0 h1

/-- In front of the offset the cells are counted from the end. -/
theorem cell_of_neg {size offset p : ℤ} (h0 : -size ≤ p - offset) (h1 : p - offset < 0) :
    (p - offset) % size = p - offset + size := by
  rw [← Int.add_emod_right, Int.emod_eq_of_lt (by omega) (by omega)]

/-- Raising the offset by a whole turn moves no cell. -/
theorem cell_shift (size offset p : ℤ) : (p - (offset + size)) % size = (p - offset) % size := by
  rw [show p - (offset + size) = p - offset - size by ring, Int.sub_emod_right]

namespace Holds

variable {mem src : ℤ → α} {size offset lo hi : ℤ}

/-- A ring holds an empty range. -/
theorem empty (mem : ℤ → α) (size offset : ℤ) (src : ℤ → α) (lo : ℤ) :
    Holds mem size offset src lo lo := fun _ h1 h2 => absurd h2 (not_lt.mpr h1)

/-- A ring that holds a range holds a smaller one. -/
theorem mono {lo' hi' : ℤ} (h : Holds mem size offset src lo hi) (hlo : lo ≤ lo')
    (hhi : hi' ≤ hi) : Holds mem size offset src lo' hi' :=
  fun p h1 h2 => h p (hlo.trans h1) (lt_of_lt_of_le h2 hhi)

/-- A ring that holds two ranges that meet holds both. -/
theorem append {mid : ℤ} (h1 : Holds mem size offset src lo mid)
    (h2 : Holds mem size offset src mid hi) : Holds mem size offset src lo hi := by
  intro p hlo hhi
  rcases lt_or_ge p mid with h | h
  · exact h1 p hlo h
  · exact h2 p h hhi

/-- The offset may be moved by the size of the ring. -/
theorem shift (h : Holds mem size offset src lo hi) :
    Holds mem size (offset + size) src lo hi := by
  intro p hlo hhi
  rw [cell_shift]
  exact h p hlo hhi

/-- Writing the cells of `[q, q + n)` keeps a window that ends at `q` and begins no earlier than
`q + n - size`. -/
theorem write_of_disjoint (hsize : 0 < size) (h : Holds mem size offset src lo hi) {q : ℤ}
    {data : List α} (hhi : hi ≤ q) (hlo : q + data.length - size ≤ lo)
    (hfit : (q - offset) % size + data.length ≤ size) :
    Holds (write mem ((q - offset) % size) data) size offset src lo hi := by
  intro p hp hp'
  rw [← h p hp hp']
  by_cases hcell : (p - offset) % size < (q - offset) % size
  · exact write_of_lt mem data hcell
  by_cases hcell' : (q - offset) % size + data.length ≤ (p - offset) % size
  · exact write_of_ge mem data hcell'
  -- the cell of `p` would be the cell of `q + j` with `0 ≤ j < n`, a full turn away
  exfalso
  set j := (p - offset) % size - (q - offset) % size with hj
  have hcongr : (p - offset) % size = (q + j - offset) % size := by
    rw [cell_add hsize (by omega) (by omega)]
    omega
  have hdvd : size ∣ (q + j - offset) - (p - offset) :=
    Int.ModEq.dvd hcongr
  have hpos : 0 < (q + j - offset) - (p - offset) := by omega
  have := Int.le_of_dvd hpos hdvd
  omega

/-- Writing `src[q, q + n)` to its own cells makes the memory hold it. -/
theorem of_write (hsize : 0 < size) {q : ℤ} {n : ℕ} (hfit : (q - offset) % size + n ≤ size) :
    Holds (write mem ((q - offset) % size) (slice src q n)) size offset src q (q + n) := by
  intro p hp hp'
  have hcell : (p - offset) % size = (q - offset) % size + (p - q) := by
    rw [← cell_add hsize (by omega) (by omega)]
    congr 1
    ring
  rw [hcell, write_slice mem src _ q (by omega) (by omega)]
  congr 1
  ring

/-- Writing the next `n` values of the sequence to their own cells extends the window, if it has
room for them. -/
theorem extend (hsize : 0 < size) {q : ℤ} (h : Holds mem size offset src lo q) {n : ℕ}
    (hlo : q + n - size ≤ lo) (hfit : (q - offset) % size + n ≤ size) :
    Holds (write mem ((q - offset) % size) (Ring.slice src q n)) size offset src lo (q + n) := by
  have hlen := length_slice src q n
  refine append (h.write_of_disjoint hsize le_rfl ?_ ?_) (of_write hsize hfit)
  · rw [hlen]
    exact hlo
  · rw [hlen]
    exact hfit

/-- A run of cells that begins at the cell of `p` and does not pass the end of the memory reads
back as `src[p, p + n)`, if `[p, p + n)` is in the window. -/
theorem slice (hsize : 0 < size) (h : Holds mem size offset src lo hi) {p : ℤ} {n : ℕ}
    (hlo : lo ≤ p) (hhi : p + n ≤ hi) (hfit : (p - offset) % size + n ≤ size) :
    Ring.slice mem ((p - offset) % size) n = Ring.slice src p n := by
  apply slice_congr
  intro i hi'
  rw [← cell_add hsize (by omega) (by omega)]
  exact h (p + i) (by omega) (by omega)

end Holds

end Ring
