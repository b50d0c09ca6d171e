import Mathlib.Data.Rat.Defs
import Mathlib.Order.Monotone.Basic
import Mathlib.Algebra.Order.Ring.Int
import Mathlib.Algebra.Order.Field.Rat
import Mathlib.Algebra.Order.Field.Basic
import WiiMC.Lib.Ring

/-!
# The cache ring and its four positions

The data of `stream/cache2.c`: `cache_vars_t` with the constants `cache_init` computes, the four
64-bit positions shared by the filler and the reader, and the helpers that read or publish them
under `cache_pos_mutex`. Each helper is one atomic step of the thread that calls it.

The constants of a ring are a structure of their own, `Geometry`, whose fields state what
`cache_init` guarantees about them; a ring with other constants cannot be built. The fields of
`cache_vars_t` for the control commands are those of `CacheBlock`.
-/

namespace WiiMC.Cache

/-- The largest C `int`. -/
def intMax : ℤ := 2 ^ 31 - 1

/-- The value a C `int` gets when a 64-bit value is stored in it. -/
def int32 (x : ℤ) : ℤ := Int.bmod x (2 ^ 32)

/-- A value in the range of `int` is stored unchanged. -/
theorem int32_of_le {x : ℤ} (h0 : -intMax ≤ x) (h1 : x ≤ intMax) : int32 x = x := by
  unfold int32 intMax at *
  rw [Int.bmod_def]
  split <;> omega

/-- The constants of a ring: `buffer_size`, `sector_size`, `back_size` and `fill_limit`. -/
structure Geometry where
  /-- Size of the allocated buffer memory. -/
  bufferSize : ℤ
  /-- Size of a single sector. -/
  sectorSize : ℤ
  /-- How many old bytes are kept for a backward seek. -/
  backSize : ℤ
  /-- The buffer is filled only if at least this much space is free. -/
  fillLimit : ℤ
  sector_pos : 0 < sectorSize
  sectors_le : 16 * sectorSize ≤ bufferSize
  size_le : bufferSize ≤ intMax
  back_eq : backSize = bufferSize / 4
  limit_eq : fillLimit = 8 * sectorSize

/-- The constants as linear facts. -/
theorem Geometry.bounds (g : Geometry) :
    0 < g.sectorSize ∧ 16 * g.sectorSize ≤ g.bufferSize ∧ g.bufferSize ≤ intMax ∧
      g.backSize = g.bufferSize / 4 ∧ g.fillLimit = 8 * g.sectorSize :=
  ⟨g.sector_pos, g.sectors_le, g.size_le, g.back_eq, g.limit_eq⟩

theorem Geometry.size_pos (g : Geometry) : 0 < g.bufferSize := by
  have := g.bounds
  omega

/-- `cache_vars_t`: the ring, the filler's flag and positions, and the reader's position. -/
structure CacheVars where
  /-- The constants of the ring. -/
  geo : Geometry
  /-- The buffer memory, cell by cell. -/
  buffer : ℤ → UInt8
  /-- Keep filling if the distance is less than this (streams without seeking only). -/
  seekLimit : ℤ
  /-- The end-of-stream flag, written by both threads. -/
  eof : Bool
  minFilepos : ℤ
  maxFilepos : ℤ
  /-- File position of the buffer's first byte. -/
  offset : ℤ
  readFilepos : ℤ

/-- `cache_pos_t`: a consistent snapshot of the four positions. -/
structure CachePos where
  minFilepos : ℤ
  maxFilepos : ℤ
  readFilepos : ℤ
  offset : ℤ

/-! ## The locked helpers -/

/-- `cache_pos_get`. -/
def cachePosGet (s : CacheVars) : CachePos where
  minFilepos := s.minFilepos
  maxFilepos := s.maxFilepos
  readFilepos := s.readFilepos
  offset := s.offset

/-- `cache_pos_set_read`: the reader owns `read_filepos`. -/
def cachePosSetRead (s : CacheVars) (pos : ℤ) : CacheVars :=
  { s with readFilepos := pos }

/-- `cache_pos_advance_read`. -/
def cachePosAdvanceRead (s : CacheVars) (len : ℤ) : CacheVars :=
  { s with readFilepos := s.readFilepos + len }

/-- `cache_pos_set_min`: the filler owns `min_filepos`, `max_filepos` and `offset`. -/
def cachePosSetMin (s : CacheVars) (pos : ℤ) : CacheVars :=
  { s with minFilepos := pos }

/-- `cache_pos_commit_fill`: the new `max_filepos` and the offset that belongs with it. -/
def cachePosCommitFill (s : CacheVars) (len : ℤ) (wrapped : Bool) : CacheVars :=
  { s with
    maxFilepos := s.maxFilepos + len
    offset := if wrapped then s.offset + s.geo.bufferSize else s.offset }

/-- `cache_pos_reset`. -/
def cachePosReset (s : CacheVars) (pos : ℤ) : CacheVars :=
  { s with offset := pos, minFilepos := pos, maxFilepos := pos, readFilepos := pos }

/-! ## The fill status -/

/-- Rounding of the floating-point results `cache2.c` and `low_cache_loop` compute: a quotient is
rounded to `double`, and a stored value to `float`. Only that rounding is monotone and keeps zero
is used. -/
structure Rounding where
  toDouble : ℚ → ℚ
  toFloat : ℚ → ℚ
  toDouble_mono : Monotone toDouble
  toFloat_mono : Monotone toFloat
  toDouble_zero : toDouble 0 = 0
  toFloat_zero : toFloat 0 = 0

/-- The percentage of the ring that `bytes` make up, as stored in `cache_fill_status`. -/
def Rounding.percent (r : Rounding) (g : Geometry) (bytes : ℤ) : ℚ :=
  r.toFloat (r.toDouble (bytes * 100 / g.bufferSize))

theorem Rounding.percent_zero (r : Rounding) (g : Geometry) : r.percent g 0 = 0 := by
  rw [percent, Int.cast_zero, zero_mul, zero_div, r.toDouble_zero, r.toFloat_zero]

/-- More bytes never publish a lower percentage. -/
theorem Rounding.percent_mono (r : Rounding) (g : Geometry) {a b : ℤ} (h : a ≤ b) :
    r.percent g a ≤ r.percent g b := by
  apply r.toFloat_mono
  apply r.toDouble_mono
  have hpos : (0 : ℚ) ≤ g.bufferSize := by exact_mod_cast g.size_pos.le
  have hab : (a : ℚ) ≤ b := by exact_mod_cast h
  exact div_le_div_of_nonneg_right (mul_le_mul_of_nonneg_right hab (by norm_num)) hpos

/-- `cache_update_fill_status`: the value it stores in `cache_fill_status`. -/
def cacheUpdateFillStatus (r : Rounding) (s : CacheVars) : ℚ :=
  if s.eof then -1
  else
    let p := cachePosGet s
    r.percent s.geo (p.maxFilepos - p.readFilepos)

/-! ## Building a ring -/

/-- `cache_init`. `memory` is what `memalign` returns, `none` for `NULL`. A product `num * sector`
that is not a positive `int` is no size `memalign` can serve. -/
def cacheInit (memory : Option (ℤ → UInt8)) (size sector : ℤ) : Option CacheVars :=
  let num := size.tdiv sector
  let num := if num < 16 then 16 else num
  match memory with
  | none => none
  | some buffer =>
      if h : 0 < num * sector ∧ num * sector ≤ intMax then
        some {
          geo :=
            { bufferSize := num * sector
              sectorSize := sector
              backSize := num * sector / 4
              fillLimit := 8 * sector
              sector_pos := by
                have hnum : 0 < num := by
                  simp only [num]
                  split <;> omega
                exact pos_of_mul_pos_right h.1 hnum.le
              sectors_le := by
                have hnum : 16 ≤ num := by
                  simp only [num]
                  split <;> omega
                have hsector : 0 < sector := pos_of_mul_pos_right h.1 (by omega)
                exact mul_le_mul_of_nonneg_right hnum hsector.le
              size_le := h.2
              back_eq := rfl
              limit_eq := rfl }
          buffer := buffer
          seekLimit := 0
          eof := false
          minFilepos := 0
          maxFilepos := 0
          offset := 0
          readFilepos := 0 }
      else none

/-- The part of `stream_enable_cache` that sets up a ring from `cache_init`: the seek limit,
clamped so that the filler never waits for more than it may fill, and all positions at the
stream's. -/
def enableRing (s : CacheVars) (streamPos seekLimit : ℤ) : CacheVars :=
  let s := cachePosReset { s with seekLimit := seekLimit } streamPos
  if s.seekLimit > s.geo.bufferSize - s.geo.fillLimit then
    { s with seekLimit := s.geo.bufferSize - s.geo.fillLimit }
  else s

/-- A ring of the default sector size is at least 32 KiB. -/
example : (cacheInit (some fun _ => 0) 1000 2048).map (·.geo.bufferSize) = some 32768 := by
  decide

end WiiMC.Cache
