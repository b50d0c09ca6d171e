import WiiMC.Lib.Bytes

/-!
# The RAM side of the debug log

`source/utils/debuglog.c` writes everything into one buffer first, from any thread, and the card
only ever sees whole flushes of it. A line for which there is no room is not cut: its bytes are
counted as dropped, and the next flush says so.

* `Ram`: the buffer, how much of it is waiting, and how much was dropped.
* `Ram.bufAppend`: `buf_append`.
* `Ram.crashTrimBuffer`: what the exception handler leaves of the waiting text.
* `Ram.appendAll_spec`: lines that fit together are appended one behind the other.
-/

namespace WiiMC.Log

open Bytes

/-- `LOG_BUF_SIZE`. -/
def logBufSize : ℕ := 32 * 1024

/-- `LOG_FILE_SIZE`. -/
def logFileSize : ℕ := 256 * 1024

/-- `LOG_CRASH_RESERVE`. -/
def logCrashReserve : ℕ := 24 * 1024

/-- `LOG_BODY_SIZE`. -/
def logBodySize : ℕ := logFileSize - logCrashReserve

/-- `LOG_CRASH_KEEP`. -/
def logCrashKeep : ℕ := 6 * 1024

/-- `sBuf`, `sLen` and `sDropped`, with the two flags that `buf_append` reads. A length is the size
of something in memory, so that a sum of two of them stays below `2 ^ 32`. -/
structure Ram where
  sInit : Bool
  sCrashMode : Bool
  sBuf : List UInt8
  sLen : ℕ
  sDropped : UInt32
  length_sBuf : sBuf.length = logBufSize
  sLen_le : sLen ≤ logBufSize

namespace Ram

/-- What is waiting to be flushed. -/
def text (r : Ram) : List UInt8 := r.sBuf.take r.sLen

@[simp] theorem length_text (r : Ram) : r.text.length = r.sLen := by
  rw [text, List.length_take, r.length_sBuf]
  exact Nat.min_eq_left r.sLen_le

/-- The buffer with `xs` behind what is waiting. -/
def store (r : Ram) (xs : List UInt8) (h : r.sLen + xs.length ≤ logBufSize) : Ram where
  sInit := r.sInit
  sCrashMode := r.sCrashMode
  sBuf := r.text ++ xs ++ r.sBuf.drop (r.sLen + xs.length)
  sLen := r.sLen + xs.length
  sDropped := r.sDropped
  length_sBuf := by
    rw [List.length_append, List.length_append, length_text, List.length_drop, r.length_sBuf]
    omega
  sLen_le := h

/-- `buf_append`, where `lock` is whether `sBufLock` can be taken. In crash mode there is one
writer left and the lock is skipped. -/
def bufAppend (lock : Bool) (xs : List UInt8) (r : Ram) : Ram :=
  if r.sInit = false ∨ xs = [] then r
  else if r.sCrashMode = false ∧ lock = false then r
  else if h : r.sLen + xs.length ≤ logBufSize then r.store xs h
  else { r with sDropped := r.sDropped + UInt32.ofNat xs.length }

/-- `kCut`. -/
def kCut : List UInt8 := ascii "[...]\n"

/-- The loop of `crash_trim_buffer`: `n` bytes move from `src` on to `dst` on, one by one, so that
where the two overlap a byte that was already moved is moved again. -/
def moveBytes (dst src n : ℕ) (b : List UInt8) : List UInt8 :=
  (List.range n).foldl (fun b i => b.set (dst + i) (b.getD (src + i) 0)) b

theorem length_moveBytes (dst src n : ℕ) (b : List UInt8) :
    (moveBytes dst src n b).length = b.length := by
  unfold moveBytes
  induction n with
  | zero => rfl
  | succ n ih => rw [List.range_succ, List.foldl_append, List.foldl_cons, List.foldl_nil,
      List.length_set, ih]

theorem length_kCut : kCut.length = 6 := rfl

/-- `crash_trim_buffer`. -/
def crashTrimBuffer (r : Ram) : Ram :=
  if h : r.sLen ≤ logCrashKeep then r
  else
    { r with
      sBuf := moveBytes kCut.length (r.sLen - logCrashKeep) logCrashKeep
        (kCut ++ r.sBuf.drop kCut.length)
      sLen := logCrashKeep + kCut.length
      length_sBuf := by
        rw [length_moveBytes, List.length_append, List.length_drop, r.length_sBuf]
        rfl
      sLen_le := by decide }

theorem sLen_crashTrimBuffer_le (r : Ram) :
    r.crashTrimBuffer.sLen ≤ logCrashKeep + kCut.length := by
  unfold crashTrimBuffer
  split
  · rename_i h
    exact Nat.le_trans h (Nat.le_add_right _ _)
  · exact Nat.le_refl _

@[simp] theorem sInit_crashTrimBuffer (r : Ram) : r.crashTrimBuffer.sInit = r.sInit := by
  unfold crashTrimBuffer
  split <;> rfl

@[simp] theorem sCrashMode_crashTrimBuffer (r : Ram) :
    r.crashTrimBuffer.sCrashMode = r.sCrashMode := by
  unfold crashTrimBuffer
  split <;> rfl

@[simp] theorem sDropped_crashTrimBuffer (r : Ram) :
    r.crashTrimBuffer.sDropped = r.sDropped := by
  unfold crashTrimBuffer
  split <;> rfl

/-! ## Several lines -/

theorem text_store (r : Ram) (xs : List UInt8) (h : r.sLen + xs.length ≤ logBufSize) :
    (r.store xs h).text = r.text ++ xs := by
  refine List.take_left' ?_
  rw [List.length_append, length_text]
  rfl

/-- Calls of `buf_append` one after the other, all in crash mode. -/
def appendAll (ls : List (List UInt8)) (r : Ram) : Ram :=
  ls.foldl (fun r l => r.bufAppend false l) r

/-- Before `DebugLogInit` nothing is stored, and nothing counted. -/
theorem appendAll_of_not_init {r : Ram} (h : r.sInit = false) (ls : List (List UInt8)) :
    r.appendAll ls = r := by
  induction ls with
  | nil => rfl
  | cons l ls ih =>
    have hstep : r.bufAppend false l = r := if_pos (Or.inl h)
    rw [appendAll, List.foldl_cons, hstep]
    exact ih

/-- In crash mode a line that fits is stored. -/
theorem bufAppend_of_fits {r : Ram} (hinit : r.sInit = true) (hcrash : r.sCrashMode = true)
    {l : List UInt8} (hfit : r.sLen + l.length ≤ logBufSize) :
    (r.bufAppend false l).text = r.text ++ l ∧ (r.bufAppend false l).sDropped = r.sDropped ∧
      (r.bufAppend false l).sInit = true ∧ (r.bufAppend false l).sCrashMode = true := by
  unfold bufAppend
  by_cases hl : l = []
  · rw [if_pos (Or.inr hl), hl, List.append_nil]
    exact ⟨rfl, rfl, hinit, hcrash⟩
  · have hgo : ¬(r.sInit = false ∨ l = []) := by simp [hinit, hl]
    have hlock : ¬(r.sCrashMode = false ∧ (false : Bool) = false) := by simp [hcrash]
    rw [if_neg hgo, if_neg hlock, dif_pos hfit]
    exact ⟨text_store r l hfit, rfl, hinit, hcrash⟩

/-- Lines for which there is room together are appended, and none is counted as dropped. -/
theorem appendAll_spec {r : Ram} (hinit : r.sInit = true) (hcrash : r.sCrashMode = true)
    (ls : List (List UInt8)) (hfit : r.sLen + ls.flatten.length ≤ logBufSize) :
    (r.appendAll ls).text = r.text ++ ls.flatten ∧ (r.appendAll ls).sDropped = r.sDropped := by
  -- Each line leaves the room that the ones behind it need.
  induction ls generalizing r with
  | nil => exact ⟨(List.append_nil _).symm, rfl⟩
  | cons l ls ih =>
    rw [List.flatten_cons, List.length_append] at hfit
    obtain ⟨htext, hdropped, hinit', hcrash'⟩ := bufAppend_of_fits hinit hcrash (l := l) (by omega)
    have hlen : (r.bufAppend false l).sLen = r.sLen + l.length := by
      rw [← length_text, htext, List.length_append, length_text]
    obtain ⟨htexts, hdroppeds⟩ := ih hinit' hcrash' (by rw [hlen]; omega)
    rw [appendAll, List.foldl_cons]
    refine ⟨?_, hdroppeds.trans hdropped⟩
    rw [← appendAll, htexts, htext, List.append_assoc, List.flatten_cons]

end Ram

end WiiMC.Log
