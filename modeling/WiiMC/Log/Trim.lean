import WiiMC.Log.Buffer

/-!
# What the exception handler keeps of the waiting text

`crash_trim_buffer` of `debuglog.c` writes a mark over the front of the buffer, and then moves the
tail forward, byte by byte in the same array. Where the tail begins inside of the mark, it has been
written over already, and the loop moves the bytes of the mark again and again.

* `getElem?_moveBytes_of_le`, `getElem?_moveBytes_of_lt`: the loop, in both directions.
* `Trimmed`: what is to be kept.
* `trimmed_iff`: when it is.
-/

namespace WiiMC.Log.Ram

open Bytes

/-! ## The loop -/

section Loop

variable {dst src n : ℕ} {b : List UInt8}

theorem moveBytes_succ (dst src n : ℕ) (b : List UInt8) :
    moveBytes dst src (n + 1) b =
      (moveBytes dst src n b).set (dst + n) ((moveBytes dst src n b).getD (src + n) 0) := by
  rw [moveBytes, List.range_succ, List.foldl_append, List.foldl_cons, List.foldl_nil, moveBytes]

/-- Bytes that move towards the front arrive as they were. -/
theorem getElem?_moveBytes_of_le (hle : dst ≤ src) (hlen : src + n ≤ b.length) (i : ℕ) :
    (moveBytes dst src n b)[i]? = if dst ≤ i ∧ i < dst + n then b[src + (i - dst)]? else b[i]? := by
  induction n generalizing i with
  | zero => exact (if_neg (by omega)).symm
  | succ n ih =>
    have hsrc : (moveBytes dst src n b)[src + n]? = b[src + n]? := by
      rw [ih (by omega), if_neg (by omega)]
    rw [moveBytes_succ, List.getElem?_set, length_moveBytes, List.getD_eq_getElem?_getD, hsrc]
    by_cases hi : dst + n = i
    · have hin : src + n < b.length := by omega
      rw [if_pos hi, if_pos (by omega), if_pos (by omega), show src + (i - dst) = src + n by omega,
        List.getElem?_eq_getElem hin, Option.getD_some]
    · rw [if_neg hi, ih (by omega)]
      simp only [show (dst ≤ i ∧ i < dst + (n + 1)) ↔ (dst ≤ i ∧ i < dst + n) by omega]

/-- Bytes that move towards the end are those between the two places, over and over. -/
theorem getElem?_moveBytes_of_lt (hlt : src < dst) (hlen : dst + n ≤ b.length) (i : ℕ) :
    (moveBytes dst src n b)[i]? =
      if dst ≤ i ∧ i < dst + n then b[src + (i - dst) % (dst - src)]? else b[i]? := by
  induction n generalizing i with
  | zero => exact (if_neg (by omega)).symm
  | succ n ih =>
    have hsrc : (moveBytes dst src n b)[src + n]? = b[src + n % (dst - src)]? := by
      rw [ih (by omega)]
      by_cases hearly : src + n < dst
      · rw [if_neg (by omega), Nat.mod_eq_of_lt (by omega)]
      · -- One period back.
        rw [if_pos (by omega), show src + n - dst = n - (dst - src) by omega,
          ← Nat.mod_eq_sub_mod (by omega)]
    rw [moveBytes_succ, List.getElem?_set, length_moveBytes, List.getD_eq_getElem?_getD, hsrc]
    by_cases hi : dst + n = i
    · have hmod := Nat.mod_lt n (Nat.sub_pos_of_lt hlt)
      have hin : src + n % (dst - src) < b.length := by omega
      rw [if_pos hi, if_pos (by omega), if_pos (by omega), show i - dst = n by omega,
        List.getElem?_eq_getElem hin, Option.getD_some]
    · rw [if_neg hi, ih (by omega)]
      simp only [show (dst ≤ i ∧ i < dst + (n + 1)) ↔ (dst ≤ i ∧ i < dst + n) by omega]

end Loop

/-! ## What is kept -/

variable {r : Ram}

/-- A short text is left alone, and of a longer one the newest bytes are kept behind the mark. -/
def Trimmed (r : Ram) : Prop :=
  (r.sLen ≤ logCrashKeep → r.crashTrimBuffer = r) ∧
    (logCrashKeep < r.sLen →
      r.crashTrimBuffer.text = kCut ++ r.text.drop (r.sLen - logCrashKeep))

/-- The newest bytes are the ones that the loop writes over and over. -/
def Repeats (r : Ram) : Prop :=
  ∀ i < logCrashKeep, r.text[r.sLen - logCrashKeep + i]? =
    kCut[r.sLen - logCrashKeep + i % (kCut.length - (r.sLen - logCrashKeep))]?

/-- The buffer when the loop begins. -/
def marked (r : Ram) : List UInt8 := kCut ++ r.sBuf.drop kCut.length

theorem length_marked (r : Ram) : r.marked.length = logBufSize := by
  rw [marked, List.length_append, List.length_drop, r.length_sBuf]
  rfl

theorem getElem?_marked_of_lt {i : ℕ} (hi : i < kCut.length) : r.marked[i]? = kCut[i]? :=
  List.getElem?_append_left hi

theorem getElem?_marked_of_le {i : ℕ} (hi : kCut.length ≤ i) : r.marked[i]? = r.sBuf[i]? := by
  rw [marked, List.getElem?_append_right hi, List.getElem?_drop, Nat.add_sub_cancel' hi]

theorem getElem?_text {i : ℕ} (hi : i < r.sLen) : r.text[i]? = r.sBuf[i]? :=
  List.getElem?_take_of_lt hi

theorem sLen_crashTrimBuffer (h : logCrashKeep < r.sLen) :
    r.crashTrimBuffer.sLen = logCrashKeep + kCut.length := by
  rw [crashTrimBuffer, dif_neg (Nat.not_le.mpr h)]

theorem getElem?_text_crashTrimBuffer (h : logCrashKeep < r.sLen) {i : ℕ}
    (hi : i < logCrashKeep + kCut.length) :
    r.crashTrimBuffer.text[i]? =
      (moveBytes kCut.length (r.sLen - logCrashKeep) logCrashKeep r.marked)[i]? := by
  rw [getElem?_text (by rwa [sLen_crashTrimBuffer h]), crashTrimBuffer,
    dif_neg (Nat.not_le.mpr h), marked]

theorem keep_add_le : logCrashKeep + kCut.length ≤ logBufSize := by decide

/-- The mark comes first. -/
theorem getElem?_crashTrimBuffer_mark (h : logCrashKeep < r.sLen) {i : ℕ} (hi : i < kCut.length) :
    r.crashTrimBuffer.text[i]? = kCut[i]? := by
  have hlen := r.length_marked
  have hsLen := r.sLen_le
  have hkeep := keep_add_le
  rw [getElem?_text_crashTrimBuffer h (by omega)]
  rcases Nat.lt_or_ge (r.sLen - logCrashKeep) kCut.length with hlt | hge
  · rw [getElem?_moveBytes_of_lt hlt (by omega), if_neg (by omega), getElem?_marked_of_lt hi]
  · rw [getElem?_moveBytes_of_le hge (by omega), if_neg (by omega), getElem?_marked_of_lt hi]

/-- Behind it stands what the loop has moved. -/
theorem getElem?_crashTrimBuffer_tail (h : logCrashKeep < r.sLen) {i : ℕ} (hi : i < logCrashKeep) :
    r.crashTrimBuffer.text[kCut.length + i]? =
      if r.sLen - logCrashKeep < kCut.length then
        kCut[r.sLen - logCrashKeep + i % (kCut.length - (r.sLen - logCrashKeep))]?
      else r.text[r.sLen - logCrashKeep + i]? := by
  have hlen := r.length_marked
  have hsLen := r.sLen_le
  have hkeep := keep_add_le
  rw [getElem?_text_crashTrimBuffer h (by omega)]
  split_ifs with hlt
  · have hmod := Nat.mod_lt i (Nat.sub_pos_of_lt hlt)
    rw [getElem?_moveBytes_of_lt hlt (by omega), if_pos (by omega), Nat.add_sub_cancel_left,
      getElem?_marked_of_lt (by omega)]
  · rw [getElem?_moveBytes_of_le (by omega) (by omega), if_pos (by omega), Nat.add_sub_cancel_left,
      getElem?_marked_of_le (by omega), getElem?_text (by omega)]

/-- The newest bytes are kept where each has been moved to its place. -/
theorem text_crashTrimBuffer_iff (h : logCrashKeep < r.sLen) :
    r.crashTrimBuffer.text = kCut ++ r.text.drop (r.sLen - logCrashKeep) ↔
      ∀ i < logCrashKeep,
        r.crashTrimBuffer.text[kCut.length + i]? = r.text[r.sLen - logCrashKeep + i]? := by
  constructor
  · intro heq i hi
    rw [heq, List.getElem?_append_right (by omega), Nat.add_sub_cancel_left, List.getElem?_drop]
  · intro htail
    refine List.ext_getElem? fun i => ?_
    rcases Nat.lt_or_ge i kCut.length with hmark | hbehind
    · rw [getElem?_crashTrimBuffer_mark h hmark, List.getElem?_append_left hmark]
    · rw [List.getElem?_append_right hbehind, List.getElem?_drop]
      rcases Nat.lt_or_ge (i - kCut.length) logCrashKeep with hi | hend
      · rw [← htail _ hi, Nat.add_sub_cancel' hbehind]
      · -- Both texts end here.
        rw [List.getElem?_eq_none, List.getElem?_eq_none]
        · rw [length_text]
          omega
        · rw [length_text, sLen_crashTrimBuffer h]
          omega

/-- The newest bytes are kept unless the tail begins inside of the mark: then they are kept only if
they are what the loop repeats. -/
theorem trimmed_iff (r : Ram) :
    r.Trimmed ↔ r.sLen ≤ logCrashKeep ∨ logCrashKeep + kCut.length ≤ r.sLen ∨ r.Repeats := by
  have hshort : r.sLen ≤ logCrashKeep → r.crashTrimBuffer = r := fun h => dif_pos h
  rcases Nat.lt_or_ge logCrashKeep r.sLen with hlong | hle
  · have hno : ¬r.sLen ≤ logCrashKeep := Nat.not_le.mpr hlong
    rw [Trimmed, and_iff_right hshort, or_iff_right hno, forall_prop_of_true hlong,
      text_crashTrimBuffer_iff hlong]
    rcases Nat.lt_or_ge (r.sLen - logCrashKeep) kCut.length with hlt | hge
    · rw [or_iff_right (by omega), Repeats]
      refine forall₂_congr fun i hi => ?_
      rw [getElem?_crashTrimBuffer_tail hlong hi, if_pos hlt, eq_comm]
    · refine iff_of_true (fun i hi => ?_) (.inl (by omega))
      rw [getElem?_crashTrimBuffer_tail hlong hi, if_neg (by omega)]
  · exact iff_of_true ⟨hshort, fun h => absurd hle (Nat.not_le.mpr h)⟩ (.inl hle)

/-- One byte more than is kept, all of them the same. -/
def oneTooMany : Ram :=
  ⟨true, true, List.replicate logBufSize 97, logCrashKeep + 1, 0, List.length_replicate, by decide⟩

/-- The mark is all that is left of them. -/
theorem not_trimmed_oneTooMany : ¬oneTooMany.Trimmed := by
  intro h
  have hlong : logCrashKeep < oneTooMany.sLen := Nat.lt_succ_self _
  have hfirst := (text_crashTrimBuffer_iff hlong).mp (h.2 hlong) 0 (by decide)
  rw [getElem?_crashTrimBuffer_tail hlong (by decide), if_pos (by decide), getElem?_text (by decide)]
    at hfirst
  have hsBuf : oneTooMany.sBuf = List.replicate logBufSize 97 := rfl
  rw [hsBuf, List.getElem?_replicate, if_pos (by decide)] at hfirst
  exact absurd hfirst (by decide)

end WiiMC.Log.Ram
