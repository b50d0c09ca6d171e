import WiiMC.Cache.Vars

/-!
# The stream behind the cache

`stream/stream.c` as the filler uses it on its own copy of the `stream_t`: `stream_read_internal`,
`stream_seek_internal` and `stream_reset` in their GEKKO branches. The device under the stream is
described by what its `fill_buffer` and `seek` callbacks answer.

`fill_buffer` of an error-free source delivers at least one byte while its position is before the
end and answers `Source.atEnd`, `0` or a negative number, from the end on (`stream_file.c` answers
`-1`). `streaming_ctrl` is `NULL` in the model, and `buf_pos` and `buf_len` of the filler's copy,
which nothing reads, are left out.
-/

namespace WiiMC.Cache

/-- `STREAMTYPE_*`. -/
inductive StreamType
  | dummy | file | vcd | stream | dvd | memory | playlist | ds | dvdnav | cdda | smb | vcdbincue
  | dvb | vstream | sdp | pvr | tv | mf | radio | bluray | bd
  deriving DecidableEq, Repr

/-- The bytes behind a stream. -/
structure Source where
  /-- Number of bytes. -/
  size : ℤ
  /-- The byte at each position. -/
  byte : ℤ → UInt8
  /-- What `fill_buffer` answers from the end on. -/
  atEnd : ℤ
  size_nonneg : 0 ≤ size
  atEnd_nonpos : atEnd ≤ 0

theorem minus_one_nonpos : (-1 : ℤ) ≤ 0 := by decide

/-- What the environment decides about one call of the `fill_buffer` callback. -/
inductive FillAnswer
  /-- A successful call, with the number of bytes it would like to deliver. -/
  | bytes (n : ℕ)
  /-- A failed call; `io` tells whether `errno` is `EIO` or `ENOSYS`. -/
  | fail (io : Bool)
  deriving DecidableEq, Repr

/-- What the device answers during one step of the filler. -/
structure Oracle where
  /-- The answer of `fill_buffer`. -/
  answer : FillAnswer
  /-- Whether the `seek` callback succeeds. -/
  seeks : Bool
  deriving DecidableEq, Repr

/-- The device fails neither reads nor seeks. -/
def Oracle.ErrorFree (o : Oracle) : Prop := o.seeks = true ∧ ∃ n, o.answer = .bytes n

instance Oracle.ErrorFree.instDecidable : (o : Oracle) → Decidable o.ErrorFree
  | ⟨.bytes n, seeks⟩ =>
      decidable_of_iff (seeks = true) ⟨fun h => ⟨h, n, rfl⟩, fun h => h.1⟩
  | ⟨.fail _, _⟩ => isFalse fun ⟨_, _, h⟩ => by cases h

/-- The filler's `stream_t`. -/
structure Stream where
  type : StreamType
  /-- Maximum amount of data to read at once, `0` for the default. -/
  readChunk : ℕ
  /-- Whether the `seek` callback is set. -/
  seekable : Bool
  pos : ℤ
  eof : Bool
  error : ℤ
  /-- The function static `_try` of `stream_read_internal`. -/
  tries : ℤ
  /-- Position of the device under the stream. -/
  dev : ℤ

/-- The return value of `fill_buffer` and the bytes it stores. -/
def fillBuffer (src : Source) (dev len : ℤ) : FillAnswer → ℤ × List UInt8
  | .fail _ => (-1, [])
  | .bytes n =>
      if dev < 0 ∨ src.size ≤ dev ∨ len ≤ 0 then (src.atEnd, [])
      else
        let k := max 1 (min n (min len (src.size - dev)).toNat)
        (k, Ring.slice src.byte dev k)

/-- `stream_reset`. -/
def streamReset (s : Stream) : Stream :=
  if s.eof then { s with pos := 0, eof := false } else s

/-- The `seek` callback (as in `stream_file.c`). -/
def seekCallback (s : Stream) (newpos : ℤ) (seeks : Bool) : Stream :=
  if seeks then { s with pos := newpos, dev := newpos }
  else { s with pos := newpos, eof := true }

/-- `stream_seek_internal`; its return value is not used by the cache. -/
def streamSeekInternal (s : Stream) (newpos : ℤ) (seeks : Bool) : Stream :=
  if newpos = 0 ∨ newpos ≠ s.pos then
    if s.seekable then seekCallback s newpos seeks else s
  else s

/-- `stream_reset` and the seek back to the position before it. -/
def streamRetry (s : Stream) (seeks : Bool) : Stream :=
  streamSeekInternal (streamReset s) s.pos seeks

/-- `stream_read_internal`: the bytes stored (their number is the return value) and the stream
afterwards. -/
def streamReadInternal (src : Source) (s : Stream) (len : ℤ) (o : Oracle) :
    List UInt8 × Stream :=
  let (ret, data) := fillBuffer src s.dev len o.answer
  if ret = 0 then
    let s' :=
      if s.tries > 3 then { s with eof := true }
      else if s.tries = 0 then streamRetry s o.seeks
      else s
    ([], { s' with tries := s'.tries + 1 })
  else if ret < 0 then
    let s' := { s with eof := true }
    if s.type = .dvdnav then ([], s')
    else if s.error = 0 ∧ o.answer = .fail true then
      ([], streamRetry { s' with error := 1 } o.seeks)
    else ([], s')
  else
    (data, { s with eof := false, pos := s.pos + ret, tries := 0, dev := s.dev + ret })

/-! ## What the operations keep -/

@[simp]
theorem streamReset_eof (s : Stream) : (streamReset s).eof = false := by
  unfold streamReset
  split
  · rfl
  · next h => simpa using h

@[simp]
theorem streamReset_dev (s : Stream) : (streamReset s).dev = s.dev := by
  unfold streamReset
  split <;> rfl

@[simp]
theorem streamReset_error (s : Stream) : (streamReset s).error = s.error := by
  unfold streamReset
  split <;> rfl

@[simp]
theorem streamReset_seekable (s : Stream) : (streamReset s).seekable = s.seekable := by
  unfold streamReset
  split <;> rfl

@[simp]
theorem streamReset_tries (s : Stream) : (streamReset s).tries = s.tries := by
  unfold streamReset
  split <;> rfl

@[simp]
theorem streamReset_type (s : Stream) : (streamReset s).type = s.type := by
  unfold streamReset
  split <;> rfl

/-- The stream of an error-free, seekable source other than `STREAMTYPE_STREAM` between two calls:
`pos` is the position of the device, or has been zeroed by a reset that no seek has followed. The
latter, and `eof`, happen only once the device has answered that it is at its end, so that no
retry will trust `pos`. -/
structure Stream.Sound (src : Source) (s : Stream) : Prop where
  type_ne : s.type ≠ .stream
  seekable : s.seekable = true
  error_eq : s.error = 0
  dev_nonneg : 0 ≤ s.dev
  tries_nonneg : 0 ≤ s.tries
  pos_eq : s.pos = s.dev ∨ (s.pos = 0 ∧ src.size ≤ s.dev ∧ (src.atEnd < 0 ∨ 0 < s.tries))
  eof_end : s.eof = true → src.size ≤ s.dev ∧ (src.atEnd < 0 ∨ 0 < s.tries)

/-- The stream afterwards is sound too, and its device stands at `dev`. -/
structure Stream.SoundAt (src : Source) (s : Stream) (dev : ℤ) : Prop extends s.Sound src where
  dev_eq : s.dev = dev

theorem Stream.Sound.reset {src : Source} {s : Stream} (h : s.Sound src) :
    (streamReset s).Sound src := by
  by_cases heof : s.eof = true
  · have hend := h.eof_end heof
    refine ⟨by simpa using h.type_ne, by simpa using h.seekable, by simpa using h.error_eq,
      by simpa using h.dev_nonneg, by simpa using h.tries_nonneg, Or.inr ?_, by simp⟩
    simp only [streamReset, heof, if_true, true_and]
    exact hend
  · rw [streamReset, if_neg heof]
    exact h

/-- A seek lands the device of a sound stream, whatever `pos` says. -/
theorem Stream.Sound.seek {src : Source} {s : Stream} (h : s.Sound src) (heof : s.eof = false)
    {newpos : ℤ} (hpos : 0 ≤ newpos) :
    (streamSeekInternal s newpos true).SoundAt src newpos := by
  unfold streamSeekInternal
  by_cases hcase : newpos = 0 ∨ newpos ≠ s.pos
  · rw [if_pos hcase, if_pos h.seekable]
    exact ⟨⟨h.type_ne, h.seekable, h.error_eq, hpos, h.tries_nonneg, Or.inl rfl,
      fun he => absurd (heof.symm.trans he) (by simp)⟩, rfl⟩
  · rw [if_neg hcase]
    have hdev := h.pos_eq
    exact ⟨h, by omega⟩

/-- A seek with the reset that `cache_fill` makes before it. -/
theorem Stream.Sound.reset_seek {src : Source} {s : Stream} (h : s.Sound src) {newpos : ℤ}
    (hpos : 0 ≤ newpos) :
    (streamSeekInternal (if s.eof then streamReset s else s) newpos true).SoundAt src newpos := by
  by_cases heof : s.eof = true
  · rw [if_pos heof]
    exact h.reset.seek (streamReset_eof s) hpos
  · rw [if_neg heof]
    exact h.seek (by simpa using heof) hpos

/-- The retry after a first empty read leaves the device where it is. -/
theorem Stream.Sound.retry {src : Source} {s : Stream} (h : s.Sound src) (htries : s.tries = 0)
    (hend : src.atEnd = 0) : (streamRetry s true).SoundAt src s.dev := by
  have hpos : s.pos = s.dev := by
    have := h.pos_eq
    omega
  unfold streamRetry
  rw [hpos]
  exact h.reset.seek (streamReset_eof s) h.dev_nonneg

/-- Counting one more empty read at the end of the source. -/
theorem Stream.SoundAt.count {src : Source} {s : Stream} {dev : ℤ} (h : s.SoundAt src dev)
    (hend : src.size ≤ dev) :
    ({ s with tries := s.tries + 1 } : Stream).SoundAt src dev := by
  have htries := h.tries_nonneg
  have hdev := h.dev_eq
  refine ⟨⟨h.type_ne, h.seekable, h.error_eq, h.dev_nonneg, ?_, ?_, ?_⟩, hdev⟩
  · simp only
    omega
  · have := h.pos_eq
    simp only
    omega
  · intro _
    simp only
    omega

/-- What a read at the end of the source leaves behind. -/
theorem Stream.Sound.read_atEnd {src : Source} {s : Stream} (h : s.Sound src)
    (hend : src.size ≤ s.dev) (len : ℤ) {o : Oracle} (ho : o.ErrorFree) :
    (streamReadInternal src s len o).1 = [] ∧
      (streamReadInternal src s len o).2.SoundAt src s.dev := by
  obtain ⟨hseeks, m, hm⟩ := ho
  have hfill : fillBuffer src s.dev len o.answer = (src.atEnd, []) := by
    rw [hm, fillBuffer, if_pos (Or.inr (Or.inl hend))]
  have hio : ¬ (s.error = 0 ∧ o.answer = .fail true) := by simp [hm]
  rcases lt_or_eq_of_le src.atEnd_nonpos with hneg | hzero
  · -- the device answers a negative number: the stream notes the end at once
    have hne : src.atEnd ≠ 0 := by omega
    have hsound : ({ s with eof := true } : Stream).SoundAt src s.dev :=
      ⟨⟨h.type_ne, h.seekable, h.error_eq, h.dev_nonneg, h.tries_nonneg, h.pos_eq,
        fun _ => ⟨hend, Or.inl hneg⟩⟩, rfl⟩
    simp only [streamReadInternal, hfill, if_neg hne, if_pos hneg, if_neg hio, ite_self]
    exact ⟨trivial, hsound⟩
  · -- the device answers 0: counted in `_try`, and retried on the spot the first time
    have htries := h.tries_nonneg
    simp only [streamReadInternal, hfill, if_pos hzero, hseeks, true_and]
    apply Stream.SoundAt.count _ hend
    by_cases h3 : s.tries > 3
    · rw [if_pos h3]
      exact ⟨⟨h.type_ne, h.seekable, h.error_eq, h.dev_nonneg, htries, h.pos_eq,
        fun _ => ⟨hend, Or.inr (by simp only; omega)⟩⟩, rfl⟩
    by_cases h0 : s.tries = 0
    · rw [if_neg h3, if_pos h0]
      exact h.retry h0 hzero
    · rw [if_neg h3, if_neg h0]
      exact ⟨h, rfl⟩

/-- An error-free read delivers the source bytes from the device position on and moves it past
them. It delivers none only at the end of the source. -/
theorem Stream.Sound.read {src : Source} {s : Stream} (h : s.Sound src) {len : ℤ} (hlen : 0 < len)
    {o : Oracle} (ho : o.ErrorFree) :
    ∃ n : ℕ, n ≤ len ∧ (streamReadInternal src s len o).1 = Ring.slice src.byte s.dev n ∧
      (streamReadInternal src s len o).2.SoundAt src (s.dev + n) ∧
      (0 < n → s.dev + n ≤ src.size) ∧ (n = 0 → src.size ≤ s.dev) := by
  by_cases hend : src.size ≤ s.dev
  · obtain ⟨hdata, hsound⟩ := h.read_atEnd hend len ho
    refine ⟨0, by omega, by rw [hdata, Ring.slice_zero], ?_, by omega, fun _ => hend⟩
    rw [Nat.cast_zero, add_zero]
    exact hsound
  obtain ⟨-, m, hm⟩ := ho
  have hdev := h.dev_nonneg
  set n := max 1 (min m (min len (src.size - s.dev)).toNat) with hn
  have hfill : fillBuffer src s.dev len o.answer = ((n : ℤ), Ring.slice src.byte s.dev n) := by
    rw [hm, fillBuffer, if_neg (by omega)]
  have hne : (n : ℤ) ≠ 0 := by omega
  have hnlt : ¬ (n : ℤ) < 0 := by omega
  refine ⟨n, by omega, ?_, ?_, by omega, by omega⟩
  · simp only [streamReadInternal, hfill, if_neg hne, if_neg hnlt]
  · simp only [streamReadInternal, hfill, if_neg hne, if_neg hnlt]
    refine ⟨⟨h.type_ne, h.seekable, h.error_eq, by simp only; omega, le_refl _, ?_, by simp⟩, rfl⟩
    have hpos := h.pos_eq
    simp only
    omega

end WiiMC.Cache
