import WiiMC.Cache.Threads

/-!
# What holds at every step of the two threads

The invariant of `threads` over an error-free source. It has one part for the ring and its
positions (`Window`), one for what the filler relies on at each of its steps (`FillerInv`), one
for what the reader relies on (`ReaderInv`), and one for the bytes delivered so far (`Delivered`).

The threads interfere in two places only, which the runs are asked to avoid (`NoRace`): the reader
moves while `cache_flush` is at work on its old position, and the filler stores over bytes which
the reader is copying although `min_filepos` has already passed them.

* `inv_fillerStep`, `inv_step`: the step lemmas.
* `inv_of_reachable`: the invariant holds in every state of a race-free run.
-/

namespace WiiMC.Cache

open Ring (Holds)

/-- The bytes `[min_filepos, max_filepos)` of the source are in the ring. -/
structure Window (src : Source) (c : CacheVars) : Prop where
  min_le : c.minFilepos ≤ c.maxFilepos
  fits : c.maxFilepos - c.minFilepos ≤ c.geo.bufferSize
  offset_le : 0 ≤ c.maxFilepos - c.offset
  offset_lt : c.maxFilepos - c.offset < c.geo.bufferSize
  holds : Holds c.buffer c.geo.bufferSize c.offset src.byte c.minFilepos c.maxFilepos
  max_le : c.minFilepos < c.maxFilepos → c.maxFilepos ≤ src.size
  read_nonneg : 0 ≤ c.readFilepos

namespace Window

variable {src : Source} {c : CacheVars}

/-- The flag is no part of the window, and the reader may be anywhere. -/
theorem setRead (h : Window src c) (eof : Bool) {pos : ℤ} (hpos : 0 ≤ pos) :
    Window src { c with eof := eof, readFilepos := pos } :=
  ⟨h.min_le, h.fits, h.offset_le, h.offset_lt, h.holds, h.max_le, hpos⟩

/-- Raising the beginning of the window keeps it sound. -/
theorem setMin (h : Window src c) {pos : ℤ} (hlo : c.minFilepos < pos) (hhi : pos ≤ c.maxFilepos) :
    Window src (cachePosSetMin c pos) := by
  have hfits := h.fits
  have hmax := h.max_le
  exact ⟨hhi, by simp only [cachePosSetMin]; omega, h.offset_le, h.offset_lt,
    h.holds.mono hlo.le le_rfl, fun _ => hmax (by omega), h.read_nonneg⟩

/-- A flushed ring is empty. -/
theorem reset (src : Source) (c : CacheVars) {pos : ℤ} (hpos : 0 ≤ pos) :
    Window src (cachePosReset c pos) := by
  have hg := c.geo.bounds
  refine ⟨le_rfl, ?_, ?_, ?_, Holds.empty _ _ _ _ _, fun h => absurd h (lt_irrefl _), hpos⟩ <;>
    simp only [cachePosReset] <;> omega

/-- Bytes that hold the source keep the window sound. -/
theorem store (h : Window src c) {buffer : ℤ → UInt8}
    (hholds : Holds buffer c.geo.bufferSize c.offset src.byte c.minFilepos c.maxFilepos) :
    Window src { c with buffer := buffer } :=
  ⟨h.min_le, h.fits, h.offset_le, h.offset_lt, hholds, h.max_le, h.read_nonneg⟩

/-- The next byte of the source belongs into the cell `max_filepos - offset`. -/
theorem cell (h : Window src c) :
    (c.maxFilepos - c.offset) % c.geo.bufferSize = c.maxFilepos - c.offset :=
  Ring.cell_of_lt h.offset_le h.offset_lt

end Window

/-- The filler has read `len` bytes for `plan`, which are not yet in the window. -/
structure Fetched (src : Source) (g : Geometry) (minPos maxPos offset : ℤ) (s : Stream)
    (plan : FillPlan) (len : ℕ) : Prop where
  ok : plan.Ok g (maxPos - offset)
  room : maxPos + plan.space - g.bufferSize ≤ minPos
  len_le : len ≤ plan.space
  sound : s.SoundAt src (maxPos + len)
  le_size : 0 < len → maxPos + len ≤ src.size

/-- The filler works on a flush for the reader's position `read`, outside the window. -/
def Flushing (c : CacheVars) (read : ℤ) : Prop :=
  c.readFilepos = read ∧ (read < c.minFilepos ∨ c.maxFilepos < read)

/-- The ring has been emptied at `read`. -/
def EmptiedAt (c : CacheVars) (read : ℤ) : Prop :=
  c.minFilepos = read ∧ c.maxFilepos = read ∧ c.offset = read ∧ 0 ≤ read

/-- What the filler relies on at each of its steps. -/
def FillerInv (src : Source) (s : Sys) : Prop :=
  let c := s.vars
  match s.filler with
  | .enter | .eofSnapshot | .eofClear | .snapshot | .update => s.stream.SoundAt src c.maxFilepos
  | .flushGet read => s.stream.SoundAt src c.maxFilepos ∧ Flushing c read
  | .flushReset read pos => s.stream.SoundAt src c.maxFilepos ∧ Flushing c read ∧ pos = read
  | .seek read => s.stream.Sound src ∧ EmptiedAt c read
  | .resnapshot read => s.stream.SoundAt src c.maxFilepos ∧ EmptiedAt c read
  | .setMin plan newMin =>
      s.stream.SoundAt src c.maxFilepos ∧ plan.Ok c.geo (c.maxFilepos - c.offset) ∧
        newMin = c.maxFilepos + plan.space - c.geo.bufferSize ∧ c.minFilepos < newMin ∧
        newMin ≤ c.maxFilepos
  | .read plan =>
      s.stream.SoundAt src c.maxFilepos ∧ plan.Ok c.geo (c.maxFilepos - c.offset) ∧
        c.maxFilepos + plan.space - c.geo.bufferSize ≤ c.minFilepos
  | .copyTail plan data =>
      Fetched src c.geo c.minFilepos c.maxFilepos c.offset s.stream plan data.length ∧
        plan.wraparoundCopy = true ∧ data = Ring.slice src.byte c.maxFilepos data.length
  | .copyHead plan data =>
      Fetched src c.geo c.minFilepos c.maxFilepos c.offset s.stream plan data.length ∧
        plan.wraparoundCopy = true ∧ data = Ring.slice src.byte c.maxFilepos data.length ∧
        Holds c.buffer c.geo.bufferSize c.offset src.byte c.minFilepos
          (c.maxFilepos + min (data.length : ℤ) (c.geo.bufferSize - plan.pos))
  | .account plan len | .commit plan len =>
      Fetched src c.geo c.minFilepos c.maxFilepos c.offset s.stream plan len ∧
        Holds c.buffer c.geo.bufferSize c.offset src.byte c.minFilepos (c.maxFilepos + len)

/-- The filler is between its snapshot and the reset of `cache_flush`. -/
def FillPc.Flushes : FillPc → Prop
  | .flushGet _ | .flushReset _ _ => True
  | _ => False

/-- The next step of the filler is the first of a fill that stores into the ring. -/
def FillPc.Stores : FillPc → Prop
  | .read plan => plan.wraparoundCopy = false
  | .copyTail _ _ => True
  | _ => False

/-- The filler may have raised `min_filepos` for a fill that has not stored anything yet. -/
def FillPc.Raised : FillPc → Prop
  | .read _ | .copyTail _ _ => True
  | _ => False

/-- The reader is between its snapshot and its `memcpy`. -/
def ReadPc.Copies : ReadPc → Prop
  | .copy _ _ _ => True
  | _ => False

/-- The bytes the reader has copied and not yet added to `read_filepos`. -/
def ReadPc.pending : ReadPc → ℤ
  | .advance len _ _ => len
  | _ => 0

/-- What the reader relies on between its snapshot and its `memcpy`: the cells it is going to copy
hold the source bytes at its position. -/
structure CopyOk (src : Source) (c : CacheVars) (plan : ReadPlan) : Prop where
  newb_pos : 0 < plan.newb
  pos_eq : plan.pos = (c.readFilepos - c.offset) % c.geo.bufferSize
  fits : plan.pos + plan.newb ≤ c.geo.bufferSize
  le_max : c.readFilepos + plan.newb ≤ c.maxFilepos
  le_size : c.readFilepos + plan.newb ≤ src.size
  bytes : readCopy c plan = Ring.slice src.byte c.readFilepos plan.newb.toNat

/-- What the reader relies on at each of its steps. -/
def ReaderInv (src : Source) (s : Sys) : Prop :=
  match s.reader with
  | .copy plan _ _ =>
      CopyOk src s.vars plan ∧ (s.vars.minFilepos ≤ s.vars.readFilepos ∨ s.filler.Raised)
  | .advance len _ _ => 0 ≤ len
  | _ => True

/-- What the reader has copied out since the last seek are the source bytes from there on. -/
structure Delivered (src : Source) (s : Sys) : Prop where
  bytes : s.out = Ring.slice src.byte s.origin s.out.length
  le_size : s.out ≠ [] → s.origin + s.out.length ≤ src.size
  read_eq : s.vars.readFilepos + s.reader.pending = s.origin + s.out.length

/-- The invariant. -/
structure Inv (src : Source) (s : Sys) : Prop where
  window : Window src s.vars
  filler : FillerInv src s
  reader : ReaderInv src s
  delivered : Delivered src s

/-- The steps of a race-free run on an error-free source: the reader does not move while the
filler is between its snapshot and the reset of `cache_flush`, and the filler stores nothing while
the reader copies from below `min_filepos`. -/
def NoRace (s : Sys) : Act → Prop
  | .filler o =>
      o.ErrorFree ∧ (s.filler.Stores → s.reader.Copies → s.vars.minFilepos ≤ s.vars.readFilepos)
  | .seek pos => s.filler.Flushes → alignedPos s.vars.geo (max pos 0) = s.vars.readFilepos
  | .go => s.filler.Flushes → s.reader.pending = 0
  | _ => True

/-- Whether the filler is flushing is decided by its place. -/
instance FillPc.Flushes.instDecidable : (pc : FillPc) → Decidable pc.Flushes
  | .flushGet _ | .flushReset _ _ => isTrue trivial
  | .enter | .eofSnapshot | .eofClear | .snapshot | .seek _ | .resnapshot _ | .setMin _ _
  | .read _ | .copyTail _ _ | .copyHead _ _ | .account _ _ | .commit _ _ | .update => isFalse id

/-- Whether the filler is storing is decided by its place. -/
instance FillPc.Stores.instDecidable : (pc : FillPc) → Decidable pc.Stores
  | .read plan => inferInstanceAs (Decidable (plan.wraparoundCopy = false))
  | .copyTail _ _ => isTrue trivial
  | .enter | .eofSnapshot | .eofClear | .snapshot | .flushGet _ | .flushReset _ _ | .seek _
  | .resnapshot _ | .setMin _ _ | .copyHead _ _ | .account _ _ | .commit _ _ | .update => isFalse id

/-- Whether the reader is copying is decided by its place. -/
instance ReadPc.Copies.instDecidable : (pc : ReadPc) → Decidable pc.Copies
  | .copy _ _ _ => isTrue trivial
  | .idle _ | .clearEof | .loop _ _ | .look _ _ _ | .advance _ _ _ | .update _ => isFalse id

/-- Whether a step may race is found out from the state before it. -/
instance NoRace.instDecidable (s : Sys) : (a : Act) → Decidable (NoRace s a)
  | .filler o => inferInstanceAs (Decidable (o.ErrorFree ∧
      (s.filler.Stores → s.reader.Copies → s.vars.minFilepos ≤ s.vars.readFilepos)))
  | .seek pos => inferInstanceAs (Decidable (s.filler.Flushes →
      alignedPos s.vars.geo (max pos 0) = s.vars.readFilepos))
  | .go => inferInstanceAs (Decidable (s.filler.Flushes → s.reader.pending = 0))
  | .read _ | .abort | .stall => isTrue trivial

/-! ## Storing a fill -/

section Store

variable {src : Source} {c : CacheVars} {s : Stream} {plan : FillPlan} {data : List UInt8}

/-- The copy up to the end of the ring extends what the ring holds, by all of the bytes if there
is no second copy. -/
theorem Fetched.copyTail (hwin : Window src c)
    (h : Fetched src c.geo c.minFilepos c.maxFilepos c.offset s plan data.length)
    (hdata : data = Ring.slice src.byte c.maxFilepos data.length) :
    Holds (fillCopyTail c plan data).buffer c.geo.bufferSize c.offset src.byte c.minFilepos
      (c.maxFilepos + if plan.wraparoundCopy then
        min (data.length : ℤ) (c.geo.bufferSize - plan.pos) else data.length) := by
  have hsize := c.geo.size_pos
  have hpos := h.ok.pos_eq
  have hroom := h.room
  have hlen := h.len_le
  have hlt := hwin.offset_lt
  have hcell := hwin.cell
  rw [fillCopyTail]
  by_cases hwrap : plan.wraparoundCopy = true
  · rw [if_pos hwrap, if_pos hwrap]
    set k := (min (data.length : ℤ) (c.geo.bufferSize - plan.pos)).toNat with hk
    have htake : data.take k = Ring.slice src.byte c.maxFilepos k := by
      rw [hdata, Ring.take_slice _ _ (by omega)]
    simp only
    rw [htake, hpos, ← hcell, show min (data.length : ℤ) _ = (k : ℤ) by omega]
    exact hwin.holds.extend hsize (by omega) (by omega)
  · rw [if_neg hwrap, if_neg hwrap]
    have hfits := h.ok.fits (by simpa using hwrap)
    simp only
    rw [hpos, ← hcell]
    nth_rewrite 1 [hdata]
    exact hwin.holds.extend hsize (by omega) (by omega)

/-- The second copy, from the beginning of the ring on, extends it by the rest. -/
theorem Fetched.copyHead (hwin : Window src c)
    (h : Fetched src c.geo c.minFilepos c.maxFilepos c.offset s plan data.length)
    (hwrap : plan.wraparoundCopy = true)
    (hdata : data = Ring.slice src.byte c.maxFilepos data.length)
    (htail : Holds c.buffer c.geo.bufferSize c.offset src.byte c.minFilepos
      (c.maxFilepos + min (data.length : ℤ) (c.geo.bufferSize - plan.pos))) :
    Holds (fillCopyHead c plan data).buffer c.geo.bufferSize c.offset src.byte c.minFilepos
      (c.maxFilepos + data.length) := by
  have hsize := c.geo.size_pos
  have hpos := h.ok.pos_eq
  have hroom := h.room
  have hlen := h.len_le
  have hspace := h.ok.space_le
  have hle := hwin.offset_le
  have hlt := hwin.offset_lt
  rw [fillCopyHead, if_pos hwrap]
  by_cases hshort : (data.length : ℤ) ≤ c.geo.bufferSize - plan.pos
  · -- the first copy has taken all of them
    rw [min_eq_left hshort] at htail
    simp only [min_eq_left hshort, Int.toNat_natCast, List.drop_length, Ring.write_nil]
    exact htail
  · rw [min_eq_right (by omega)] at htail
    set k := (c.geo.bufferSize - plan.pos).toNat with hk
    have hdrop : data.drop k = Ring.slice src.byte (c.maxFilepos + k) (data.length - k) := by
      nth_rewrite 1 [hdata]
      rw [Ring.drop_slice _ _ (by omega)]
    have hcell : (c.maxFilepos + k - c.offset) % c.geo.bufferSize = 0 := by
      rw [show c.maxFilepos + (k : ℤ) - c.offset = c.geo.bufferSize by omega, Int.emod_self]
    rw [show c.geo.bufferSize - plan.pos = (k : ℤ) by omega] at htail
    have hext := htail.extend (n := data.length - k) hsize (by omega) (by omega)
    simp only [min_eq_right (show c.geo.bufferSize - plan.pos ≤ data.length by omega)]
    rw [hdrop, ← hcell, show c.maxFilepos + (data.length : ℤ) =
      c.maxFilepos + k + ((data.length - k : ℕ) : ℤ) by omega]
    exact hext

/-- After the commit the ring holds the longer window. -/
theorem Fetched.commit {len : ℕ} (hwin : Window src c)
    (h : Fetched src c.geo c.minFilepos c.maxFilepos c.offset s plan len)
    (hholds : Holds c.buffer c.geo.bufferSize c.offset src.byte c.minFilepos
      (c.maxFilepos + len)) : Window src (fillCommit c plan len) := by
  have hpos := h.ok.pos_eq
  have hspace := h.ok.space_le
  have hroom := h.room
  have hlen := h.len_le
  have hmin := hwin.min_le
  have hle := hwin.offset_le
  have hlt := hwin.offset_lt
  have hmax := hwin.max_le
  have hsize := h.le_size
  rw [fillCommit, cachePosCommitFill]
  have hmax' : c.minFilepos < c.maxFilepos + len → c.maxFilepos + len ≤ src.size := by
    intro hlt'
    rcases Nat.eq_zero_or_pos len with h0 | h0 <;> omega
  by_cases hwrapped : plan.pos + len ≥ c.geo.bufferSize
  · simp only [hwrapped, decide_true, if_true]
    exact ⟨by simp only; omega, by simp only; omega, by simp only; omega, by simp only; omega,
      hholds.shift, hmax', hwin.read_nonneg⟩
  · simp only [hwrapped, decide_false, Bool.false_eq_true, if_false]
    exact ⟨by simp only; omega, by simp only; omega, by simp only; omega, by simp only; omega,
      hholds, hmax', hwin.read_nonneg⟩

end Store

/-! ## The filler -/

section Filler

variable {src : Source} {r : Rounding} {s : Sys} {o : Oracle}

/-- A step of the filler that keeps the reader's position keeps what has been delivered. -/
theorem Delivered.filler (h : Delivered src s) {vars : CacheVars} {stream : Stream} {status : ℚ}
    {pc : FillPc} (hread : vars.readFilepos = s.vars.readFilepos) :
    Delivered src { s with vars := vars, stream := stream, fillStatus := status, filler := pc } :=
  ⟨h.bytes, h.le_size, by simpa only [hread] using h.read_eq⟩

/-- A step of the filler that leaves the ring alone keeps what the reader relies on, unless the
reader copies from below `min_filepos` and the filler forgets about it. -/
theorem ReaderInv.filler (h : ReaderInv src s) {stream : Stream} {status : ℚ} {pc : FillPc}
    (hpc : s.filler.Raised → pc.Raised) :
    ReaderInv src { s with stream := stream, fillStatus := status, filler := pc } := by
  unfold ReaderInv at h ⊢
  cases hr : s.reader with
  | copy plan size total =>
      simp only [hr] at h ⊢
      exact ⟨h.1, h.2.imp_right hpc⟩
  | advance len size total =>
      simp only [hr] at h ⊢
      exact h
  | _ => trivial

/-- A step of the filler that changes neither the ring nor what the threads rely on. -/
theorem Inv.fillerKeep (h : Inv src s) {stream : Stream} {status : ℚ} {pc : FillPc}
    (hpc : s.filler.Raised → pc.Raised)
    (hf : FillerInv src { s with stream := stream, fillStatus := status, filler := pc }) :
    Inv src { s with stream := stream, fillStatus := status, filler := pc } :=
  ⟨h.window, hf, h.reader.filler hpc, h.delivered.filler rfl⟩

/-- The reader does not rely on the flag. -/
theorem ReaderInv.setEof (h : ReaderInv src s) (eof : Bool) :
    ReaderInv src { s with vars := { s.vars with eof := eof } } := by
  unfold ReaderInv at h ⊢
  cases hr : s.reader with
  | copy plan size total =>
      simp only [hr] at h ⊢
      obtain ⟨hcopy, hmin⟩ := h
      exact ⟨⟨hcopy.newb_pos, hcopy.pos_eq, hcopy.fits, hcopy.le_max, hcopy.le_size, hcopy.bytes⟩,
        hmin⟩
  | advance len size total =>
      simp only [hr] at h ⊢
      exact h
  | _ => trivial

/-- In a snapshot taken with the reader inside the window, the fill plans as it should. -/
theorem afterSnapshot_inv (hwin : Window src s.vars)
    (hsound : s.stream.SoundAt src s.vars.maxFilepos) {read : ℤ}
    (hlo : s.vars.minFilepos ≤ read) (hhi : read ≤ s.vars.maxFilepos) :
    FillerInv src
      { s with
        filler := afterSnapshot s.vars.geo s.stream.readChunk (cachePosGet s.vars) read } := by
  unfold afterSnapshot
  rcases hplan : fillPlan s.vars.geo s.stream.readChunk (cachePosGet s.vars) read with
    _ | ⟨plan, _ | newMin⟩
  · exact hsound
  all_goals
    obtain ⟨hok, hraise, hkeep⟩ := fillPlan_ok (p := cachePosGet s.vars) hlo hhi hwin.fits
      hwin.offset_le hwin.offset_lt hplan
  · exact ⟨hsound, hok, hkeep rfl⟩
  · obtain ⟨hm, hmin, hread⟩ := hraise _ rfl
    exact ⟨hsound, hok, hm, hmin, hread.trans hhi⟩

/-- The window test answers `false` only if the reader is inside the window. -/
theorem inside_of_not_outOfBoundaries {c : CacheVars} {type : StreamType} (htype : type ≠ .stream)
    (h : ¬ outOfBoundaries c type (cachePosGet c) = true) :
    c.minFilepos ≤ c.readFilepos ∧ c.readFilepos ≤ c.maxFilepos := by
  have hin := not_and_or.mp (mt decide_eq_true h)
  simp only [cachePosGet] at hin
  rcases hin with hin | hin
  · omega
  · exact absurd (Or.inl htype) hin

/-- A reader that is out of boundaries is outside of the window. -/
theorem outside_of_outOfBoundaries {c : CacheVars} {type : StreamType}
    (h : outOfBoundaries c type (cachePosGet c) = true) :
    c.readFilepos < c.minFilepos ∨ c.maxFilepos < c.readFilepos := by
  exact (of_decide_eq_true h).1

/-- While the filler flushes, the reader is not copying. -/
theorem Inv.not_copies (h : Inv src s) (hraised : ¬ s.filler.Raised)
    (hout : s.vars.readFilepos < s.vars.minFilepos ∨ s.vars.maxFilepos < s.vars.readFilepos) :
    ¬ s.reader.Copies := by
  intro hcopies
  have hr := h.reader
  unfold ReaderInv at hr
  cases hpc : s.reader with
  | copy plan size total =>
      simp only [hpc] at hr
      have hmax := hr.1.le_max
      have hpos := hr.1.newb_pos
      have hmin := hr.2.resolve_right hraised
      omega
  | _ => simp only [hpc, ReadPc.Copies] at hcopies

/-- A reader that is not copying relies on nothing that the filler can change. -/
theorem ReaderInv.of_not_copies (h : ReaderInv src s) (hcopies : ¬ s.reader.Copies) {vars : CacheVars}
    {stream : Stream} {status : ℚ} {pc : FillPc} :
    ReaderInv src { s with vars := vars, stream := stream, fillStatus := status, filler := pc } := by
  unfold ReaderInv at h ⊢
  cases hr : s.reader with
  | copy plan size total => exact absurd (by rw [hr]; trivial) hcopies
  | advance len size total =>
      simp only [hr] at h ⊢
      exact h
  | _ => trivial

/-- After a store that keeps the window, a reader inside it copies the right bytes. -/
theorem CopyOk.store {c : CacheVars} {plan : ReadPlan} (h : CopyOk src c plan)
    {buffer : ℤ → UInt8} (hwin : Window src { c with buffer := buffer })
    (hmin : c.minFilepos ≤ c.readFilepos) : CopyOk src { c with buffer := buffer } plan := by
  have hpos := h.newb_pos
  have hmax := h.le_max
  have hfits := h.fits
  refine ⟨h.newb_pos, h.pos_eq, h.fits, h.le_max, h.le_size, ?_⟩
  have hbytes := hwin.holds.slice (p := c.readFilepos) (n := plan.newb.toNat) c.geo.size_pos hmin
    (by simp only; omega) (by simp only; rw [← h.pos_eq]; omega)
  rw [readCopy, h.pos_eq]
  exact hbytes

/-- A store of the filler keeps what the reader relies on, if the reader is not copying from below
the window. -/
theorem ReaderInv.store (h : ReaderInv src s)
    (hmin : s.reader.Copies → s.vars.minFilepos ≤ s.vars.readFilepos) {buffer : ℤ → UInt8}
    (hwin : Window src { s.vars with buffer := buffer }) {stream : Stream} {pc : FillPc} :
    ReaderInv src
      { s with vars := { s.vars with buffer := buffer }, stream := stream, filler := pc } := by
  unfold ReaderInv at h ⊢
  cases hr : s.reader with
  | copy plan size total =>
      simp only [hr] at h ⊢
      have hle := hmin (by rw [hr]; trivial)
      exact ⟨h.1.store hwin hle, Or.inl hle⟩
  | advance len size total =>
      simp only [hr] at h ⊢
      exact h
  | _ => trivial

/-- Believing or clearing `eof`, and the snapshot. -/
theorem Inv.fillerSnapshot (h : Inv src s) (hpc : s.filler = .snapshot) :
    Inv src (fillerStep src r s o) := by
  have hf := h.filler
  simp only [FillerInv, hpc] at hf
  simp only [fillerStep, hpc]
  by_cases hout : outOfBoundaries s.vars s.stream.type (cachePosGet s.vars) = true
  · rw [if_pos hout]
    exact h.fillerKeep (by simp [hpc, FillPc.Raised])
      ⟨hf, rfl, outside_of_outOfBoundaries hout⟩
  · rw [if_neg hout]
    obtain ⟨hlo, hhi⟩ := inside_of_not_outOfBoundaries hf.type_ne hout
    exact h.fillerKeep (by simp [hpc, FillPc.Raised]) (afterSnapshot_inv h.window hf hlo hhi)

/-- The reset of `cache_flush`, with the position the reader had at the snapshot. -/
theorem Inv.fillerFlushReset (h : Inv src s) {read pos : ℤ} (hpc : s.filler = .flushReset read pos) :
    Inv src (fillerStep src r s o) := by
  have hf := h.filler
  simp only [FillerInv, hpc] at hf
  obtain ⟨hsound, ⟨rfl, hout⟩, rfl⟩ := hf
  simp only [fillerStep, hpc]
  have hnot := h.not_copies (by simp [hpc, FillPc.Raised]) hout
  have hnn := h.window.read_nonneg
  exact ⟨Window.reset src s.vars hnn, ⟨hsound.toSound, rfl, rfl, rfl, hnn⟩,
    h.reader.of_not_copies hnot, h.delivered.filler rfl⟩

/-- Raising the beginning of the window keeps the invariant. -/
theorem Inv.fillerSetMin (h : Inv src s) {plan : FillPlan} {newMin : ℤ}
    (hpc : s.filler = .setMin plan newMin) : Inv src (fillerStep src r s o) := by
  have hf := h.filler
  simp only [FillerInv, hpc] at hf
  obtain ⟨hsound, hok, rfl, hmin, hmax⟩ := hf
  simp only [fillerStep, hpc]
  refine ⟨h.window.setMin hmin hmax, ⟨hsound, hok, le_rfl⟩, ?_, h.delivered.filler rfl⟩
  -- a reader below the new minimum may still copy: nothing has been overwritten yet
  have hr := h.reader
  unfold ReaderInv at hr ⊢
  cases hreader : s.reader with
  | copy plan size total =>
      simp only [hreader] at hr ⊢
      obtain ⟨hcopy, -⟩ := hr
      exact ⟨⟨hcopy.newb_pos, hcopy.pos_eq, hcopy.fits, hcopy.le_max, hcopy.le_size, hcopy.bytes⟩,
        Or.inr trivial⟩
  | advance len size total =>
      simp only [hreader] at hr ⊢
      exact hr
  | _ => trivial

/-- The read from the stream, which stores the bytes at once unless the fill copies them. -/
theorem Inv.fillerRead (h : Inv src s) {plan : FillPlan} (hpc : s.filler = .read plan)
    (hrace : NoRace s (.filler o)) : Inv src (fillerStep src r s o) := by
  obtain ⟨ho, hstores⟩ := hrace
  have hf := h.filler
  simp only [FillerInv, hpc] at hf
  obtain ⟨hsound, hok, hroom⟩ := hf
  obtain ⟨n, hn, hdata, hsound', hsize, -⟩ := hsound.toSound.read hok.space_pos ho
  rw [hsound.dev_eq] at hdata hsound' hsize
  have hlen : (streamReadInternal src s.stream plan.space o).1.length = n := by
    rw [hdata, Ring.length_slice]
  simp only [fillerStep, hpc]
  -- What the device gives are the bytes behind the maximum.
  have hfetched : Fetched src s.vars.geo s.vars.minFilepos s.vars.maxFilepos s.vars.offset
      (streamReadInternal src s.stream plan.space o).2 plan
      (streamReadInternal src s.stream plan.space o).1.length := by
    rw [hlen]
    exact ⟨hok, hroom, hn, hsound', hsize⟩
  have hslice : (streamReadInternal src s.stream plan.space o).1 =
      Ring.slice src.byte s.vars.maxFilepos
        (streamReadInternal src s.stream plan.space o).1.length := by
    rw [hlen, hdata]
  -- with a wrap the copy takes two steps, without one it is this step
  by_cases hwrap : plan.wraparoundCopy = true
  · rw [if_pos hwrap]
    exact h.fillerKeep (fun _ => trivial) ⟨hfetched, hwrap, hslice⟩
  · rw [if_neg hwrap]
    have htail := hfetched.copyTail h.window hslice
    rw [if_neg hwrap] at htail
    have hwin : Window src { s.vars with buffer :=
        (fillCopyTail s.vars plan (streamReadInternal src s.stream plan.space o).1).buffer } :=
      h.window.store (htail.mono le_rfl (by omega))
    have hvars : fillCopyTail s.vars plan (streamReadInternal src s.stream plan.space o).1 =
        { s.vars with buffer :=
          (fillCopyTail s.vars plan (streamReadInternal src s.stream plan.space o).1).buffer } := by
      rw [fillCopyTail, if_neg hwrap]
    have hmin := hstores (by simpa [hpc, FillPc.Stores] using hwrap)
    rw [hvars]
    exact ⟨hwin, ⟨hfetched, htail⟩, h.reader.store hmin hwin, h.delivered.filler rfl⟩

/-- The first copy out of the stream's buffer. -/
theorem Inv.fillerCopyTail (h : Inv src s) {plan : FillPlan} {data : List UInt8}
    (hpc : s.filler = .copyTail plan data) (hrace : NoRace s (.filler o)) :
    Inv src (fillerStep src r s o) := by
  have hf := h.filler
  simp only [FillerInv, hpc] at hf
  obtain ⟨hfetched, hwrap, hslice⟩ := hf
  simp only [fillerStep, hpc]
  have htail := hfetched.copyTail h.window hslice
  rw [if_pos hwrap] at htail
  have hlt := h.window.offset_lt
  have hpos := hfetched.ok.pos_eq
  have hvars : fillCopyTail s.vars plan data =
      { s.vars with buffer := (fillCopyTail s.vars plan data).buffer } := by
    rw [fillCopyTail, if_pos hwrap]
  have hwin : Window src { s.vars with buffer := (fillCopyTail s.vars plan data).buffer } :=
    h.window.store (htail.mono le_rfl (by omega))
  have hmin := hrace.2 (by simp [hpc, FillPc.Stores])
  rw [hvars]
  exact ⟨hwin, ⟨hfetched, hwrap, hslice, htail⟩, h.reader.store hmin hwin, h.delivered.filler rfl⟩

/-- The second copy. No reader is left below `min_filepos`, which was raised before the first. -/
theorem Inv.fillerCopyHead (h : Inv src s) {plan : FillPlan} {data : List UInt8}
    (hpc : s.filler = .copyHead plan data) : Inv src (fillerStep src r s o) := by
  have hf := h.filler
  simp only [FillerInv, hpc] at hf
  obtain ⟨hfetched, hwrap, hslice, htail⟩ := hf
  simp only [fillerStep, hpc]
  have hhead := hfetched.copyHead h.window hwrap hslice htail
  have hvars : fillCopyHead s.vars plan data =
      { s.vars with buffer := (fillCopyHead s.vars plan data).buffer } := by
    rw [fillCopyHead, if_pos hwrap]
  have hwin : Window src { s.vars with buffer := (fillCopyHead s.vars plan data).buffer } :=
    h.window.store (hhead.mono le_rfl (by omega))
  rw [hvars]
  refine ⟨hwin, ⟨hfetched, hhead⟩, h.reader.store (fun hcopies => ?_) hwin, h.delivered.filler rfl⟩
  by_contra hmin
  exact h.not_copies (by simp [hpc, FillPc.Raised]) (Or.inl (by omega)) hcopies

/-- Accounting for what was read keeps the invariant. -/
theorem Inv.fillerAccount (h : Inv src s) {plan : FillPlan} {len : ℕ}
    (hpc : s.filler = .account plan len) : Inv src (fillerStep src r s o) := by
  have hf := h.filler
  simp only [FillerInv, hpc] at hf
  obtain ⟨hfetched, hholds⟩ := hf
  have herror := hfetched.sound.error_eq
  have hnn := h.window.read_nonneg
  -- without device errors only `eof` changes
  have haccount : ∃ eof status, WiiMC.Cache.fillAccount r s.vars s.stream s.fillStatus len =
      ({ s.vars with eof := eof }, s.stream, status) := by
    rw [WiiMC.Cache.fillAccount]
    by_cases hlen : len = 0
    · rw [if_pos hlen, if_neg (by omega)]
      exact ⟨_, _, rfl⟩
    · rw [if_neg hlen, ← herror]
      exact ⟨_, _, rfl⟩
  obtain ⟨eof, status, haccount⟩ := haccount
  simp only [fillerStep, hpc, haccount]
  refine ⟨h.window.setRead eof hnn, ⟨hfetched, hholds⟩, ?_, h.delivered.filler rfl⟩
  exact (h.reader.setEof eof).filler (by simp [hpc, FillPc.Raised])

/-- Moving the end of the window keeps the invariant. -/
theorem Inv.fillerCommit (h : Inv src s) {plan : FillPlan} {len : ℕ}
    (hpc : s.filler = .commit plan len) : Inv src (fillerStep src r s o) := by
  have hf := h.filler
  simp only [FillerInv, hpc] at hf
  obtain ⟨hfetched, hholds⟩ := hf
  simp only [fillerStep, hpc]
  refine ⟨hfetched.commit h.window hholds, hfetched.sound, ?_, h.delivered.filler rfl⟩
  have hr := h.reader
  unfold ReaderInv at hr ⊢
  cases hreader : s.reader with
  | copy plan' size total =>
      simp only [hreader] at hr ⊢
      obtain ⟨hcopy, hmin⟩ := hr
      have hmin := hmin.resolve_right (by simp [hpc, FillPc.Raised])
      have hmax := hcopy.le_max
      refine ⟨⟨hcopy.newb_pos, ?_, hcopy.fits, ?_, hcopy.le_size, hcopy.bytes⟩, Or.inl hmin⟩
      · rw [hcopy.pos_eq, fillCommit, cachePosCommitFill]
        split_ifs
        · rw [Ring.cell_shift]
        · rfl
      · rw [fillCommit, cachePosCommitFill]
        simp only
        omega
  | advance len size total =>
      simp only [hreader] at hr ⊢
      exact hr
  | _ => trivial

/-- A step of the filler keeps the invariant. -/
theorem inv_fillerStep (h : Inv src s) (hrace : NoRace s (.filler o)) :
    Inv src (fillerStep src r s o) := by
  have hf := h.filler
  have hnn := h.window.read_nonneg
  -- One case per instruction; those that store to the window have a lemma of their own.
  cases hpc : s.filler with
  | enter =>
      simp only [FillerInv, hpc] at hf
      simp only [fillerStep, hpc]
      refine h.fillerKeep (by simp [hpc, FillPc.Raised]) ?_
      split_ifs <;> exact hf
  | eofSnapshot =>
      simp only [FillerInv, hpc] at hf
      simp only [fillerStep, hpc]
      split_ifs <;> exact h.fillerKeep (by simp [hpc, FillPc.Raised]) hf
  | eofClear =>
      simp only [FillerInv, hpc] at hf
      simp only [fillerStep, hpc]
      exact ⟨h.window.setRead false hnn, ⟨hf.toSound.reset, by simp only [streamReset_dev, hf.dev_eq]⟩,
        (h.reader.setEof false).filler (by simp [hpc, FillPc.Raised]), h.delivered.filler rfl⟩
  | snapshot => exact h.fillerSnapshot hpc
  -- `cache_pos_get` inside `cache_flush` is a second snapshot
  | flushGet read =>
      simp only [FillerInv, hpc] at hf
      simp only [fillerStep, hpc]
      exact h.fillerKeep (by simp [hpc, FillPc.Raised]) ⟨hf.1, hf.2, hf.2.1⟩
  | flushReset read pos => exact h.fillerFlushReset hpc
  -- in a race-free run the device takes the seek, and the ring is empty behind the flush
  | seek read =>
      simp only [FillerInv, hpc] at hf
      obtain ⟨hsound, hempty⟩ := hf
      simp only [fillerStep, hpc, fillerSeek, hrace.1.1]
      refine h.fillerKeep (by simp [hpc, FillPc.Raised]) ⟨?_, hempty⟩
      rw [hempty.2.1]
      exact hsound.reset_seek hempty.2.2.2
  -- the position is taken anew, the other members are the filler's own
  | resnapshot read =>
      simp only [FillerInv, hpc] at hf
      obtain ⟨hsound, hmin, hmax, -, -⟩ := hf
      simp only [fillerStep, hpc]
      exact h.fillerKeep (by simp [hpc, FillPc.Raised])
        (afterSnapshot_inv h.window hsound hmin.le hmax.ge)
  | setMin plan newMin => exact h.fillerSetMin hpc
  | read plan => exact h.fillerRead hpc hrace
  | copyTail plan data => exact h.fillerCopyTail hpc hrace
  | copyHead plan data => exact h.fillerCopyHead hpc
  | account plan len => exact h.fillerAccount hpc
  | commit plan len => exact h.fillerCommit hpc
  | update =>
      simp only [FillerInv, hpc] at hf
      simp only [fillerStep, hpc]
      exact h.fillerKeep (by simp [hpc, FillPc.Raised]) hf

end Filler

/-! ## The reader -/

section Reader

variable {src : Source} {r : Rounding} {s : Sys}

/-- The filler relies on the reader's position only while it flushes. -/
theorem FillerInv.reader (h : FillerInv src s) {eof : Bool} {pos : ℤ} {pc : ReadPc} {status : ℚ}
    {origin : ℤ} {out : List UInt8} (hpos : s.filler.Flushes → pos = s.vars.readFilepos) :
    FillerInv src
      { s with
        vars := { s.vars with eof := eof, readFilepos := pos }
        reader := pc
        fillStatus := status
        origin := origin
        out := out } := by
  unfold FillerInv at h ⊢
  cases hpc : s.filler with
  | flushGet read =>
      simp only [hpc] at h ⊢
      have heq := hpos (by rw [hpc]; trivial)
      exact ⟨h.1, heq.trans h.2.1, h.2.2⟩
  | flushReset read pos' =>
      simp only [hpc] at h ⊢
      have heq := hpos (by rw [hpc]; trivial)
      exact ⟨h.1, ⟨heq.trans h.2.1.1, h.2.1.2⟩, h.2.2⟩
  | _ =>
      simp only [hpc] at h ⊢
      exact h

/-- A step of the reader outside of the loop of `cache_read`, or in it without a copy. -/
theorem Inv.readerKeep (h : Inv src s) {eof : Bool} {pc : ReadPc} {status : ℚ}
    (hold : s.reader.pending = 0) (hnew : pc.pending = 0) (hcopies : ¬ pc.Copies) :
    Inv src { s with vars := { s.vars with eof := eof }, reader := pc, fillStatus := status } := by
  have hread := h.delivered.read_eq
  refine ⟨h.window.setRead eof h.window.read_nonneg, h.filler.reader fun _ => rfl, ?_,
    ⟨h.delivered.bytes, h.delivered.le_size, by simp only; omega⟩⟩
  unfold ReaderInv
  cases pc with
  | copy plan size total => exact absurd trivial hcopies
  | advance len size total => exact hnew.ge
  | _ => trivial

/-- A snapshot with the reader strictly inside the window plans a copy of source bytes. -/
theorem Window.readPlan {c : CacheVars} (h : Window src c) {size : ℤ} (hsize : 0 < size)
    (hlo : c.minFilepos ≤ c.readFilepos) (hhi : c.readFilepos < c.maxFilepos) :
    CopyOk src c (readPlan c.geo (cachePosGet c) size) := by
  obtain ⟨hpos, hnewb, -, hend, hfits⟩ := readPlan_ok (p := cachePosGet c) hsize hlo hhi
    h.fits h.offset_le h.offset_lt
  have hmax := h.max_le (lt_of_le_of_lt hlo hhi)
  generalize WiiMC.Cache.readPlan c.geo (cachePosGet c) size = plan at *
  change plan.pos = (c.readFilepos - c.offset) % c.geo.bufferSize at hpos
  change c.readFilepos + plan.newb ≤ c.maxFilepos at hend
  refine ⟨hnewb, hpos, hfits, hend, by omega, ?_⟩
  rw [readCopy, hpos]
  exact h.holds.slice c.geo.size_pos hlo (by omega) (by rw [← hpos]; omega)

/-- Where `cache_read` does not wait, the reader is strictly inside the window. -/
theorem inside_of_not_mustWait {c : CacheVars} (h : ¬ mustWait (cachePosGet c) = true) :
    c.minFilepos ≤ c.readFilepos ∧ c.readFilepos < c.maxFilepos := by
  have hin := not_or.mp (mt decide_eq_true h)
  simp only [cachePosGet] at hin
  omega

/-- The snapshot of `cache_read` with bytes to copy. -/
theorem Inv.readerSnapshot (h : Inv src s) (hpending : s.reader.pending = 0) {size total : ℤ}
    (hsize : 0 < size) (hwait : ¬ mustWait (cachePosGet s.vars) = true) :
    Inv src { s with reader := .copy (readPlan s.vars.geo (cachePosGet s.vars) size) size total } := by
  have hread := h.delivered.read_eq
  obtain ⟨hmin, hmax⟩ := inside_of_not_mustWait hwait
  refine ⟨h.window, h.filler.reader fun _ => rfl, ⟨h.window.readPlan hsize hmin hmax, Or.inl hmin⟩,
    ⟨h.delivered.bytes, h.delivered.le_size, ?_⟩⟩
  rw [hpending] at hread
  exact hread

/-- The `memcpy` of `cache_read`. -/
theorem Inv.readerCopy (h : Inv src s) {plan : ReadPlan} {size total : ℤ}
    (hpc : s.reader = .copy plan size total) :
    Inv src { s with
      out := s.out ++ readCopy s.vars plan
      reader := .advance plan.newb size total } := by
  have hr := h.reader
  have hread := h.delivered.read_eq
  simp only [ReaderInv, hpc] at hr
  simp only [hpc, ReadPc.pending, add_zero] at hread
  obtain ⟨hcopy, -⟩ := hr
  have hpos := hcopy.newb_pos
  have hsize := hcopy.le_size
  have hlen : (s.out ++ readCopy s.vars plan).length = s.out.length + plan.newb.toNat := by
    rw [List.length_append, hcopy.bytes, Ring.length_slice]
  refine ⟨h.window, h.filler.reader fun _ => rfl, hpos.le, ⟨?_, fun _ => ?_, ?_⟩⟩
  · simp only [hlen]
    rw [Ring.slice_add, ← h.delivered.bytes, hcopy.bytes, hread]
  · simp only [hlen]
    omega
  · simp only [hlen, ReadPc.pending]
    omega

/-- Moving `read_filepos` past the bytes copied. -/
theorem Inv.readerAdvance (h : Inv src s) {len size total : ℤ}
    (hpc : s.reader = .advance len size total) (hflush : s.filler.Flushes → len = 0) :
    Inv src { s with
      vars := cachePosAdvanceRead s.vars len
      reader := .loop (size - len) (total + len) } := by
  have hr := h.reader
  have hread := h.delivered.read_eq
  have hnn := h.window.read_nonneg
  simp only [ReaderInv, hpc] at hr
  simp only [hpc, ReadPc.pending] at hread
  refine ⟨h.window.setRead s.vars.eof (by omega), h.filler.reader fun hf => ?_, trivial,
    ⟨h.delivered.bytes, h.delivered.le_size, ?_⟩⟩
  · have := hflush hf
    omega
  · simp only [cachePosAdvanceRead, ReadPc.pending]
    omega

/-- A step of the reader keeps the invariant. -/
theorem inv_readerStep (h : Inv src s) (hrace : NoRace s .go) {t : Sys}
    (hstep : readerStep r s = some t) : Inv src t := by
  -- Only the copy and the advance need the window; the race is at the advance.
  cases hpc : s.reader with
  | idle returned => simp [readerStep, hpc] at hstep
  | clearEof =>
      simp only [readerStep, hpc, Option.some.injEq] at hstep
      subst hstep
      exact h.readerKeep (by rw [hpc]; rfl) rfl id
  | loop size total =>
      have hpending : s.reader.pending = 0 := by rw [hpc]; rfl
      simp only [readerStep, hpc] at hstep
      split_ifs at hstep with hsize hwait hodd <;> cases hstep
      · exact h.readerKeep hpending rfl id
      · exact h
      · exact h.readerSnapshot hpending hsize hwait
      · exact h.readerKeep hpending rfl id
  | look p size total =>
      have hpending : s.reader.pending = 0 := by rw [hpc]; rfl
      simp only [readerStep, hpc] at hstep
      split_ifs at hstep <;> cases hstep <;> exact h.readerKeep hpending rfl id
  | copy plan size total =>
      simp only [readerStep, hpc, Option.some.injEq] at hstep
      subst hstep
      exact h.readerCopy hpc
  | advance len size total =>
      simp only [readerStep, hpc, Option.some.injEq] at hstep
      subst hstep
      refine h.readerAdvance hpc fun hflush => ?_
      simpa [hpc, ReadPc.pending] using hrace hflush
  | update total =>
      simp only [readerStep, hpc, Option.some.injEq] at hstep
      subst hstep
      exact h.readerKeep (by rw [hpc]; rfl) rfl id

/-- An aligned position is not negative. -/
theorem alignedPos_nonneg (g : Geometry) {pos : ℤ} (hpos : 0 ≤ pos) : 0 ≤ alignedPos g pos :=
  mul_nonneg (Int.tdiv_nonneg hpos g.sector_pos.le) g.sector_pos.le

/-- A seek starts the delivery anew, at the position it publishes. -/
theorem Inv.seek (h : Inv src s) {newpos : ℤ} (hpos : 0 ≤ newpos)
    (hflush : s.filler.Flushes → newpos = s.vars.readFilepos) :
    Inv src { s with
      vars := cachePosSetRead s.vars newpos
      reader := .clearEof
      origin := newpos
      out := [] } :=
  ⟨h.window.setRead s.vars.eof hpos, h.filler.reader hflush, trivial,
    ⟨rfl, fun hout => absurd rfl hout, by simp [cachePosSetRead, ReadPc.pending]⟩⟩

end Reader

/-- A race-free step keeps the invariant. -/
theorem inv_step {src : Source} {r : Rounding} {s t : Sys} {a : Act} (h : Inv src s)
    (hrace : NoRace s a) (hstep : step src r s a = some t) : Inv src t := by
  cases a with
  | filler o =>
      cases hstep
      exact inv_fillerStep h hrace
  -- in a race-free run no seek falls into a flush
  | seek pos =>
      simp only [step] at hstep
      split at hstep <;> cases hstep
      exact h.seek (alignedPos_nonneg _ (le_max_right _ _)) hrace
  | read size =>
      simp only [step] at hstep
      split at hstep <;> cases hstep
      next hpc => exact h.readerKeep (by rw [hpc]; rfl) rfl id
  | go => exact inv_readerStep h hrace hstep
  | abort =>
      simp only [step] at hstep
      split at hstep
      · next hpc =>
          split_ifs at hstep
          cases hstep
          exact h.readerKeep (by rw [hpc]; rfl) rfl id
      · cases hstep
  | stall =>
      simp only [step] at hstep
      split at hstep
      · next hpc =>
          split_ifs at hstep
          cases hstep
          exact h.readerKeep (by rw [hpc]; rfl) rfl id
      · cases hstep

/-- A fresh ring is empty. -/
theorem Started.empty {vars : CacheVars} {stream : Stream} (h : Started vars stream) :
    vars.minFilepos = stream.pos ∧ vars.maxFilepos = stream.pos ∧ vars.offset = stream.pos ∧
      vars.readFilepos = stream.pos ∧ vars.eof = false := by
  obtain ⟨memory, size, sector, seekLimit, vars₀, hinit, rfl⟩ := h
  have heof : vars₀.eof = false := by
    unfold cacheInit at hinit
    cases memory with
    | none => cases hinit
    | some buffer =>
        simp only at hinit
        split_ifs at hinit
        all_goals
          cases hinit
          rfl
  unfold enableRing
  simp only
  split_ifs <;> exact ⟨rfl, rfl, rfl, rfl, heof⟩

/-- The invariant holds initially. -/
theorem inv_init {src : Source} {r : Rounding} {s : Sys} (h : (threads src r).init s) :
    Inv src s := by
  obtain ⟨hstarted, hfresh, hfiller, hreader, horigin, hout⟩ := h
  obtain ⟨hmin, hmax, hoffset, hread, -⟩ := hstarted.empty
  have hnn := hfresh.pos_nonneg
  have hsize := s.vars.geo.size_pos
  refine ⟨⟨by omega, by omega, by omega, by omega, ?_, by omega, by omega⟩, ?_, ?_,
    ⟨by rw [hout]; rfl, fun h => absurd hout h, ?_⟩⟩
  · rw [hmax, hmin]
    exact Holds.empty _ _ _ _ _
  · simp only [FillerInv, hfiller]
    exact ⟨⟨hfresh.type_ne, hfresh.seekable, hfresh.error_eq, by rw [hfresh.dev_eq]; exact hnn,
      hfresh.tries_nonneg, Or.inl hfresh.dev_eq.symm, by simp [hfresh.eof_eq]⟩,
      by rw [hfresh.dev_eq, hmax]⟩
  · simp [ReaderInv, hreader]
  · simp [hreader, ReadPc.pending, hout, horigin]

/-- The invariant holds in every state of a race-free run. -/
theorem inv_of_reachable {src : Source} {r : Rounding} {s : Sys}
    (hs : (threads src r).Reachable NoRace s) : Inv src s :=
  hs.invariant (fun _ => inv_init) fun _ _ _ _ h hrace hstep => inv_step h hrace hstep

end WiiMC.Cache
