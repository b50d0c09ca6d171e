import WiiMC.Cache.Stream

/-!
# One fill and one read, from a snapshot

The computations `cache_fill` and `cache_read` of `stream/cache2.c` make from one snapshot of the
positions, with no step of the other thread in between: how much to read and where to put it
(`fillPlan`), where the new bytes go (`fillCopyTail`, `fillCopyHead`), what an empty read means
(`fillAccount`), and which bytes of the ring the reader copies (`readPlan`).

* `fillPlan_room`, `fillPlan_ok`: a fill never reaches into the bytes it keeps.
* `fillPlan_none`: a fill is declined only with most of the ring ahead of the reader.
* `readPlan_ok`: inside the window, the reader's very odd error does not occur.
-/

namespace WiiMC.Cache

/-- What `cache_fill` has decided when it calls `stream_read_internal`. -/
structure FillPlan where
  /-- Index in the buffer of the first byte to fill. -/
  pos : ℤ
  /-- How many bytes to ask the stream for. -/
  space : ℤ
  /-- Whether the bytes are read to the stream's own buffer and copied in two pieces. -/
  wraparoundCopy : Bool
  deriving DecidableEq, Repr

/-- The window test of `cache_fill`: the reader is outside, and the source must be seeked. -/
def outOfBoundaries (c : CacheVars) (type : StreamType) (p : CachePos) : Bool :=
  (p.readFilepos < p.minFilepos ∨ p.readFilepos > p.maxFilepos) ∧
    (type ≠ .stream ∨ p.readFilepos < p.minFilepos ∨ p.readFilepos ≥ p.maxFilepos + c.seekLimit)

/-- `back` of `cache_fill`: the bytes kept behind the reader, computed in an `int`. -/
def backBytes (g : Geometry) (p : CachePos) (read : ℤ) : ℤ :=
  let back := int32 (read - p.minFilepos)
  let back := if back < 0 then 0 else back
  if back > g.backSize then g.backSize else back

/-- `newb` of `cache_fill`: the bytes ahead of the reader, computed in an `int`. -/
def newBytes (p : CachePos) (read : ℤ) : ℤ :=
  let newb := int32 (p.maxFilepos - read)
  if newb < 0 then 0 else newb

/-- `pos` of `cache_fill`: the index in the buffer at which the next byte belongs. -/
def bufferPos (g : Geometry) (p : CachePos) : ℤ :=
  let pos := int32 (p.maxFilepos - p.offset)
  if pos ≥ g.bufferSize then pos - g.bufferSize else pos

/-- `cache_fill` avoids a wrap-around; where the sector size does not allow that, it does an extra
copy. The space for this fill, and whether it needs the copy. -/
def avoidWrapAround (g : Geometry) (space pos : ℤ) : ℤ × Bool :=
  if space > g.bufferSize - pos then
    if g.bufferSize - pos ≥ g.sectorSize then (g.bufferSize - pos, false) else (g.sectorSize, true)
  else (space, false)

/-- The block size `cache_fill` reads at once. -/
def blockSize (g : Geometry) (readChunk : ℕ) : ℤ :=
  if readChunk = 0 then 4 * g.sectorSize else readChunk

/-- `cache_fill` from its snapshot `p` to the read: `none` when the buffer is full; else the plan
and the position to publish with `cache_pos_set_min`, if any. `read` is the position of the first
snapshot. -/
def fillPlan (g : Geometry) (readChunk : ℕ) (p : CachePos) (read : ℤ) :
    Option (FillPlan × Option ℤ) :=
  let back := backBytes g p read
  let newb := newBytes p read
  let space := g.bufferSize - (newb + back)
  if space < g.fillLimit then none
  else
    let pos := bufferPos g p
    let (space, wraparoundCopy) := avoidWrapAround g space pos
    let space := min space (blockSize g readChunk)
    let back2 := g.bufferSize - (space + newb)
    some (⟨pos, space, wraparoundCopy⟩,
      if p.minFilepos < read - back2 then some (read - back2) else none)

/-- The bytes stored up to the end of the ring: all of them, unless the plan is to wrap around. -/
def fillCopyTail (c : CacheVars) (plan : FillPlan) (data : List UInt8) : CacheVars :=
  if plan.wraparoundCopy then
    let toCopy := min (data.length : ℤ) (c.geo.bufferSize - plan.pos)
    { c with buffer := Ring.write c.buffer plan.pos (data.take toCopy.toNat) }
  else { c with buffer := Ring.write c.buffer plan.pos data }

/-- The rest of the bytes, stored from the beginning of the ring on. -/
def fillCopyHead (c : CacheVars) (plan : FillPlan) (data : List UInt8) : CacheVars :=
  if plan.wraparoundCopy then
    let toCopy := min (data.length : ℤ) (c.geo.bufferSize - plan.pos)
    { c with buffer := Ring.write c.buffer 0 (data.drop toCopy.toNat) }
  else c

/-- What `cache_fill` makes of the number of bytes read: the ring's and the stream's flags and
the fill status. Repeated failures on an `smb` file also call `CheckMplayerNetwork`, which is
outside the model. -/
def fillAccount (r : Rounding) (c : CacheVars) (s : Stream) (status : ℚ) (len : ℕ) :
    CacheVars × Stream × ℚ :=
  if len = 0 then
    if s.error > 0 then
      let s := { s with error := s.error + 1 }
      if s.error > 500 then ({ c with eof := true }, s, status)
      else
        let status := cacheUpdateFillStatus r c
        if status < 5 then ({ c with eof := true }, s, -1) else (c, s, status)
    else ({ c with eof := true }, s, -1)
  else (c, { s with error := 0 }, status)

/-- The commit of `cache_fill`, which moves the offset when the fill reached the ring's end. -/
def fillCommit (c : CacheVars) (plan : FillPlan) (len : ℕ) : CacheVars :=
  cachePosCommitFill c len (plan.pos + len ≥ c.geo.bufferSize)

/-- The bytes one iteration of `cache_read` copies: `newb` of them from index `pos` on. -/
structure ReadPlan where
  pos : ℤ
  newb : ℤ
  deriving DecidableEq, Repr

/-- `cache_read` has nothing for the reader at this snapshot. -/
def mustWait (p : CachePos) : Bool :=
  p.readFilepos ≥ p.maxFilepos ∨ p.readFilepos < p.minFilepos

/-- An iteration of `cache_read` from its snapshot to the copy. -/
def readPlan (g : Geometry) (p : CachePos) (size : ℤ) : ReadPlan :=
  let newb := int32 (p.maxFilepos - p.readFilepos)
  let pos := int32 (p.readFilepos - p.offset)
  let pos :=
    if pos < 0 then pos + g.bufferSize
    else if pos ≥ g.bufferSize then pos - g.bufferSize else pos
  let newb := if newb > g.bufferSize - pos then g.bufferSize - pos else newb
  let newb := if newb > size then size else newb
  ⟨pos, newb⟩

/-- The "very very odd error" of `cache_read`. -/
def veryOddError (g : Geometry) (plan : ReadPlan) : Bool :=
  plan.newb ≤ 0 ∨ plan.pos < 0 ∨ plan.pos + plan.newb > g.bufferSize

/-- The bytes `cache_read` copies out. -/
def readCopy (c : CacheVars) (plan : ReadPlan) : List UInt8 :=
  Ring.slice c.buffer plan.pos plan.newb.toNat

/-! ## Filling inside the window -/

section Window

variable {g : Geometry} {p : CachePos} {read : ℤ}

theorem backBytes_bounds (g : Geometry) (p : CachePos) (read : ℤ) :
    0 ≤ backBytes g p read ∧ backBytes g p read ≤ g.backSize := by
  have hg := g.bounds
  unfold backBytes
  simp only
  split_ifs <;> omega

theorem backBytes_eq (hlo : p.minFilepos ≤ read) (hhi : read - p.minFilepos ≤ g.bufferSize) :
    backBytes g p read = min (read - p.minFilepos) g.backSize := by
  have hg := g.bounds
  rw [backBytes, int32_of_le (by unfold intMax; omega) (by omega)]
  split_ifs <;> omega

theorem newBytes_eq (hlo : -intMax ≤ p.maxFilepos - read) (hhi : p.maxFilepos - read ≤ intMax) :
    newBytes p read = max 0 (p.maxFilepos - read) := by
  rw [newBytes, int32_of_le hlo hhi]
  split_ifs <;> omega

theorem bufferPos_eq (hoff : 0 ≤ p.maxFilepos - p.offset)
    (hoff' : p.maxFilepos - p.offset < g.bufferSize) :
    bufferPos g p = p.maxFilepos - p.offset := by
  have hg := g.bounds
  rw [bufferPos, int32_of_le (by unfold intMax; omega) (by omega)]
  split_ifs <;> omega

theorem blockSize_pos (g : Geometry) (readChunk : ℕ) : 0 < blockSize g readChunk := by
  have hg := g.bounds
  unfold blockSize
  split_ifs <;> omega

/-- With enough space, what is left of it is not empty, and does not pass the end of the ring
unless the fill makes the extra copy. -/
theorem avoidWrapAround_ok {space pos : ℤ} (hpos : pos < g.bufferSize)
    (hspace : g.fillLimit ≤ space) :
    0 < (avoidWrapAround g space pos).1 ∧ (avoidWrapAround g space pos).1 ≤ space ∧
      ((avoidWrapAround g space pos).2 = false →
        pos + (avoidWrapAround g space pos).1 ≤ g.bufferSize) := by
  have hg := g.bounds
  unfold avoidWrapAround
  split_ifs with hlong hsector
  · exact ⟨by omega, by omega, fun _ => by omega⟩
  · exact ⟨by omega, by omega, by simp⟩
  · exact ⟨by omega, by omega, fun _ => by omega⟩

/-- What a fill at position `pos` of the buffer may do: ask for at least one byte, and for no more
than fits before the end of the ring, unless it copies in two pieces. -/
structure FillPlan.Ok (plan : FillPlan) (g : Geometry) (pos : ℤ) : Prop where
  pos_eq : plan.pos = pos
  space_pos : 0 < plan.space
  space_le : plan.space ≤ g.bufferSize
  fits : plan.wraparoundCopy = false → pos + plan.space ≤ g.bufferSize

/-- A fill keeps to its plan, and the window that remains, with the bytes to come, fits in the
ring; the new bytes, the bytes kept behind the reader and the bytes to come do so too. -/
theorem fillPlan_room {readChunk : ℕ} {plan : FillPlan} {newMin : Option ℤ}
    (hfar : -intMax ≤ p.maxFilepos - read) (hnear : p.maxFilepos - read ≤ g.bufferSize)
    (hoff : 0 ≤ p.maxFilepos - p.offset) (hoff' : p.maxFilepos - p.offset < g.bufferSize)
    (h : fillPlan g readChunk p read = some (plan, newMin)) :
    plan.Ok g (p.maxFilepos - p.offset) ∧
      plan.space + max 0 (p.maxFilepos - read) + backBytes g p read ≤ g.bufferSize ∧
      (∀ m, newMin = some m →
        m = read - (g.bufferSize - (plan.space + max 0 (p.maxFilepos - read))) ∧
          p.minFilepos < m) ∧
      (newMin = none →
        read - (g.bufferSize - (plan.space + max 0 (p.maxFilepos - read))) ≤ p.minFilepos) := by
  have hg := g.bounds
  have hblock := blockSize_pos g readChunk
  have hback := backBytes_bounds g p read
  simp only [fillPlan, newBytes_eq hfar (hnear.trans hg.2.2.1), bufferPos_eq hoff hoff'] at h
  -- `free` is what is left besides the bytes ahead and the ones kept behind.
  set free := g.bufferSize - (max 0 (p.maxFilepos - read) + backBytes g p read) with hfree
  by_cases hfull : free < g.fillLimit
  · rw [if_pos hfull] at h
    cases h
  rw [if_neg hfull] at h
  obtain ⟨hpos, hle, hfits⟩ := avoidWrapAround_ok hoff' (not_lt.mp hfull)
  generalize avoidWrapAround g free (p.maxFilepos - p.offset) = w at *
  obtain ⟨hplan, hmin⟩ := Prod.mk.inj (Option.some.inj h)
  subst hplan hmin
  -- The space fits, and the minimum is raised exactly when the kept bytes are fewer.
  refine ⟨⟨rfl, by simp only; omega, by simp only; omega, fun hw => ?_⟩, by simp only; omega,
    ?_, ?_⟩
  · have := hfits hw
    simp only
    omega
  · intro m hm
    split_ifs at hm with hraise
    cases hm
    exact ⟨rfl, hraise⟩
  · intro hm
    split_ifs at hm with hraise
    exact not_lt.mp hraise

/-- Inside the window the reader stays inside it. -/
theorem fillPlan_ok {readChunk : ℕ} {plan : FillPlan} {newMin : Option ℤ}
    (hlo : p.minFilepos ≤ read) (hhi : read ≤ p.maxFilepos)
    (hwin : p.maxFilepos - p.minFilepos ≤ g.bufferSize)
    (hoff : 0 ≤ p.maxFilepos - p.offset) (hoff' : p.maxFilepos - p.offset < g.bufferSize)
    (h : fillPlan g readChunk p read = some (plan, newMin)) :
    plan.Ok g (p.maxFilepos - p.offset) ∧
      (∀ m, newMin = some m →
        m = p.maxFilepos + plan.space - g.bufferSize ∧ p.minFilepos < m ∧ m ≤ read) ∧
      (newMin = none → p.maxFilepos + plan.space - g.bufferSize ≤ p.minFilepos) := by
  have hback := backBytes_bounds g p read
  obtain ⟨hok, hroom, hraise, hkeep⟩ := fillPlan_room (by unfold intMax; omega) (by omega)
    hoff hoff' h
  refine ⟨hok, fun m hm => ?_, fun hm => ?_⟩
  · have := hraise m hm
    omega
  · have := hkeep hm
    omega

/-- A fill is declined only if the ring is full ahead of the reader, up to the quarter kept behind
it and the fill limit. -/
theorem fillPlan_none {readChunk : ℕ} (hfar : -intMax ≤ p.maxFilepos - read)
    (hnear : p.maxFilepos - read ≤ g.bufferSize) (h : fillPlan g readChunk p read = none) :
    g.bufferSize - g.backSize - g.fillLimit < p.maxFilepos - read := by
  have hg := g.bounds
  have hback := backBytes_bounds g p read
  simp only [fillPlan, newBytes_eq hfar (hnear.trans hg.2.2.1)] at h
  split_ifs at h with hfull
  omega

/-- Inside the window a fill is declined exactly if the bytes ahead of the reader and those kept
behind it leave less than the fill limit. -/
theorem fillPlan_eq_none_iff {readChunk : ℕ} (hlo : p.minFilepos ≤ read)
    (hhi : read ≤ p.maxFilepos) (hwin : p.maxFilepos - p.minFilepos ≤ g.bufferSize) :
    fillPlan g readChunk p read = none ↔
      g.bufferSize < p.maxFilepos - read + min (read - p.minFilepos) g.backSize + g.fillLimit := by
  have hg := g.bounds
  have hnew : newBytes p read = p.maxFilepos - read := by
    rw [newBytes_eq (by unfold intMax; omega) (by omega)]
    omega
  have hback := backBytes_eq (g := g) hlo (by omega)
  simp only [fillPlan, hback, hnew]
  split_ifs with hfull
  · exact iff_of_true rfl (by omega)
  · exact iff_of_false (by simp) (by omega)

/-- A snapshot with the reader strictly inside the window: the copy begins in the reader's own
cell, takes at least one byte, and ends neither past the window nor past the ring. -/
theorem readPlan_ok {size : ℤ} (hsize : 0 < size) (hlo : p.minFilepos ≤ p.readFilepos)
    (hhi : p.readFilepos < p.maxFilepos)
    (hwin : p.maxFilepos - p.minFilepos ≤ g.bufferSize)
    (hoff : 0 ≤ p.maxFilepos - p.offset) (hoff' : p.maxFilepos - p.offset < g.bufferSize) :
    (readPlan g p size).pos = (p.readFilepos - p.offset) % g.bufferSize ∧
      0 < (readPlan g p size).newb ∧ (readPlan g p size).newb ≤ size ∧
      p.readFilepos + (readPlan g p size).newb ≤ p.maxFilepos ∧
      (readPlan g p size).pos + (readPlan g p size).newb ≤ g.bufferSize := by
  have hg := g.bounds
  have hnewb : int32 (p.maxFilepos - p.readFilepos) = p.maxFilepos - p.readFilepos :=
    int32_of_le (by unfold intMax; omega) (by omega)
  have hpos : int32 (p.readFilepos - p.offset) = p.readFilepos - p.offset :=
    int32_of_le (by omega) (by omega)
  have hnn := Int.emod_nonneg (p.readFilepos - p.offset) g.size_pos.ne'
  have hlt := Int.emod_lt_of_pos (p.readFilepos - p.offset) g.size_pos
  have hcell : (if p.readFilepos - p.offset < 0 then p.readFilepos - p.offset + g.bufferSize
      else if p.readFilepos - p.offset ≥ g.bufferSize then
        p.readFilepos - p.offset - g.bufferSize
      else p.readFilepos - p.offset) = (p.readFilepos - p.offset) % g.bufferSize := by
    split_ifs with hneg hbig
    · rw [Ring.cell_of_neg (by omega) hneg]
    · omega
    · rw [Ring.cell_of_lt (by omega) (by omega)]
  simp only [readPlan, hnewb, hpos, hcell, true_and]
  refine ⟨?_, ?_, ?_, ?_⟩ <;> split_ifs <;> omega

/-- The very odd error of `cache_read` does not occur. -/
theorem not_veryOddError {size : ℤ} (hsize : 0 < size) (hlo : p.minFilepos ≤ p.readFilepos)
    (hhi : p.readFilepos < p.maxFilepos)
    (hwin : p.maxFilepos - p.minFilepos ≤ g.bufferSize)
    (hoff : 0 ≤ p.maxFilepos - p.offset) (hoff' : p.maxFilepos - p.offset < g.bufferSize) :
    veryOddError g (readPlan g p size) = false := by
  obtain ⟨hpos, hnewb, -, -, hend⟩ := readPlan_ok hsize hlo hhi hwin hoff hoff'
  have hnn := Int.emod_nonneg (p.readFilepos - p.offset) g.size_pos.ne'
  rw [veryOddError, decide_eq_false_iff_not]
  omega

end Window

end WiiMC.Cache
