import WiiMC.Dav.Playback
import WiiMC.Player.LowCache

/-!
# Waiting for the cache

`stream_cache_prefill` of `stream/cache2.c` and `wait_for_audio_priority` of `webdav_device.c` wait
for bytes ahead of the reader. Both would wait for ever if the filler declined to fill before they
are there.

* `cacheThreads`: the two threads, over any device and for a stream of any kind.
* `FillerPlaced`: what the filler relies on, at each of its steps, about the positions.
* `declined_forward`: when the filler declines, there are more bytes ahead of the reader than
  `stream_cache_prefill` ever waits for.
* `declines_of_far`: where the reader runs away from `cache_flush`, the fill is declined with nothing
  ahead of it.
* `waits_end`: in every run in which it does not, both waits end.
-/

namespace WiiMC.Player

open WiiMC.Cache WiiMC.Dav

/-! ## The waits -/

/-- `forward_limit` of `stream_cache_prefill`. -/
def forwardLimit (g : Geometry) : ℤ := g.bufferSize - g.backSize - g.fillLimit

/-- `min`, as `stream_cache_prefill` clamps it. -/
def prefillMin (g : Geometry) (min : ℤ) : ℤ := if min > forwardLimit g then forwardLimit g else min

/-- The condition of the loop of `stream_cache_prefill`. -/
def prefillWaits (p : CachePos) (min : ℤ) : Bool :=
  p.readFilepos < p.minFilepos ∨ p.maxFilepos - p.readFilepos < min

/-- The filler and the reader of a ring that `cache_init` has built. -/
def cacheThreads (src : Source) (r : Rounding) (ring : CacheVars) : Transition.System Sys Act where
  init s := (∃ seekLimit, s.vars = enableRing ring s.stream.pos seekLimit) ∧ s.filler = .enter ∧
    s.reader = .idle 0
  step := step src r

/-- At its step `pc` the filler declines to fill: `space < fill_limit`. -/
def DeclinesAt (s : Sys) : FillPc → Prop
  | .snapshot => outOfBoundaries s.vars s.stream.type (cachePosGet s.vars) = false ∧
      fillPlan s.vars.geo s.stream.readChunk (cachePosGet s.vars) s.vars.readFilepos = none
  | .resnapshot read => fillPlan s.vars.geo s.stream.readChunk (cachePosGet s.vars) read = none
  | _ => False

def FillDeclines (s : Sys) : Prop := DeclinesAt s s.filler

/-- When `cache_flush` takes the reader's position over, it is not too far ahead of that of the
snapshot before. -/
def FlushClose (c : CacheVars) : FillPc → Prop
  | .flushGet read => int32 (c.readFilepos - read) ≤ c.geo.bufferSize - c.geo.fillLimit
  | _ => True

/-- The condition on the steps of a run. -/
def KeepsClose (s : Sys) : Act → Prop
  | .filler _ => FlushClose s.vars s.filler
  | _ => True

instance (s : Sys) : DecidablePred (DeclinesAt s)
  | .snapshot => inferInstanceAs (Decidable (_ ∧ _))
  | .resnapshot _ => inferInstanceAs (Decidable (_ = _))
  | .enter | .eofSnapshot | .eofClear | .flushGet _ | .flushReset _ _ | .seek _ | .setMin _ _
  | .read _ | .copyTail _ _ | .copyHead _ _ | .account _ _ | .commit _ _ | .update => isFalse id

instance : DecidablePred FillDeclines := fun s => inferInstanceAs (Decidable (DeclinesAt s s.filler))

instance (c : CacheVars) : DecidablePred (FlushClose c)
  | .flushGet _ => inferInstanceAs (Decidable (_ ≤ _))
  | .enter | .eofSnapshot | .eofClear | .snapshot | .flushReset _ _ | .seek _ | .resnapshot _
  | .setMin _ _ | .read _ | .copyTail _ _ | .copyHead _ _ | .account _ _ | .commit _ _ | .update =>
      isTrue trivial

instance (s : Sys) : DecidablePred (KeepsClose s)
  | .filler _ => inferInstanceAs (Decidable (FlushClose s.vars s.filler))
  | .seek _ | .read _ | .go | .abort | .stall => isTrue trivial

/-! ## The positions in every interleaving -/

/-- What the filler relies on at each of its steps. -/
def FillerPlaced (g : Geometry) (c : CacheVars) : FillPc → Prop
  | .flushReset read pos => Positions g c none ∧ int32 (pos - read) ≤ g.bufferSize - g.fillLimit
  | .seek read | .resnapshot read =>
      Positions g c none ∧ c.minFilepos = c.maxFilepos ∧
        int32 (c.maxFilepos - read) ≤ g.bufferSize - g.fillLimit
  | .setMin plan newMin => Positions g c none ∧ Positions g (cachePosSetMin c newMin) (some plan)
  | .read plan => Positions g c (some plan)
  | .copyTail plan data | .copyHead plan data =>
      Positions g c (some plan) ∧ (data.length : ℤ) ≤ plan.space
  | .account plan len | .commit plan len => Positions g c (some plan) ∧ (len : ℤ) ≤ plan.space
  | _ => Positions g c none

section Interleavings

variable {src : Source} {r : Rounding} {g : Geometry} {c : CacheVars} {pc : FillPc} {s t : Sys}
  {o : Oracle} {read : ℤ}

/-- The reader changes its position and the flag at most. -/
theorem FillerPlaced.setRead (h : FillerPlaced g c pc) (eof : Bool) (pos : ℤ) :
    FillerPlaced g { c with eof := eof, readFilepos := pos } pc := by
  cases pc with
  | flushReset | copyTail | copyHead | account | commit => exact ⟨h.1.setRead eof pos, h.2⟩
  | seek | resnapshot => exact ⟨h.1.setRead eof pos, h.2⟩
  | setMin => exact ⟨h.1.setRead eof pos, h.2.setRead eof pos⟩
  | _ => exact Positions.setRead h eof pos

/-- A fill that is planned from a snapshot close to the window. -/
theorem Positions.afterSnapshot {readChunk : ℕ} (h : Positions g c none)
    (hfar : -intMax ≤ c.maxFilepos - read) (hnear : c.maxFilepos - read ≤ c.geo.bufferSize) :
    FillerPlaced g c (Cache.afterSnapshot c.geo readChunk (cachePosGet c) read) := by
  unfold Cache.afterSnapshot
  rcases hplan : fillPlan c.geo readChunk (cachePosGet c) read with _ | ⟨plan, _ | newMin⟩
  · exact h
  · exact h.plan hfar hnear hplan
  · exact ⟨h, h.plan hfar hnear hplan⟩

/-- Where `cache_fill` sees no reason to seek, the reader is close to the window. -/
theorem Positions.close (h : Positions g c none) {type : StreamType}
    (hout : outOfBoundaries c type (cachePosGet c) = false) :
    c.minFilepos ≤ c.readFilepos ∧ -intMax ≤ c.maxFilepos - c.readFilepos ∧
      c.maxFilepos - c.readFilepos ≤ c.geo.bufferSize := by
  have hg := c.geo.bounds
  have hfits := h.fits
  have hseek := h.seek_le
  have hin := not_and_or.mp (of_decide_eq_false hout)
  simp only [cachePosGet, not_or] at hin
  refine ⟨?_, ?_, ?_⟩ <;> omega

/-- A difference and its opposite, as an `int`: they are not both positive. -/
theorem int32_neg_nonpos {x : ℤ} (h : 0 < int32 x) : int32 (-x) ≤ 0 := by
  unfold int32 at *
  rw [Int.bmod_def] at *
  split_ifs at * <;> omega

/-- In a ring that has just been flushed for a reader close by there is room. -/
theorem room_of_flushed (hflushed : c.minFilepos = c.maxFilepos)
    (hclose : int32 (c.maxFilepos - read) ≤ c.geo.bufferSize - c.geo.fillLimit) :
    c.geo.fillLimit ≤
      c.geo.bufferSize - (newBytes (cachePosGet c) read + backBytes c.geo (cachePosGet c) read) := by
  have hg := c.geo.bounds
  have hback := backBytes_bounds c.geo (cachePosGet c) read
  by_cases hahead : 0 < int32 (c.maxFilepos - read)
  · have hbehind := int32_neg_nonpos hahead
    rw [Int.neg_sub, ← hflushed] at hbehind
    have hzero : backBytes c.geo (cachePosGet c) read = 0 := by
      simp only [backBytes, cachePosGet]
      split_ifs <;> omega
    have hnew : newBytes (cachePosGet c) read = int32 (c.maxFilepos - read) := by
      simp only [newBytes, cachePosGet]
      exact if_neg (by omega)
    omega
  · have hnew : newBytes (cachePosGet c) read ≤ 0 := by
      simp only [newBytes, cachePosGet]
      split_ifs <;> omega
    omega

/-- A fill of a ring that has just been flushed is not declined, and keeps to its plan. -/
theorem Positions.afterFlush {readChunk : ℕ} (h : Positions g c none)
    (hflushed : c.minFilepos = c.maxFilepos)
    (hclose : int32 (c.maxFilepos - read) ≤ c.geo.bufferSize - c.geo.fillLimit) :
    fillPlan c.geo readChunk (cachePosGet c) read ≠ none ∧
      FillerPlaced g c (Cache.afterSnapshot c.geo readChunk (cachePosGet c) read) := by
  have hg := c.geo.bounds
  -- Behind a close flush the ring is nearly empty, so there is a plan.
  have hroom := room_of_flushed hflushed hclose
  have hblock := blockSize_pos c.geo readChunk
  have hback := backBytes_bounds c.geo (cachePosGet c) read
  have hnew : 0 ≤ newBytes (cachePosGet c) read := by
    simp only [newBytes]
    split_ifs <;> omega
  have hfits := h.fits
  have hpos : bufferPos c.geo (cachePosGet c) = c.maxFilepos - c.offset :=
    bufferPos_eq h.offset_le h.offset_lt
  obtain ⟨hspace, hle, hend⟩ := avoidWrapAround_ok h.offset_lt hroom
  simp only [Cache.afterSnapshot, fillPlan, hpos]
  rw [if_neg (not_lt.mpr hroom)]
  generalize avoidWrapAround c.geo _ (c.maxFilepos - c.offset) = w at *
  refine ⟨Option.some_ne_none _, ?_⟩
  have hok : FillPlan.Ok ⟨c.maxFilepos - c.offset, min w.1 (blockSize c.geo readChunk), w.2⟩ c.geo
      (c.maxFilepos - c.offset) :=
    ⟨rfl, by simp only; omega, by simp only; omega, fun hw => by
      have := hend hw
      simp only
      omega⟩
  -- the minimum is raised or not; the positions hold in both cases
  split_ifs with hraise
  · change c.minFilepos < _ at hraise
    refine ⟨h, h.geo_eq, ?_, h.offset_le, h.offset_lt, h.seek_le, fun _ hp => ?_⟩
    · simp only [cachePosSetMin]
      omega
    · cases hp
      exact ⟨hok, by simp only [cachePosSetMin]; omega⟩
  · refine ⟨h.geo_eq, h.fits, h.offset_le, h.offset_lt, h.seek_le, fun _ hp => ?_⟩
    cases hp
    exact ⟨hok, by simp only; omega⟩

/-- Each step of the filler. -/
theorem FillerPlaced.fillerStep (h : FillerPlaced g s.vars s.filler)
    (hclose : KeepsClose s (.filler o)) :
    FillerPlaced g (fillerStep src r s o).vars (fillerStep src r s o).filler := by
  unfold Cache.fillerStep
  cases hpc : s.filler with
  | enter =>
      rw [hpc] at h
      simp only
      split_ifs <;> exact h
  | eofSnapshot =>
      rw [hpc] at h
      simp only
      split_ifs <;> exact h
  | eofClear =>
      rw [hpc] at h
      exact Positions.setRead h false _
  -- the test against the boundaries decides whether the stream is sought
  | snapshot =>
      rw [hpc] at h
      simp only
      split_ifs with hout
      · exact h
      · obtain ⟨-, hfar, hnear⟩ := Positions.close h (Bool.not_eq_true _ ▸ hout)
        exact Positions.afterSnapshot h hfar hnear
  -- in such a run the second snapshot is close to the first one
  | flushGet read =>
      rw [hpc] at h
      have hflush : FlushClose s.vars s.filler := hclose
      rw [hpc] at hflush
      exact ⟨h, h.geo_eq ▸ hflush⟩
  | flushReset read pos =>
      rw [hpc] at h
      have hg := s.vars.geo.bounds
      refine ⟨⟨h.1.geo_eq, ?_, ?_, ?_, h.1.seek_le, fun _ hp => by cases hp⟩, rfl, h.2⟩ <;>
        simp only [cachePosReset] <;> omega
  | seek read =>
      rw [hpc] at h
      exact h
  | resnapshot read =>
      rw [hpc] at h
      exact (h.1.afterFlush h.2.1 (h.1.geo_eq ▸ h.2.2)).2
  | setMin plan newMin =>
      rw [hpc] at h
      exact h.2
  -- the device gives at most the space of the plan
  | read plan =>
      rw [hpc] at h
      have hspace := (Positions.plan_ok h plan rfl).1.space_pos
      have hlen := length_streamReadInternal_le src s.stream hspace o
      simp only
      split_ifs
      · exact ⟨h, hlen⟩
      · exact ⟨Positions.copyTail h plan _, hlen⟩
  | copyTail plan data =>
      rw [hpc] at h
      exact ⟨h.1.copyTail plan data, h.2⟩
  | copyHead plan data =>
      rw [hpc] at h
      exact ⟨h.1.copyHead plan data, h.2⟩
  | account plan len =>
      rw [hpc] at h
      exact ⟨h.1.account _ _ _, h.2⟩
  | commit plan len =>
      rw [hpc] at h
      exact h.1.commit h.2
  | update =>
      rw [hpc] at h
      exact h

/-- A step of the reader changes its position and the flag at most. -/
theorem readerStep_vars (hstep : readerStep r s = some t) : t.filler = s.filler ∧
    ∃ eof pos, t.vars = { s.vars with eof := eof, readFilepos := pos } := by
  unfold readerStep at hstep
  cases hreader : s.reader with
  | idle =>
      rw [hreader] at hstep
      cases hstep
  | loop =>
      rw [hreader] at hstep
      simp only at hstep
      split_ifs at hstep <;> cases hstep <;> exact ⟨rfl, _, _, rfl⟩
  | look =>
      rw [hreader] at hstep
      simp only at hstep
      split_ifs at hstep <;> cases hstep <;> exact ⟨rfl, _, _, rfl⟩
  | clearEof | copy | advance | update =>
      rw [hreader] at hstep
      cases hstep
      exact ⟨rfl, _, _, rfl⟩

/-- Each step of either thread. -/
theorem FillerPlaced.step (h : FillerPlaced g s.vars s.filler) {a : Act} (hclose : KeepsClose s a)
    (hstep : step src r s a = some t) : FillerPlaced g t.vars t.filler := by
  cases a with
  | filler o =>
      obtain rfl := Option.some.inj hstep
      exact h.fillerStep hclose
  | seek pos =>
      simp only [Cache.step] at hstep
      split at hstep <;> cases hstep
      exact h.setRead _ _
  | read size =>
      simp only [Cache.step] at hstep
      split at hstep <;> cases hstep
      exact h
  -- the reader's steps change its position and the flag only
  | go =>
      obtain ⟨hfiller, eof, pos, hvars⟩ := readerStep_vars hstep
      rw [hfiller, hvars]
      exact h.setRead eof pos
  | abort =>
      simp only [Cache.step] at hstep
      split at hstep
      · split_ifs at hstep
        cases hstep
        exact h
      · cases hstep
  | stall =>
      simp only [Cache.step] at hstep
      split at hstep
      · split_ifs at hstep
        cases hstep
        exact h
      · cases hstep

theorem placed_of_reachable (hs : (cacheThreads src r ring).Reachable KeepsClose s) :
    FillerPlaced ring.geo s.vars s.filler := by
  refine hs.invariant (I := fun s => FillerPlaced ring.geo s.vars s.filler) (fun s hinit => ?_)
    fun s a t _ h hclose hstep => h.step hclose hstep
  obtain ⟨⟨seekLimit, hvars⟩, hfiller, -⟩ := hinit
  rw [hfiller, hvars]
  exact enableRing_positions ring s.stream.pos seekLimit

/-! ## The end of the waits -/

/-- When the filler declines, the reader is in the window, with more bytes ahead of it than
`stream_cache_prefill` ever waits for. -/
theorem declined_forward (h : FillerPlaced g s.vars s.filler) (hdecl : FillDeclines s) :
    s.vars.geo = g ∧ s.vars.minFilepos ≤ s.vars.readFilepos ∧
      forwardLimit g < s.vars.maxFilepos - s.vars.readFilepos := by
  unfold FillDeclines at hdecl
  cases hpc : s.filler <;> rw [hpc] at h hdecl
  case snapshot =>
    obtain ⟨hout, hnone⟩ := hdecl
    obtain ⟨hmin, hfar, hnear⟩ := Positions.close h hout
    have hforward := fillPlan_none (p := cachePosGet s.vars) hfar hnear hnone
    have hgeo : s.vars.geo = g := Positions.geo_eq h
    exact ⟨hgeo, hmin, hgeo ▸ hforward⟩
  case resnapshot read =>
    exact absurd hdecl (h.1.afterFlush h.2.1 (h.1.geo_eq ▸ h.2.2)).1
  all_goals exact hdecl.elim

/-- The fill ends with the publication of the fill status. -/
theorem declined_steps (hdecl : FillDeclines s) (o o' : Oracle) :
    fillerStep src r (fillerStep src r s o) o' =
      { s with filler := .enter, fillStatus := cacheUpdateFillStatus r s.vars } := by
  have hfirst : fillerStep src r s o = { s with filler := .update } := by
    unfold FillDeclines at hdecl
    unfold Cache.fillerStep
    cases hpc : s.filler <;> rw [hpc] at hdecl
    case snapshot =>
      obtain ⟨hout, hnone⟩ := hdecl
      simp only [hout, Bool.false_eq_true, if_false, Cache.afterSnapshot]
      have hplan : fillPlan s.vars.geo s.stream.readChunk (cachePosGet s.vars)
          (cachePosGet s.vars).readFilepos = none := hnone
      rw [hplan]
    case resnapshot read =>
      have hplan : fillPlan s.vars.geo s.stream.readChunk (cachePosGet s.vars) read = none := hdecl
      simp only [Cache.afterSnapshot, hplan]
    all_goals exact hdecl.elim
  rw [hfirst]
  rfl

theorem prefillWaits_of_forward {p : CachePos} (hmin : p.minFilepos ≤ p.readFilepos)
    (hforward : forwardLimit g < p.maxFilepos - p.readFilepos) (min : ℤ) :
    prefillWaits p (prefillMin g min) = false := by
  unfold prefillWaits prefillMin
  rw [decide_eq_false_iff_not]
  split_ifs <;> omega

/-- The target for the bit rate is an `int`, and within bounds. -/
theorem davAudioStartBytes_le (bytesPerSecond : ℤ) :
    davAudioStartBytes bytesPerSecond ≤ davAudioCacheBytes / 2 ∧
      (0 < bytesPerSecond → bytesPerSecond < davAudioCacheBytes / 2 / 3 →
        int32 (bytesPerSecond * 3) = bytesPerSecond * 3) := by
  constructor
  · unfold davAudioStartBytes davAudioProbeBytes davAudioCacheBytes
    simp only
    split_ifs <;> omega
  · unfold davAudioCacheBytes
    intro hpos hlt
    exact int32_of_le (by unfold intMax; omega) (by unfold intMax; omega)

/-- The ring of a WebDAV track has its size, up to a sector. -/
theorem size_of_webdav {memory : Option (ℤ → UInt8)} {sector : ℤ}
    (hring : cacheInit memory davAudioCacheBytes sector = some ring)
    (hsector : sector ≤ streamMaxSectorSize) : ring.geo.sectorSize ≤ streamMaxSectorSize ∧
      davAudioCacheBytes < ring.geo.bufferSize + ring.geo.sectorSize := by
  unfold cacheInit at hring
  cases memory with
  | none => cases hring
  | some buffer =>
      simp only at hring
      split_ifs at hring with hfew hsize hsize <;> obtain rfl := Option.some.inj hring
      all_goals
        have hpos : 0 < sector := pos_of_mul_pos_right hsize.1 (by omega)
        rw [Int.tdiv_eq_ediv_of_nonneg (by decide)] at hfew
      · have hlt := Int.lt_mul_of_ediv_lt hpos hfew
        unfold davAudioCacheBytes streamMaxSectorSize at *
        omega
      · have hlt := Int.lt_ediv_add_one_mul_self davAudioCacheBytes hpos
        refine ⟨hsector, ?_⟩
        show _ < davAudioCacheBytes.tdiv sector * sector + sector
        rw [Int.tdiv_eq_ediv_of_nonneg (by decide)]
        rwa [add_mul, one_mul] at hlt

/-- Where the filler declines, that ring is full enough for metadata. -/
theorem sixty_le_status (h60 : r.toFloat (r.toDouble 60) = 60)
    (hsize : c.geo.sectorSize ≤ streamMaxSectorSize ∧
      davAudioCacheBytes < c.geo.bufferSize + c.geo.sectorSize)
    (hforward : forwardLimit c.geo < c.maxFilepos - c.readFilepos) (heof : c.eof = false) :
    60 ≤ cacheUpdateFillStatus r c := by
  have hg := c.geo.bounds
  have hpos : (0 : ℚ) < c.geo.bufferSize := by exact_mod_cast c.geo.size_pos
  have hbytes : 60 * c.geo.bufferSize ≤ (c.maxFilepos - c.readFilepos) * 100 := by
    unfold forwardLimit at hforward
    unfold davAudioCacheBytes streamMaxSectorSize at hsize
    omega
  have hpercent : (60 : ℚ) ≤ (c.maxFilepos - c.readFilepos : ℤ) * 100 / c.geo.bufferSize := by
    rw [le_div_iff₀ hpos]
    exact_mod_cast hbytes
  simp only [cacheUpdateFillStatus, heof, Bool.false_eq_true, if_false, Rounding.percent]
  calc (60 : ℚ) = r.toFloat (r.toDouble 60) := h60.symm
    _ ≤ _ := r.toFloat_mono (r.toDouble_mono hpercent)

/-- So no metadata waits for the fill status that is published then; if the end of the stream has
been found, it is negative. -/
theorem not_waits_of_forward {τ : Type} (gate : Gate τ) (h60 : r.toFloat (r.toDouble 60) = 60)
    (hsize : c.geo.sectorSize ≤ streamMaxSectorSize ∧
      davAudioCacheBytes < c.geo.bufferSize + c.geo.sectorSize)
    (hforward : forwardLimit c.geo < c.maxFilepos - c.readFilepos) :
    gate.waits (cacheUpdateFillStatus r c) = false := by
  have hends : cacheUpdateFillStatus r c < 0 ∨ 60 ≤ cacheUpdateFillStatus r c := by
    cases heof : c.eof with
    | false => exact .inr (sixty_le_status h60 hsize hforward heof)
    | true =>
        rw [cacheUpdateFillStatus, if_pos heof]
        exact .inl (by norm_num)
  unfold Gate.waits
  rw [← Bool.decide_or, decide_eq_true hends, Bool.not_true, Bool.and_false]

/-- Behind a step of `cache_flush` that does not meet the condition the fill is declined, with no
bytes ahead of the reader. -/
theorem declines_of_far (hpc : s.filler = .flushGet read) (hfar : ¬FlushClose s.vars s.filler)
    (o₁ o₂ o₃ : Oracle)
    (ht : fillerStep src r (fillerStep src r (fillerStep src r s o₁) o₂) o₃ = t) :
    FillDeclines t ∧ t.vars.maxFilepos - t.vars.readFilepos = 0 := by
  rw [hpc] at hfar
  have hfar' : s.vars.geo.bufferSize - s.vars.geo.fillLimit < int32 (s.vars.readFilepos - read) :=
    not_le.mp hfar
  simp only [Cache.fillerStep, hpc] at ht
  subst ht
  refine ⟨?_, Int.sub_self _⟩
  have hg := s.vars.geo.bounds
  have hback := backBytes_bounds s.vars.geo
    (cachePosGet (cachePosReset s.vars (cachePosGet s.vars).readFilepos)) read
  have hnew : newBytes (cachePosGet (cachePosReset s.vars (cachePosGet s.vars).readFilepos)) read =
      int32 (s.vars.readFilepos - read) := by
    simp only [newBytes, cachePosGet, cachePosReset]
    exact if_neg (by omega)
  show fillPlan s.vars.geo _ (cachePosGet (cachePosReset s.vars (cachePosGet s.vars).readFilepos))
    read = none
  simp only [fillPlan, hnew]
  exact if_pos (by omega)

/-- In every run in which the reader stays close to `cache_flush`, over any device: when `cache_fill`
declines to fill and returns, the reader has more bytes ahead of it than `forwardLimit`, so that no
prefill waits; and neither does metadata, if the ring is that of a WebDAV track, which has room for
every target. Where the reader does not stay close, that very fill is declined with no bytes ahead. -/
theorem waits_end {memory : Option (ℤ → UInt8)} {size sector : ℤ}
    (hring : cacheInit memory size sector = some ring) :
    (∀ s t o o', (cacheThreads src r ring).Reachable KeepsClose s → FillDeclines s →
      fillerStep src r (fillerStep src r s o) o' = t →
      t.filler = .enter ∧
      forwardLimit ring.geo < t.vars.maxFilepos - t.vars.readFilepos ∧
      (∀ min, prefillWaits (cachePosGet t.vars) (prefillMin ring.geo min) = false) ∧
      (size = davAudioCacheBytes → sector ≤ streamMaxSectorSize → r.toFloat (r.toDouble 60) = 60 →
        (∀ bytesPerSecond, prefillMin ring.geo (davAudioStartBytes bytesPerSecond) =
            davAudioStartBytes bytesPerSecond ∧
          (0 < bytesPerSecond → bytesPerSecond < davAudioCacheBytes / 2 / 3 →
            int32 (bytesPerSecond * 3) = bytesPerSecond * 3)) ∧
        ∀ (τ : Type) (gate : Gate τ), gate.waits t.fillStatus = false)) ∧
    ∀ s t read o₁ o₂ o₃, s.filler = .flushGet read → ¬ FlushClose s.vars s.filler →
      fillerStep src r (fillerStep src r (fillerStep src r s o₁) o₂) o₃ = t →
      FillDeclines t ∧ t.vars.maxFilepos - t.vars.readFilepos = 0 := by
  refine ⟨fun s t o o' hs hdecl ht => ?_, fun s t read o₁ o₂ o₃ hpc hfar ht =>
    declines_of_far hpc hfar o₁ o₂ o₃ ht⟩
  -- The filler declines because more than the limit lies ahead, and so both waits end.
  obtain ⟨hgeo, hmin, hforward⟩ := declined_forward (placed_of_reachable hs) hdecl
  rw [declined_steps hdecl] at ht
  subst ht
  refine ⟨rfl, hforward, prefillWaits_of_forward hmin hforward, ?_⟩
  rintro rfl hsector h60
  have hsize := size_of_webdav hring hsector
  refine ⟨fun bytesPerSecond => ?_, fun τ gate => ?_⟩
  · obtain ⟨hle, hint⟩ := davAudioStartBytes_le bytesPerSecond
    have hg := ring.geo.bounds
    refine ⟨if_neg (not_lt.mpr (hle.trans ?_)), hint⟩
    unfold forwardLimit
    unfold davAudioCacheBytes streamMaxSectorSize at *
    omega
  · exact not_waits_of_forward gate h60 (hgeo ▸ hsize) (hgeo ▸ hforward)

/-! ## Runs on small rings -/

/-- The cache before its first step, with a ring for `size` bytes. -/
def startSys (ring : CacheVars) : Sys :=
  { freshSys with vars := enableRing ring 0 0 }

theorem startSys_init (src : Source) (r : Rounding) (ring : CacheVars) :
    (cacheThreads src r ring).init (startSys ring) := ⟨⟨0, rfl⟩, rfl, rfl⟩

/-- A ring of sixteen sectors of one byte. -/
def tinyRing : CacheVars := (cacheInit (some fun _ => 0) 16 1).get (by decide)

/-- Three fills, and the beginning of another one. -/
theorem waits_end_tinyRing : ∃ s, FillDeclines s ∧
    (cacheThreads shortSource exactRounding tinyRing).Reachable KeepsClose s ∧
    forwardLimit tinyRing.geo < s.vars.maxFilepos - s.vars.readFilepos ∧
    prefillWaits (cachePosGet s.vars) (prefillMin tinyRing.geo 1000) = false := by
  have hrun : ((cacheThreads shortSource exactRounding tinyRing).exec (startSys tinyRing)
      (List.replicate 19 fill)).any fun s => decide (FillDeclines s) := by
    decide +kernel
  obtain ⟨s, hexec, hdecl⟩ := (Option.any_eq_true _ _).mp hrun
  have hdecl := of_decide_eq_true hdecl
  have hok : (cacheThreads shortSource exactRounding tinyRing).OkAlong KeepsClose (startSys tinyRing)
      (List.replicate 19 fill) := by
    decide +kernel
  have hs := Transition.System.Reachable.exec (.init (startSys_init _ _ _)) hok hexec
  have hend := (waits_end (Option.some_get _).symm).1 s _ ⟨.bytes 0, true⟩ ⟨.bytes 0, true⟩ hs hdecl rfl
  rw [declined_steps hdecl] at hend
  exact ⟨s, hdecl, hs, hend.2.1, hend.2.2.1 1000⟩

/-- The ring of a WebDAV track. -/
def webdavRing : CacheVars := (cacheInit (some fun _ => 0) davAudioCacheBytes 2048).get (by decide)

/-- The reader seeks out of the window, and `cache_fill` takes its snapshot; before `cache_flush` takes
its own, the reader gives up and seeks to a place one megabyte further on. -/
def seekOnRun : List Act :=
  [.seek 20480, .go, fill, fill, .abort, .seek 1069056] ++ List.replicate 3 fill

/-- The filler then counts the megabyte as bytes that are in the ring, and declines to fill, with
none ahead of the reader. -/
theorem not_waits_end : ∃ s t, FillDeclines s ∧
    (cacheThreads shortSource exactRounding webdavRing).Reachable (fun _ _ => True) s ∧
    fillerStep shortSource exactRounding (fillerStep shortSource exactRounding s ⟨.bytes 0, true⟩)
      ⟨.bytes 0, true⟩ = t ∧
    t.vars.maxFilepos - t.vars.readFilepos = 0 ∧
    prefillWaits (cachePosGet t.vars) (prefillMin webdavRing.geo (davAudioStartBytes 0)) = true ∧
    (⟨1, ⟨true, false⟩, [()], some ()⟩ : Gate Unit).waits t.fillStatus = true := by
  have hrun : ((cacheThreads shortSource exactRounding webdavRing).exec (startSys webdavRing)
      seekOnRun).any fun s =>
        let t : Sys := { s with filler := .enter, fillStatus := cacheUpdateFillStatus exactRounding s.vars }
        decide (FillDeclines s) && decide (t.vars.maxFilepos - t.vars.readFilepos = 0) &&
          prefillWaits (cachePosGet t.vars) (prefillMin webdavRing.geo (davAudioStartBytes 0)) &&
          (⟨1, ⟨true, false⟩, [()], some ()⟩ : Gate Unit).waits t.fillStatus := by
    decide +kernel
  obtain ⟨s, hexec, hfacts⟩ := (Option.any_eq_true _ _).mp hrun
  simp only [Bool.and_eq_true, decide_eq_true_iff] at hfacts
  obtain ⟨⟨⟨hdecl, hzero⟩, hprefill⟩, hgate⟩ := hfacts
  have hs := Transition.System.Reachable.exec (.init (startSys_init _ _ _))
    (Transition.System.OkAlong.of_forall (P := fun _ => True) (fun _ _ => trivial) _) hexec
  exact ⟨s, _, hdecl, hs, declined_steps hdecl _ _, hzero, hprefill, hgate⟩

end Interleavings

end WiiMC.Player
