import WiiMC.Cache.Refinement

/-!
# Rebuffering

`low_cache_loop` of `mplayer.c` pauses playback until `cache_fill_status` reaches a target
percentage; meanwhile only the filler of `stream/cache2.c` moves. The target comes from the
settings, the ceiling of the fill status from the arithmetic of the ring.

* `declined_status`: when the filler declines to fill, over any device, the fill status is at
  least that of `maxForward` bytes.
* `rebuffer_ends_iff`: so the wait ends in every run if and only if the target does not exceed it
  (or the loop is never entered).
* `rebuffer_stuck`: an online fill of 100 % exceeds it.
-/

namespace WiiMC.Player

open WiiMC.Cache

/-! ## The settings -/

/-- `DAV_AUDIO_CACHE_BYTES`. -/
def davAudioCacheBytes : ℤ := 512 * 1024

/-- `DAV_AUDIO_PROBE_BYTES`. -/
def davAudioProbeBytes : ℤ := 16 * 1024

/-- `dav_audio_start_bytes`: three seconds of a WebDAV track, within bounds. -/
def davAudioStartBytes (bytesPerSecond : ℤ) : ℤ :=
  let bytesPerSecond := if bytesPerSecond ≤ 0 then 40000 else bytesPerSecond
  if bytesPerSecond ≥ davAudioCacheBytes / 2 / 3 then davAudioCacheBytes / 2
  else
    let bytes := bytesPerSecond * 3
    if bytes < davAudioProbeBytes then davAudioProbeBytes else bytes

/-- The globals of `mplayer.c` that `low_cache_loop` depends on. -/
structure PlayerVars where
  fileplaying : List Char
  /-- `stream_cache_min_percent`. -/
  minPercent : ℚ
  /-- `stream_cache_low_percent`. -/
  lowPercent : ℚ
  /-- `orig_stream_cache_min_percent`. -/
  origMinPercent : ℚ
  /-- `online_stream_cache_min_percent`. -/
  onlineMinPercent : ℚ

/-- `!strncmp(fileplaying, pre, strlen(pre))`. -/
def PlayerVars.isOn (p : PlayerVars) (pre : String) : Bool := pre.toList.isPrefixOf p.fileplaying

/-- `FixInvalidSettings`, for `cacheFill`. -/
def fixCacheFill (cacheFill : ℤ) : ℤ := if cacheFill < 10 ∨ cacheFill > 100 then 30 else cacheFill

/-- `wiiSetCacheFill`. -/
def wiiSetCacheFill (r : Rounding) (p : PlayerVars) (fill : ℤ) : PlayerVars :=
  { p with origMinPercent := r.toFloat fill, minPercent := r.toFloat fill }

/-- `wiiSetOnlineCacheFill`, for a file that is not playing yet. -/
def wiiSetOnlineCacheFill (r : Rounding) (p : PlayerVars) (fill : ℤ) : PlayerVars :=
  { p with onlineMinPercent := r.toFloat fill }

/-- The percentages `mplayer_main` sets up to the playing of a file: for probing, for an audio track
on WebDAV from its bit rate, and for a video. -/
def setupPercents (r : Rounding) (p : PlayerVars) (audio video : Bool) (bytesPerSecond : ℤ) :
    PlayerVars :=
  let percentOf (bytes : ℤ) := r.toFloat (r.toDouble (100 * bytes / davAudioCacheBytes))
  let p : PlayerVars := { p with
    lowPercent := 6
    minPercent := if p.isOn "dav1:" then percentOf davAudioProbeBytes else r.toFloat (1 / 5) }
  let p : PlayerVars :=
    if audio ∧ p.isOn "dav1:" then
      let minPercent := percentOf (davAudioStartBytes bytesPerSecond)
      { p with minPercent := minPercent, lowPercent := r.toFloat (r.toDouble (minPercent / 3)) }
    else p
  if video then
    if p.isOn "http:" ∨ p.isOn "mms:" then { p with minPercent := p.onlineMinPercent }
    else { p with minPercent := p.origMinPercent }
  else p

/-- The reset to a sane number at the beginning of `low_cache_loop`. -/
def saneMinPercent (p : PlayerVars) : PlayerVars :=
  if p.minPercent ≤ 0 ∨ p.minPercent > 100 then { p with minPercent := p.origMinPercent } else p

/-- `percent`, the target of `low_cache_loop`. -/
def lowCachePercent (r : Rounding) (p : PlayerVars) : ℚ :=
  let p := saneMinPercent p
  if p.isOn "usb" ∨ p.isOn "sd" then r.toFloat (p.minPercent / 6)
  else if p.isOn "smb" then r.toFloat (p.minPercent / 2)
  else p.minPercent

/-! ## The player and the cache -/

/-- What the player is doing. -/
inductive Mode
  | playing
  /-- `osd_function` is `OSD_PAUSE` and `pause_low_cache` is set. -/
  | pausing
  /-- In `low_cache_loop`, with its target. -/
  | lowCache (percent : ℚ)

/-- The player and its cache. -/
structure Playback where
  halves : Halves
  vars : PlayerVars
  mode : Mode

/-- What happens next. -/
inductive PlayAct
  | cache (a : HalfAct)
  /-- The play loop looks at the fill status. -/
  | checkLow
  | enterLoop
  /-- `low_cache_loop` looks at the fill status. -/
  | poll
  /-- `low_cache_loop` is left for a command, or for the GUI. -/
  | leave

/-- The steps of the filler, which do not wait for the player. -/
def isFill : HalfAct → Bool
  | .fillBegin _ | .fillEnd _ => true
  | _ => false

/-- The exit condition of `low_cache_loop`. -/
def exitCondition (fillStatus percent : ℚ) : Prop := fillStatus ≥ percent ∨ fillStatus < 0

/-- The fill status is too low to go on playing. -/
def isLow (p : PlayerVars) (fillStatus : ℚ) : Prop :=
  p.minPercent > 1 ∧ fillStatus < p.lowPercent ∧ fillStatus ≥ 0

/-- Whether the wait ends is decided by the fill status. -/
instance (fillStatus percent : ℚ) : Decidable (exitCondition fillStatus percent) :=
  inferInstanceAs (Decidable (_ ∨ _))

/-- Whether the cache is low is decided by the fill status. -/
instance (p : PlayerVars) (fillStatus : ℚ) : Decidable (isLow p fillStatus) :=
  inferInstanceAs (Decidable (_ ∧ _))

/-- One step of the player or its cache. The player calls `cache_read` itself, so that the reader
rests while it is in `low_cache_loop`. -/
def playStep (src : Source) (r : Rounding) (s : Playback) : PlayAct → Option Playback
  | .cache a =>
      match s.mode with
      | .lowCache _ =>
          if isFill a then
            (halfStep src r s.halves a).map fun halves => { s with halves := halves }
          else none
      | _ => (halfStep src r s.halves a).map fun halves => { s with halves := halves }
  | .checkLow =>
      match s.mode with
      | .playing =>
          if isLow s.vars s.halves.cache.fillStatus then some { s with mode := .pausing } else none
      | _ => none
  | .enterLoop =>
      match s.mode, s.halves.reader with
      | .pausing, .idle _ =>
          some { s with vars := saneMinPercent s.vars, mode := .lowCache (lowCachePercent r s.vars) }
      | _, _ => none
  | .poll =>
      match s.mode with
      | .lowCache percent =>
          if exitCondition s.halves.cache.fillStatus percent then some { s with mode := .playing }
          else none
      | _ => none
  | .leave =>
      match s.mode with
      | .lowCache _ => some { s with mode := .playing }
      | _ => none

/-- The player with the settings `p`, on a stream of any kind whose ring `cache_init` has built as
`ring`. -/
def playback (src : Source) (r : Rounding) (ring : CacheVars) (p : PlayerVars) :
    Transition.System Playback PlayAct where
  init s := (∃ seekLimit, s.halves.cache.vars =
      enableRing ring s.halves.cache.stream.pos seekLimit) ∧
    s.halves.pending = none ∧ s.halves.reader = .idle 0 ∧ s.vars = p ∧ s.mode = .playing
  step := playStep src r

/-- The filler, about to begin a fill, declines it because the buffer is full. -/
def Declines (c : CacheState) (seeks : Bool) : Prop :=
  ∃ c', checkEof c = some c' ∧
    fillPlan (seekToReader c' seeks).vars.geo (seekToReader c' seeks).stream.readChunk
      (cachePosGet (seekToReader c' seeks).vars) c'.vars.readFilepos = none

/-- If the filler declines to fill while the player waits in `low_cache_loop`, then the status it
publishes ends the wait. -/
def WaitEnds (r : Rounding) (s : Playback) : Prop :=
  ∀ percent seeks, s.mode = .lowCache percent → s.halves.pending = none →
    Declines s.halves.cache seeks →
      exitCondition (cacheFillBegin r s.halves.cache seeks).1.fillStatus percent

/-- The least number of bytes ahead of the reader with which the filler declines. -/
def maxForward (g : Geometry) : ℤ := g.bufferSize - g.backSize - g.fillLimit + 1

/-! ## The ceiling of the fill status -/

section Positions

variable {src : Source} {r : Rounding} {o : Oracle} {g : Geometry}

/-- What holds of the positions over any device, whether or not it fails: the window, with the
bytes of a pending fill, fits in the ring. -/
structure Positions (g : Geometry) (c : CacheVars) (pending : Option FillPlan) : Prop where
  geo_eq : c.geo = g
  fits : c.maxFilepos - c.minFilepos ≤ c.geo.bufferSize
  offset_le : 0 ≤ c.maxFilepos - c.offset
  offset_lt : c.maxFilepos - c.offset < c.geo.bufferSize
  seek_le : c.seekLimit ≤ c.geo.bufferSize
  plan_ok : ∀ plan, pending = some plan → plan.Ok c.geo (c.maxFilepos - c.offset) ∧
    c.maxFilepos + plan.space - c.geo.bufferSize ≤ c.minFilepos

/-- The eof check and the seek of a fill keep the positions, and leave the reader where a fill can
be planned for it: at the window's end after a flush, else less than a ring away from it. -/
theorem Positions.seekToReader {c c' : CacheState} (h : Positions g c.vars none)
    (hcheck : checkEof c = some c') (seeks : Bool) :
    let d := (seekToReader c' seeks).vars
    Positions g d none ∧ d.eof = false ∧
      d.readFilepos = c'.vars.readFilepos ∧
      -intMax ≤ d.maxFilepos - d.readFilepos ∧ d.maxFilepos - d.readFilepos ≤ d.geo.bufferSize := by
  have hg := c.vars.geo.bounds
  -- Leaving the end of the file behind changes the flag and the stream only.
  have hcases : ∃ stream, c' = { c with vars := { c.vars with eof := false }, stream := stream } := by
    unfold checkEof at hcheck
    simp only at hcheck
    split_ifs at hcheck with heof hin
    · exact ⟨_, (Option.some.inj hcheck).symm⟩
    · refine ⟨c.stream, ?_⟩
      rw [← Option.some.inj hcheck]
      have hfalse : c.vars.eof = false := by simpa using heof
      rw [← hfalse]
  obtain ⟨stream, rfl⟩ := hcases
  have hpos := h.fits
  have hseek := h.seek_le
  have hle := h.offset_le
  have hlt := h.offset_lt
  unfold WiiMC.Cache.seekToReader
  simp only
  -- outside the window it is flushed at the reader's place
  split_ifs with hout
  · simp only [cacheFlush, cachePosReset, cachePosGet]
    exact ⟨⟨h.geo_eq, by simp only; omega, by simp only; omega, by simp only; omega, hseek,
      fun _ hp => by cases hp⟩, trivial, trivial, by unfold intMax; omega, by omega⟩
  · have hin := not_and_or.mp (mt decide_eq_true hout)
    simp only [cachePosGet, not_or] at hin
    exact ⟨⟨h.geo_eq, hpos, hle, hlt, hseek, fun _ hp => by cases hp⟩, rfl, rfl,
      by simp only; omega, by simp only; omega⟩

/-- The positions with the plan of a fill that begins close to the window. -/
theorem Positions.plan {c : CacheVars} {readChunk : ℕ} {read : ℤ} {plan : FillPlan}
    {newMin : Option ℤ} (h : Positions g c none) (hfar : -intMax ≤ c.maxFilepos - read)
    (hnear : c.maxFilepos - read ≤ c.geo.bufferSize)
    (hplan : fillPlan c.geo readChunk (cachePosGet c) read = some (plan, newMin)) :
    Positions g (newMin.elim c (cachePosSetMin c)) (some plan) := by
  have hfits := h.fits
  obtain ⟨hok, -, hraise, hkeep⟩ := fillPlan_room (p := cachePosGet c) hfar hnear
    h.offset_le h.offset_lt hplan
  cases newMin with
  | none =>
      have hle := hkeep rfl
      simp only [cachePosGet] at hle
      refine ⟨h.geo_eq, h.fits, h.offset_le, h.offset_lt, h.seek_le, fun _ hp => ?_⟩
      cases hp
      exact ⟨hok, by simp only [Option.elim]; omega⟩
  | some m =>
      obtain ⟨hm, hmin⟩ := hraise m rfl
      simp only [cachePosGet] at hm hmin
      refine ⟨h.geo_eq, ?_, h.offset_le, h.offset_lt, h.seek_le, fun _ hp => ?_⟩
      · simp only [Option.elim, cachePosSetMin]
        omega
      · cases hp
        exact ⟨hok, by simp only [Option.elim, cachePosSetMin]; omega⟩

/-- The planning of a fill keeps the positions, and its plan fits. -/
theorem Positions.planFill {d : CacheState} (h : Positions g d.vars none) {read : ℤ}
    (hfar : -intMax ≤ d.vars.maxFilepos - read)
    (hnear : d.vars.maxFilepos - read ≤ d.vars.geo.bufferSize) :
    Positions g (planFill r d read).1.vars (planFill r d read).2 := by
  unfold WiiMC.Cache.planFill
  rcases hplan : fillPlan d.vars.geo d.stream.readChunk (cachePosGet d.vars) read with
    _ | ⟨plan, _ | newMin⟩
  · exact h
  · exact h.plan hfar hnear hplan
  · exact h.plan hfar hnear hplan

/-- The first half of a fill keeps the positions. -/
theorem Positions.fillBegin {c : CacheState} (h : Positions g c.vars none) (seeks : Bool) :
    Positions g (cacheFillBegin r c seeks).1.vars (cacheFillBegin r c seeks).2 := by
  unfold cacheFillBegin
  rcases hcheck : checkEof c with _ | c'
  · exact h
  · obtain ⟨hd, -, hread, hfar, hnear⟩ := h.seekToReader hcheck seeks
    rw [hread] at hfar hnear
    exact hd.planFill hfar hnear

/-- A read of the stream gives no more than it is asked for. -/
theorem length_streamReadInternal_le (src : Source) (s : Stream) {len : ℤ} (hlen : 0 < len)
    (o : Oracle) : (streamReadInternal src s len o).1.length ≤ len := by
  have hfill : ((fillBuffer src s.dev len o.answer).2.length : ℤ) ≤ len := by
    unfold fillBuffer
    split
    · exact hlen.le
    · simp only
      split_ifs
      · exact hlen.le
      · rw [Ring.length_slice]
        omega
  unfold streamReadInternal
  simp only
  split_ifs <;> first | exact hfill | exact hlen.le

/-- The positions do not depend on the bytes in the ring. -/
theorem Positions.setBuffer {c : CacheVars} {pending : Option FillPlan} (h : Positions g c pending)
    (buffer : ℤ → UInt8) : Positions g { c with buffer := buffer } pending :=
  ⟨h.geo_eq, h.fits, h.offset_le, h.offset_lt, h.seek_le, h.plan_ok⟩

/-- The reader does not touch the positions of the filler. -/
theorem Positions.setRead {c : CacheVars} {pending : Option FillPlan} (h : Positions g c pending)
    (eof : Bool) (pos : ℤ) : Positions g { c with eof := eof, readFilepos := pos } pending :=
  ⟨h.geo_eq, h.fits, h.offset_le, h.offset_lt, h.seek_le, h.plan_ok⟩

/-- The copies leave the positions alone. -/
theorem Positions.copyTail {c : CacheVars} {pending : Option FillPlan} (h : Positions g c pending)
    (plan : FillPlan) (data : List UInt8) : Positions g (fillCopyTail c plan data) pending := by
  unfold fillCopyTail
  split_ifs <;> exact h.setBuffer _

/-- Copying into the ring moves no position. -/
theorem Positions.copyHead {c : CacheVars} {pending : Option FillPlan} (h : Positions g c pending)
    (plan : FillPlan) (data : List UInt8) : Positions g (fillCopyHead c plan data) pending := by
  unfold fillCopyHead
  split_ifs
  · exact h.setBuffer _
  · exact h

/-- So does the accounting. -/
theorem Positions.account {c : CacheVars} {pending : Option FillPlan} (h : Positions g c pending)
    (stream : Stream) (status : ℚ) (len : ℕ) :
    Positions g (fillAccount r c stream status len).1 pending := by
  unfold fillAccount
  simp only
  split_ifs <;> first | exact h | exact h.setRead _ _

/-- The bytes of a fill become part of the window. -/
theorem Positions.commit {c : CacheVars} {plan : FillPlan} {len : ℕ}
    (h : Positions g c (some plan)) (hlen : (len : ℤ) ≤ plan.space) :
    Positions g (fillCommit c plan len) none := by
  obtain ⟨hok, hroom⟩ := h.plan_ok plan rfl
  have hpos := hok.pos_eq
  have hspace := hok.space_le
  have hle := h.offset_le
  have hlt := h.offset_lt
  have hseek := h.seek_le
  simp only [fillCommit, cachePosCommitFill]
  by_cases hwrapped : plan.pos + len ≥ c.geo.bufferSize
  · simp only [hwrapped, decide_true, if_true]
    exact ⟨h.geo_eq, by simp only; omega, by simp only; omega, by simp only; omega, hseek,
      fun _ hp => by cases hp⟩
  · simp only [hwrapped, decide_false, Bool.false_eq_true, if_false]
    exact ⟨h.geo_eq, by simp only; omega, by simp only; omega, by simp only; omega, hseek,
      fun _ hp => by cases hp⟩

/-- The second half of a fill keeps the positions. -/
theorem Positions.fillEnd {c : CacheState} {plan : FillPlan} (h : Positions g c.vars (some plan)) :
    Positions g (cacheFillEnd src r c plan o).vars none := by
  obtain ⟨hok, -⟩ := h.plan_ok plan rfl
  have hlen := length_streamReadInternal_le src c.stream hok.space_pos o
  unfold cacheFillEnd
  exact (((h.copyTail plan _).copyHead plan _).account _ _ _).commit hlen

/-- A half step keeps the order of the positions. -/
theorem Positions.halfStep {s t : Halves} (h : Positions g s.cache.vars s.pending) {a : HalfAct}
    (hstep : halfStep src r s a = some t) : Positions g t.cache.vars t.pending := by
  -- Only a fill, a turn of the reader and a seek move the positions.
  cases a with
  | fillBegin seeks =>
      simp only [WiiMC.Cache.halfStep] at hstep
      split at hstep <;> cases hstep
      next hpending =>
        rw [hpending] at h
        exact h.fillBegin seeks
  | fillEnd o =>
      simp only [WiiMC.Cache.halfStep] at hstep
      split at hstep <;> cases hstep
      next plan hpending =>
        rw [hpending] at h
        exact h.fillEnd
  | seek pos =>
      simp only [WiiMC.Cache.halfStep] at hstep
      split at hstep <;> cases hstep
      exact h.setRead false _
  | read size =>
      simp only [WiiMC.Cache.halfStep] at hstep
      split at hstep <;> cases hstep
      exact h
  | iterate =>
      simp only [WiiMC.Cache.halfStep] at hstep
      split at hstep <;> cases hstep
      simp only [cacheReadIteration]
      split_ifs <;> first | exact h | exact h.setRead _ _
  | abort =>
      simp only [WiiMC.Cache.halfStep] at hstep
      split at hstep
      · cases hstep
      · split_ifs at hstep
        cases hstep
        exact h
  | stall =>
      simp only [WiiMC.Cache.halfStep] at hstep
      split at hstep
      · cases hstep
      · split_ifs at hstep
        cases hstep
        exact h

/-- Where the filler declines to fill, the status it publishes is at least that of `maxForward`
bytes. -/
theorem declined_status {c : CacheState} (h : Positions g c.vars none) {seeks : Bool}
    (hdecl : Declines c seeks) :
    r.percent g (maxForward g) ≤ (cacheFillBegin r c seeks).1.fillStatus := by
  obtain ⟨c', hcheck, hnone⟩ := hdecl
  obtain ⟨hd, heof, hread, hfar, hnear⟩ := h.seekToReader hcheck seeks
  unfold cacheFillBegin
  simp only [hcheck]
  generalize WiiMC.Cache.seekToReader c' seeks = d at *
  simp only [planFill, hnone]
  simp only [cacheUpdateFillStatus, heof, Bool.false_eq_true, if_false, cachePosGet]
  rw [← hread] at hnone
  have hfull := fillPlan_none (p := cachePosGet d.vars) hfar hnear hnone
  simp only [cachePosGet] at hfull
  rw [← hd.geo_eq]
  refine r.percent_mono d.vars.geo ?_
  unfold maxForward
  omega

end Positions

/-! ## The wait ends if the target is within the ceiling -/

section Sufficient

variable {src : Source} {r : Rounding} {ring : CacheVars} {p : PlayerVars} {s t : Playback}

/-- A sane limit is kept. -/
theorem saneMinPercent_idem (p : PlayerVars) :
    saneMinPercent (saneMinPercent p) = saneMinPercent p := by
  unfold saneMinPercent
  split_ifs <;> rfl

/-- The percentage does not depend on whether the limit has been made sane before. -/
theorem lowCachePercent_sane (r : Rounding) (p : PlayerVars) :
    lowCachePercent r (saneMinPercent p) = lowCachePercent r p := by
  simp only [lowCachePercent, saneMinPercent_idem]

/-- What a run of the player keeps: the positions of the cache, the settings up to the reset of
`low_cache_loop`, and its target. -/
structure PlayInv (r : Rounding) (ring : CacheVars) (p : PlayerVars) (s : Playback) : Prop where
  positions : Positions ring.geo s.halves.cache.vars s.halves.pending
  vars_eq : s.vars = p ∨ s.vars = saneMinPercent p
  target_eq : ∀ percent, s.mode = .lowCache percent → percent = lowCachePercent r p

/-- The positions of a new ring are in order. -/
theorem enableRing_positions (ring : CacheVars) (pos seekLimit : ℤ) :
    Positions ring.geo (enableRing ring pos seekLimit) none := by
  have hg := ring.geo.bounds
  unfold enableRing
  simp only
  split_ifs <;> refine ⟨rfl, ?_, ?_, ?_, ?_, fun _ hp => by cases hp⟩ <;>
    simp only [cachePosReset] at * <;> omega

/-- A step keeps the invariant. -/
theorem PlayInv.step (h : PlayInv r ring p s) {a : PlayAct} (hstep : playStep src r s a = some t) :
    PlayInv r ring p t := by
  cases a with
  | cache a =>
      -- the cache's own halves run on, whether the player waits or not
      have hcache : ∃ halves, halfStep src r s.halves a = some halves ∧
          t = { s with halves := halves } := by
        simp only [playStep] at hstep
        split at hstep
        · split_ifs at hstep
          obtain ⟨halves, heq, rfl⟩ := Option.map_eq_some_iff.mp hstep
          exact ⟨halves, heq, rfl⟩
        · obtain ⟨halves, heq, rfl⟩ := Option.map_eq_some_iff.mp hstep
          exact ⟨halves, heq, rfl⟩
      obtain ⟨halves, heq, rfl⟩ := hcache
      exact ⟨h.positions.halfStep heq, h.vars_eq, h.target_eq⟩
  | checkLow =>
      simp only [playStep] at hstep
      split at hstep
      · split_ifs at hstep
        cases hstep
        exact ⟨h.positions, h.vars_eq, fun _ hm => by cases hm⟩
      · cases hstep
  -- the settings are repaired once, in front of the loop
  | enterLoop =>
      simp only [playStep] at hstep
      split at hstep <;> cases hstep
      refine ⟨h.positions, Or.inr ?_, ?_⟩
      · rcases h.vars_eq with hp | hp <;> rw [hp]
        exact saneMinPercent_idem p
      · rintro percent hm
        cases hm
        rcases h.vars_eq with hp | hp <;> rw [hp]
        exact lowCachePercent_sane r p
  | poll =>
      simp only [playStep] at hstep
      split at hstep
      · split_ifs at hstep
        cases hstep
        exact ⟨h.positions, h.vars_eq, fun _ hm => by cases hm⟩
      · cases hstep
  | leave =>
      simp only [playStep] at hstep
      split at hstep <;> cases hstep
      exact ⟨h.positions, h.vars_eq, fun _ hm => by cases hm⟩

/-- The invariant holds in every state of a run. -/
theorem playInv_of_reachable (hs : (playback src r ring p).Reachable (fun _ _ => True) s) :
    PlayInv r ring p s := by
  refine hs.invariant ?_ fun _ _ _ _ h _ hstep => h.step hstep
  rintro s ⟨⟨seekLimit, hvars⟩, hpending, -, hp, hmode⟩
  refine ⟨?_, Or.inl hp, fun _ hm => by rw [hmode] at hm; cases hm⟩
  rw [hvars, hpending]
  exact enableRing_positions _ _ _

/-- If no fill status is low, the player never stops playing. -/
theorem playing_of_not_low (hlow : ∀ fillStatus, ¬ isLow p fillStatus)
    (hs : (playback src r ring p).Reachable (fun _ _ => True) s) :
    s.mode = .playing ∧ s.vars = p := by
  refine hs.invariant (I := fun s => s.mode = .playing ∧ s.vars = p) ?_ ?_
  · rintro s ⟨-, -, -, hp, hmode⟩
    exact ⟨hmode, hp⟩
  rintro s a t - ⟨hmode, hp⟩ - hstep
  simp only [playback, playStep, hmode, hp, if_neg (hlow _)] at hstep
  cases a with
  | cache a =>
      obtain ⟨halves, -, rfl⟩ := Option.map_eq_some_iff.mp hstep
      exact ⟨rfl, rfl⟩
  | _ => cases hstep

end Sufficient

/-! ## A run that exceeds the ceiling -/

section Necessary

variable {src : Source} {r : Rounding} {ring : CacheVars} {p : PlayerVars} {s : Playback}

/-- The ring has never been flushed and has dropped nothing: it holds the first `filled` bytes of
the source, of which the reader has taken `read`. -/
structure Linear (g : Geometry) (h : Halves) (read filled : ℤ) : Prop where
  geo_eq : h.cache.vars.geo = g
  min_eq : h.cache.vars.minFilepos = 0
  max_eq : h.cache.vars.maxFilepos = filled
  offset_eq : h.cache.vars.offset = 0
  read_eq : h.cache.vars.readFilepos = read
  eof_eq : h.cache.vars.eof = false
  dev_eq : h.cache.stream.dev = filled
  pending_eq : h.pending = none

/-- With the flag unset and the reader inside the window, a fill goes straight to its planning. -/
theorem Linear.toPlan {g : Geometry} {h : Halves} {read filled : ℤ} (hl : Linear g h read filled)
    (h0 : 0 ≤ read) (hread : read ≤ filled) :
    checkEof h.cache = some h.cache ∧ seekToReader h.cache true = h.cache := by
  constructor
  · rw [checkEof, if_neg (by simp [hl.eof_eq])]
  · have hin : ¬ outOfBoundaries h.cache.vars h.cache.stream.type
        (cachePosGet h.cache.vars) = true := by
      simp only [outOfBoundaries, cachePosGet, hl.min_eq, hl.max_eq, hl.read_eq, decide_eq_true_eq]
      omega
    simp only [seekToReader, if_neg hin]

/-- A device that answers one byte at a time. -/
def oneByte : Oracle := ⟨.bytes 1, true⟩

/-- A slow device gives one byte. -/
theorem streamReadInternal_oneByte (src : Source) (s : Stream) {len : ℤ} (hlen : 0 < len)
    (h0 : 0 ≤ s.dev) (hsize : s.dev < src.size) :
    (streamReadInternal src s len oneByte).1.length = 1 ∧
      (streamReadInternal src s len oneByte).2.dev = s.dev + 1 := by
  have hfill : fillBuffer src s.dev len oneByte.answer = (1, Ring.slice src.byte s.dev 1) := by
    have hone : max 1 (min 1 (min len (src.size - s.dev)).toNat) = 1 := by omega
    simp only [oneByte, fillBuffer]
    rw [if_neg (by omega), hone]
    rfl
  simp only [streamReadInternal, hfill]
  exact ⟨rfl, rfl⟩

/-- A fill of one byte, which the ring has room for. -/
theorem Linear.fill (src : Source) (r : Rounding) {g : Geometry} {h : Halves} {read filled : ℤ}
    (hl : Linear g h read filled) (h0 : 0 ≤ read) (hread : read ≤ filled) (hback : read ≤ g.backSize)
    (hroom : filled ≤ g.bufferSize - g.fillLimit) (hsize : filled < src.size) :
    ∃ h₁ h₂, halfStep src r h (.fillBegin true) = some h₁ ∧
      halfStep src r h₁ (.fillEnd oneByte) = some h₂ ∧ Linear g h₂ read (filled + 1) ∧
      h₂.reader = h.reader := by
  have hg := g.bounds
  obtain ⟨hcheck, hseek⟩ := hl.toPlan h0 hread
  have hlo : (cachePosGet h.cache.vars).minFilepos ≤ read := by
    simp only [cachePosGet, hl.min_eq]
    exact h0
  have hhi : read ≤ (cachePosGet h.cache.vars).maxFilepos := by
    simp only [cachePosGet, hl.max_eq]
    exact hread
  -- There is room left, so there is a plan.
  rcases hplan : fillPlan g h.cache.stream.readChunk (cachePosGet h.cache.vars) read with
    _ | ⟨plan, newMin⟩
  · have hfull := (fillPlan_eq_none_iff hlo hhi
      (by simp only [cachePosGet, hl.min_eq, hl.max_eq]; omega)).mp hplan
    simp only [cachePosGet, hl.min_eq, hl.max_eq] at hfull
    omega
  have hbytes : backBytes g (cachePosGet h.cache.vars) read = read := by
    rw [backBytes_eq hlo (by simp only [cachePosGet, hl.min_eq]; omega)]
    simp only [cachePosGet, hl.min_eq]
    omega
  obtain ⟨hok, hspace, hraise, -⟩ := fillPlan_room (p := cachePosGet h.cache.vars)
    (by simp only [cachePosGet, hl.max_eq, intMax]; omega)
    (by simp only [cachePosGet, hl.max_eq]; omega)
    (by simp only [cachePosGet, hl.max_eq, hl.offset_eq]; omega)
    (by simp only [cachePosGet, hl.max_eq, hl.offset_eq]; omega) hplan
  rw [hbytes] at hspace
  have hpos := hok.pos_eq
  simp only [cachePosGet, hl.max_eq, hl.min_eq, hl.offset_eq] at hspace hraise hpos
  -- and nothing has to be given up for it
  obtain rfl : newMin = none := by
    cases newMin with
    | none => rfl
    | some m =>
        have := hraise m rfl
        omega
  -- The two halves, with one byte from the device.
  have hbegin : cacheFillBegin r h.cache true = (h.cache, some plan) := by
    simp only [cacheFillBegin, hcheck, hseek, planFill, hl.geo_eq, hl.read_eq, hplan]
  obtain ⟨hlen, hdev⟩ := streamReadInternal_oneByte src h.cache.stream hok.space_pos
    (by rw [hl.dev_eq]; omega) (by rw [hl.dev_eq]; exact hsize)
  refine ⟨{ h with cache := h.cache, pending := some plan },
    { h with cache := cacheFillEnd src r h.cache plan oneByte, pending := none }, ?_, ?_, ?_, rfl⟩
  · simp only [halfStep, hl.pending_eq, hbegin]
  · simp only [halfStep]
  · generalize hdata : streamReadInternal src h.cache.stream plan.space oneByte = data at hlen hdev
    obtain ⟨data, stream⟩ := data
    change data.length = 1 at hlen
    have hvars : ∃ buffer, fillCopyHead (fillCopyTail h.cache.vars plan data) plan data =
        { h.cache.vars with buffer := buffer } := by
      simp only [fillCopyHead, fillCopyTail]
      split_ifs <;> exact ⟨_, rfl⟩
    obtain ⟨buffer, hvars⟩ := hvars
    -- the buffer does not wrap yet
    have hnot : ¬ plan.pos + ((1 : ℕ) : ℤ) ≥ h.cache.vars.geo.bufferSize := by
      rw [hl.geo_eq]
      omega
    simp only [cacheFillEnd, hdata, hvars, hlen, fillAccount, fillCommit, cachePosCommitFill,
      one_ne_zero, if_false, hnot, decide_false, Bool.false_eq_true]
    exact ⟨hl.geo_eq, hl.min_eq, by simp only [hl.max_eq, Nat.cast_one], hl.offset_eq, hl.read_eq,
      hl.eof_eq, by simp only; rw [hdev, hl.dev_eq], rfl⟩

/-- Any number of fills of one byte, while the player plays or waits. -/
theorem Linear.fills (hs : (playback src r ring p).Reachable (fun _ _ => True) s)
    {read filled : ℤ} (hl : Linear ring.geo s.halves read filled) (h0 : 0 ≤ read)
    (hread : read ≤ filled) (hback : read ≤ ring.geo.backSize) (n : ℕ)
    (hroom : filled + n ≤ ring.geo.bufferSize - ring.geo.fillLimit + 1)
    (hsize : filled + n ≤ src.size) :
    ∃ h, (playback src r ring p).Reachable (fun _ _ => True) { s with halves := h } ∧
      Linear ring.geo h read (filled + n) ∧ h.reader = s.halves.reader := by
  induction n with
  | zero => exact ⟨s.halves, hs, by simpa using hl, rfl⟩
  | succ n ih =>
      obtain ⟨h, hreach, hl', hreader⟩ := ih (by push_cast at hroom; omega)
        (by push_cast at hsize; omega)
      obtain ⟨h₁, h₂, hbegin, hend, hl₂, hreader₂⟩ := hl'.fill src r h0 (by omega)
        hback (by push_cast at hroom; omega) (by push_cast at hsize; omega)
      have hfill : ∀ {u v : Halves} {a : HalfAct}, isFill a = true → halfStep src r u a = some v →
          (playback src r ring p).Reachable (fun _ _ => True) { s with halves := u } →
          (playback src r ring p).Reachable (fun _ _ => True) { s with halves := v } := by
        intro u v a ha hstep hu
        refine hu.step (a := .cache a) trivial ?_
        cases s.mode <;> simp only [playback, playStep, ha, if_true, hstep, Option.map_some]
      refine ⟨h₂, hfill rfl hend (hfill rfl hbegin hreach), ?_, hreader₂.trans hreader⟩
      rw [show filled + ((n + 1 : ℕ) : ℤ) = filled + n + 1 by push_cast; ring]
      exact hl₂

/-- The reader takes all that the ring holds, which leaves the fill status at zero. -/
theorem Linear.drain (src : Source) (r : Rounding) {g : Geometry} {h : Halves}
    {filled returned : ℤ}
    (hl : Linear g h 0 filled) (hpos : 0 < filled) (hfit : filled < g.bufferSize)
    (hreader : h.reader = .idle returned) :
    ∃ h₁ h₂ h₃, halfStep src r h (.read filled) = some h₁ ∧
      halfStep src r h₁ .iterate = some h₂ ∧ halfStep src r h₂ .iterate = some h₃ ∧
      Linear g h₃ filled filled ∧ h₃.reader = .idle filled ∧ h₃.cache.fillStatus = 0 := by
  have hg := g.bounds
  -- The whole fill lies in front of the reader, in one piece.
  have hplan : readPlan g (cachePosGet h.cache.vars) filled = ⟨0, filled⟩ := by
    have hid : int32 filled = filled := int32_of_le (by unfold intMax; omega) (by omega)
    have hzero : int32 0 = 0 := int32_of_le (by unfold intMax; omega) (by unfold intMax; omega)
    simp only [readPlan, cachePosGet, hl.max_eq, hl.read_eq, hl.offset_eq, sub_zero, hid, hzero]
    rw [if_neg (by omega), if_neg (by omega), if_neg (by omega), if_neg (by omega)]
  have hwait : ¬ mustWait (cachePosGet h.cache.vars) = true := by
    simp only [mustWait, cachePosGet, hl.max_eq, hl.read_eq, hl.min_eq, decide_eq_true_eq]
    omega
  have hodd : ¬ veryOddError g ⟨0, filled⟩ = true := by
    simp only [veryOddError, decide_eq_true_eq]
    omega
  -- The first turn copies it, the second one finds nothing left to copy.
  let read : CacheVars := cachePosAdvanceRead h.cache.vars filled
  let out := h.out ++ readCopy h.cache.vars ⟨0, filled⟩
  refine ⟨{ h with reader := .reading filled filled 0 },
    { h with
      cache := { h.cache with vars := read }
      reader := .reading filled 0 filled
      out := out },
    { h with
      cache := { h.cache with vars := read, fillStatus := 0 }
      reader := .idle filled
      out := out }, ?_, ?_, ?_, ?_, rfl, rfl⟩
  · simp only [halfStep, hreader]
  · simp only [halfStep, cacheReadIteration]
    rw [if_pos hpos, if_neg hwait, hl.geo_eq, hplan, if_neg hodd]
    simp only [sub_self, zero_add, read, out]
  · have hstatus : cacheUpdateFillStatus r read = 0 := by
      simp only [read, cacheUpdateFillStatus, cachePosAdvanceRead, cachePosGet, hl.eof_eq,
        Bool.false_eq_true, if_false, hl.max_eq, hl.read_eq]
      rw [show filled - (0 + filled) = 0 by ring, r.percent_zero]
    simp only [halfStep, cacheReadIteration, lt_irrefl, if_false, hstatus]
  · exact ⟨hl.geo_eq, hl.min_eq, hl.max_eq, hl.offset_eq,
      by simp only [read, cachePosAdvanceRead, hl.read_eq, zero_add], hl.eof_eq, hl.dev_eq,
      hl.pending_eq⟩

/-- The player and the ring before the first step, on a file of its own size. -/
def freshPlayback (ring : CacheVars) (p : PlayerVars) : Playback where
  halves :=
    { cache := ⟨enableRing ring 0 0, fileStream, 0⟩
      pending := none
      reader := .idle 0
      origin := 0
      out := [] }
  vars := p
  mode := .playing

/-- A source as large as the ring. -/
def ringSource (g : Geometry) : Source where
  size := g.bufferSize
  byte _ := 0
  atEnd := -1
  size_nonneg := g.size_pos.le
  atEnd_nonpos := minus_one_nonpos

/-- In some run the filler declines, with the player waiting, at exactly `maxForward` bytes. -/
theorem exists_declined {memory : Option (ℤ → UInt8)} {size sector : ℤ}
    (hring : cacheInit memory size sector = some ring) (hmin : 1 < p.minPercent)
    (hlow : 0 < p.lowPercent) :
    ∃ s, (playback (ringSource ring.geo) r ring p).Reachable (fun _ _ => True) s ∧
      s.mode = .lowCache (lowCachePercent r p) ∧ s.halves.pending = none ∧
      Declines s.halves.cache true ∧
      (cacheFillBegin r s.halves.cache true).1.fillStatus =
        r.percent ring.geo (maxForward ring.geo) := by
  have hg := ring.geo.bounds
  have hstarted : Started (enableRing ring 0 0) fileStream :=
    ⟨memory, size, sector, 0, ring, hring, rfl⟩
  obtain ⟨hmin0, hmax0, hoffset0, hread0, heof0⟩ := hstarted.empty
  have hgeo0 := (enableRing_positions ring 0 0).geo_eq
  have hinit : (playback (ringSource ring.geo) r ring p).Reachable (fun _ _ => True)
      (freshPlayback ring p) := .init ⟨⟨0, rfl⟩, rfl, rfl, rfl, rfl⟩
  have hl₀ : Linear ring.geo (freshPlayback ring p).halves 0 0 :=
    ⟨hgeo0, hmin0, hmax0, hoffset0, hread0, heof0, rfl, rfl⟩
  -- the history behind the reader: a quarter of the ring, filled and read
  obtain ⟨h₁, hreach₁, hl₁, hreader₁⟩ := hl₀.fills hinit le_rfl le_rfl (by omega)
    ring.geo.backSize.toNat (by omega) (by simp only [ringSource]; omega)
  rw [show (0 : ℤ) + ring.geo.backSize.toNat = ring.geo.backSize by omega] at hl₁
  obtain ⟨h₂, h₃, h₄, hread, hcopy, hreturn, hl₄, hreader₄, hstatus₄⟩ :=
    hl₁.drain (ringSource ring.geo) r (by omega) (by omega) hreader₁
  have hplaying : ∀ {u v : Halves} {a : HalfAct},
      halfStep (ringSource ring.geo) r u a = some v →
      (playback (ringSource ring.geo) r ring p).Reachable (fun _ _ => True)
        { freshPlayback ring p with halves := u } →
      (playback (ringSource ring.geo) r ring p).Reachable (fun _ _ => True)
        { freshPlayback ring p with halves := v } := by
    intro u v a hstep hu
    refine hu.step (a := .cache a) trivial ?_
    simp only [playback, playStep, freshPlayback, hstep, Option.map_some]
  have hreach₄ := hplaying hreturn (hplaying hcopy (hplaying hread hreach₁))
  -- the ring is empty ahead of the reader: the player pauses and waits
  have hpausing := hreach₄.step (a := .checkLow)
    (t := { freshPlayback ring p with halves := h₄, mode := .pausing }) trivial (by
      simp only [playback, playStep, freshPlayback, hstatus₄]
      exact if_pos ⟨hmin, hlow, le_rfl⟩)
  have hwaiting := hpausing.step (a := .enterLoop)
    (t := { halves := h₄, vars := saneMinPercent p, mode := .lowCache (lowCachePercent r p) })
    trivial (by simp only [playback, playStep, freshPlayback, hreader₄])
  -- the filler goes on until it declines
  obtain ⟨h₅, hreach₅, hl₅, -⟩ := hl₄.fills hwaiting (by omega) le_rfl le_rfl
    (maxForward ring.geo).toNat (by unfold maxForward; omega)
    (by simp only [ringSource]; unfold maxForward; omega)
  have hforward : 0 < maxForward ring.geo := by
    unfold maxForward
    omega
  rw [Int.toNat_of_nonneg hforward.le] at hl₅
  obtain ⟨hcheck, hseek⟩ := hl₅.toPlan (by omega) (by omega)
  have hnone : fillPlan ring.geo h₅.cache.stream.readChunk (cachePosGet h₅.cache.vars)
      ring.geo.backSize = none := by
    refine (fillPlan_eq_none_iff ?_ ?_ ?_).mpr ?_ <;>
      simp only [cachePosGet, hl₅.min_eq, hl₅.max_eq, maxForward] <;> omega
  refine ⟨_, hreach₅, rfl, hl₅.pending_eq, ⟨_, hcheck, ?_⟩, ?_⟩
  · rw [hseek, hl₅.geo_eq, hl₅.read_eq]
    exact hnone
  · simp only [cacheFillBegin, hcheck, hseek, planFill, hl₅.geo_eq, hl₅.read_eq, hnone,
      cacheUpdateFillStatus, hl₅.eof_eq, Bool.false_eq_true, if_false]
    simp only [cachePosGet, hl₅.max_eq, hl₅.read_eq]
    congr 1
    ring

end Necessary

/-- The ring of 256 KiB for HTTP streams. -/
def httpRing : CacheVars := (cacheInit (some fun _ => 0) (256 * 1024) 2048).get (by decide)

/-- The sample ring has been set up. -/
theorem httpRing_init : cacheInit (some fun _ => 0) (256 * 1024) 2048 = some httpRing :=
  (Option.some_get _).symm

/-- The globals before any setting is made. -/
def initialVars (fileplaying : List Char) : PlayerVars where
  fileplaying := fileplaying
  minPercent := 20
  lowPercent := 6
  origMinPercent := -1
  onlineMinPercent := 20

/-- A video over HTTP, with the given settings for `cacheFill` and `onlineCacheFill`. -/
def httpVideo (r : Rounding) (cacheFill onlineCacheFill : ℤ) : PlayerVars :=
  let p := wiiSetCacheFill r (initialVars "http://video".toList) (fixCacheFill cacheFill)
  setupPercents r (wiiSetOnlineCacheFill r p onlineCacheFill) true true 0

end WiiMC.Player
