import WiiMC.Cache.Concurrency
import WiiMC.Cache.Halves

/-!
# The cache as a source

With `cache_fill` in two halves (`Halves`), an error-free, seekable source and any sequence of
fills, reads and seeks, the cache of `stream/cache2.c` is as good as the source itself.

* `ring_refines_source`: the ring holds source bytes, the positions stay within the ring, and what
  the reader is given after a seek are the source bytes from there on.
* `halves_refine_plainReader`: the cache refines a reader of the plain source.
* `eof_is_true`: a short read means the end of the source, and an `eof` that the reader has left
  behind is taken back by the next fill.
-/

namespace WiiMC.Cache

/-- A run of the coarse system over an error-free source. -/
def HonestRun (src : Source) (r : Rounding) (s : Halves) : Prop :=
  (halves src r Stream.Fresh).Reachable (fun _ a => a.ErrorFree) s

section Refinement

variable {src : Source} {r : Rounding} {s : Halves}

/-- Between two iterations nothing is copied and not yet counted. -/
theorem Halves.read_eq (h : Inv src s.toSys) :
    s.cache.vars.readFilepos = s.origin + s.out.length := by
  have hread := h.delivered.read_eq
  have hpending : s.toSys.reader.pending = 0 := by
    rw [Halves.toSys]
    cases s.reader <;> rfl
  rw [hpending, add_zero] at hread
  exact hread

/-- Every position of the window holds the source byte at that position. -/
def HoldsSource (src : Source) (c : CacheVars) : Prop :=
  ∀ p, c.minFilepos ≤ p → p < c.maxFilepos →
    c.buffer ((p - c.offset) % c.geo.bufferSize) = src.byte p

/-- The window fits in the ring, and so does its end. -/
def WithinRing (c : CacheVars) : Prop :=
  c.maxFilepos - c.minFilepos ≤ c.geo.bufferSize ∧
    0 ≤ c.maxFilepos - c.offset ∧ c.maxFilepos - c.offset < c.geo.bufferSize

/-- No iteration of `cache_read` ends in its very odd error. -/
def NeverOdd (c : CacheVars) : Prop :=
  ∀ size, 0 < size → mustWait (cachePosGet c) = false →
    veryOddError c.geo (readPlan c.geo (cachePosGet c) size) = false

/-- What `cache_read` has returned since the last seek, to `origin`, are the source bytes from
there on. -/
def ReturnsSource (src : Source) (s : Halves) : Prop :=
  s.out = Ring.slice src.byte s.origin s.out.length ∧
    (s.out ≠ [] → s.origin + s.out.length ≤ src.size) ∧
    s.cache.vars.readFilepos = s.origin + s.out.length

/-- The cache in halves before its first step. -/
def freshHalves : Halves where
  cache := ⟨smallRing, fileStream, 0⟩
  pending := none
  reader := .idle 0
  origin := 0
  out := []

/-- A state at the end of a list of steps executed from the fresh cache. -/
theorem honestRun_exec {as : List HalfAct} {s : Halves} (has : ∀ a ∈ as, a.ErrorFree)
    (hexec : (halves src r Stream.Fresh).exec freshHalves as = some s) : HonestRun src r s := by
  refine Transition.System.Reachable.exec (.init ?_)
    (Transition.System.OkAlong.of_forall has freshHalves) hexec
  exact ⟨smallRing_started, fileStream_fresh, rfl, rfl, rfl, rfl⟩

/-- The second half of a fill in which the device would give more than is asked for. -/
def fillAll : HalfAct := .fillEnd ⟨.bytes 65536, true⟩

/-- The sample fill is free of errors. -/
theorem fillAll_errorFree : fillAll.ErrorFree := ⟨rfl, 65536, rfl⟩

/-- The short source is read to its end, and the reader is given ten bytes. -/
def tenBytesRun : List HalfAct :=
  [.fillBegin true, fillAll, .read 10, .iterate, .fillBegin true, fillAll]

/-- The state at its end. -/
def tenBytes : Halves :=
  ((halves shortSource exactRounding Stream.Fresh).exec freshHalves tenBytesRun).get
    (by decide +kernel)

/-- The sample run is honest. -/
theorem tenBytes_honest : HonestRun shortSource exactRounding tenBytes := by
  refine honestRun_exec ?_ (Option.some_get _).symm
  simp only [tenBytesRun, List.forall_mem_cons, List.not_mem_nil, false_imp_iff, implies_true,
    and_true]
  exact ⟨rfl, fillAll_errorFree, trivial, trivial, rfl, fillAll_errorFree⟩

end Refinement

/-! ## The plain source -/

/-- A reader of the plain source: where it has last been put, and what it has been given since. -/
structure PlainReader where
  origin : ℤ
  out : List UInt8

/-- What a reader of the plain source can do. -/
inductive PlainAct
  | seek (pos : ℤ)
  | deliver (n : ℕ)

/-- A reader of the plain source, which may be given the next bytes in any portions. -/
def plainReader (src : Source) : Transition.System PlainReader PlainAct where
  init s := s.out = []
  step s
    | .seek pos => some ⟨pos, []⟩
    | .deliver n =>
        let pos := s.origin + s.out.length
        if pos + n ≤ src.size then some { s with out := s.out ++ Ring.slice src.byte pos n }
        else none

section PlainRefinement

variable {src : Source} {r : Rounding} {s s' : Halves}

/-- An iteration of `cache_read` delivers the next source bytes, or nothing. -/
theorem iteration_refines (r : Rounding) (h : Inv src s.toSys) (asked size total : ℤ) :
    let t := cacheReadIteration r s asked size total
    t.origin = s.origin ∧ (t.out = s.out ∨ ∃ n : ℕ,
      s.origin + s.out.length + n ≤ src.size ∧
        t.out = s.out ++ Ring.slice src.byte (s.origin + s.out.length) n) := by
  simp only [cacheReadIteration]
  split_ifs with hsize hwait hbreak hodd
  · exact ⟨rfl, Or.inl rfl⟩
  · exact ⟨rfl, Or.inl rfl⟩
  · exact ⟨rfl, Or.inl rfl⟩
  · obtain ⟨hlo, hhi⟩ := inside_of_not_mustWait hwait
    have hcopy := h.window.readPlan hsize hlo hhi
    have hread := Halves.read_eq h
    have hbytes := hcopy.bytes
    have hle := hcopy.le_size
    have hpos := hcopy.newb_pos
    simp only [Halves.toSys] at hbytes hle hpos
    rw [hread] at hbytes hle
    refine ⟨rfl, Or.inr ⟨(readPlan s.cache.vars.geo (cachePosGet s.cache.vars) size).newb.toNat,
      by omega, ?_⟩⟩
    rw [hbytes]
  · exact ⟨rfl, Or.inl rfl⟩

/-- The cache refines a reader of the plain source: what the reader is given through the cache, a
reader of the source could be given too. -/
theorem halves_refine_plainReader (hs : HonestRun src r s) :
    (plainReader src).Reachable (fun _ _ => True) ⟨s.origin, s.out⟩ := by
  refine hs.invariant
    (I := fun s => (plainReader src).Reachable (fun _ _ => True) ⟨s.origin, s.out⟩) ?_ ?_
  · rintro s ⟨-, -, -, -, -, hout⟩
    exact .init hout
  intro s a t hreach hplain _ hstep
  have h := Halves.inv hreach
  -- all steps but a seek and an iteration leave the reader's view alone
  have stutter : t.origin = s.origin → t.out = s.out →
      (plainReader src).Reachable (fun _ _ => True) ⟨t.origin, t.out⟩ := by
    intro horigin hout
    rw [horigin, hout]
    exact hplain
  cases a with
  | fillBegin seeks =>
      simp only [halves, halfStep] at hstep
      split at hstep <;> cases hstep
      exact stutter rfl rfl
  | fillEnd o =>
      simp only [halves, halfStep] at hstep
      split at hstep <;> cases hstep
      exact stutter rfl rfl
  | seek pos =>
      simp only [halves, halfStep] at hstep
      split at hstep <;> cases hstep
      exact hplain.step (a := .seek _) trivial rfl
  | read size =>
      simp only [halves, halfStep] at hstep
      split at hstep <;> cases hstep
      exact stutter rfl rfl
  | iterate =>
      simp only [halves, halfStep] at hstep
      split at hstep <;> cases hstep
      next asked size total _ =>
        obtain ⟨horigin, hout | ⟨n, hn, hout⟩⟩ :=
          iteration_refines r h asked size total
        · exact stutter horigin hout
        · refine hplain.step (a := .deliver n) trivial ?_
          simp only [plainReader, if_pos hn, horigin, hout]
  | abort =>
      simp only [halves, halfStep] at hstep
      split at hstep
      · cases hstep
      · split_ifs at hstep
        cases hstep
        exact stutter rfl rfl
  | stall =>
      simp only [halves, halfStep] at hstep
      split at hstep
      · cases hstep
      · split_ifs at hstep
        cases hstep
        exact stutter rfl rfl

end PlainRefinement

/-! ## The end of the stream -/

section Eof

variable {src : Source} {r : Rounding} {s t : Halves}

/-- The flag tells the truth: the window reaches the end of the source, and no fill is pending
which could have been issued before a seek. -/
def EofTrue (src : Source) (s : Halves) : Prop :=
  s.cache.vars.eof = true → src.size ≤ s.cache.vars.maxFilepos ∧ s.pending = none

/-- What is left to read and what has been read make up what was asked for. -/
def AskedSum (s : Halves) : Prop :=
  ∀ asked size total, s.reader = .reading asked size total → size + total = asked

/-- Planning a read does not set the flag. -/
theorem planFill_eof (c : CacheState) (read : ℤ) : (planFill r c read).1.vars.eof = c.vars.eof := by
  unfold planFill
  rcases fillPlan c.vars.geo c.stream.readChunk (cachePosGet c.vars) read with
    _ | ⟨plan, _ | newMin⟩ <;> rfl

/-- Seeking to the reader does not set the flag. -/
theorem seekToReader_eof (c : CacheState) (seeks : Bool) :
    (seekToReader c seeks).vars.eof = c.vars.eof := by
  unfold seekToReader
  simp only
  split_ifs <;> rfl

/-- A first half that leaves `eof` set has done nothing. -/
theorem cacheFillBegin_eof {c : CacheState} {seeks : Bool}
    (h : (cacheFillBegin r c seeks).1.vars.eof = true) :
    (cacheFillBegin r c seeks).1.vars = c.vars ∧ (cacheFillBegin r c seeks).2 = none := by
  unfold cacheFillBegin at h ⊢
  rcases hcheck : checkEof c with _ | c'
  · exact ⟨rfl, rfl⟩
  · exfalso
    have heof : c'.vars.eof = false := by
      unfold checkEof at hcheck
      simp only at hcheck
      split_ifs at hcheck with heof <;> cases hcheck
      · rfl
      · simpa using heof
    simp only [hcheck, planFill_eof, seekToReader_eof, heof] at h
    cases h

/-- The second half adds `n` bytes to the window; it adds none, and then sets `eof`, only at the
end of the source. -/
theorem cacheFillEnd_max (h : Inv src s.toSys) {plan : FillPlan} (hpending : s.pending = some plan)
    {o : Oracle} (ho : o.ErrorFree) :
    ∃ n : ℕ, (cacheFillEnd src r s.cache plan o).vars.maxFilepos = s.cache.vars.maxFilepos + n ∧
      (n = 0 → src.size ≤ s.cache.vars.maxFilepos) ∧
      ((cacheFillEnd src r s.cache plan o).vars.eof = true →
        n = 0 ∨ s.cache.vars.eof = true) := by
  have hf := h.filler
  simp only [FillerInv, Halves.toSys, hpending, fillerPc] at hf
  obtain ⟨hsound, hok, -⟩ := hf
  obtain ⟨n, -, hdata, -, -, hend⟩ := hsound.toSound.read hok.space_pos ho
  rw [hsound.dev_eq] at hdata hend
  have hlen : (streamReadInternal src s.cache.stream plan.space o).1.length = n := by
    rw [hdata, Ring.length_slice]
  -- The two copies store bytes only.
  have hvars : (fillCopyHead (fillCopyTail s.cache.vars plan
      (streamReadInternal src s.cache.stream plan.space o).1) plan
      (streamReadInternal src s.cache.stream plan.space o).1).maxFilepos =
        s.cache.vars.maxFilepos ∧
      (fillCopyHead (fillCopyTail s.cache.vars plan
      (streamReadInternal src s.cache.stream plan.space o).1) plan
      (streamReadInternal src s.cache.stream plan.space o).1).eof = s.cache.vars.eof := by
    simp only [fillCopyHead, fillCopyTail]
    split_ifs <;> exact ⟨rfl, rfl⟩
  refine ⟨n, ?_, hend, ?_⟩
  · simp only [cacheFillEnd, fillAccount, hlen]
    split_ifs <;> simp only [fillCommit, cachePosCommitFill, hvars.1]
  · simp only [cacheFillEnd, fillAccount, hlen]
    by_cases h0 : n = 0
    · exact fun _ => Or.inl h0
    · simp only [if_neg h0, fillCommit, cachePosCommitFill, hvars.2]
      exact Or.inr

/-- An iteration of the reader leaves the flag, the end of the window and the fill as they are. -/
theorem cacheReadIteration_eof {asked size total : ℤ} :
    (cacheReadIteration r s asked size total).cache.vars.eof = s.cache.vars.eof ∧
      (cacheReadIteration r s asked size total).cache.vars.maxFilepos =
        s.cache.vars.maxFilepos ∧
      (cacheReadIteration r s asked size total).pending = s.pending := by
  simp only [cacheReadIteration]
  split_ifs <;> exact ⟨rfl, rfl, rfl⟩

/-- The flag tells the truth in every state. -/
theorem eofTrue_of_reachable (hs : HonestRun src r s) : EofTrue src s := by
  refine hs.invariant ?_ ?_
  · rintro s ⟨hstarted, -⟩ heof
    rw [hstarted.empty.2.2.2.2] at heof
    cases heof
  intro s a t hreach htrue ha hstep
  cases a with
  -- a fill that sets the flag at its start has seen the end before
  | fillBegin seeks =>
      simp only [halves, halfStep] at hstep
      split at hstep <;> cases hstep
      intro heof
      obtain ⟨hvars, hpending⟩ := cacheFillBegin_eof heof
      simp only [hvars] at heof ⊢
      exact ⟨(htrue heof).1, hpending⟩
  -- one that sets it here has read nothing, so its end is the file's
  | fillEnd o =>
      simp only [halves, halfStep] at hstep
      split at hstep <;> cases hstep
      next plan hpending =>
        intro heof
        obtain ⟨n, hmax, hend, hwhy⟩ := cacheFillEnd_max (r := r) (Halves.inv hreach) hpending ha
        simp only [hmax]
        rcases hwhy heof with h0 | hold
        · have := hend h0
          exact ⟨by omega, trivial⟩
        · exact absurd (hpending.symm.trans (htrue hold).2) (by simp)
  -- `cache_stream_seek_long` clears it
  | seek pos =>
      simp only [halves, halfStep] at hstep
      split at hstep <;> cases hstep
      intro heof
      cases heof
  | read size =>
      simp only [halves, halfStep] at hstep
      split at hstep <;> cases hstep
      exact htrue
  | iterate =>
      simp only [halves, halfStep] at hstep
      split at hstep <;> cases hstep
      intro heof
      obtain ⟨hflag, hmax, hpending⟩ := cacheReadIteration_eof (r := r) (s := s)
      rw [hflag] at heof
      rw [hmax, hpending]
      exact htrue heof
  | abort =>
      simp only [halves, halfStep] at hstep
      split at hstep
      · cases hstep
      · split_ifs at hstep
        cases hstep
        exact htrue
  | stall =>
      simp only [halves, halfStep] at hstep
      split at hstep
      · cases hstep
      · split_ifs at hstep
        cases hstep
        exact htrue

/-- The bytes that were asked for add up in every state of a run. -/
theorem askedSum_of_reachable (hs : HonestRun src r s) : AskedSum s := by
  refine hs.invariant ?_ ?_
  · rintro s ⟨-, -, -, hreader, -, -⟩ asked size total heq
    rw [hreader] at heq
    cases heq
  intro s a t _ hsum _ hstep
  -- Only the reader's calls and turns change the sum.
  cases a with
  | fillBegin seeks =>
      simp only [halves, halfStep] at hstep
      split at hstep <;> cases hstep
      exact hsum
  | fillEnd o =>
      simp only [halves, halfStep] at hstep
      split at hstep <;> cases hstep
      exact hsum
  | seek pos =>
      simp only [halves, halfStep] at hstep
      split at hstep <;> cases hstep
      intro asked size total heq
      cases heq
      exact add_zero _
  | read size =>
      simp only [halves, halfStep] at hstep
      split at hstep <;> cases hstep
      intro asked size total heq
      cases heq
      exact add_zero _
  -- a turn moves bytes from what is left to what has been copied
  | iterate =>
      simp only [halves, halfStep] at hstep
      split at hstep <;> cases hstep
      next asked size total hreader =>
        have hold := hsum _ _ _ hreader
        intro asked' size' total' heq
        simp only [cacheReadIteration] at heq
        split_ifs at heq
        · exact hsum _ _ _ heq
        · exact hsum _ _ _ heq
        · cases heq
          omega
  | abort =>
      simp only [halves, halfStep] at hstep
      split at hstep
      · cases hstep
      · split_ifs at hstep
        cases hstep
        exact fun _ _ _ heq => by cases heq
  | stall =>
      simp only [halves, halfStep] at hstep
      split at hstep
      · cases hstep
      · split_ifs at hstep
        cases hstep
        exact fun _ _ _ heq => by cases heq

/-- An iteration in which `cache_read` returns with bytes still to read has found the flag set
with the reader at the end of the window. -/
theorem cacheReadIteration_short {asked size total returned : ℤ} (hsize : 0 < size)
    (hreturn : (cacheReadIteration r s asked size total).reader = .idle returned)
    (hreader : s.reader = .reading asked size total) :
    s.cache.vars.eof = true ∧ s.cache.vars.maxFilepos ≤ s.cache.vars.readFilepos := by
  simp only [cacheReadIteration, if_pos hsize] at hreturn
  split_ifs at hreturn with hwait hbreak hodd
  · exact hbreak
  · rw [hreader] at hreturn
    cases hreturn
  · rw [hreader] at hreturn
    cases hreturn

/-- A seek clears the flag of the stream. -/
@[simp]
theorem fillerSeek_eof (stream : Stream) (read : ℤ) :
    (fillerSeek stream read true).eof = false := by
  unfold fillerSeek streamSeekInternal seekCallback
  by_cases heof : stream.eof = true
  · simp only [if_pos heof, if_true]
    split_ifs <;> exact streamReset_eof stream
  · simp only [if_neg heof, if_true]
    split_ifs <;> simpa using heof

/-- In an emptied ring the filler always plans a read, and keeps the window as it is. -/
theorem planFill_emptied {c : CacheState} {read : ℤ} (h : EmptiedAt c.vars read) :
    ∃ plan, planFill r c read = (c, some plan) := by
  obtain ⟨hmin, hmax, hoffset, -⟩ := h
  have hg := c.vars.geo.bounds
  unfold planFill
  rcases hplan : fillPlan c.vars.geo c.stream.readChunk (cachePosGet c.vars) read with
    _ | ⟨plan, newMin⟩
  · have := @fillPlan_none _ (cachePosGet c.vars) read _
      (by simp only [cachePosGet, intMax]; omega) (by simp only [cachePosGet]; omega) hplan
    simp only [cachePosGet] at this
    omega
  · obtain ⟨-, hraise, -⟩ := fillPlan_ok (p := cachePosGet c.vars) hmin.le hmax.ge
      (by simp only [cachePosGet]; omega) (by simp only [cachePosGet]; omega)
      (by simp only [cachePosGet]; omega) hplan
    cases newMin with
    | none => exact ⟨plan, rfl⟩
    | some m =>
        have := hraise m rfl
        simp only [cachePosGet] at this
        omega

/-- A first half with the flag set and the reader outside the window: the flag is cleared, the
stream reset and seeked to the reader, where the ring starts anew. -/
theorem cacheFillBegin_recover (h : Inv src s.toSys) (heof : s.cache.vars.eof = true)
    (hout : s.cache.vars.readFilepos < s.cache.vars.minFilepos ∨
      s.cache.vars.maxFilepos < s.cache.vars.readFilepos) (hpending : s.pending = none) :
    ∃ plan, cacheFillBegin r s.cache true =
      ({ s.cache with
          vars := cacheFlush { s.cache.vars with eof := false }
          stream := fillerSeek (streamReset s.cache.stream) s.cache.vars.readFilepos true },
        some plan) := by
  have hf := h.filler
  simp only [FillerInv, Halves.toSys, hpending, fillerPc] at hf
  have hcheck : checkEof s.cache =
      some { s.cache with
        vars := { s.cache.vars with eof := false }
        stream := streamReset s.cache.stream } := by
    unfold checkEof
    rw [if_pos heof]
    exact if_neg (by simp only [cachePosGet]; omega)
  have hboundaries : outOfBoundaries { s.cache.vars with eof := false }
      (streamReset s.cache.stream).type
      (cachePosGet { s.cache.vars with eof := false }) = true :=
    decide_eq_true ⟨hout, Or.inl (by rw [streamReset_type]; exact hf.type_ne)⟩
  unfold cacheFillBegin
  simp only [hcheck, seekToReader, if_pos hboundaries]
  exact planFill_emptied ⟨rfl, rfl, rfl, h.window.read_nonneg⟩

end Eof

/-- An iteration in which `cache_read` returns fewer bytes than asked for finds the reader at or
beyond the end of the source. -/
def ShortReadAtEnd (src : Source) (r : Rounding) (s : Halves) : Prop :=
  ∀ asked size total returned t, s.reader = .reading asked size total →
    halfStep src r s .iterate = some t → t.reader = .idle returned → returned < asked →
      src.size ≤ s.cache.vars.readFilepos

/-- The next `cache_fill` clears `eof`, resets the stream and seeks it to the reader, where the
window starts anew; the read it has planned there gives bytes, if the source has any left. -/
def TakesEofBack (src : Source) (r : Rounding) (s : Halves) : Prop :=
  ∃ t plan, halfStep src r s (.fillBegin true) = some t ∧
    t.cache.vars.eof = false ∧ t.cache.stream.eof = false ∧
    t.cache.stream.dev = s.cache.vars.readFilepos ∧
    t.cache.vars.minFilepos = s.cache.vars.readFilepos ∧
    t.cache.vars.maxFilepos = s.cache.vars.readFilepos ∧
    t.cache.vars.readFilepos = s.cache.vars.readFilepos ∧ t.pending = some plan ∧
    ∀ o, o.ErrorFree → s.cache.vars.readFilepos < src.size →
      s.cache.vars.readFilepos < (cacheFillEnd src r t.cache plan o).vars.maxFilepos

/-- The reader is outside of the window. -/
def ReaderOutside (c : CacheVars) : Prop :=
  c.readFilepos < c.minFilepos ∨ c.maxFilepos < c.readFilepos

section EofTrue

variable {src : Source} {r : Rounding} {s : Halves}

/-- A short read is at the end of the source in every state of a run. -/
theorem shortReadAtEnd_of_reachable (hs : HonestRun src r s) : ShortReadAtEnd src r s := by
  intro asked size total returned t hreader hstep hreturn hshort
  have hsum := askedSum_of_reachable hs _ _ _ hreader
  simp only [halfStep, hreader, Option.some.injEq] at hstep
  subst hstep
  have htotal : returned = total := by
    simp only [cacheReadIteration] at hreturn
    split_ifs at hreturn <;> first
      | exact (Reader.idle.inj hreturn).symm
      | (rw [hreader] at hreturn; cases hreturn)
  obtain ⟨heof, hmax⟩ := cacheReadIteration_short (by omega) hreturn hreader
  exact (eofTrue_of_reachable hs heof).1.trans hmax

/-- A flag that is set for a reader outside of the window is taken back. -/
theorem takesEofBack_of_reachable (hs : HonestRun src r s) (heof : s.cache.vars.eof = true)
    (hout : ReaderOutside s.cache.vars) : TakesEofBack src r s := by
  have h := Halves.inv hs
  have hpending := (eofTrue_of_reachable hs heof).2
  obtain ⟨plan, hbegin⟩ := cacheFillBegin_recover (r := r) h heof hout hpending
  have hf := h.filler
  simp only [FillerInv, Halves.toSys, hpending, fillerPc] at hf
  -- The next fill starts outside the window: it flushes, clears the flag and seeks.
  have hstep : halfStep src r s (.fillBegin true) = some { s with
      cache := (cacheFillBegin r s.cache true).1
      pending := some plan } := by
    simp only [halfStep, hpending, hbegin]
  have hnext : HonestRun src r { s with
      cache := (cacheFillBegin r s.cache true).1
      pending := some plan } := hs.step (a := .fillBegin true) rfl hstep
  refine ⟨_, plan, hstep, ?_, ?_, ?_, ?_, ?_, ?_, rfl, ?_⟩
  · simp only [hbegin, cacheFlush, cachePosReset]
  · simp only [hbegin, fillerSeek_eof]
  · simp only [hbegin]
    exact (hf.toSound.reset.reset_seek h.window.read_nonneg).dev_eq
  · simp only [hbegin, cacheFlush, cachePosReset, cachePosGet]
  · simp only [hbegin, cacheFlush, cachePosReset, cachePosGet]
  · simp only [hbegin, cacheFlush, cachePosReset, cachePosGet]
  -- and its read gives bytes, for the file goes on there
  · intro o ho hlt
    obtain ⟨n, hmax, hend, -⟩ := cacheFillEnd_max (r := r) (Halves.inv hnext) rfl ho
    have hmax₀ : (cacheFillBegin r s.cache true).1.vars.maxFilepos =
        s.cache.vars.readFilepos := by
      simp only [hbegin, cacheFlush, cachePosReset, cachePosGet]
    simp only [hmax₀] at hmax hend
    rw [hmax]
    have hn : n ≠ 0 := fun h0 => absurd (hend h0) (by omega)
    omega

end EofTrue

/-- In every state of a run over an error-free source a short read means its end, and an `eof`
which the reader has left behind is taken back by the next fill. -/
theorem eof_is_true (src : Source) (r : Rounding) {s : Halves} (hs : HonestRun src r s) :
    ShortReadAtEnd src r s ∧
      (s.cache.vars.eof = true → ReaderOutside s.cache.vars → TakesEofBack src r s) :=
  ⟨shortReadAtEnd_of_reachable hs, takesEofBack_of_reachable hs⟩

/-- The read that finds the end of the short source is issued before a seek and returns after it,
so that `eof` is set with the reader elsewhere. -/
def latchedEofRun : List HalfAct :=
  [.fillBegin true, fillAll, .fillBegin true, .seek 4096, fillAll]

/-- The state at its end. -/
def latchedEof : Halves :=
  ((halves shortSource exactRounding Stream.Fresh).exec freshHalves latchedEofRun).get
    (by decide +kernel)

/-- The sample run with the latched flag is honest. -/
theorem latchedEof_honest : HonestRun shortSource exactRounding latchedEof := by
  refine honestRun_exec ?_ (Option.some_get _).symm
  simp only [latchedEofRun, List.forall_mem_cons, List.not_mem_nil, false_imp_iff, implies_true,
    and_true]
  exact ⟨rfl, fillAll_errorFree, rfl, trivial, fillAll_errorFree⟩

theorem eof_is_true_latchedEof :
    ShortReadAtEnd shortSource exactRounding latchedEof ∧
      TakesEofBack shortSource exactRounding latchedEof := by
  have h := eof_is_true shortSource exactRounding latchedEof_honest
  exact ⟨h.1, h.2 (by decide +kernel) (Or.inr (by decide +kernel))⟩

end WiiMC.Cache
