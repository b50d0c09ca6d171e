import WiiMC.Cache.Refinement
import WiiMC.Stream.File

/-!
# The world of the buffered stream

A call of `cache_read` while the filler goes on by itself, in halves of `cache_fill` and
iterations of `cache_read` in any order, and whoever waits may be told to give up or be left
without data; and the callbacks of a device that fails neither reads nor seeks.

* `answered_of_world`: what such a call answers are the next bytes of the source, a full sector
  unless the source ends or the wait is given up.
-/

namespace WiiMC.Stream

open Cache

/-- The cache, and whether a wait for it has been given up. -/
structure World where
  cache : Halves
  interrupted : Bool

/-- Whether the reader gives up in this step. -/
def givesUp : HalfAct → Bool
  | .abort => true
  | .stall => true
  | _ => false

/-- Steps that go on by themselves, during a call or between calls. -/
inductive GoesOn (src : Source) (r : Rounding) : World → World → Prop
  | refl (w : World) : GoesOn src r w w
  | step {w : World} {a : HalfAct} {h : Halves} {w' : World} (ha : a.ErrorFree)
      (hcall : ∀ pos, a ≠ .seek pos) (hread : ∀ size, a ≠ .read size)
      (hstep : halfStep src r w.cache a = some h)
      (hgo : GoesOn src r ⟨h, w.interrupted || givesUp a⟩ w') : GoesOn src r w w'

/-- The reader calls the cache, and after a while has returned from it. -/
def Served (src : Source) (r : Rounding) (a : HalfAct) (w w' : World) : Prop :=
  ∃ w₀ h, GoesOn src r w w₀ ∧ halfStep src r w₀.cache a = some h ∧
    GoesOn src r ⟨h, w₀.interrupted⟩ w' ∧ ∃ n, w'.cache.reader = .idle n

/-- What the stream calls upon. The bytes that `cache_read` stores are those by which the reader's
output grows; a seek empties the output first. -/
def world (src : Source) (r : Rounding) : (c : Call) → World → c.Answer → World → Prop
  | .cacheRead size, w, data, w' =>
      Served src r (.read size) w w' ∧ data = w'.cache.out.drop w.cache.out.length
  | .cacheSeek pos, w, data, w' => Served src r (.seek pos) w w' ∧ data = w'.cache.out
  | .device, w, o, w' => o.ErrorFree ∧ w' = w

/-! ## A call under way -/

/-- What the reader has of a call for `size` bytes at `pos`: `n` bytes, and if it has returned, all
that it has asked for, or all up to the end of the source, unless it has given up. -/
def Stands (src : Source) (pos size : ℤ) (n : ℕ) (interrupted : Bool) : Reader → Prop
  | .reading asked left total => asked = size ∧ total = n ∧ left + n = size ∧ 0 ≤ left
  | .idle m =>
      m = n ∧ n ≤ size ∧ (interrupted = false → n < size → src.size ≤ pos + n)

/-- A call for `size` bytes with the reader at the end of `out`. -/
structure Midway (src : Source) (r : Rounding) (g : Geometry) (origin : ℤ) (out : List UInt8)
    (size : ℤ) (w : World) : Prop where
  honest : HonestRun src r w.cache
  geo_eq : w.cache.cache.vars.geo = g
  origin_eq : w.cache.origin = origin
  has : ∃ n : ℕ, w.cache.out = out ++ Ring.slice src.byte (origin + out.length) n ∧
    (n = 0 ∨ origin + out.length + n ≤ src.size) ∧
    Stands src (origin + out.length) size n w.interrupted w.cache.reader

section Midway

variable {src : Source} {r : Rounding} {g : Geometry} {origin : ℤ} {out : List UInt8} {size : ℤ}
  {w w' : World} {h : Halves}

theorem cacheFillBegin_geo (c : CacheState) (seeks : Bool) :
    (cacheFillBegin r c seeks).1.vars.geo = c.vars.geo := by
  have hplan : ∀ (c : CacheState) (read : ℤ), (planFill r c read).1.vars.geo = c.vars.geo := by
    intro c read
    unfold planFill
    rcases fillPlan c.vars.geo c.stream.readChunk (cachePosGet c.vars) read with
      _ | ⟨plan, _ | newMin⟩ <;> rfl
  have hseek : ∀ c : CacheState, (seekToReader c seeks).vars.geo = c.vars.geo := by
    intro c
    unfold seekToReader
    dsimp only
    split_ifs <;> rfl
  unfold cacheFillBegin
  rcases hcheck : checkEof c with _ | c'
  · rfl
  · dsimp only
    rw [hplan, hseek]
    unfold checkEof at hcheck
    dsimp only at hcheck
    split_ifs at hcheck <;> cases hcheck <;> rfl

theorem cacheFillEnd_geo (c : CacheState) (plan : FillPlan) (o : Oracle) :
    (cacheFillEnd src r c plan o).vars.geo = c.vars.geo := by
  have haccount : ∀ (v : CacheVars) (stream : Cache.Stream) (status : ℚ) (len : ℕ),
      (fillAccount r v stream status len).1.geo = v.geo := by
    intro v stream status len
    simp only [fillAccount]
    split_ifs <;> rfl
  have hcopy : ∀ (v : CacheVars) (data : List UInt8),
      (fillCopyHead (fillCopyTail v plan data) plan data).geo = v.geo := by
    intro v data
    simp only [fillCopyHead, fillCopyTail]
    split_ifs <;> rfl
  unfold cacheFillEnd
  exact (haccount _ _ _ _).trans (hcopy _ _)

/-- An iteration of `cache_read` with the reader at the end of what it has so far. -/
theorem Midway.iterate {asked left total : ℤ} (hm : Midway src r g origin out size w)
    (hreader : w.cache.reader = .reading asked left total)
    (hh : HonestRun src r (cacheReadIteration r w.cache asked left total)) :
    Midway src r g origin out size ⟨cacheReadIteration r w.cache asked left total,
      w.interrupted⟩ := by
  obtain ⟨n, hout, hsize, hstands⟩ := hm.has
  rw [hreader] at hstands
  obtain ⟨rfl, rfl, hsum, hleft⟩ := hstands
  have hinv := Halves.inv hm.honest
  have hpos : w.cache.cache.vars.readFilepos = origin + out.length + n := by
    rw [Halves.read_eq hinv, hm.origin_eq, hout, List.length_append, Ring.length_slice]
    push_cast
    ring
  have hshort := shortReadAtEnd_of_reachable hm.honest asked left n
  have hstep : halfStep src r w.cache .iterate =
      some (cacheReadIteration r w.cache asked left n) := by
    simp only [halfStep, hreader]
  -- what is returned is too little only at the end of the source
  have hreturn : ∀ m, (cacheReadIteration r w.cache asked left n).reader = .idle m →
      m < asked → src.size ≤ origin + out.length + n := by
    intro m hm' hlt
    exact hpos ▸ hshort m _ hreader hstep hm' hlt
  refine ⟨hh, ?_, ?_, ?_⟩
  · rw [← hm.geo_eq]
    simp only [cacheReadIteration]
    split_ifs <;> rfl
  · rw [← hm.origin_eq]
    simp only [cacheReadIteration]
    split_ifs <;> rfl
  simp only [cacheReadIteration] at hreturn ⊢
  split_ifs at hreturn ⊢ with hpositive hwait hbreak hodd
  · -- the end of the stream
    refine ⟨n, hout, hsize, rfl, by omega, fun _ hlt => ?_⟩
    exact hreturn n rfl (by omega)
  · exact ⟨n, hout, hsize, by rw [hreader]; exact ⟨rfl, rfl, hsum, hleft⟩⟩
  · exact ⟨n, hout, hsize, by rw [hreader]; exact ⟨rfl, rfl, hsum, hleft⟩⟩
  · -- the next bytes are copied
    obtain ⟨hlo, hhi⟩ := inside_of_not_mustWait hwait
    have hcopy := hinv.window.readPlan hpositive hlo hhi
    obtain ⟨-, -, hle, -, -⟩ := readPlan_ok (p := cachePosGet w.cache.cache.vars) hpositive hlo hhi
      hinv.window.fits hinv.window.offset_le hinv.window.offset_lt
    have hbytes := hcopy.bytes
    have hend := hcopy.le_size
    have hnew := hcopy.newb_pos
    simp only [Halves.toSys] at hbytes hend hnew hle
    generalize hplan : readPlan w.cache.cache.vars.geo (cachePosGet w.cache.cache.vars) left =
      plan at *
    rw [hpos] at hbytes hend
    refine ⟨n + plan.newb.toNat, ?_, ?_, rfl, ?_, ?_, ?_⟩
    · rw [hbytes, hout, List.append_assoc, Ring.slice_add]
    · push_cast
      omega
    · push_cast
      omega
    · push_cast
      omega
    · omega
  · refine ⟨n, hout, hsize, rfl, by omega, fun _ hlt => ?_⟩
    omega

/-- A step that goes on by itself. -/
theorem Midway.step {a : HalfAct} (hm : Midway src r g origin out size w) (ha : a.ErrorFree)
    (hcall : ∀ pos, a ≠ .seek pos) (hread : ∀ size, a ≠ .read size)
    (hstep : halfStep src r w.cache a = some h) :
    Midway src r g origin out size ⟨h, w.interrupted || givesUp a⟩ := by
  have hh : HonestRun src r h := hm.honest.step ha hstep
  obtain ⟨n, hout, hsize, hstands⟩ := hm.has
  -- The filler moves no byte to the reader; a turn of the reader does, and giving up is noted.
  cases a with
  | fillBegin seeks =>
    simp only [halfStep] at hstep
    split at hstep <;> cases hstep
    refine ⟨hh, (cacheFillBegin_geo _ _).trans hm.geo_eq, hm.origin_eq, n, hout, hsize, ?_⟩
    exact (Bool.or_false w.interrupted).symm ▸ hstands
  | fillEnd o =>
    simp only [halfStep] at hstep
    split at hstep <;> cases hstep
    refine ⟨hh, (cacheFillEnd_geo _ _ _).trans hm.geo_eq, hm.origin_eq, n, hout, hsize, ?_⟩
    exact (Bool.or_false w.interrupted).symm ▸ hstands
  | seek pos => exact absurd rfl (hcall pos)
  | read size => exact absurd rfl (hread size)
  | iterate =>
    simp only [halfStep] at hstep
    split at hstep <;> cases hstep
    next asked left total hreader =>
      rw [show (w.interrupted || givesUp .iterate) = w.interrupted from Bool.or_false _]
      exact hm.iterate hreader hh
  -- the call ends short, and the schedule says that it was interrupted
  | abort =>
    simp only [halfStep] at hstep
    split at hstep
    · cases hstep
    · next asked left total hreader =>
      split_ifs at hstep
      cases hstep
      rw [hreader] at hstands
      obtain ⟨rfl, rfl, hsum, hleft⟩ := hstands
      refine ⟨hh, hm.geo_eq, hm.origin_eq, n, hout, hsize, rfl, by omega, fun hno => ?_⟩
      rw [show givesUp .abort = true from rfl, Bool.or_true] at hno
      cases hno
  | stall =>
    simp only [halfStep] at hstep
    split at hstep
    · cases hstep
    · next asked left total hreader =>
      split_ifs at hstep
      cases hstep
      rw [hreader] at hstands
      obtain ⟨rfl, rfl, hsum, hleft⟩ := hstands
      refine ⟨hh, hm.geo_eq, hm.origin_eq, n, hout, hsize, rfl, by omega, fun hno => ?_⟩
      rw [show givesUp .stall = true from rfl, Bool.or_true] at hno
      cases hno

theorem Midway.goesOn (hm : Midway src r g origin out size w) (hgo : GoesOn src r w w') :
    Midway src r g origin out size w' := by
  induction hgo with
  | refl w => exact hm
  | step ha hcall hread hstep _ ih => exact ih (hm.step ha hcall hread hstep)

/-- Steps that are executed go on by themselves. -/
theorem GoesOn.of_exec {as : List HalfAct} (hfree : ∀ a ∈ as, a.ErrorFree)
    (hquiet : ∀ a ∈ as, givesUp a = false ∧ (∀ pos, a ≠ .seek pos) ∧ ∀ size, a ≠ .read size)
    {h h' : Halves} (hexec : (halves src r Cache.Stream.Fresh).exec h as = some h') (b : Bool) :
    GoesOn src r ⟨h, b⟩ ⟨h', b⟩ := by
  induction as generalizing h with
  | nil =>
    cases hexec
    exact .refl _
  | cons a as ih =>
    rw [Transition.System.exec] at hexec
    obtain ⟨u, hu, hexec⟩ := Option.bind_eq_some_iff.mp hexec
    rw [List.forall_mem_cons] at hfree hquiet
    obtain ⟨⟨hup, hseek, hread⟩, hquiet⟩ := hquiet
    refine .step hfree.1 hseek hread hu ?_
    rw [hup, Bool.or_false]
    exact ih hfree.2 hquiet hexec

theorem GoesOn.trans {w'' : World} (hgo : GoesOn src r w w') (hgo' : GoesOn src r w' w'') :
    GoesOn src r w w'' := by
  induction hgo with
  | refl w => exact hgo'
  | step ha hcall hread hstep _ ih => exact .step ha hcall hread hstep (ih hgo')

theorem GoesOn.interrupted (hgo : GoesOn src r w w') (hw : w.interrupted = true) :
    w'.interrupted = true := by
  induction hgo with
  | refl w => exact hw
  | step _ _ _ _ _ ih => exact ih (by rw [hw, Bool.true_or])

end Midway

/-! ## What a call answers -/

/-- Between two calls, with the reader at `pos`. -/
structure AtRest (src : Source) (r : Rounding) (g : Geometry) (w : World) (pos : ℤ) : Prop where
  honest : HonestRun src r w.cache
  geo_eq : w.cache.cache.vars.geo = g
  idle : ∃ n, w.cache.reader = .idle n
  read_eq : w.cache.cache.vars.readFilepos = pos

/-- `data` are the next bytes from `pos` on, `size` of them unless the source ends before or the
wait has been given up. -/
structure Answered (src : Source) (r : Rounding) (g : Geometry) (w w' : World) (pos size : ℤ)
    (data : List UInt8) : Prop where
  rest : AtRest src r g w' (pos + data.length)
  bytes : data = Ring.slice src.byte pos data.length
  le_source : data = [] ∨ pos + data.length ≤ src.size
  le : data.length ≤ size
  full : w'.interrupted = false → data.length < size → src.size ≤ pos + data.length
  keeps : w.interrupted = true → w'.interrupted = true

section Answered

variable {src : Source} {r : Rounding} {g : Geometry} {w w' : World} {pos size : ℤ}
  {data : List UInt8}

/-- Nothing reads while the reader is outside of the cache. -/
theorem AtRest.goesOn (hw : AtRest src r g w pos) (hgo : GoesOn src r w w') :
    AtRest src r g w' pos ∧ w'.cache.origin = w.cache.origin ∧ w'.cache.out = w.cache.out := by
  induction hgo with
  | refl w => exact ⟨hw, rfl, rfl⟩
  | @step w a h w' ha hcall hread hstep _ ih =>
    obtain ⟨n, hidle⟩ := hw.idle
    have hh : HonestRun src r h := hw.honest.step ha hstep
    -- only the filler can make a step
    have hfill : h.cache.vars.geo = g ∧ h.reader = .idle n ∧ h.origin = w.cache.origin ∧
        h.out = w.cache.out := by
      cases a with
      | fillBegin seeks =>
        simp only [halfStep] at hstep
        split at hstep <;> cases hstep
        exact ⟨(cacheFillBegin_geo _ _).trans hw.geo_eq, hidle, rfl, rfl⟩
      | fillEnd o =>
        simp only [halfStep] at hstep
        split at hstep <;> cases hstep
        exact ⟨(cacheFillEnd_geo _ _ _).trans hw.geo_eq, hidle, rfl, rfl⟩
      | seek pos => exact absurd rfl (hcall pos)
      | read size => exact absurd rfl (hread size)
      | iterate => simp only [halfStep, hidle, reduceCtorEq] at hstep
      | abort => simp only [halfStep, hidle, reduceCtorEq] at hstep
      | stall => simp only [halfStep, hidle, reduceCtorEq] at hstep
    obtain ⟨hgeo, hreader, horigin, hout⟩ := hfill
    have hpos : h.cache.vars.readFilepos = pos := by
      rw [Halves.read_eq (Halves.inv hh), horigin, hout,
        ← Halves.read_eq (Halves.inv hw.honest), hw.read_eq]
    obtain ⟨hrest, horigin', hout'⟩ := ih ⟨hh, hgeo, ⟨n, hreader⟩, hpos⟩
    exact ⟨hrest, horigin'.trans horigin, hout'.trans hout⟩

/-- Where the reader has returned, it has been answered. -/
theorem Midway.answered {origin : ℤ} {out : List UInt8} (hm : Midway src r g origin out size w')
    (hpos : origin + out.length = pos) (hidle : ∃ n, w'.cache.reader = .idle n)
    (hkeeps : w.interrupted = true → w'.interrupted = true) :
    Answered src r g w w' pos size (w'.cache.out.drop out.length) := by
  subst hpos
  obtain ⟨n, hout, hsize, hstands⟩ := hm.has
  obtain ⟨m, hreader⟩ := hidle
  rw [hreader] at hstands
  obtain ⟨-, hle, hfull⟩ := hstands
  have hdata : w'.cache.out.drop out.length =
      Ring.slice src.byte (origin + out.length) n := by
    rw [hout, List.drop_left]
  have hlen : (w'.cache.out.drop out.length).length = n := by rw [hdata, Ring.length_slice]
  refine ⟨⟨hm.honest, hm.geo_eq, ⟨m, hreader⟩, ?_⟩, by rw [hlen, hdata], ?_, by rw [hlen]; exact hle,
    by rw [hlen]; exact hfull, hkeeps⟩
  · rw [hlen, Halves.read_eq (Halves.inv hm.honest), hm.origin_eq, hout, List.length_append,
      Ring.length_slice]
    push_cast
    ring
  · rw [hlen]
    refine hsize.imp_left fun hn => ?_
    rw [hdata, hn, Ring.slice_zero]

/-- `cache_read`. -/
theorem AtRest.cacheRead (hw : AtRest src r g w pos) (hsize : 0 ≤ size)
    (h : world src r (.cacheRead size) w data w') : Answered src r g w w' pos size data := by
  obtain ⟨⟨w₀, h₁, hbefore, hstep, hafter, hidle⟩, rfl⟩ := h
  obtain ⟨hrest, -, hout⟩ := hw.goesOn hbefore
  obtain ⟨n, hreader⟩ := hrest.idle
  have hinv := Halves.inv hrest.honest
  have hh : HonestRun src r h₁ := hrest.honest.step (a := .read size) trivial hstep
  simp only [halfStep, hreader, Option.some.injEq] at hstep
  subst hstep
  have hm : Midway src r g w₀.cache.origin w₀.cache.out size
      ⟨{ w₀.cache with reader := .reading size size 0 }, w₀.interrupted⟩ :=
    ⟨hh, hrest.geo_eq, rfl, 0, by simp, Or.inl rfl, rfl, rfl, add_zero _, hsize⟩
  rw [← hout]
  refine (hm.goesOn hafter).answered ?_ hidle fun hno => ?_
  · rw [← Halves.read_eq hinv, hrest.read_eq]
  · exact hafter.interrupted (hbefore.interrupted hno)

/-- `cache_stream_seek_long`, and its reading of a sector. -/
theorem AtRest.cacheSeek {newpos : ℤ} (hw : AtRest src r g w pos) (hnewpos : 0 ≤ newpos)
    (h : world src r (.cacheSeek newpos) w data w') :
    Answered src r g w w' (alignedPos g newpos) (readerSectorSize g) data := by
  obtain ⟨⟨w₀, h₁, hbefore, hstep, hafter, hidle⟩, rfl⟩ := h
  obtain ⟨hrest, -, -⟩ := hw.goesOn hbefore
  obtain ⟨n, hreader⟩ := hrest.idle
  have hh : HonestRun src r h₁ := hrest.honest.step (a := .seek newpos) trivial hstep
  simp only [halfStep, hreader, Option.some.injEq] at hstep
  subst hstep
  have hgeo := hrest.geo_eq
  have hm : Midway src r g (alignedPos g newpos) [] (readerSectorSize g)
      ⟨Cache.cacheStreamSeekLong w₀.cache newpos, w₀.interrupted⟩ := by
    refine ⟨hh, hgeo, ?_, 0, rfl, Or.inl rfl, ?_⟩
    · simp only [Cache.cacheStreamSeekLong, hgeo, max_eq_left hnewpos]
    · have hg := g.bounds
      simp only [Cache.cacheStreamSeekLong, hgeo]
      exact ⟨rfl, rfl, add_zero _, by simp only [readerSectorSize, streamMaxSectorSize]; omega⟩
  have hpos : alignedPos g newpos + ([] : List UInt8).length = alignedPos g newpos := by simp
  have hanswered : Answered src r g w w' _ _ _ := (hm.goesOn hafter).answered hpos hidle
    fun hno => hafter.interrupted (hbefore.interrupted hno)
  rwa [List.length_nil, List.drop_zero] at hanswered

end Answered

end WiiMC.Stream
