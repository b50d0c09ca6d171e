import WiiMC.Cache.Invariant

/-!
# The cache under concurrency

What the two threads of `stream/cache2.c` do to each other when they interleave freely.

* `threads_correct`: in a race-free run no position of the reader is lost, the filler reads the
  source at `max_filepos`, and the reader is delivered the source bytes from its last seek on.
* `seek_lost`: in a run with a race, `cache_flush` overwrites the position a seek has published.
-/

namespace WiiMC.Cache

/-- No device error occurs in the step. -/
def Act.ErrorFree : Act → Prop
  | .filler o => o.ErrorFree
  | _ => True

/-- A step changes `read_filepos` only if it is a seek of the reader, or its own advance. -/
def ReaderOwnsPosition (s : Sys) (a : Act) (t : Sys) : Prop :=
  t.vars.readFilepos = s.vars.readFilepos ∨ (∃ pos, a = .seek pos) ∨
    ∃ len size total, a = .go ∧ s.reader = .advance len size total ∧
      t.vars.readFilepos = s.vars.readFilepos + len

/-- The device under the stream stands where the filler is going to put the next bytes. -/
def ReadsAtMax (s : Sys) : Prop :=
  ∀ plan, s.filler = .read plan → s.stream.dev = s.vars.maxFilepos

/-- The bytes delivered since the last seek, to `origin`, are the source bytes from there on. -/
def DeliversSource (src : Source) (s : Sys) : Prop :=
  s.out = Ring.slice src.byte s.origin s.out.length ∧
    (s.out ≠ [] → s.origin + s.out.length ≤ src.size) ∧
    s.vars.readFilepos + s.reader.pending = s.origin + s.out.length

section

variable {src : Source} {r : Rounding} {s t : Sys}

/-- The filler keeps the reader's position, except for the reset of a flush. -/
theorem fillerStep_readFilepos {o : Oracle} (h : ∀ read pos, s.filler ≠ .flushReset read pos) :
    (fillerStep src r s o).vars.readFilepos = s.vars.readFilepos := by
  unfold fillerStep
  cases hpc : s.filler with
  | flushReset read pos => exact absurd hpc (h read pos)
  | eofSnapshot =>
      simp only
      split_ifs <;> rfl
  | snapshot =>
      simp only
      split_ifs <;> rfl
  | read plan =>
      simp only [fillCopyTail]
      split_ifs <;> rfl
  | copyTail plan data =>
      simp only [fillCopyTail]
      split_ifs <;> rfl
  | copyHead plan data =>
      simp only [fillCopyHead]
      split_ifs <;> rfl
  | account plan len =>
      simp only [fillAccount]
      split_ifs <;> rfl
  | _ => rfl

/-- A flush without a race resets the ring to the position at which the reader is. -/
theorem Inv.fillerStep_readFilepos (h : Inv src s) (o : Oracle) :
    (fillerStep src r s o).vars.readFilepos = s.vars.readFilepos := by
  cases hpc : s.filler with
  | flushReset read pos =>
      have hf := h.filler
      simp only [FillerInv, hpc] at hf
      obtain ⟨-, ⟨hread, -⟩, hpos⟩ := hf
      simp only [fillerStep, hpc, cachePosReset]
      rw [hpos, hread]
  | _ => exact WiiMC.Cache.fillerStep_readFilepos (by simp [hpc])

/-- A step of the reader moves its position only when it advances. -/
theorem readerStep_readFilepos (h : readerStep r s = some t) : ReaderOwnsPosition s .go t := by
  unfold readerStep at h
  cases hpc : s.reader with
  | advance len size total =>
      simp only [hpc, Option.some.injEq] at h
      subst h
      exact Or.inr (Or.inr ⟨len, size, total, rfl, hpc, rfl⟩)
  | idle returned => simp [hpc] at h
  | loop size total =>
      left
      simp only [hpc] at h
      split_ifs at h <;> cases h <;> rfl
  | look p size total =>
      left
      simp only [hpc] at h
      split_ifs at h <;> cases h <;> rfl
  | _ =>
      left
      simp only [hpc, Option.some.injEq] at h
      subst h
      rfl

theorem Inv.readerOwnsPosition (h : Inv src s) {a : Act} (hstep : step src r s a = some t) :
    ReaderOwnsPosition s a t := by
  -- The filler's stores are the ones in question; the reader's own calls are its own.
  cases a with
  | filler o =>
      cases hstep
      exact Or.inl (h.fillerStep_readFilepos o)
  | seek pos => exact Or.inr (Or.inl ⟨pos, rfl⟩)
  | go => exact readerStep_readFilepos hstep
  | read size =>
      left
      simp only [step] at hstep
      split at hstep <;> cases hstep
      rfl
  | abort =>
      left
      simp only [step] at hstep
      split at hstep
      · split_ifs at hstep
        cases hstep
        rfl
      · cases hstep
  | stall =>
      left
      simp only [step] at hstep
      split at hstep
      · split_ifs at hstep
        cases hstep
        rfl
      · cases hstep

theorem Inv.readsAtMax (h : Inv src s) : ReadsAtMax s := by
  intro plan hpc
  have hf := h.filler
  simp only [FillerInv, hpc] at hf
  exact hf.1.dev_eq

end

/-- In every state of a race-free run over an error-free source: no step but the reader's own
changes its position, the filler reads the source at `max_filepos`, and what the reader is
delivered after a seek are the source bytes from there on. -/
theorem threads_correct (src : Source) (r : Rounding) {s : Sys}
    (hs : (threads src r).Reachable NoRace s) :
    (∀ a t, step src r s a = some t → ReaderOwnsPosition s a t) ∧ ReadsAtMax s ∧
      DeliversSource src s := by
  have h := inv_of_reachable hs
  exact ⟨fun a t => h.readerOwnsPosition, h.readsAtMax,
    h.delivered.bytes, h.delivered.le_size, h.delivered.read_eq⟩

/-! ## Runs on a small source -/

/-- A source of 2048 bytes, as `stream_file.c` answers at its end. -/
def shortSource : Source where
  size := 2048
  byte p := UInt8.ofNat (p.toNat % 251)
  atEnd := -1
  size_nonneg := by decide
  atEnd_nonpos := minus_one_nonpos

/-- Percentages without rounding. -/
def exactRounding : Rounding := ⟨id, id, monotone_id, monotone_id, rfl, rfl⟩

/-- A stream at the beginning of an honest file. -/
def fileStream : Stream where
  type := .file
  readChunk := 0
  seekable := true
  pos := 0
  eof := false
  error := 0
  tries := 0
  dev := 0

theorem fileStream_fresh : fileStream.Fresh :=
  ⟨by decide, rfl, rfl, le_rfl, rfl, rfl, le_rfl⟩

/-- The smallest ring for sectors of 2048 bytes. -/
def smallRing : CacheVars :=
  enableRing ((cacheInit (some fun _ => 0) 1000 2048).get (by decide)) 0 0

theorem smallRing_started : Started smallRing fileStream :=
  ⟨some fun _ => 0, 1000, 2048, 0, _, (Option.some_get _).symm, rfl⟩

/-- The cache before its first step. -/
def freshSys : Sys where
  vars := smallRing
  stream := fileStream
  fillStatus := 0
  filler := .enter
  reader := .idle 0
  origin := 0
  out := []

theorem freshSys_init (src : Source) (r : Rounding) : (threads src r).init freshSys :=
  ⟨smallRing_started, fileStream_fresh, rfl, rfl, rfl, rfl⟩

/-- A step of the filler, with as many bytes as it asks for. -/
def fill : Act := .filler ⟨.bytes 65536, true⟩

/-- A file that does not fit into the ring. -/
def longSource : Source where
  size := 100000
  byte p := UInt8.ofNat (p.toNat % 251)
  atEnd := -1
  size_nonneg := by decide
  atEnd_nonpos := minus_one_nonpos

/-- A step of the filler in which the device has sixteen bytes. -/
def fillFew : Act := .filler ⟨.bytes 16, true⟩

/-- A fill, a read, a seek behind the window, the flush and the fill for it, while the reader waits
and is given what there is; then it copies on in the middle of the fills that follow. -/
def seekAheadRun : List Act :=
  List.replicate 6 fillFew ++ .read 10 :: List.replicate 5 .go ++ .seek 40960 ::
    List.replicate 4 fillFew ++ List.replicate 3 .go ++ List.replicate 4 fillFew ++
      List.replicate 2 .go ++ List.replicate 2 fillFew ++ List.replicate 3 .go ++
        List.replicate 5 fillFew ++ List.replicate 3 .go ++ List.replicate 3 fillFew ++
          List.replicate 3 .go

/-- The state at its end. -/
def soughtAhead : Sys :=
  ((threads longSource exactRounding).exec freshSys seekAheadRun).get (by decide +kernel)

/-- The flush, the seek, the two fills and the copies of this run do not race. -/
theorem threads_correct_seekAhead :
    soughtAhead.origin = 40960 ∧ soughtAhead.out.length = 32 ∧
      (∀ a t, step longSource exactRounding soughtAhead a = some t →
        ReaderOwnsPosition soughtAhead a t) ∧
      ReadsAtMax soughtAhead ∧ DeliversSource longSource soughtAhead := by
  have hok : (threads longSource exactRounding).OkAlong NoRace freshSys seekAheadRun := by
    decide +kernel
  have hs : (threads longSource exactRounding).Reachable NoRace soughtAhead :=
    Transition.System.Reachable.exec (.init (freshSys_init _ _)) hok (Option.some_get _).symm
  exact ⟨by decide +kernel, by decide +kernel, threads_correct longSource exactRounding hs⟩

/-- The filler has read the whole file and is in the read that will find its end when the reader
seeks past it; the filler flushes for that position when the reader seeks back to the beginning,
and the flush has yet to reset the ring. -/
def seekBackRun : List Act :=
  List.replicate 8 fill ++ [.seek 4096, .go, .go] ++ List.replicate 4 fill ++ [.go, .go] ++
    List.replicate 5 fill ++ [.seek 0]

/-- In some run over an error-free source, a step of the filler replaces the position that the
reader has published by a seek, `0`, by that of an earlier one. -/
theorem seek_lost :
    ¬ ∀ (src : Source) (r : Rounding) (s t : Sys) (a : Act),
      (threads src r).Reachable (fun _ a => a.ErrorFree) s → a.ErrorFree →
        step src r s a = some t → ReaderOwnsPosition s a t := by
  intro h
  have hrun : ((threads shortSource exactRounding).exec freshSys seekBackRun).map (fun s =>
      (s.vars.readFilepos,
        (fillerStep shortSource exactRounding s ⟨.bytes 65536, true⟩).vars.readFilepos)) =
      some (0, 4096) := by
    decide +kernel
  obtain ⟨s, hexec, hpos⟩ := Option.map_eq_some_iff.mp hrun
  obtain ⟨hread, hread'⟩ := Prod.mk.inj hpos
  have hfill : Act.ErrorFree fill := ⟨rfl, 65536, rfl⟩
  have hok : (threads shortSource exactRounding).OkAlong (fun _ a => a.ErrorFree) freshSys
      seekBackRun := by
    apply Transition.System.OkAlong.of_forall
    intro a ha
    simp only [seekBackRun, List.mem_append, List.mem_replicate, List.mem_cons,
      List.not_mem_nil, or_false] at ha
    rcases ha with ((((⟨-, rfl⟩ | rfl | rfl | rfl) | ⟨-, rfl⟩) | rfl | rfl) | ⟨-, rfl⟩) | rfl <;>
      first | exact hfill | trivial
  have hs := Transition.System.Reachable.exec (.init (freshSys_init _ _)) hok hexec
  rcases h _ _ s _ fill hs hfill rfl with heq | ⟨pos, hseek⟩ | ⟨len, size, total, hgo, -⟩
  · rw [hread] at heq
    exact absurd (hread'.symm.trans heq) (by decide)
  · cases hseek
  · cases hgo

end WiiMC.Cache
