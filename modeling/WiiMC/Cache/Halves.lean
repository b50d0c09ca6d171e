import Mathlib.Logic.Relation
import WiiMC.Cache.Invariant

/-!
# The cache with `cache_fill` in two halves

A coarser view of `stream/cache2.c`: `cache_fill` is split at its call of `stream_read_internal`
into two atomic halves, and an iteration of `cache_read` and the position update of
`cache_stream_seek_long` are atomic too. The halves are written out from the source.

* `fillBegin_steps`, `fillEnd_steps`: a half is what the filler does step by step when the reader
  does not interfere.
* `Halves.reachable_threads`: so every state of the coarse system is one of a race-free run of the
  two threads, and their invariant holds in it.
-/

namespace WiiMC.Cache

/-- What `cache_fill` works on. -/
structure CacheState where
  vars : CacheVars
  /-- The filler's stream. -/
  stream : Stream
  /-- `cache_fill_status`. -/
  fillStatus : ℚ

/-- `cache_flush`. -/
def cacheFlush (c : CacheVars) : CacheVars := cachePosReset c (cachePosGet c).readFilepos

/-- The beginning of `cache_fill`: `none` if `eof` is believed, because the reader is still inside
the window it describes. -/
def checkEof (c : CacheState) : Option CacheState :=
  if c.vars.eof then
    let e := cachePosGet c.vars
    if e.readFilepos ≥ e.minFilepos ∧ e.readFilepos ≤ e.maxFilepos then none
    else
      some { c with vars := { c.vars with eof := false }, stream := streamReset c.stream }
  else some c

/-- The seek of `cache_fill`, for a reader out of the boundaries. -/
def seekToReader (c : CacheState) (seeks : Bool) : CacheState :=
  let p := cachePosGet c.vars
  if outOfBoundaries c.vars c.stream.type p then
    { c with vars := cacheFlush c.vars, stream := fillerSeek c.stream p.readFilepos seeks }
  else c

/-- The planning of `cache_fill` for the position `read` of its first snapshot. -/
def planFill (r : Rounding) (c : CacheState) (read : ℤ) : CacheState × Option FillPlan :=
  match fillPlan c.vars.geo c.stream.readChunk (cachePosGet c.vars) read with
  | none => ({ c with fillStatus := cacheUpdateFillStatus r c.vars }, none)
  | some (plan, some newMin) => ({ c with vars := cachePosSetMin c.vars newMin }, some plan)
  | some (plan, none) => (c, some plan)

/-- Everything in `cache_fill` before the call of `stream_read_internal`, which is made if there is
a plan. -/
def cacheFillBegin (r : Rounding) (c : CacheState) (seeks : Bool) : CacheState × Option FillPlan :=
  match checkEof c with
  | none => ({ c with fillStatus := -1 }, none)
  | some c => planFill r (seekToReader c seeks) c.vars.readFilepos

/-- Everything in `cache_fill` from the call of `stream_read_internal` on. -/
def cacheFillEnd (src : Source) (r : Rounding) (c : CacheState) (plan : FillPlan) (o : Oracle) :
    CacheState :=
  let (data, stream) := streamReadInternal src c.stream plan.space o
  let vars := fillCopyHead (fillCopyTail c.vars plan data) plan data
  let (vars, stream, _) := fillAccount r vars stream c.fillStatus data.length
  let vars := fillCommit vars plan data.length
  { vars := vars, stream := stream, fillStatus := cacheUpdateFillStatus r vars }

/-- The reader between two iterations of `cache_read`. -/
inductive Reader
  /-- Outside of `cache_read`, with its last result. -/
  | idle (returned : ℤ)
  /-- In a `cache_read` for `asked` bytes, of which `size` are to be read and `total` have been. -/
  | reading (asked size total : ℤ)
  deriving DecidableEq

/-- The cache, the pending half of a fill, and the reader. -/
structure Halves where
  cache : CacheState
  /-- The plan of a fill whose second half is to come. -/
  pending : Option FillPlan
  reader : Reader
  /-- Ghost state: the position of the last seek. -/
  origin : ℤ
  /-- Ghost state: what the reader has been given since then. -/
  out : List UInt8

/-- What happens next, in halves. -/
inductive HalfAct
  | fillBegin (seeks : Bool)
  | fillEnd (o : Oracle)
  | seek (pos : ℤ)
  | read (size : ℤ)
  | iterate
  | abort
  | stall

/-- An iteration of `cache_read`, or what follows its loop. -/
def cacheReadIteration (r : Rounding) (s : Halves) (asked size total : ℤ) : Halves :=
  let return_ : Halves :=
    { s with
      cache := { s.cache with fillStatus := cacheUpdateFillStatus r s.cache.vars }
      reader := .idle total }
  if size > 0 then
    let p := cachePosGet s.cache.vars
    if mustWait p then
      if s.cache.vars.eof ∧ p.readFilepos ≥ p.maxFilepos then return_ else s
    else
      let plan := readPlan s.cache.vars.geo p size
      if veryOddError s.cache.vars.geo plan then s
      else
        { s with
          cache := { s.cache with vars := cachePosAdvanceRead s.cache.vars plan.newb }
          reader := .reading asked (size - plan.newb) (total + plan.newb)
          out := s.out ++ readCopy s.cache.vars plan }
  else return_

/-- The position update of `cache_stream_seek_long`, which goes on to read a sector. -/
def cacheStreamSeekLong (s : Halves) (pos : ℤ) : Halves :=
  let newpos := alignedPos s.cache.vars.geo (max pos 0)
  let sector := readerSectorSize s.cache.vars.geo
  { s with
    cache := { s.cache with vars := { cachePosSetRead s.cache.vars newpos with eof := false } }
    reader := .reading sector sector 0
    origin := newpos
    out := [] }

/-- One step of the cache in halves. -/
def halfStep (src : Source) (r : Rounding) (s : Halves) : HalfAct → Option Halves
  | .fillBegin seeks =>
      match s.pending with
      | none =>
          let (cache, pending) := cacheFillBegin r s.cache seeks
          some { s with cache := cache, pending := pending }
      | some _ => none
  | .fillEnd o =>
      match s.pending with
      | none => none
      | some plan =>
          some { s with cache := cacheFillEnd src r s.cache plan o, pending := none }
  | .seek pos =>
      match s.reader with
      | .idle _ => some (cacheStreamSeekLong s pos)
      | .reading _ _ _ => none
  | .read size =>
      match s.reader with
      | .idle _ => some { s with reader := .reading size size 0 }
      | .reading _ _ _ => none
  | .iterate =>
      match s.reader with
      | .idle _ => none
      | .reading asked size total => some (cacheReadIteration r s asked size total)
  | .abort =>
      match s.reader with
      | .idle _ => none
      | .reading _ size total => if size > 0 then some { s with reader := .idle total } else none
  | .stall =>
      match s.reader with
      | .idle _ => none
      | .reading _ size total =>
          let p := cachePosGet s.cache.vars
          if size > 0 ∧ mustWait p ∧ ¬ (s.cache.vars.eof ∧ p.readFilepos ≥ p.maxFilepos) then
            some { s with reader := .idle total }
          else none

/-- The cache in halves, on streams that satisfy `fresh`. -/
def halves (src : Source) (r : Rounding) (fresh : Stream → Prop) :
    Transition.System Halves HalfAct where
  init s := Started s.cache.vars s.cache.stream ∧ fresh s.cache.stream ∧ s.pending = none ∧
    s.reader = .idle 0 ∧ s.origin = s.cache.vars.readFilepos ∧ s.out = []
  step := halfStep src r

/-- The device answers without errors. -/
def HalfAct.ErrorFree : HalfAct → Prop
  | .fillBegin seeks => seeks = true
  | .fillEnd o => o.ErrorFree
  | _ => True

/-! ## A half is a run of the filler -/

/-- The program counter of the filler between two halves. -/
def fillerPc : Option FillPlan → FillPc
  | none => .enter
  | some plan => .read plan

/-- The program counter of the reader between two iterations. -/
def Reader.pc : Reader → ReadPc
  | .idle returned => .idle returned
  | .reading _ size total => .loop size total

/-- The threads at a state of the coarse system. -/
def Halves.toSys (s : Halves) : Sys where
  vars := s.cache.vars
  stream := s.cache.stream
  fillStatus := s.cache.fillStatus
  filler := fillerPc s.pending
  reader := s.reader.pc
  origin := s.origin
  out := s.out

/-- The threads with the filler elsewhere. -/
def Sys.fillerAt (s : Sys) (c : CacheState) (pc : FillPc) : Sys :=
  { s with vars := c.vars, stream := c.stream, fillStatus := c.fillStatus, filler := pc }

/-- Any number of steps of the filler, in which the device answers as `o` says. -/
def FillerRun (src : Source) (r : Rounding) (o : Oracle) : Sys → Sys → Prop :=
  Relation.ReflTransGen fun s t => fillerStep src r s o = t

section Steps

open Relation (ReflTransGen)

variable (src : Source) (r : Rounding) (o : Oracle) (s : Sys) (c : CacheState)

theorem checkEof_none_steps (h : checkEof c = none) :
    FillerRun src r o (s.fillerAt c .enter) (s.fillerAt { c with fillStatus := -1 } .enter) := by
  unfold checkEof at h
  simp only at h
  split_ifs at h with heof hin
  refine ReflTransGen.head (b := s.fillerAt c .eofSnapshot) ?_ (.single ?_)
  · simp only [fillerStep, Sys.fillerAt, heof, if_true]
  · simp only [fillerStep, Sys.fillerAt]
    exact if_pos hin

theorem checkEof_some_steps {c' : CacheState} (h : checkEof c = some c') :
    FillerRun src r o (s.fillerAt c .enter) (s.fillerAt c' .snapshot) := by
  unfold checkEof at h
  simp only at h
  split_ifs at h with heof hin <;> cases h
  · refine ReflTransGen.head (b := s.fillerAt c .eofSnapshot) ?_
      (.head (b := s.fillerAt c .eofClear) ?_ (.single rfl))
    · simp only [fillerStep, Sys.fillerAt, heof, if_true]
    · simp only [fillerStep, Sys.fillerAt]
      exact if_neg hin
  · refine .single ?_
    simp only [fillerStep, Sys.fillerAt, heof]
    rfl

theorem seekToReader_steps :
    FillerRun src r o (s.fillerAt c .snapshot)
      (s.fillerAt (seekToReader c o.seeks)
        (afterSnapshot c.vars.geo (seekToReader c o.seeks).stream.readChunk
          (cachePosGet (seekToReader c o.seeks).vars) c.vars.readFilepos)) := by
  unfold seekToReader
  by_cases hout : outOfBoundaries c.vars c.stream.type (cachePosGet c.vars) = true
  · simp only [if_pos hout]
    refine ReflTransGen.head (b := s.fillerAt c (.flushGet c.vars.readFilepos)) ?_
      (.head rfl (.head rfl (.head rfl (.single rfl))))
    simp only [fillerStep, Sys.fillerAt]
    exact if_pos hout
  · simp only [if_neg hout]
    refine .single ?_
    simp only [fillerStep, Sys.fillerAt]
    exact if_neg hout

theorem planFill_steps (read : ℤ) :
    FillerRun src r o
      (s.fillerAt c (afterSnapshot c.vars.geo c.stream.readChunk (cachePosGet c.vars) read))
      (s.fillerAt (planFill r c read).1 (fillerPc (planFill r c read).2)) := by
  unfold planFill afterSnapshot
  rcases fillPlan c.vars.geo c.stream.readChunk (cachePosGet c.vars) read with
    _ | ⟨plan, _ | newMin⟩
  · exact .single rfl
  · exact .refl
  · exact .single rfl

/-- The first half of `cache_fill`, step by step. -/
theorem fillBegin_steps :
    FillerRun src r o (s.fillerAt c .enter)
      (s.fillerAt (cacheFillBegin r c o.seeks).1 (fillerPc (cacheFillBegin r c o.seeks).2)) := by
  unfold cacheFillBegin
  rcases hcheck : checkEof c with _ | c'
  · exact checkEof_none_steps src r o s c hcheck
  · have hgeo : (seekToReader c' o.seeks).vars.geo = c'.vars.geo := by
      unfold seekToReader
      simp only
      split_ifs <;> rfl
    have hplan := planFill_steps src r o s (seekToReader c' o.seeks)
      c'.vars.readFilepos
    rw [hgeo] at hplan
    exact (checkEof_some_steps src r o s c hcheck).trans
      ((seekToReader_steps src r o s c').trans hplan)

/-- The second half of `cache_fill`, step by step. -/
theorem fillEnd_steps (plan : FillPlan) :
    FillerRun src r o (s.fillerAt c (.read plan))
      (s.fillerAt (cacheFillEnd src r c plan o) .enter) := by
  unfold cacheFillEnd
  rcases hread : streamReadInternal src c.stream plan.space o with ⟨data, stream⟩
  by_cases hwrap : plan.wraparoundCopy = true
  · refine ReflTransGen.head (b := s.fillerAt { c with stream := stream } (.copyTail plan data)) ?_
      (.head rfl (.head rfl (.head rfl (.head rfl (.single rfl)))))
    simp only [fillerStep, Sys.fillerAt, hread, if_pos hwrap]
  · have hhead : fillCopyHead (fillCopyTail c.vars plan data) plan data =
        fillCopyTail c.vars plan data := by
      rw [fillCopyHead, if_neg hwrap]
    simp only [hhead]
    refine ReflTransGen.head (b := s.fillerAt
      { c with vars := fillCopyTail c.vars plan data, stream := stream }
      (.account plan data.length)) ?_ (.head rfl (.head rfl (.single rfl)))
    simp only [fillerStep, Sys.fillerAt, hread, if_neg hwrap]

end Steps

/-! ## The coarse system is part of the race-free runs -/

section Simulation

variable {src : Source} {r : Rounding} {o : Oracle} {s t : Sys} {h h' : Halves}

theorem fillerStep_reader : (fillerStep src r s o).reader = s.reader := by
  unfold fillerStep
  cases hpc : s.filler with
  | eofSnapshot =>
      simp only
      split_ifs <;> rfl
  | snapshot =>
      simp only
      split_ifs <;> rfl
  | read plan =>
      simp only
      split_ifs <;> rfl
  | _ => rfl

/-- While the reader is not copying, the filler's steps race with nothing. -/
theorem FillerRun.reachable (hrun : FillerRun src r o s t) (ho : o.ErrorFree)
    (hcopies : ¬ s.reader.Copies) (hs : (threads src r).Reachable NoRace s) :
    (threads src r).Reachable NoRace t := by
  have both : (threads src r).Reachable NoRace t ∧ ¬ t.reader.Copies := by
    induction hrun with
    | refl => exact ⟨hs, hcopies⟩
    | tail _ hstep ih =>
        obtain ⟨hreach, hquiet⟩ := ih
        refine ⟨hreach.step (a := .filler o) ⟨ho, fun _ hc => absurd hc hquiet⟩
          (congrArg some hstep), ?_⟩
        rw [← hstep, fillerStep_reader]
        exact hquiet
  exact both.1

theorem not_copies_pc (rd : Reader) : ¬ rd.pc.Copies := by
  cases rd <;> exact id

theorem not_flushes_fillerPc (pending : Option FillPlan) : ¬ (fillerPc pending).Flushes := by
  cases pending <;> exact id

/-- While the filler is between two halves, the reader's steps race with nothing. -/
theorem reachable_go (hs : (threads src r).Reachable NoRace s) (hflush : ¬ s.filler.Flushes)
    (hstep : readerStep r s = some t) : (threads src r).Reachable NoRace t :=
  hs.step (a := .go) (fun hf => absurd hf hflush) hstep

/-- An iteration of `cache_read`, step by step. -/
theorem reachable_iteration (hs : (threads src r).Reachable NoRace h.toSys)
    {asked size total : ℤ} (hreader : h.reader = .reading asked size total) :
    (threads src r).Reachable NoRace (cacheReadIteration r h asked size total).toSys := by
  have hflush : ¬ h.toSys.filler.Flushes := not_flushes_fillerPc h.pending
  have hpc : h.toSys.reader = .loop size total := by
    rw [Halves.toSys, hreader]
    rfl
  unfold cacheReadIteration
  simp only
  -- what follows the loop
  have hreturn : ∀ {u : Sys}, (threads src r).Reachable NoRace u →
      u = { h.toSys with reader := .update total } →
      (threads src r).Reachable NoRace
        { h.toSys with
          fillStatus := cacheUpdateFillStatus r h.cache.vars
          reader := .idle total } := by
    rintro u hu rfl
    exact reachable_go hu hflush rfl
  split_ifs with hsize hwait hbreak hodd
  · -- the break at the end of the stream
    have hlook : (threads src r).Reachable NoRace
        { h.toSys with reader := .look (cachePosGet h.cache.vars) size total } := by
      refine reachable_go hs hflush ?_
      simp only [readerStep, hpc]
      exact (if_pos hsize).trans (if_pos hwait)
    refine hreturn (reachable_go hlook hflush ?_) rfl
    exact if_pos hbreak
  · exact hs
  · exact hs
  · -- the copy
    have hcopy : (threads src r).Reachable NoRace
        { h.toSys with
          reader := .copy (readPlan h.cache.vars.geo (cachePosGet h.cache.vars) size) size
            total } := by
      refine reachable_go hs hflush ?_
      simp only [readerStep, hpc]
      exact (if_pos hsize).trans ((if_neg hwait).trans (if_neg hodd))
    exact reachable_go (reachable_go hcopy hflush rfl) hflush rfl
  · refine hreturn (reachable_go hs hflush ?_) rfl
    simp only [readerStep, hpc]
    exact if_neg hsize

/-- A step of the coarse system without device errors is part of a race-free run. -/
theorem reachable_halfStep (hs : (threads src r).Reachable NoRace h.toSys) {a : HalfAct}
    (ha : a.ErrorFree) (hstep : halfStep src r h a = some h') :
    (threads src r).Reachable NoRace h'.toSys := by
  -- Between two halves neither thread is inside a copy or a flush.
  have hcopies : ¬ h.toSys.reader.Copies := not_copies_pc h.reader
  have hflush : ¬ h.toSys.filler.Flushes := not_flushes_fillerPc h.pending
  cases a with
  -- the first half is a run of the filler from its entry to its read
  | fillBegin seeks =>
      simp only [halfStep] at hstep
      split at hstep <;> cases hstep
      next hpending =>
        have hrun := fillBegin_steps src r ⟨.bytes 0, seeks⟩ h.toSys h.cache
        have hat : h.toSys.fillerAt h.cache .enter = h.toSys := by
          simp only [Halves.toSys, Sys.fillerAt, hpending, fillerPc]
        rw [hat] at hrun
        exact hrun.reachable ⟨ha, 0, rfl⟩ hcopies hs
  -- and the second one from there back to the entry
  | fillEnd o =>
      simp only [halfStep] at hstep
      split at hstep <;> cases hstep
      next plan hpending =>
        have hrun := fillEnd_steps src r o h.toSys h.cache plan
        have hat : h.toSys.fillerAt h.cache (.read plan) = h.toSys := by
          simp only [Halves.toSys, Sys.fillerAt, hpending, fillerPc]
        rw [hat] at hrun
        exact hrun.reachable ha hcopies hs
  -- publishing the position and clearing the flag are two steps of the reader
  | seek pos =>
      simp only [halfStep] at hstep
      split at hstep <;> cases hstep
      next hreader =>
        have hseek : (threads src r).Reachable NoRace
            { h.toSys with
              vars := cachePosSetRead h.cache.vars (alignedPos h.cache.vars.geo (max pos 0))
              reader := .clearEof
              origin := alignedPos h.cache.vars.geo (max pos 0)
              out := [] } := by
          refine hs.step (a := .seek pos) (fun hf => absurd hf hflush) ?_
          simp only [threads, step, Halves.toSys, hreader, Reader.pc]
        exact reachable_go hseek hflush rfl
  | read size =>
      simp only [halfStep] at hstep
      split at hstep <;> cases hstep
      next hreader =>
        refine hs.step (a := .read size) trivial ?_
        simp only [threads, step, Halves.toSys, hreader, Reader.pc]
  | iterate =>
      simp only [halfStep] at hstep
      split at hstep <;> cases hstep
      next hreader => exact reachable_iteration hs hreader
  -- the user gives up at the top of the read loop
  | abort =>
      simp only [halfStep] at hstep
      split at hstep
      · cases hstep
      · next hreader =>
          split_ifs at hstep with hsize
          cases hstep
          refine hs.step (a := .abort) trivial ?_
          simp only [threads, step, Halves.toSys, hreader, Reader.pc]
          exact if_pos hsize
  -- giving up behind the wait takes the look at the positions first
  | stall =>
      simp only [halfStep] at hstep
      split at hstep
      · cases hstep
      · next asked size total hreader =>
          split_ifs at hstep with hcond
          cases hstep
          obtain ⟨hsize, hwait, heof⟩ := hcond
          have hlook : (threads src r).Reachable NoRace
              { h.toSys with reader := .look (cachePosGet h.cache.vars) size total } := by
            refine reachable_go hs hflush ?_
            simp only [readerStep, Halves.toSys, hreader, Reader.pc]
            exact (if_pos hsize).trans (if_pos hwait)
          refine hlook.step (a := .stall) trivial ?_
          simp only [threads, step]
          exact if_neg heof

/-- Every state of the coarse system without device errors is a state of a race-free run of the
two threads. -/
theorem Halves.reachable_threads
    (hh : (halves src r Stream.Fresh).Reachable (fun _ a => a.ErrorFree) h) :
    (threads src r).Reachable NoRace h.toSys := by
  refine hh.invariant (I := fun h => (threads src r).Reachable NoRace h.toSys) ?_
    fun _ _ _ _ hs ha hstep => reachable_halfStep hs ha hstep
  rintro s ⟨hstarted, hfresh, hpending, hreader, horigin, hout⟩
  refine .init ⟨hstarted, hfresh, ?_, ?_, horigin, hout⟩
  · rw [Halves.toSys, hpending]
    rfl
  · rw [Halves.toSys, hreader]
    rfl

/-- So the invariant of the threads holds in it. -/
theorem Halves.inv (hh : (halves src r Stream.Fresh).Reachable (fun _ a => a.ErrorFree) h) :
    Inv src h.toSys :=
  inv_of_reachable (Halves.reachable_threads hh)

end Simulation

end WiiMC.Cache
