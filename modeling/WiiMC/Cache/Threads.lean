import WiiMC.Cache.Fill
import WiiMC.Lib.Transition

/-!
# The filler and the reader, step by step

`cache_fill` and `cache_read` of `stream/cache2.c` as two programs with a program counter each. A
step is one locked helper, one access to the shared `eof`, one call of `stream_read_internal` or
`stream_seek_internal`, or one `memcpy`; local computation belongs to the step before it. The
filler runs `cache_fill` in a loop; the reader makes any sequence of `cache_stream_seek_long` and
`cache_read` calls.

The branch of `cache_fill` for a failing device and `cache_update_fill_status` are one step each:
neither touches the ring or its positions.
-/

namespace WiiMC.Cache

/-- `STREAM_MAX_SECTOR_SIZE`, the room in the reader's `stream->buffer`. -/
def streamMaxSectorSize : ℤ := 8 * 1024

/-- Where the filler is in `cache_fill`, with its local variables. -/
inductive FillPc
  /-- At the test of `eof`. -/
  | enter
  /-- `eof` was set: at the snapshot that decides whether to believe it. -/
  | eofSnapshot
  /-- About to clear `eof` and reset the stream. -/
  | eofClear
  /-- At the snapshot the fill works from. -/
  | snapshot
  /-- In `cache_flush`, before its own snapshot; `read` is from the first one. -/
  | flushGet (read : ℤ)
  /-- In `cache_flush`, before the reset to `pos`. -/
  | flushReset (read pos : ℤ)
  /-- Before `stream_seek_internal`. -/
  | seek (read : ℤ)
  /-- At the snapshot after the flush. -/
  | resnapshot (read : ℤ)
  /-- Before `cache_pos_set_min`. -/
  | setMin (plan : FillPlan) (newMin : ℤ)
  /-- Before `stream_read_internal`. -/
  | read (plan : FillPlan)
  /-- Before the first copy out of the stream's buffer. -/
  | copyTail (plan : FillPlan) (data : List UInt8)
  /-- Before the second copy. -/
  | copyHead (plan : FillPlan) (data : List UInt8)
  /-- Before the test of `len`. -/
  | account (plan : FillPlan) (len : ℕ)
  /-- Before `cache_pos_commit_fill`. -/
  | commit (plan : FillPlan) (len : ℕ)
  /-- Before `cache_update_fill_status` and the return. -/
  | update

/-- Where the reader is, with its local variables. -/
inductive ReadPc
  /-- Outside of the cache, with the result of the last `cache_read`. -/
  | idle (returned : ℤ)
  /-- In `cache_stream_seek_long`, before `eof` is cleared. -/
  | clearEof
  /-- At the head of the loop of `cache_read`. -/
  | loop (size total : ℤ)
  /-- Nothing to copy at snapshot `p`: at the test of `eof`. -/
  | look (p : CachePos) (size total : ℤ)
  /-- Before the `memcpy`. -/
  | copy (plan : ReadPlan) (size total : ℤ)
  /-- Before `cache_pos_advance_read`. -/
  | advance (len size total : ℤ)
  /-- After the loop. -/
  | update (total : ℤ)

/-- The cache and its two threads. -/
structure Sys where
  vars : CacheVars
  /-- The filler's stream. -/
  stream : Stream
  /-- `cache_fill_status`. -/
  fillStatus : ℚ
  filler : FillPc
  reader : ReadPc
  /-- Ghost state: the position of the last seek. -/
  origin : ℤ
  /-- Ghost state: what the reader has copied out since then. -/
  out : List UInt8

/-- What happens next. -/
inductive Act
  /-- The filler makes a step, in which the device answers as `o` says. -/
  | filler (o : Oracle)
  /-- The reader calls `cache_stream_seek_long`. -/
  | seek (pos : ℤ)
  /-- The reader calls `cache_read`. -/
  | read (size : ℤ)
  /-- The reader makes a step. -/
  | go
  /-- The reader finds one of the abort flags set. -/
  | abort
  /-- The reader has seen no data for 30 seconds. -/
  | stall

/-- The aligned position `cache_stream_seek_long` publishes. -/
def alignedPos (g : Geometry) (pos : ℤ) : ℤ := pos.tdiv g.sectorSize * g.sectorSize

/-- The number of bytes `cache_stream_fill_buffer` asks for. -/
def readerSectorSize (g : Geometry) : ℤ := min g.sectorSize streamMaxSectorSize

/-- The part of `cache_fill` after its snapshot `p`, up to the next step. -/
def afterSnapshot (g : Geometry) (readChunk : ℕ) (p : CachePos) (read : ℤ) : FillPc :=
  match fillPlan g readChunk p read with
  | none => .update
  | some (plan, some newMin) => .setMin plan newMin
  | some (plan, none) => .read plan

/-- A seek of the filler's stream to the reader. -/
def fillerSeek (s : Stream) (read : ℤ) (seeks : Bool) : Stream :=
  streamSeekInternal (if s.eof then streamReset s else s) read seeks

/-- `cache_fill`, one step. -/
def fillerStep (src : Source) (r : Rounding) (s : Sys) (o : Oracle) : Sys :=
  match s.filler with
  | .enter => { s with filler := if s.vars.eof then .eofSnapshot else .snapshot }
  | .eofSnapshot =>
      let e := cachePosGet s.vars
      if e.readFilepos ≥ e.minFilepos ∧ e.readFilepos ≤ e.maxFilepos then
        { s with fillStatus := -1, filler := .enter }
      else { s with filler := .eofClear }
  | .eofClear =>
      { s with
        vars := { s.vars with eof := false }
        stream := streamReset s.stream
        filler := .snapshot }
  | .snapshot =>
      let p := cachePosGet s.vars
      if outOfBoundaries s.vars s.stream.type p then
        { s with filler := .flushGet p.readFilepos }
      else
        { s with filler := afterSnapshot s.vars.geo s.stream.readChunk p p.readFilepos }
  | .flushGet read => { s with filler := .flushReset read (cachePosGet s.vars).readFilepos }
  | .flushReset read pos => { s with vars := cachePosReset s.vars pos, filler := .seek read }
  | .seek read =>
      { s with stream := fillerSeek s.stream read o.seeks, filler := .resnapshot read }
  | .resnapshot read =>
      { s with
        filler := afterSnapshot s.vars.geo s.stream.readChunk (cachePosGet s.vars) read }
  | .setMin plan newMin => { s with vars := cachePosSetMin s.vars newMin, filler := .read plan }
  | .read plan =>
      let (data, stream) := streamReadInternal src s.stream plan.space o
      if plan.wraparoundCopy then { s with stream := stream, filler := .copyTail plan data }
      else
        { s with
          vars := fillCopyTail s.vars plan data
          stream := stream
          filler := .account plan data.length }
  | .copyTail plan data =>
      { s with vars := fillCopyTail s.vars plan data, filler := .copyHead plan data }
  | .copyHead plan data =>
      { s with vars := fillCopyHead s.vars plan data, filler := .account plan data.length }
  | .account plan len =>
      let (vars, stream, status) := fillAccount r s.vars s.stream s.fillStatus len
      { s with vars := vars, stream := stream, fillStatus := status, filler := .commit plan len }
  | .commit plan len => { s with vars := fillCommit s.vars plan len, filler := .update }
  | .update => { s with fillStatus := cacheUpdateFillStatus r s.vars, filler := .enter }

/-- `cache_read`, and the rest of `cache_stream_seek_long`, one step. -/
def readerStep (r : Rounding) (s : Sys) : Option Sys :=
  match s.reader with
  | .idle _ => none
  | .clearEof =>
      some { s with
        vars := { s.vars with eof := false }
        reader := .loop (readerSectorSize s.vars.geo) 0 }
  | .loop size total =>
      if size > 0 then
        let p := cachePosGet s.vars
        if mustWait p then some { s with reader := .look p size total }
        else
          let plan := readPlan s.vars.geo p size
          if veryOddError s.vars.geo plan then some s
          else some { s with reader := .copy plan size total }
      else some { s with reader := .update total }
  | .look p size total =>
      if s.vars.eof ∧ p.readFilepos ≥ p.maxFilepos then some { s with reader := .update total }
      else some { s with reader := .loop size total }
  | .copy plan size total =>
      some { s with
        out := s.out ++ readCopy s.vars plan
        reader := .advance plan.newb size total }
  | .advance len size total =>
      some { s with
        vars := cachePosAdvanceRead s.vars len
        reader := .loop (size - len) (total + len) }
  | .update total =>
      some { s with fillStatus := cacheUpdateFillStatus r s.vars, reader := .idle total }

/-- One step of the cache. A seek publishes the reader's position; the abort flags are looked at
in the head of the reader's loop, the clock when there was nothing to copy. -/
def step (src : Source) (r : Rounding) (s : Sys) : Act → Option Sys
  | .filler o => some (fillerStep src r s o)
  | .seek pos =>
      match s.reader with
      | .idle _ =>
          -- `stream_seek` turns a negative position into `0`
          let newpos := alignedPos s.vars.geo (max pos 0)
          some { s with
            vars := cachePosSetRead s.vars newpos
            reader := .clearEof
            origin := newpos
            out := [] }
      | _ => none
  | .read size =>
      match s.reader with
      | .idle _ => some { s with reader := .loop size 0 }
      | _ => none
  | .go => readerStep r s
  | .abort =>
      match s.reader with
      | .loop size total => if size > 0 then some { s with reader := .idle total } else none
      | _ => none
  | .stall =>
      match s.reader with
      | .look p _ total =>
          if s.vars.eof ∧ p.readFilepos ≥ p.maxFilepos then none
          else some { s with reader := .idle total }
      | _ => none

/-- A ring set up by `cache_init` and `stream_enable_cache` for a stream at its own position. -/
def Started (vars : CacheVars) (stream : Stream) : Prop :=
  ∃ memory size sector seekLimit vars₀, cacheInit memory size sector = some vars₀ ∧
    vars = enableRing vars₀ stream.pos seekLimit

/-- The stream `stream_enable_cache` copies, over an honest, seekable source that is not
`STREAMTYPE_STREAM`. -/
structure Stream.Fresh (s : Stream) : Prop where
  type_ne : s.type ≠ .stream
  seekable : s.seekable = true
  dev_eq : s.dev = s.pos
  pos_nonneg : 0 ≤ s.pos
  eof_eq : s.eof = false
  error_eq : s.error = 0
  tries_nonneg : 0 ≤ s.tries

/-- The filler's loop and a reader on a fresh stream. -/
def threads (src : Source) (r : Rounding) : Transition.System Sys Act where
  init s := Started s.vars s.stream ∧ s.stream.Fresh ∧ s.filler = .enter ∧ s.reader = .idle 0 ∧
    s.origin = s.vars.readFilepos ∧ s.out = []
  step := step src r

end WiiMC.Cache
