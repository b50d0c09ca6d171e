import WiiMC.Lib.Program
import WiiMC.Cache.Threads

/-!
# The buffered stream

`stream_t` as the demuxers and the subtitle readers use it: the reading functions of
`stream/stream.h` and `stream/stream.c`, and what lies under them, `cache_stream_fill_buffer` and
`cache_stream_seek_long` of `stream/cache2.c` or, where the stream has no cache,
`stream_fill_buffer` and `stream_seek_long`. They are programs that call upon the cache and the
device.

The stream is open for reading, `mem` is not `NULL`, nothing is captured, and the text that
`stream_read_until` looks at is not in UTF-16. The messages are left out.
-/

namespace WiiMC.Stream

open Cache (Source Oracle Geometry)

/-- `STREAM_BUFFER_SIZE`. -/
def streamBufferSize : ℤ := 2048

/-- `stream_t`. -/
structure StreamT extends Cache.Stream where
  /-- `buffer`, up to `buf_len`. -/
  buffer : List UInt8
  bufPos : ℕ
  /-- `sector_size`, `0` for the default. -/
  sectorSize : ℤ
  /-- Whether `flags` has `MP_STREAM_SEEK_FW`. -/
  seekFw : Bool
  /-- Whether `cache_pid` is set. -/
  cached : Bool

namespace StreamT

/-- The `buf_len-buf_pos` bytes at `buffer+buf_pos`. -/
def rest (s : StreamT) : List UInt8 := s.buffer.drop s.bufPos

/-- `buf_pos` moved on. -/
def advance (s : StreamT) (n : ℕ) : StreamT := { s with bufPos := s.bufPos + n }

/-- `stream_tell`. -/
def tell (s : StreamT) : ℤ := s.pos + s.bufPos - s.buffer.length

end StreamT

/-! ## What lies under the buffer -/

/-- What the functions of the stream call upon. -/
inductive Call
  /-- `cache_read`. -/
  | cacheRead (size : ℤ)
  /-- The new position of `cache_stream_seek_long`, and the `cache_read` of a sector behind it. -/
  | cacheSeek (pos : ℤ)
  /-- The callbacks of the device. -/
  | device

/-- What is answered: the bytes read, or what the device decides. -/
def Call.Answer : Call → Type
  | .cacheRead _ => List UInt8
  | .cacheSeek _ => List UInt8
  | .device => Oracle

/-- A function of the stream. -/
abbrev Reading : Type → Type 1 := Program Call Call.Answer

section

variable (src : Source) (g : Geometry)

/-- `stream_fill_buffer`. An empty read empties the buffer as well, but for a DVD. -/
def streamFillBuffer (s : StreamT) : Reading (ℤ × StreamT) :=
  .call .device fun o : Oracle =>
    let (data, stream) := Cache.streamReadInternal src s.toStream streamBufferSize o
    if data = [] then
      if (Cache.fillBuffer src s.dev streamBufferSize o.answer).1 < 0 ∧ s.type = .dvdnav then
        .ret (0, { s with toStream := stream })
      else .ret (0, { s with toStream := stream, buffer := [], bufPos := 0 })
    else .ret (data.length, { s with toStream := stream, buffer := data, bufPos := 0 })

/-- What `cache_stream_fill_buffer` does with the bytes read. -/
def cacheFilled (s : StreamT) (data : List UInt8) : ℤ × StreamT :=
  if data = [] then (0, { s with eof := true, buffer := [], bufPos := 0 })
  else (data.length,
    { s with eof := false, bufPos := 0, buffer := data, pos := s.pos + data.length })

/-- `cache_stream_fill_buffer`. -/
def cacheStreamFillBuffer (s : StreamT) : Reading (ℤ × StreamT) :=
  if s.cached then
    .call (.cacheRead (Cache.readerSectorSize g)) fun data => .ret (cacheFilled s data)
  else streamFillBuffer src s

/-- What `stream_seek_internal` returns; `-1` says that the stream goes on from there. -/
def streamSeekResult (s : Cache.Stream) (newpos : ℤ) (seeks : Bool) : ℤ :=
  if newpos = 0 ∨ newpos ≠ s.pos then
    if s.seekable then if seeks then -1 else 0
    else if s.type = .stream then if newpos < s.pos then 1 else -1
    else 0
  else -1

/-- A turn of the loop of `stream_seek_long` that reads up to `newpos`. -/
def forwardTurn (newpos : ℤ) (s : StreamT) : Reading (StreamT ⊕ StreamT) :=
  if s.pos < newpos then
    (streamFillBuffer src s).map fun r => if r.1 ≤ 0 then .inr r.2 else .inl r.2
  else .ret (.inr s)

/-- A turn of the loop of `stream_seek_long` that looks for the sector with the position `pos`. -/
def sectorTurn : ℤ × StreamT → Reading ((ℤ × StreamT) ⊕ (ℤ × StreamT))
  | (pos, s) => (streamFillBuffer src s).map fun
      | (r, s) =>
        if r > 0 ∧ pos ≥ 0 then
          if pos ≤ s.buffer.length then .inr (1, { s with bufPos := pos.toNat })
          else .inl (pos - s.buffer.length, s)
        else .inr (0, s)

/-- The position that `stream_seek_long` seeks to. -/
def sectorStart (s : StreamT) (pos : ℤ) : ℤ :=
  if s.sectorSize ≠ 0 then pos.tdiv s.sectorSize * s.sectorSize
  else pos / streamBufferSize * streamBufferSize

/-- `stream_seek_long`. -/
def streamSeekLong (s : StreamT) (pos : ℤ) : Reading (ℤ × StreamT) :=
  let s := { s with buffer := [], bufPos := 0 }
  let newpos := sectorStart s pos
  .call .device fun o : Oracle =>
    let res := streamSeekResult s.toStream newpos o.seeks
    let s := { s with toStream := Cache.streamSeekInternal s.toStream newpos o.seeks }
    if res ≥ 0 then .ret (res, s)
    else .loop (forwardTurn src newpos) s fun s => .loop (sectorTurn src) (pos - newpos, s) .ret

/-- `cache_stream_seek_long`. -/
def cacheStreamSeekLong (s : StreamT) (pos : ℤ) : Reading (ℤ × StreamT) :=
  if s.cached then
    .call (.cacheSeek pos) fun data =>
      let newpos := Cache.alignedPos g pos
      let s := (cacheFilled { s with pos := newpos } data).2
      if pos - newpos ≥ 0 ∧ pos - newpos ≤ s.buffer.length then
        .ret (1, { s with bufPos := (pos - newpos).toNat })
      else .ret (0, s)
  else streamSeekLong src s pos

/-! ## The functions of the stream -/

/-- The buffer is filled when nothing is left in it; `false` says that nothing could be read. -/
def refill (s : StreamT) : Reading (Bool × StreamT) :=
  if s.rest = [] then (cacheStreamFillBuffer src g s).map fun r => (r.1 ≠ 0, r.2)
  else .ret (true, s)

/-- A turn of the loop of `stream_read`, with `len` bytes to go. -/
def readTurn (total : ℤ) : ℤ × List UInt8 × StreamT →
    Reading ((ℤ × List UInt8 × StreamT) ⊕ ((ℤ × List UInt8) × StreamT))
  | (len, mem, s) =>
    if len > 0 then
      (refill src g s).bind fun
        | (false, s) => .ret (.inr ((total - len, mem), s))
        | (true, s) =>
          let x := min s.rest.length len.toNat
          .ret (.inl (len - x, mem ++ s.rest.take x, s.advance x))
    else .ret (.inr ((total, mem), s))

/-- `stream_read`: its result, and the bytes stored. -/
def streamRead (s : StreamT) (total : ℤ) : Reading ((ℤ × List UInt8) × StreamT) :=
  .loop (readTurn src g total) (total, [], s) .ret

/-- `stream_read_char`. -/
def streamReadChar (s : StreamT) : Reading (ℤ × StreamT) :=
  (refill src g s).bind fun
    | (false, s) => .ret (-256, s)
    | (true, s) => .ret ((s.rest.headD 0).toNat, s.advance 1)

/-- `stream_seek`. -/
def streamSeek (s : StreamT) (pos : ℤ) : Reading (ℤ × StreamT) :=
  let pos := if pos < 0 then 0 else pos
  let x := pos - (s.pos - s.buffer.length)
  if pos < s.pos ∧ x ≥ 0 then .ret (1, { s with bufPos := x.toNat })
  else cacheStreamSeekLong src g s pos

/-- A turn of the loop of `stream_skip`, with `len` bytes to go. -/
def skipTurn : ℤ × StreamT → Reading ((ℤ × StreamT) ⊕ (ℤ × StreamT))
  | (len, s) =>
    if len > 0 then
      (refill src g s).bind fun
        | (false, s) => .ret (.inr (0, s))
        | (true, s) =>
          let x := min s.rest.length len.toNat
          .ret (.inl (len - x, s.advance x))
    else .ret (.inr (1, s))

/-- `stream_skip`. -/
def streamSkip (s : StreamT) (len : ℤ) : Reading (ℤ × StreamT) :=
  if len < 0 ∨ (len > 2 * streamBufferSize ∧ s.seekFw) then streamSeek src g s (s.tell + len)
  else .loop (skipTurn src g) (len, s) .ret

/-- `find_term_char`. -/
def findTermChar (buf : List UInt8) (term : UInt8) : Option ℕ := buf.findIdx? (· = term)

/-- A turn of the loop of `stream_read_until`, with room for `max` bytes behind `mem`. What
`copy_characters` copies is never nothing. -/
def untilTurn (term : UInt8) : ℕ × List UInt8 × StreamT →
    Reading ((ℕ × List UInt8 × StreamT) ⊕ (List UInt8 × StreamT))
  | (max, mem, s) =>
    (refill src g s).bind fun
      | (false, s) => .ret (.inr (mem, s))
      | (true, s) =>
        let stop := findTermChar s.rest term
        let len := (stop.map (· + 1)).getD s.rest.length
        -- without room the line is passed over
        let len := if max > 0 then min len max else len
        let l := if max > 0 then len else 0
        let mem := mem ++ s.rest.take l
        let s := s.advance len
        if stop.isSome then .ret (.inr (mem, s)) else .ret (.inl (max - l, mem, s))

/-- `stream_read_until`: the string in `mem`, `none` for `NULL`. -/
def streamReadUntil (s : StreamT) (max : ℤ) (term : UInt8) :
    Reading (Option (List UInt8) × StreamT) :=
  if max < 1 then .ret (none, s)
  else
    .loop (untilTurn src g term) ((max - 1).toNat, [], s) fun
      | (mem, s) => .ret (if s.eof ∧ mem = [] then none else some mem, s)

end

/-! ## A user of the stream -/

/-- What a user of the stream can ask for. -/
inductive Request
  | read (total : ℤ)
  | readChar
  | readUntil (max : ℤ) (term : UInt8)
  | skip (len : ℤ)
  | seek (pos : ℤ)
  | tell
  | eof

/-- What is answered. -/
def Request.Answer : Request → Type
  | .read _ => ℤ × List UInt8
  | .readChar => ℤ
  | .readUntil _ _ => Option (List UInt8)
  | .skip _ => ℤ
  | .seek _ => ℤ
  | .tell => ℤ
  | .eof => Bool

/-- The function that is called. -/
def serve (src : Source) (g : Geometry) : (q : Request) → StreamT → Reading (q.Answer × StreamT)
  | .read total, s => streamRead src g s total
  | .readChar, s => streamReadChar src g s
  | .readUntil max term, s => streamReadUntil src g s max term
  | .skip len, s => streamSkip src g s len
  | .seek pos, s => streamSeek src g s pos
  | .tell, s => .ret (s.tell, s)
  | .eof, s => .ret (s.eof, s)

end WiiMC.Stream
