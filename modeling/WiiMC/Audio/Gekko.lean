import Mathlib.Logic.Function.Iterate
import Mathlib.Tactic.Ring
import WiiMC.Lib.Loop
import WiiMC.Lib.Slots

/-!
# The audio output

The ring of `libao2/ao_gekko.c`: `play` mixes whole chunks of the decoder's samples down to stereo
and puts each into a slot, and the callback of the audio DMA hands the slots over one by one.

* `Gekko`: the driver's variables, the memory of its slots and the DMA.
* `copyTurn`, `copyChannels`: the mixing.
* `play`, `switchBuffers`, `audioPause`, `audioResume`, `reset`: the operations.
* `copyChannels_frame`, `copyChannels_outside`: what the mixing writes, and where.
-/

namespace WiiMC.Audio

/-- `BUFFER_SIZE`. -/
def bufferSize : ℕ := 4096

/-- `BUFFER_COUNT`. -/
def bufferCount : ℕ := 32

/-- `HW_CHANNELS`. -/
def hwChannels : ℕ := 2

/-- `sizeof(s16)`. -/
def sampleSize : ℕ := 2

/-- `clamp` of `libaf/af.h`. -/
def clamp (a min max : ℤ) : ℤ := if a > max then max else if a < min then min else a

theorem two_le_clamp (a : ℤ) : 2 ≤ (clamp a 2 6).toNat := by
  unfold clamp
  split_ifs <;> omega

theorem clamp_le_six (a : ℤ) : (clamp a 2 6).toNat ≤ 6 := by
  unfold clamp
  split_ifs <;> omega

/-- A number of channels that `init` admits. -/
structure Channels where
  count : ℕ
  two_le : 2 ≤ count
  le_six : count ≤ 6

/-- `ao_data.channels` after `init`. -/
def Channels.clamp (channels : ℤ) : Channels :=
  ⟨(Audio.clamp channels 2 6).toNat, two_le_clamp channels, clamp_le_six channels⟩

/-- The audio DMA: the slot that it begins at its next request, and the one that it plays; `none`
stands for the block of silence, and for nothing at all. -/
structure Dma where
  enabled : Bool
  next : Option ℕ
  current : Option ℕ

/-- `AUDIO_InitDMA`: the registers take a block, a transfer that is under way is not changed. -/
def Dma.initDma (d : Dma) (slot : Option ℕ) : Dma := { d with next := slot }

/-- `AUDIO_StartDMA`. The registers keep the block, and a request that comes before another one is
written begins it anew. -/
def Dma.startDma (d : Dma) : Dma :=
  if d.enabled then d else { d with enabled := true, current := d.next }

/-- The DMA begins the next block, and with that requests another one. -/
def Dma.request (d : Dma) : Dma := { d with current := d.next }

/-- The DMA after it has been waited for, without its callback, until it has no bytes left. Nobody has
written its registers, and it begins their block again. -/
def Dma.drain (d : Dma) : Dma := if d.enabled then d.request else d

/-- The driver. -/
structure Gekko where
  channels : Channels
  playing : Bool
  /-- The samples of the slots one after another, and of the memory behind them. -/
  buffers : ℕ → ℤ
  bufferFill : ℕ
  bufferPlay : ℕ
  buffered : ℤ
  dma : Dma
  /-- The slots that have been filled since the last reset. -/
  filled : List ℕ
  /-- The slots that have been handed to the DMA since the last reset. -/
  handed : List ℕ

/-- The index of the first sample of a slot. -/
def slotStart (slot : ℕ) : ℕ := slot * (bufferSize / sampleSize)

/-- The samples of a slot. -/
def InSlot (slot k : ℕ) : Prop := slotStart slot ≤ k ∧ k < slotStart (slot + 1)

instance InSlot.instDecidable (slot k : ℕ) : Decidable (InSlot slot k) :=
  inferInstanceAs (Decidable (_ ∧ _))

/-- `memset(buffers[slot], 0, BUFFER_SIZE)`. -/
def memset (buffers : ℕ → ℤ) (slot : ℕ) : ℕ → ℤ := fun k => if InSlot slot k then 0 else buffers k

/-- The loop over all slots in `init` and `reset`. -/
def clear (buffers : ℕ → ℤ) : ℕ → ℤ := (List.range bufferCount).foldl memset buffers

/-- `init`, on memory that holds anything. -/
def init (channels : ℤ) (memory : ℕ → ℤ) : Gekko where
  channels := Channels.clamp channels
  playing := false
  buffers := clear memory
  bufferFill := 0
  bufferPlay := 0
  buffered := 0
  dma := { enabled := false, next := none, current := none }
  filled := []
  handed := []

/-- `request_size`. -/
def requestSize (channels : Channels) : ℕ := bufferSize * channels.count / hwChannels

/-- `get_space`. The factor is a multiple of one half, and the product is exact. -/
def getSpace (g : Gekko) : ℤ :=
  ((bufferSize * (bufferCount - 2) - g.buffered) * g.channels.count).tdiv hwChannels

/-- `switch_buffers`. -/
def switchBuffers (g : Gekko) : Gekko :=
  if g.playing ∧ g.buffered > 0 then
    { g with
      dma := g.dma.initDma (some g.bufferPlay)
      bufferPlay := (g.bufferPlay + 1) % bufferCount
      buffered := g.buffered - bufferSize
      handed := g.handed ++ [g.bufferPlay] }
  else
    { g with dma := g.dma.initDma none }

/-- A request of the DMA, and `switch_buffers` as its callback; there is none while the DMA is not
enabled. -/
def callback (g : Gekko) : Gekko :=
  if g.dma.enabled then switchBuffers { g with dma := g.dma.request } else g

/-- `audio_pause`. -/
def audioPause (g : Gekko) : Gekko := { g with playing := false }

/-- `switch_buffers` and `AUDIO_StartDMA`. -/
def startOutput (g : Gekko) : Gekko :=
  { switchBuffers g with dma := (switchBuffers g).dma.startDma }

/-- `audio_resume`. -/
def audioResume (g : Gekko) : Gekko :=
  if g.dma.enabled then { g with playing := true } else startOutput { g with playing := true }

/-- `reset`. It neither stops the DMA nor hands it another block. -/
def reset (g : Gekko) : Gekko :=
  { g with
    playing := false
    buffers := clear g.buffers
    bufferFill := 0
    bufferPlay := 0
    buffered := 0
    dma := g.dma.drain
    filled := []
    handed := [] }

/-! ## The mixing -/

/-- The additions of `copy_channels` in floating point. The first argument is what is added to, and
the weighted samples are at the reader and beside it. -/
structure Mixer where
  side : ℤ → ℤ → ℤ → ℤ
  sideInv : ℤ → ℤ → ℤ → ℤ
  rear : ℤ → ℤ → ℤ → ℤ
  center : ℤ → ℤ → ℤ

/-- The variables `left` and `right` behind the `switch`, for the positions `crs`, `prs` and
`nrs`. -/
def mix (m : Mixer) (channels : ℕ) (src : ℤ → ℤ) (crs prs nrs : ℤ) : ℤ × ℤ :=
  let left := src crs
  let right := if channels > 1 then src (crs + 1) else src crs
  match channels with
  | 6 | 5 =>
      let left := m.side left (src (crs + 2)) (src (nrs + 2))
      let right := m.sideInv right (src (crs + 2)) (src (prs + 2))
      let left := m.sideInv left (src (crs + 3)) (src (nrs + 3))
      let right := m.side right (src (crs + 3)) (src (prs + 3))
      (m.center left (src (crs + 4)), m.center right (src (crs + 4)))
  | 4 =>
      let left := m.rear left (src (crs + 2)) (src (nrs + 2))
      let right := m.rear right (src (crs + 2)) (src (prs + 2))
      (m.center left (src (crs + 3)), m.center right (src (crs + 3)))
  | _ => (left, right)

/-- `clamp(_, SHRT_MIN, SHRT_MAX)`. -/
def clampShort (x : ℤ) : ℤ := clamp x (-32768) 32767

/-- The variables of `copy_channels`. -/
structure Cursor where
  buffers : ℕ → ℤ
  cws : ℕ
  crs : ℤ
  prs : ℤ
  nrs : ℤ

/-- A turn of the loop of `copy_channels`. -/
def copyTurn (m : Mixer) (channels dst : ℕ) (src : ℤ → ℤ) (c : Cursor) : Cursor :=
  let out := mix m channels src c.crs c.prs c.nrs
  { buffers := Function.update (Function.update c.buffers (dst + c.cws) (clampShort out.2))
      (dst + (c.cws + 1)) (clampShort out.1)
    cws := c.cws + 2
    crs := c.crs + channels
    prs := c.prs + 1
    nrs := c.nrs + 1 }

/-- `copy_channels`, to the samples from `dst` on. -/
def copyChannels (m : Mixer) (channels : ℕ) (buffers : ℕ → ℤ) (dst : ℕ) (src : ℤ → ℤ) (len : ℕ) :
    ℕ → ℤ :=
  ((copyTurn m channels dst src)^[len] ⟨buffers, 0, 0, -1, 1⟩).buffers

/-- What becomes of frame `i` of `src`: the sample on the right, then the one on the left. -/
def outputFrame (m : Mixer) (channels : ℕ) (src : ℤ → ℤ) (i : ℕ) : ℤ × ℤ :=
  let out := mix m channels src (i * channels) (i - 1) (i + 1)
  (clampShort out.2, clampShort out.1)

/-- Frame `i` of the samples from `dst` on. -/
def frameAt (buffers : ℕ → ℤ) (dst i : ℕ) : ℤ × ℤ :=
  (buffers (dst + 2 * i), buffers (dst + (2 * i + 1)))

section Mixing

variable {m : Mixer} {channels dst n len i k : ℕ} {src : ℤ → ℤ} {buffers : ℕ → ℤ}

/-- The positions after `n` turns. -/
theorem copyTurn_iterate (m : Mixer) (channels dst : ℕ) (src : ℤ → ℤ) (buffers : ℕ → ℤ) (n : ℕ) :
    ∃ b, (copyTurn m channels dst src)^[n] ⟨buffers, 0, 0, -1, 1⟩ =
      ⟨b, 2 * n, n * channels, n - 1, n + 1⟩ := by
  induction n with
  | zero => exact ⟨buffers, by simp⟩
  | succ n ih =>
      obtain ⟨b, hb⟩ := ih
      rw [Function.iterate_succ_apply', hb]
      refine ⟨_, (Cursor.mk.injEq ..).mpr ⟨rfl, ?_, ?_, ?_, ?_⟩⟩ <;> push_cast <;> ring

/-- Each turn writes the output frame of its input frame, behind those of the turns before. -/
theorem copyChannels_succ :
    copyChannels m channels buffers dst src (n + 1) =
      Function.update (Function.update (copyChannels m channels buffers dst src n) (dst + 2 * n)
        (outputFrame m channels src n).1) (dst + (2 * n + 1)) (outputFrame m channels src n).2 := by
  obtain ⟨b, hb⟩ := copyTurn_iterate m channels dst src buffers n
  rw [copyChannels, Function.iterate_succ_apply', copyChannels, hb]
  rfl

theorem copyChannels_outside (hk : k < dst ∨ dst + 2 * len ≤ k) :
    copyChannels m channels buffers dst src len k = buffers k := by
  induction len with
  | zero => rfl
  | succ n ih =>
      rw [copyChannels_succ, Function.update_of_ne (by omega), Function.update_of_ne (by omega)]
      exact ih (by omega)

/-- Each frame of the input becomes the frame at the same place of the output. -/
theorem copyChannels_frame (hi : i < len) :
    frameAt (copyChannels m channels buffers dst src len) dst i = outputFrame m channels src i := by
  induction len with
  | zero => exact absurd hi (Nat.not_lt_zero i)
  | succ n ih =>
      rw [copyChannels_succ, frameAt]
      rcases Nat.lt_or_eq_of_le (Nat.le_of_lt_succ hi) with hlt | rfl
      · rw [Function.update_of_ne (by omega), Function.update_of_ne (by omega),
          Function.update_of_ne (by omega), Function.update_of_ne (by omega)]
        exact ih hlt
      · rw [Function.update_self, Function.update_of_ne (by omega), Function.update_self]

end Mixing

/-! ## Playing -/

/-- A slot that has been filled, the position of its first sample in the data and the number of its
frames. -/
structure Copy where
  slot : ℕ
  source : ℕ
  samples : ℕ
deriving DecidableEq, Repr

/-- The variables of `play`, and what it has copied. -/
structure Played where
  state : Gekko
  source : ℕ
  processed : ℕ
  remaining : ℕ
  copies : List Copy

/-- The call of `copy_channels` of `samples` frames and what follows it in both places. -/
def Played.fill (m : Mixer) (data : ℤ → ℤ) (samples : ℕ) (p : Played) : Played :=
  let g := p.state
  { p with
    state := { g with
      buffers := copyChannels m g.channels.count g.buffers (slotStart g.bufferFill)
        (fun k => data (p.source + k)) samples
      bufferFill := (g.bufferFill + 1) % bufferCount
      buffered := g.buffered + bufferSize
      filled := g.filled ++ [g.bufferFill] }
    copies := p.copies ++ [⟨g.bufferFill, p.source, samples⟩] }

/-- The condition of the loop of `play`. -/
def Played.More (p : Played) : Prop :=
  p.remaining ≥ requestSize p.state.channels ∧ getSpace p.state ≥ requestSize p.state.channels

instance Played.instDecidableMore : DecidablePred Played.More := fun _ =>
  inferInstanceAs (Decidable (_ ∧ _))

/-- A turn of the loop of `play`. -/
def Played.wholeChunk (m : Mixer) (data : ℤ → ℤ) (p : Played) : Played :=
  let size := requestSize p.state.channels
  { p.fill m data (bufferSize / (sampleSize * hwChannels)) with
    source := p.source + size / sampleSize
    processed := p.processed + size
    remaining := p.remaining - size }

/-- The branch of `play` for what does not fill a slot. -/
def Played.finalChunk (m : Mixer) (data : ℤ → ℤ) (p : Played) : Played :=
  let cleared := { p.state with buffers := memset p.state.buffers p.state.bufferFill }
  { Played.fill m data (p.remaining / (sampleSize * hwChannels)) { p with state := cleared } with
    processed := p.processed + p.remaining }

/-- The end of `play`. -/
def Played.begin (p : Played) : Played :=
  if p.state.playing then p
  else { p with state := startOutput { p.state with playing := true } }

/-- `play`; `final` is `AOPLAY_FINAL_CHUNK`, and `none` an endless loop. -/
def play (m : Mixer) (g : Gekko) (data : ℤ → ℤ) (remaining : ℕ) (final : Bool) : Option Played :=
  (Loop.run Played.More (Played.wholeChunk m data) remaining ⟨g, 0, 0, remaining, []⟩).map fun p =>
    (if final ∧ p.remaining > 0 then p.finalChunk m data else p).begin

end WiiMC.Audio
