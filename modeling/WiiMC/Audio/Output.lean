import Mathlib.Algebra.Order.Ring.Int
import WiiMC.Audio.Gekko
import WiiMC.Lib.Transition

/-!
# The slots of the audio output

What holds of the ring of `libao2/ao_gekko.c` in every run of calls and requests.

* `Sound`: the slots are handed over in the order in which they are filled, and `buffered` counts
  those that are not.
* `Converts`: what one call of `play` writes, and that it does not write to a slot in use.
* `Placed`: the driver as a queue of numbered slots, of which the DMA has the last two at most.
* `audioOutput_sound`: a run in which no last chunk is cut short, no call of `play` takes a slot back
  from the DMA and no reset finds a slot in its registers keeps to all of it.
* `not_audioOutput_rest`, `not_audioOutput_paused`, `not_audioOutput_reset`: what happens otherwise.
-/

namespace WiiMC.Audio

open Slots

/-! ## What the output promises -/

/-- The slots that are filled and have not been handed to the DMA. -/
def waiting (g : Gekko) : List ℕ := g.filled.drop g.handed.length

/-- A slot that waits or is with the DMA. -/
def Busy (g : Gekko) (slot : ℕ) : Prop :=
  slot ∈ waiting g ∨ g.dma.next = some slot ∨ g.dma.current = some slot

structure Sound (g : Gekko) : Prop where
  handed_prefix : g.handed <+: g.filled
  buffered_eq : g.buffered = bufferSize * (waiting g).length
  waiting_le : (waiting g).length ≤ 31

/-- The number of frames that are copied. -/
def frames (copies : List Copy) : ℕ := (copies.map Copy.samples).sum

/-- The copies take the frames of the data one after another, from sample `start` on. -/
def Consecutive (channels : ℕ) : ℕ → List Copy → Prop
  | _, [] => True
  | start, c :: copies => c.source = start ∧ Consecutive channels (start + channels * c.samples) copies

/-- What the copies have made of the memory. -/
structure Copied (m : Mixer) (data : ℤ → ℤ) (channels : ℕ) (before after : ℕ → ℤ)
    (copies : List Copy) : Prop where
  /-- The samples of a copy are in the bytes of its slot. -/
  fits : ∀ c ∈ copies, c.samples * (sampleSize * hwChannels) ≤ bufferSize
  consecutive : Consecutive channels 0 copies
  /-- Each frame of the data is one frame of the slot. -/
  mixed : ∀ c ∈ copies, ∀ i < c.samples, frameAt after (slotStart c.slot) i =
    outputFrame m channels (fun k => data (c.source + k)) i
  outside : ∀ k, (∀ c ∈ copies, ¬InSlot c.slot k) → after k = before k

/-- A call of `play` in state `g`. -/
structure Converts (m : Mixer) (g : Gekko) (data : ℤ → ℤ) (remaining : ℕ) (p : Played) : Prop where
  copied : Copied m data g.channels.count g.buffers p.state.buffers p.copies
  filled_eq : p.state.filled = g.filled ++ p.copies.map Copy.slot
  nodup : (p.copies.map Copy.slot).Nodup
  not_busy : ∀ c ∈ p.copies, ¬Busy g c.slot
  processed_eq : p.processed = sampleSize * g.channels.count * frames p.copies
  processed_le : p.processed ≤ remaining

/-! ## Runs -/

/-- The calls of the player, and the requests of the DMA. -/
inductive Event
  | play (data : ℤ → ℤ) (remaining : ℕ) (final : Bool)
  | callback
  | pause
  | resume
  | reset

def step (m : Mixer) (g : Gekko) : Event → Option Gekko
  | .play data remaining final => (play m g data remaining final).map Played.state
  | .callback => some (callback g)
  | .pause => some (audioPause g)
  | .resume => some (audioResume g)
  | .reset => some (reset g)

/-- The output after `init` with a number of channels. -/
def output (m : Mixer) (channels : ℤ) : Transition.System Gekko Event where
  init g := ∃ memory, g = init channels memory
  step := step m

/-- A call of `play` keeps to `get_space`. -/
def Admitted (g : Gekko) : Event → Prop
  | .play _ remaining _ => remaining ≤ getSpace g
  | _ => True

/-- The bytes of a last chunk that are copied as what they are. -/
def RestFits (channels : Channels) (rest : ℕ) : Prop :=
  rest = 0 ∨ (channels.count = 2 ∧ 4 ∣ rest) ∨ (channels.count = 3 ∧ rest = 6)

/-- While the output pauses the DMA has begun the slot that it was handed last. -/
def TakenUp (g : Gekko) : Prop :=
  g.playing = false → g.dma.enabled = true → g.dma.next = none ∨ g.dma.next = g.dma.current

/-- The condition on a step: a last chunk is copied as what it is, and at a reset the DMA has been
handed silence. -/
def Fits (g : Gekko) : Event → Prop
  | .play _ remaining final => final = true → RestFits g.channels (remaining % requestSize g.channels)
  | .reset => g.dma.next = none
  | _ => True

/-- The condition on the steps of a run. -/
def Meets (g : Gekko) (e : Event) : Prop :=
  Admitted g e ∧ Fits g e ∧ ∀ data remaining final, e = .play data remaining final → TakenUp g

/-- What one step promises: no slot is written that is in use. A reset writes all of them. -/
def StepSound (m : Mixer) (g : Gekko) : Event → Prop
  | .play data remaining final =>
      ∃ p, play m g data remaining final = some p ∧ Converts m g data remaining p
  | .callback => (callback g).buffers = g.buffers
  | .pause => (audioPause g).buffers = g.buffers
  | .resume => (audioResume g).buffers = g.buffers
  | .reset => ∀ slot < bufferCount, ¬Busy (reset g) slot

/-- Whether a call is admitted is decided by the number of channels and bytes. -/
instance Admitted.instDecidable (g : Gekko) : DecidablePred (Admitted g)
  | .play _ remaining _ => inferInstanceAs (Decidable (remaining ≤ getSpace g))
  | .callback | .pause | .resume | .reset => isTrue trivial

/-- Whether the last chunk fits is decided by its length. -/
instance RestFits.instDecidable (channels : Channels) : DecidablePred (RestFits channels) :=
  fun _ => inferInstanceAs (Decidable (_ ∨ _))

/-- Whether the registered slot is taken up is decided by the registers. -/
instance TakenUp.instDecidable : DecidablePred TakenUp := fun _ =>
  inferInstanceAs (Decidable (_ → _ → _))

/-- Whether the last chunk of a call fits is decided by what is waiting. -/
instance Fits.instDecidable (g : Gekko) : DecidablePred (Fits g)
  | .play _ _ _ => inferInstanceAs (Decidable (_ → _))
  | .reset => inferInstanceAs (Decidable (_ = _))
  | .callback | .pause | .resume => isTrue trivial

/-- Whether a step meets the condition is decided by the state. -/
instance Meets.instDecidable (g : Gekko) : DecidablePred (Meets g)
  | .play _ _ _ => decidable_of_iff (Admitted g _ ∧ Fits g _ ∧ TakenUp g)
      ⟨fun h => ⟨h.1, h.2.1, fun _ _ _ _ => h.2.2⟩, fun h => ⟨h.1, h.2.1, h.2.2 _ _ _ rfl⟩⟩
  | .reset => decidable_of_iff (Admitted g .reset ∧ Fits g .reset)
      ⟨fun h => ⟨h.1, h.2, nofun⟩, fun h => ⟨h.1, h.2.1⟩⟩
  | .callback | .pause | .resume => isTrue ⟨trivial, trivial, nofun⟩

/-! ## The sizes -/

section Sizes

variable {g : Gekko} {channels : Channels} {slot : ℕ}

/-- A slot takes 1024 frames of all channels. -/
theorem requestSize_eq : requestSize channels = 2048 * channels.count := by
  unfold requestSize bufferSize hwChannels
  omega

/-- The space is that of the slots that are not filled, less the two that are kept free. -/
theorem getSpace_eq {w : ℤ} (h : g.buffered = 4096 * w) :
    getSpace g = requestSize g.channels * (30 - w) := by
  have hdouble : (bufferSize * (bufferCount - 2) - g.buffered) * g.channels.count =
      hwChannels * (requestSize g.channels * (30 - w)) := by
    rw [requestSize_eq, h]
    simp only [bufferSize, bufferCount, hwChannels]
    push_cast
    ring
  rw [getSpace, hdouble]
  exact Int.mul_tdiv_cancel_left _ two_ne_zero

/-- A slot has 2048 samples. -/
theorem slotStart_eq : slotStart slot = slot * 2048 := rfl

/-- The bytes of a last chunk that fits are whole frames, and less than a slot holds. -/
theorem RestFits.frames {rest : ℕ} (h : RestFits channels rest)
    (hrest : rest < requestSize channels) :
    2 * channels.count * (rest / 4) = rest ∧ rest / 4 ≤ 1024 := by
  rw [requestSize_eq] at hrest
  rcases h with h | ⟨hcount, h⟩ | ⟨hcount, h⟩
  · rw [h]
    exact ⟨Nat.mul_zero _, Nat.zero_le _⟩
  · rw [hcount] at hrest ⊢
    omega
  · rw [hcount, h]
    exact ⟨rfl, by decide⟩

/-- And no others are copied as what they are. -/
theorem restFits_of_frames {rest : ℕ} (h : 2 * channels.count * (rest / 4) = rest) :
    RestFits channels rest := by
  have htwo := channels.two_le
  have hsix := channels.le_six
  obtain hcount | hcount | hcount : channels.count = 2 ∨ channels.count = 3 ∨ 4 ≤ channels.count := by
    omega
  · rw [hcount] at h
    exact .inr (.inl ⟨hcount, by omega⟩)
  · rw [hcount] at h
    rcases Nat.eq_zero_or_pos rest with hzero | hpos
    · exact .inl hzero
    · exact .inr (.inr ⟨hcount, by omega⟩)
  · have hmul := Nat.mul_le_mul_right (rest / 4) (Nat.mul_le_mul_left 2 hcount)
    have hzero : rest / 4 = 0 := by omega
    rw [hzero, Nat.mul_zero] at h
    exact .inl h.symm

end Sizes

/-! ## Copies -/

section Copies

variable {m : Mixer} {data : ℤ → ℤ} {channels slot source samples start i k : ℕ}
  {before mid base : ℕ → ℤ} {c : Copy} {copies : List Copy}

/-- A copy has the frames of one more piece. -/
@[simp]
theorem frames_concat : frames (copies ++ [c]) = frames copies + c.samples := by
  simp [frames]

/-- A piece that begins where the copies have ended goes on with them. -/
theorem Consecutive.concat (h : Consecutive channels start copies)
    (hc : c.source = start + channels * frames copies) :
    Consecutive channels start (copies ++ [c]) := by
  induction copies generalizing start with
  | nil => exact ⟨hc, trivial⟩
  | cons d copies ih =>
      refine ⟨h.1, ih h.2 ?_⟩
      rw [hc, frames, List.map_cons, List.sum_cons, Nat.mul_add, frames, Nat.add_assoc]

/-- A sample is in one slot only. -/
theorem InSlot.eq {a b : ℕ} (ha : InSlot a k) (hb : InSlot b k) : a = b := by
  simp only [InSlot, slotStart_eq] at ha hb
  omega

/-- A frame that a slot holds is in the slot. -/
theorem inSlot_frame (slot : ℕ) (hi : i < 1024) :
    InSlot slot (slotStart slot + 2 * i) ∧ InSlot slot (slotStart slot + (2 * i + 1)) := by
  simp only [InSlot, slotStart_eq]
  omega

/-- Copying into a slot leaves the samples of the other ones alone. -/
theorem copyChannels_of_not_inSlot (hsamples : samples ≤ 1024) {src : ℤ → ℤ} (hk : ¬InSlot slot k) :
    copyChannels m channels base (slotStart slot) src samples k = base k := by
  apply copyChannels_outside
  simp only [InSlot, slotStart_eq] at *
  omega

/-- Nothing has been copied, and nothing has been changed. -/
theorem Copied.nil : Copied m data channels before before [] :=
  ⟨fun _ h => absurd h List.not_mem_nil, trivial, fun _ h => absurd h List.not_mem_nil,
    fun _ _ => rfl⟩

/-- One more copy, to a slot that the copies before did not use. What the memory holds in this slot
does not matter. -/
theorem Copied.concat (h : Copied m data channels before mid copies)
    (hfree : slot ∉ copies.map Copy.slot) (hsamples : samples ≤ 1024)
    (hsource : source = channels * frames copies) (hbase : ∀ k, ¬InSlot slot k → base k = mid k) :
    Copied m data channels before
      (copyChannels m channels base (slotStart slot) (fun k => data (source + k)) samples)
      (copies ++ [⟨slot, source, samples⟩]) := by
  have hkept : ∀ k, ¬InSlot slot k → copyChannels m channels base (slotStart slot)
      (fun k => data (source + k)) samples k = mid k := by
    intro k hk
    rw [copyChannels_of_not_inSlot hsamples hk, hbase k hk]
  refine ⟨?_, h.consecutive.concat (by rw [hsource, Nat.zero_add]), ?_, ?_⟩
  · intro c hc
    rcases List.mem_append.mp hc with hc | hc
    · exact h.fits c hc
    · rw [List.mem_singleton.mp hc]
      exact Nat.mul_le_mul_right 4 hsamples
  · intro c hc i hi
    rcases List.mem_append.mp hc with hc | hc
    · -- the slots of the copies before are other ones
      have hne : c.slot ≠ slot := fun heq => hfree (heq ▸ List.mem_map_of_mem hc)
      have hlt : i < 1024 := by
        have hfits := h.fits c hc
        simp only [sampleSize, hwChannels, bufferSize] at hfits
        omega
      obtain ⟨hright, hleft⟩ := inSlot_frame c.slot hlt
      rw [frameAt, hkept _ fun hk => hne (hright.eq hk), hkept _ fun hk => hne (hleft.eq hk)]
      exact h.mixed c hc i hi
    · rw [List.mem_singleton.mp hc] at hi ⊢
      exact copyChannels_frame hi
  · intro k hk
    rw [hkept k (hk ⟨slot, source, samples⟩ (List.mem_append_right _ List.mem_cons_self))]
    exact h.outside k fun c hc => hk c (List.mem_append_left _ hc)

end Copies

/-! ## The ring as a queue of numbered slots -/

/-- The slot is one of the last `k` of those that have been handed over. -/
def Recent (handed k : ℕ) (slot : Option ℕ) : Prop :=
  ∀ s ∈ slot, ∃ i < handed, handed ≤ i + k ∧ i % bufferCount = s

/-- What the DMA has. -/
structure Dma.Placed (handed : ℕ) (d : Dma) : Prop where
  next : Recent handed 1 d.next
  current : Recent handed 2 d.current
  idle : d.next = none → Recent handed 1 d.current
  stopped : d.enabled = false → d.current = none

/-- As many slots have been filled and handed over. -/
structure Counted (filled handed : ℕ) (g : Gekko) : Prop where
  le : handed ≤ filled
  room : filled ≤ handed + 30
  filled_eq : g.filled = slots bufferCount 0 filled
  handed_eq : g.handed = slots bufferCount 0 handed
  fill_eq : g.bufferFill = filled % bufferCount
  play_eq : g.bufferPlay = handed % bufferCount
  buffered_eq : g.buffered = 4096 * (filled - handed : ℕ)

structure Placed (filled handed : ℕ) (g : Gekko) : Prop extends Counted filled handed g where
  dma : g.dma.Placed handed

section Queue

variable {g : Gekko} {filled handed k i : ℕ} {slot : Option ℕ} {d : Dma}

/-- No slot is among the recent ones without being one. -/
theorem Recent.none : Recent handed k none := fun _ h => by cases h

/-- The slot that was handed last is recent. -/
theorem Recent.last : Recent (handed + 1) 1 (some (handed % bufferCount)) := by
  intro s hs
  cases hs
  exact ⟨handed, Nat.lt_succ_self handed, Nat.le_refl _, rfl⟩

/-- When one more slot is handed, a recent one becomes older by one. -/
theorem Recent.succ (h : Recent handed k slot) : Recent (handed + 1) (k + 1) slot := by
  intro s hs
  obtain ⟨i, hlt, hle, hi⟩ := h s hs
  exact ⟨i, Nat.lt_succ_of_lt hlt, Nat.succ_le_succ hle, hi⟩

/-- Among more slots it is still recent. -/
theorem Recent.weaken (h : Recent handed k slot) : Recent handed (k + 1) slot := by
  intro s hs
  obtain ⟨i, hlt, hle, hi⟩ := h s hs
  exact ⟨i, hlt, Nat.le_succ_of_le hle, hi⟩

/-- The slots that are waiting have been filled and not handed yet. -/
theorem Counted.waiting_eq (h : Counted filled handed g) :
    waiting g = slots bufferCount handed (filled - handed) := by
  rw [waiting, h.filled_eq, h.handed_eq, length_slots, drop_slots h.le, Nat.zero_add]

/-- The counts give the claim about the ring. -/
theorem Counted.sound (h : Counted filled handed g) : Sound g := by
  have hle := h.le
  have hroom := h.room
  refine ⟨?_, ?_, ?_⟩
  · rw [h.filled_eq, h.handed_eq]
    exact slots_prefix_slots hle
  · rw [h.buffered_eq, h.waiting_eq, length_slots]
    rfl
  · rw [h.waiting_eq, length_slots]
    omega

/-- The slots that may be filled next are not in use. -/
theorem Placed.not_busy (h : Placed filled handed g) (hi : filled ≤ i) (hlt : i < handed + 30) :
    ¬Busy g (i % bufferCount) := by
  have hle := h.le
  rintro (hwait | hnext | hcurrent)
  · rw [h.waiting_eq] at hwait
    refine not_mem_slots_of_le ?_ ?_ hwait
    · omega
    · exact Nat.lt_of_lt_of_le hlt (Nat.add_le_add_left (by decide) handed)
  · obtain ⟨j, hj, hk, heq⟩ := h.dma.next _ hnext
    have := eq_of_mod_eq (by omega) (by simp only [bufferCount]; omega) heq
    omega
  · obtain ⟨j, hj, hk, heq⟩ := h.dma.current _ hcurrent
    have := eq_of_mod_eq (by omega) (by simp only [bufferCount]; omega) heq
    omega

/-- `AUDIO_StartDMA` begins the slot that has been handed over, if it begins one. -/
theorem Dma.Placed.startDma (h : d.Placed handed) : d.startDma.Placed handed := by
  unfold Dma.startDma
  split_ifs with henabled
  · exact h
  · refine ⟨h.next, h.next.weaken, fun _ => h.next, fun hstop => by cases hstop⟩

/-- `switch_buffers`, while the DMA plays the slot that was handed over last, or none. -/
theorem Counted.switchBuffers (h : Counted filled handed g) (hcurrent : Recent handed 1 g.dma.current)
    (hstopped : g.dma.enabled = false → g.dma.current = none) :
    ∃ handed', Placed filled handed' (switchBuffers g) := by
  have hle := h.le
  have hroom := h.room
  unfold Audio.switchBuffers
  split_ifs with hmore
  · have hlt : handed < filled := by
      have hpos := hmore.2
      rw [h.buffered_eq] at hpos
      omega
    refine ⟨handed + 1, ⟨hlt, by omega, h.filled_eq, ?_, h.fill_eq, ?_, ?_⟩, ?_⟩
    · rw [h.handed_eq, h.play_eq, slots_succ, Nat.zero_add]
    · rw [h.play_eq, Nat.mod_add_mod]
    · rw [h.buffered_eq]
      simp only [bufferSize]
      omega
    · rw [h.play_eq]
      exact ⟨Recent.last, hcurrent.succ, (fun hnone => by cases hnone), hstopped⟩
  · exact ⟨handed, { h with }, ⟨Recent.none, hcurrent.weaken, fun _ => hcurrent, hstopped⟩⟩

/-- Starting the output hands the next slot to a DMA that has none. -/
theorem Counted.startOutput (h : Counted filled handed g) (hcurrent : Recent handed 1 g.dma.current)
    (hstopped : g.dma.enabled = false → g.dma.current = none) :
    ∃ handed', Placed filled handed' (startOutput g) := by
  obtain ⟨handed', hswitch⟩ := h.switchBuffers hcurrent hstopped
  exact ⟨handed', { hswitch with dma := hswitch.dma.startDma }⟩

/-- The ring is empty at first. -/
theorem placed_init (channels : ℤ) (memory : ℕ → ℤ) : Placed 0 0 (init channels memory) :=
  ⟨⟨Nat.le_refl 0, Nat.zero_le _, rfl, rfl, rfl, rfl, rfl⟩,
    ⟨Recent.none, Recent.none, fun _ => Recent.none, fun _ => rfl⟩⟩

/-- A reset leaves the DMA with the block of its registers. -/
theorem Dma.Placed.drain (h : d.Placed handed) :
    d.drain.next = d.next ∧ (d.next = none → d.drain.current = none) := by
  unfold Dma.drain
  split_ifs with henabled
  · exact ⟨rfl, fun hnone => hnone⟩
  · exact ⟨rfl, fun _ => h.stopped (Bool.eq_false_iff.mpr henabled)⟩

/-- Behind a reset that is none of the slots is in use. -/
theorem Placed.reset_iff (h : Placed filled handed g) :
    (∀ slot < bufferCount, ¬Busy (reset g) slot) ↔ g.dma.next = none := by
  obtain ⟨hnext, hcurrent⟩ := h.dma.drain
  constructor
  · intro hfree
    by_contra hsome
    obtain ⟨slot, hslot⟩ := Option.ne_none_iff_exists'.mp hsome
    obtain ⟨i, -, -, hi⟩ := h.dma.next slot hslot
    have hlt : slot < bufferCount := hi ▸ Nat.mod_lt _ (by decide)
    exact hfree slot hlt (.inr (.inl (hnext.trans hslot)))
  · rintro hnone slot - (hwait | hbusy | hbusy)
    · exact List.not_mem_nil hwait
    · rw [show (reset g).dma.next = none from hnext.trans hnone] at hbusy
      cases hbusy
    · rw [show (reset g).dma.current = none from hcurrent hnone] at hbusy
      cases hbusy

/-- Resetting empties the ring, if no slot is registered that the DMA would take up. -/
theorem Placed.reset (h : Placed filled handed g) (hnone : g.dma.next = none) :
    Placed 0 0 (reset g) := by
  obtain ⟨hnext, hcurrent⟩ := h.dma.drain
  have hnext' : (Audio.reset g).dma.next = none := hnext.trans hnone
  have hcurrent' : (Audio.reset g).dma.current = none := hcurrent hnone
  exact ⟨⟨Nat.le_refl 0, Nat.zero_le _, rfl, rfl, rfl, rfl, rfl⟩,
    ⟨hnext' ▸ Recent.none, hcurrent' ▸ Recent.none, fun _ => hcurrent' ▸ Recent.none,
      fun _ => hcurrent'⟩⟩

/-- A request comes when the slot before has been played. -/
theorem Placed.callback (h : Placed filled handed g) : ∃ handed', Placed filled handed' (callback g) := by
  unfold Audio.callback
  split_ifs with henabled
  · refine Counted.switchBuffers { h.toCounted with } h.dma.next fun hstop => ?_
    exact absurd (henabled.symm.trans hstop) Bool.noConfusion
  · exact ⟨handed, h⟩

/-- Pausing leaves the ring alone. -/
theorem Placed.audioPause (h : Placed filled handed g) : Placed filled handed (audioPause g) :=
  { h with }

/-- Resuming starts the output. -/
theorem Placed.audioResume (h : Placed filled handed g) :
    ∃ handed', Placed filled handed' (audioResume g) := by
  unfold Audio.audioResume
  split_ifs with henabled
  · exact ⟨handed, { h with }⟩
  · have hnone := h.dma.stopped (Bool.eq_false_iff.mpr henabled)
    refine Counted.startOutput { h.toCounted with } ?_ fun _ => hnone
    exact hnone ▸ Recent.none

end Queue

/-! ## A call of `play` -/

section Playing

variable {m : Mixer} {data : ℤ → ℤ} {g : Gekko} {filled handed n total samples : ℕ} {p : Played}
  {final : Bool}

/-- A slot takes some bytes. -/
theorem requestSize_pos (channels : Channels) : 0 < requestSize channels := by
  have htwo := channels.two_le
  rw [requestSize_eq]
  omega

/-- The space is given by the slots that have been filled and not handed. -/
theorem Counted.space_eq (h : Counted filled handed g) :
    getSpace g = requestSize g.channels * (30 - (filled - handed : ℕ)) := getSpace_eq h.buffered_eq

/-- There is space for a chunk as long as fewer than thirty slots wait. -/
theorem Counted.space_iff (h : Counted filled handed g) :
    getSpace g ≥ requestSize g.channels ↔ filled < handed + 30 := by
  have hle := h.le
  have hpos : (0 : ℤ) < requestSize g.channels := Int.natCast_pos.mpr (requestSize_pos g.channels)
  rw [h.space_eq, ge_iff_le, le_mul_iff_one_le_right hpos]
  omega

/-- One more slot counts as filled. -/
theorem Counted.fill (h : Counted filled handed g) (hroom : filled < handed + 30) (b : ℕ → ℤ) :
    Counted (filled + 1) handed { g with
      buffers := b
      bufferFill := (g.bufferFill + 1) % bufferCount
      buffered := g.buffered + bufferSize
      filled := g.filled ++ [g.bufferFill] } := by
  have hle := h.le
  refine ⟨Nat.le_succ_of_le hle, hroom, ?_, h.handed_eq, ?_, h.play_eq, ?_⟩
  · rw [h.filled_eq, h.fill_eq, slots_succ, Nat.zero_add]
  · rw [h.fill_eq, Nat.mod_add_mod]
  · rw [h.buffered_eq]
    simp only [bufferSize]
    omega

/-- What a call in state `g`, which has `filled` and `handed` slots behind it, has done so far. -/
structure Filled (m : Mixer) (data : ℤ → ℤ) (g : Gekko) (filled handed : ℕ) (p : Played) : Prop where
  counted : Counted (filled + p.copies.length) handed p.state
  channels_eq : p.state.channels = g.channels
  playing_eq : p.state.playing = g.playing
  dma_eq : p.state.dma = g.dma
  slots_eq : p.copies.map Copy.slot = slots bufferCount filled p.copies.length
  copied : Copied m data g.channels.count g.buffers p.state.buffers p.copies

/-- One more slot. Where it was cleared before, nothing is lost. -/
theorem Filled.fill (h : Filled m data g filled handed p)
    (hroom : filled + p.copies.length < handed + 30) (hsamples : samples ≤ 1024)
    (hsource : p.source = g.channels.count * frames p.copies) (hle : handed ≤ filled) {b : ℕ → ℤ}
    (hb : ∀ k, ¬InSlot p.state.bufferFill k → b k = p.state.buffers k) :
    Filled m data g filled handed
      (Played.fill m data samples { p with state := { p.state with buffers := b } }) := by
  have hfree : p.state.bufferFill ∉ p.copies.map Copy.slot := by
    rw [h.slots_eq, h.counted.fill_eq]
    exact not_mem_slots_of_le (Nat.le_refl _) (by simp only [bufferCount]; omega)
  have hcount : (p.copies ++ [⟨p.state.bufferFill, p.source, samples⟩] : List Copy).length =
      p.copies.length + 1 := List.length_append
  refine ⟨?_, h.channels_eq, h.playing_eq, h.dma_eq, ?_, ?_⟩
  · simp only [Played.fill, hcount]
    exact { h.counted.fill hroom b with }
  · simp only [Played.fill, hcount, slots_succ]
    rw [List.map_append, h.slots_eq, List.map_singleton, h.counted.fill_eq]
  · simp only [Played.fill, h.channels_eq]
    exact h.copied.concat hfree hsamples hsource hb

/-- What the loop of `play` keeps. -/
structure Turning (m : Mixer) (data : ℤ → ℤ) (g : Gekko) (filled handed total : ℕ) (p : Played) :
    Prop extends Filled m data g filled handed p where
  frames_eq : frames p.copies = 1024 * p.copies.length
  source_eq : p.source = g.channels.count * frames p.copies
  processed_eq : p.processed = requestSize g.channels * p.copies.length
  total_eq : p.processed + p.remaining = total

/-- The loop of `play` begins with nothing copied. -/
theorem turning_start (h : Placed filled handed g) :
    Turning m data g filled handed total ⟨g, 0, 0, total, []⟩ :=
  ⟨⟨h.toCounted, rfl, rfl, rfl, rfl, Copied.nil⟩, rfl, rfl, rfl, Nat.zero_add total⟩

/-- A turn of the loop. -/
theorem Turning.wholeChunk (h : Turning m data g filled handed total p) (hle : handed ≤ filled)
    (hmore : p.More) : Turning m data g filled handed total (p.wholeChunk m data) := by
  have hroom := h.counted.space_iff.mp hmore.2
  have hsize : requestSize p.state.channels = requestSize g.channels := by rw [h.channels_eq]
  have hremaining : requestSize g.channels ≤ p.remaining := hsize ▸ hmore.1
  have hcount : (p.wholeChunk m data).copies.length = p.copies.length + 1 := List.length_append
  have hframes : frames (p.wholeChunk m data).copies = frames p.copies + 1024 := frames_concat
  refine ⟨{ h.toFilled.fill hroom (Nat.le_refl 1024) h.source_eq hle fun _ _ => rfl with }, ?_, ?_,
    ?_, ?_⟩
  · rw [hframes, hcount, h.frames_eq, Nat.mul_succ]
  · rw [hframes, Nat.mul_add, ← h.source_eq]
    change p.source + requestSize p.state.channels / 2 = _
    rw [hsize, requestSize_eq]
    omega
  · rw [hcount, Nat.mul_succ, ← h.processed_eq]
    change p.processed + requestSize p.state.channels = _
    rw [hsize]
  · have htotal := h.total_eq
    change p.processed + requestSize p.state.channels +
      (p.remaining - requestSize p.state.channels) = total
    rw [hsize]
    omega

/-- As long as bytes remain there is a slot for them, if all of them fit into the space. -/
theorem Turning.room (h : Turning m data g filled handed total p) (hg : Counted filled handed g)
    (hspace : total ≤ getSpace g) (hpos : 0 < p.remaining) :
    filled + p.copies.length < handed + 30 := by
  have hle := hg.le
  by_contra hfull
  have hslots : 30 - ((filled - handed : ℕ) : ℤ) ≤ p.copies.length := by omega
  have hmul := mul_le_mul_of_nonneg_left hslots (Int.natCast_nonneg (requestSize g.channels))
  rw [hg.space_eq] at hspace
  have htotal := h.total_eq
  rw [h.processed_eq] at htotal
  push_cast [← htotal] at hspace
  omega

/-- What remains when the loop ends does not fill a slot. -/
theorem Turning.remaining_lt (h : Turning m data g filled handed total p)
    (hg : Counted filled handed g) (hspace : total ≤ getSpace g) (hend : ¬p.More) :
    p.remaining < requestSize g.channels := by
  have hsize : requestSize p.state.channels = requestSize g.channels := by rw [h.channels_eq]
  by_contra hmany
  have hpos : 0 < p.remaining :=
    Nat.lt_of_lt_of_le (requestSize_pos g.channels) (Nat.le_of_not_lt hmany)
  refine hend ⟨hsize ▸ Nat.le_of_not_lt hmany, ?_⟩
  exact h.counted.space_iff.mpr (h.room hg hspace hpos)

/-- What is left of less than a slot is the last chunk. -/
theorem Turning.remaining_eq (h : Turning m data g filled handed total p)
    (hlt : p.remaining < requestSize g.channels) : p.remaining = total % requestSize g.channels := by
  rw [← h.total_eq, h.processed_eq, Nat.mul_add_mod, Nat.mod_eq_of_lt hlt]

/-- The loop ends: at each turn fewer bytes remain. -/
theorem Turning.exists_run (h : Turning m data g filled handed total p) (hg : Counted filled handed g)
    (hfuel : p.remaining ≤ n) : ∃ q, Loop.run Played.More (Played.wholeChunk m data) n p = some q ∧
      Turning m data g filled handed total q ∧ ¬q.More := by
  have hfall : ∀ p : Played, p.More → (p.wholeChunk m data).remaining < p.remaining := by
    intro p hmore
    have hpos := requestSize_pos p.state.channels
    have hle : requestSize p.state.channels ≤ p.remaining := hmore.1
    change p.remaining - requestSize p.state.channels < p.remaining
    omega
  obtain ⟨q, hq⟩ := Loop.exists_run Played.remaining hfall hfuel
  refine ⟨q, hq, ?_, Loop.not_of_run hq⟩
  exact (Loop.reaches_of_run hq).invariant (fun p hmore hp => hp.wholeChunk hg.le hmore) h

/-- What a call has done in the end. -/
structure Done (m : Mixer) (data : ℤ → ℤ) (g : Gekko) (filled handed total : ℕ) (p : Played) :
    Prop extends Filled m data g filled handed p where
  processed_eq : p.processed = sampleSize * g.channels.count * frames p.copies
  processed_le : p.processed ≤ total

/-- The bytes that have been processed are those of the copied frames. -/
theorem Turning.processed_frames (h : Turning m data g filled handed total p) :
    p.processed = sampleSize * g.channels.count * frames p.copies := by
  rw [h.processed_eq, h.frames_eq, requestSize_eq, sampleSize]
  ring

/-- The loop has ended without a last chunk. -/
theorem Turning.done (h : Turning m data g filled handed total p) :
    Done m data g filled handed total p :=
  { h with
    processed_eq := h.processed_frames
    processed_le := h.total_eq ▸ Nat.le_add_right _ _ }

/-- The last chunk is a quarter of its bytes in frames. -/
theorem frames_finalChunk :
    frames (p.finalChunk m data).copies = frames p.copies + p.remaining / 4 := frames_concat

/-- The branch for the last chunk, where it is copied as what it is. -/
theorem Turning.finalChunk (h : Turning m data g filled handed total p) (hle : handed ≤ filled)
    (hroom : filled + p.copies.length < handed + 30)
    (hrest : 2 * g.channels.count * (p.remaining / 4) = p.remaining ∧ p.remaining / 4 ≤ 1024) :
    Done m data g filled handed total (p.finalChunk m data) := by
  have hcleared : ∀ k, ¬InSlot p.state.bufferFill k →
      memset p.state.buffers p.state.bufferFill k = p.state.buffers k := fun _ hk => if_neg hk
  refine { h.toFilled.fill hroom hrest.2 h.source_eq hle hcleared with
    processed_eq := ?_, processed_le := Nat.le_of_eq h.total_eq }
  change p.processed + p.remaining = _
  rw [frames_finalChunk, Nat.mul_add, ← h.processed_frames, sampleSize, hrest.1]

/-- Switching the buffers changes none of them. -/
theorem switchBuffers_buffers (g : Gekko) : (switchBuffers g).buffers = g.buffers := by
  unfold switchBuffers
  split_ifs <;> rfl

/-- Switching the buffers does not fill one. -/
theorem switchBuffers_filled (g : Gekko) : (switchBuffers g).filled = g.filled := by
  unfold switchBuffers
  split_ifs <;> rfl

/-- The end of `play` changes nothing but what is handed over. -/
theorem begin_eq (p : Played) : p.begin.copies = p.copies ∧ p.begin.processed = p.processed ∧
    p.begin.state.buffers = p.state.buffers ∧ p.begin.state.filled = p.state.filled := by
  unfold Played.begin
  split_ifs
  · exact ⟨rfl, rfl, rfl, rfl⟩
  · exact ⟨rfl, rfl, switchBuffers_buffers _, switchBuffers_filled _⟩

/-- Behind its loop, `play` has converted what it says. -/
theorem Done.converts (h : Done m data g filled handed total p) (hg : Placed filled handed g) :
    Converts m g data total p.begin := by
  obtain ⟨hcopies, hprocessed, hbuffers, hfilled⟩ := begin_eq p
  have hle := hg.le
  have hroom := h.counted.room
  refine ⟨?_, ?_, ?_, ?_, ?_, ?_⟩
  · rw [hbuffers, hcopies]
    exact h.copied
  · rw [hfilled, hcopies, h.counted.filled_eq, hg.filled_eq, h.slots_eq, slots_add, Nat.zero_add]
  · rw [hcopies, h.slots_eq]
    exact nodup_slots (by simp only [bufferCount]; omega)
  · intro c hc
    rw [hcopies] at hc
    have hslot := List.mem_map_of_mem (f := Copy.slot) hc
    rw [h.slots_eq] at hslot
    obtain ⟨i, hlo, hhi, hi⟩ := mem_slots.mp hslot
    exact hi ▸ hg.not_busy hlo (Nat.lt_of_lt_of_le hhi hroom)
  · rw [hprocessed, hcopies]
    exact h.processed_eq
  · rw [hprocessed]
    exact h.processed_le

/-- While the DMA has taken up what it was handed last, `play` may hand over the next slot. -/
theorem Done.placed (h : Done m data g filled handed total p) (hg : Placed filled handed g)
    (htaken : TakenUp g) : ∃ filled' handed', Placed filled' handed' p.begin.state := by
  have hplaced : Placed (filled + p.copies.length) handed p.state :=
    { h.counted with dma := h.dma_eq ▸ hg.dma }
  unfold Played.begin
  split_ifs with hplaying
  · exact ⟨_, _, hplaced⟩
  · refine ⟨_, Counted.startOutput { h.counted with } ?_ ?_⟩
    · -- the slot that is being played is the last one that was handed over
      change Recent handed 1 p.state.dma.current
      rw [h.dma_eq]
      cases henabled : g.dma.enabled with
      | false => exact hg.dma.stopped henabled ▸ Recent.none
      | true =>
          have hpaused : g.playing = false := h.playing_eq ▸ Bool.eq_false_iff.mpr hplaying
          rcases htaken hpaused henabled with hnone | hsame
          · exact hg.dma.idle hnone
          · exact hsame ▸ hg.dma.next
    · exact hplaced.dma.stopped

/-- A call that keeps to the space and whose last chunk fits. -/
theorem play_spec {remaining : ℕ} (hg : Placed filled handed g) (hspace : remaining ≤ getSpace g)
    (hrest : final = true → RestFits g.channels (remaining % requestSize g.channels)) :
    ∃ p, play m g data remaining final = some p ∧ Converts m g data remaining p ∧
      (TakenUp g → ∃ filled' handed', Placed filled' handed' p.state) := by
  have hstart : Turning m data g filled handed remaining ⟨g, 0, 0, remaining, []⟩ := turning_start hg
  obtain ⟨p, hrun, hturning, hend⟩ := hstart.exists_run hg.toCounted (Nat.le_refl remaining)
  have hlt := hturning.remaining_lt hg.toCounted hspace hend
  have hdone : Done m data g filled handed remaining
      (if final ∧ p.remaining > 0 then p.finalChunk m data else p) := by
    split_ifs with hfinal
    · refine hturning.finalChunk hg.le (hturning.room hg.toCounted hspace hfinal.2) ?_
      exact RestFits.frames (hturning.remaining_eq hlt ▸ hrest hfinal.1) hlt
    · exact hturning.done
  refine ⟨_, ?_, hdone.converts hg, hdone.placed hg⟩
  rw [play, hrun, Option.map_some]

/-- A last chunk is copied as what it is under the condition only. -/
theorem restFits_of_converts {remaining : ℕ} (hg : Placed filled handed g)
    (hspace : remaining ≤ getSpace g) (hplay : play m g data remaining true = some p)
    (hconverts : Converts m g data remaining p) :
    RestFits g.channels (remaining % requestSize g.channels) := by
  have hstart : Turning m data g filled handed remaining ⟨g, 0, 0, remaining, []⟩ := turning_start hg
  obtain ⟨q, hrun, hturning, hend⟩ := hstart.exists_run hg.toCounted (Nat.le_refl remaining)
  have hlt := hturning.remaining_lt hg.toCounted hspace hend
  rw [← hturning.remaining_eq hlt]
  rw [play, hrun, Option.map_some, Option.some.injEq] at hplay
  by_cases hpos : q.remaining > 0
  · rw [if_pos ⟨rfl, hpos⟩] at hplay
    have hprocessed := hconverts.processed_eq
    rw [← hplay, (begin_eq _).1, (begin_eq _).2.1, frames_finalChunk, Nat.mul_add,
      ← hturning.processed_frames] at hprocessed
    exact restFits_of_frames (Nat.add_left_cancel hprocessed).symm
  · exact .inl (Nat.eq_zero_of_not_pos hpos)

end Playing

/-! ## Every run -/

section Runs

variable {m : Mixer} {channels : ℤ} {g t : Gekko} {e : Event} {filled handed : ℕ}

/-- One step. -/
theorem Placed.step (h : Placed filled handed g) (hmeets : Meets g e) (hstep : step m g e = some t) :
    ∃ filled' handed', Placed filled' handed' t := by
  obtain ⟨hadmitted, hfits, htaken⟩ := hmeets
  cases e with
  | play data remaining final =>
      obtain ⟨p, hplay, -, hplaced⟩ := play_spec (m := m) h hadmitted hfits
      rw [Audio.step, hplay] at hstep
      exact Option.some.inj hstep ▸ hplaced (htaken _ _ _ rfl)
  | callback => exact Option.some.inj hstep ▸ ⟨filled, h.callback⟩
  | pause => exact Option.some.inj hstep ▸ ⟨filled, handed, h.audioPause⟩
  | resume => exact Option.some.inj hstep ▸ ⟨filled, h.audioResume⟩
  | reset => exact Option.some.inj hstep ▸ ⟨0, 0, h.reset hfits⟩

/-- Every state of a run that meets the condition is placed. -/
theorem placed_of_reachable (h : (output m channels).Reachable Meets g) :
    ∃ filled handed, Placed filled handed g := by
  refine h.invariant (I := fun g => ∃ filled handed, Placed filled handed g) (fun g hinit => ?_)
    fun g e t _ hg hmeets hstep => ?_
  · obtain ⟨memory, rfl⟩ := hinit
    exact ⟨0, 0, placed_init channels memory⟩
  · obtain ⟨filled, handed, hg⟩ := hg
    exact hg.step hmeets hstep

/-- An operation that writes no slot at all promises nothing else. -/
theorem Placed.stepSound_iff (h : Placed filled handed g) (hadmitted : Admitted g e) :
    StepSound m g e ↔ Fits g e := by
  cases e with
  | play data remaining final =>
      constructor
      · rintro ⟨p, hplay, hconverts⟩ rfl
        exact restFits_of_converts h hadmitted hplay hconverts
      · intro hfits
        obtain ⟨p, hplay, hconverts, -⟩ := play_spec (m := m) h hadmitted hfits
        exact ⟨p, hplay, hconverts⟩
  | callback =>
      refine iff_of_true ?_ trivial
      change (Audio.callback g).buffers = g.buffers
      unfold Audio.callback
      split_ifs
      · exact switchBuffers_buffers _
      · rfl
  | pause => exact iff_of_true rfl trivial
  | resume =>
      refine iff_of_true ?_ trivial
      change (Audio.audioResume g).buffers = g.buffers
      unfold Audio.audioResume
      split_ifs
      · rfl
      · exact switchBuffers_buffers _
  | reset => exact h.reset_iff

/-- A run whose steps meet the condition keeps to what the output promises in every state, and a
further step keeps to it exactly if its last chunk is copied as what it is or, for a reset, if the DMA
has been handed silence. -/
theorem audioOutput_sound (h : (output m channels).Reachable Meets g) :
    Sound g ∧ ∀ e, Admitted g e → (StepSound m g e ↔ Fits g e) := by
  obtain ⟨filled, handed, hg⟩ := placed_of_reachable h
  exact ⟨hg.sound, fun e hadmitted => hg.stepSound_iff hadmitted⟩

end Runs

/-! ## Runs that break it -/

/-- The additions without the weights. -/
def plainMixer : Mixer where
  side a b c := a + b + c
  sideInv a b c := a + b + c
  rear a b c := a + b + c
  center a b := a + b

def silent : ℤ → ℤ := fun _ => 0

/-- A reset of an output that has paused until the DMA was handed silence, and what comes behind it. -/
def sampleRun : List Event :=
  [.play silent 122880 false, .callback, .pause, .callback, .reset, .play silent 122880 false,
    .callback, .callback, .pause, .resume]

/-- Behind that a whole frame at the end of a stream is played, and the next reset is one too many. -/
theorem audioOutput_sound_stereo : ∃ g,
    (output plainMixer 2).exec (init 2 fun _ => 0) sampleRun = some g ∧
    Sound g ∧ StepSound plainMixer g (.play silent 8188 true) ∧ ¬StepSound plainMixer g .reset := by
  have hinit : (output plainMixer 2).Reachable Meets (init 2 fun _ => 0) := .init ⟨_, rfl⟩
  obtain ⟨g, hg⟩ : ∃ g, (output plainMixer 2).exec (init 2 fun _ => 0) sampleRun = some g :=
    Option.isSome_iff_exists.mp (by decide +kernel)
  have hreach := hinit.exec (by decide +kernel) hg
  have hmeets : (output plainMixer 2).OkAlong Meets g [.play silent 8188 true] :=
    .of_append (by decide +kernel) hg
  have hnext : ((output plainMixer 2).exec (init 2 fun _ => 0) sampleRun).map (·.dma.next) =
      some (some 2) := by decide +kernel
  rw [hg, Option.map_some, Option.some.injEq] at hnext
  obtain ⟨hsound, hstep⟩ := audioOutput_sound hreach
  refine ⟨g, hg, hsound, (hstep _ hmeets.1.1).mpr hmeets.1.2.1, fun hreset => ?_⟩
  have hnone : g.dma.next = none := (hstep .reset trivial).mp hreset
  rw [hnext] at hnone
  cases hnone

/-- A last chunk of six channels: 2048 frames are read and written, where it has 682 and a slot has
room for 1024. -/
theorem not_audioOutput_rest : (output plainMixer 6).Reachable Admitted (init 6 fun _ => 0) ∧
    Admitted (init 6 fun _ => 0) (.play silent 8192 true) ∧
    ¬StepSound plainMixer (init 6 fun _ => 0) (.play silent 8192 true) := by
  refine ⟨.init ⟨_, rfl⟩, by decide +kernel, ?_⟩
  rintro ⟨p, hplay, hconverts⟩
  have hcopies : (play plainMixer (init 6 fun _ => 0) silent 8192 true).map Played.copies =
      some [⟨0, 0, 2048⟩] := by decide +kernel
  rw [hplay, Option.map_some, Option.some.injEq] at hcopies
  have hfits := hconverts.copied.fits ⟨0, 0, 2048⟩ (hcopies ▸ List.mem_cons_self)
  exact absurd hfits (by decide)

/-- Calls of `play` while the output pauses: slot 1 is taken back from the DMA before it begins, and
so slot 0 is filled again while it is played. -/
theorem not_audioOutput_paused : ∃ g, (output plainMixer 2).Reachable Admitted g ∧
    Admitted g (.play silent 4096 false) ∧ ¬StepSound plainMixer g (.play silent 4096 false) := by
  have hinit : (output plainMixer 2).Reachable Admitted (init 2 fun _ => 0) := .init ⟨_, rfl⟩
  obtain ⟨g, hg⟩ : ∃ g, (output plainMixer 2).exec (init 2 fun _ => 0)
      [.play silent 122880 false, .callback, .play silent 8192 false, .pause, .play silent 0 false] =
        some g := Option.isSome_iff_exists.mp (by decide +kernel)
  have hadmitted : (output plainMixer 2).OkAlong Admitted g [.play silent 4096 false] :=
    .of_append (by decide +kernel) hg
  refine ⟨g, hinit.exec (by decide +kernel) hg, hadmitted.1, ?_⟩
  rintro ⟨p, hplay, hconverts⟩
  have hrun : ((output plainMixer 2).exec (init 2 fun _ => 0)
      [.play silent 122880 false, .callback, .play silent 8192 false, .pause,
        .play silent 0 false]).bind (fun g => (play plainMixer g silent 4096 false).map fun p =>
          (p.copies, g.dma.current)) = some ([⟨0, 0, 1024⟩], some 0) := by decide +kernel
  rw [hg, Option.bind_some, hplay, Option.map_some, Option.some.injEq, Prod.mk.injEq] at hrun
  exact hconverts.not_busy ⟨0, 0, 1024⟩ (hrun.1 ▸ List.mem_cons_self) (.inr (.inr hrun.2))

/-- A seek: the DMA begins slot 1 again while it is cleared, and the call of `play` behind it fills
this slot while it is played. -/
theorem not_audioOutput_reset : ∃ g, (output plainMixer 2).Reachable Admitted g ∧
    ¬StepSound plainMixer g .reset ∧ (reset g).dma.current = some 1 ∧
    ∃ p, play plainMixer (reset g) silent 8192 false = some p ∧ 1 ∈ p.copies.map Copy.slot := by
  have hinit : (output plainMixer 2).Reachable Admitted (init 2 fun _ => 0) := .init ⟨_, rfl⟩
  obtain ⟨g, hg⟩ : ∃ g, (output plainMixer 2).exec (init 2 fun _ => 0)
      [.play silent 8192 false, .callback] = some g :=
    Option.isSome_iff_exists.mp (by decide +kernel)
  have hrun : ((output plainMixer 2).exec (init 2 fun _ => 0)
      [.play silent 8192 false, .callback]).bind (fun g =>
        (play plainMixer (reset g) silent 8192 false).map fun p =>
          ((reset g).dma.current, p.copies.map Copy.slot)) = some (some 1, [0, 1]) := by
    decide +kernel
  rw [hg, Option.bind_some] at hrun
  obtain ⟨p, hplay, hp⟩ := Option.map_eq_some_iff.mp hrun
  obtain ⟨hcurrent, hslots⟩ := Prod.mk.inj hp
  refine ⟨g, hinit.exec (by decide +kernel) hg, fun hsound => ?_, hcurrent, p, hplay, ?_⟩
  · exact hsound 1 (by decide) (.inr (.inr hcurrent))
  · rw [hslots]
    decide

end WiiMC.Audio
