import WiiMC.Player.FolderQueue

/-!
# The folder queue and the playlist

`FolderQueueAdvance` is meant to mirror the play orders of the playlist path of `FindNextFile`. It
does so by itself. With a request it goes to the next song in every order, where the playlist stops
at its end in `PLAY_THROUGH` and shuffles in `PLAY_SHUFFLE`.

* `Mirrors`: both select the same track, or none, or both shuffle.
* `mirrors_iff`: when they do.
* `forced_disagrees`: two requests for which they do not.
-/

namespace WiiMC.Player

variable {order : PlayOrder} {forced : Bool} {q : List Text} {k : ℕ} {s u : Tracks}

/-- The queue of `s` and the playlist of `u` hold the same tracks and stand at the same one. -/
structure SameTracks (q : List Text) (k : ℕ) (s u : Tracks) : Prop where
  queue : s.folderQueue = q
  pos : s.folderQueuePos = k
  music : u.browserMusic = q
  selIndex : u.selIndex = some k
  lt : k < q.length

/-- Both report that nothing follows, or both select the track `j`. -/
def Agree (queue playlist : Option (Bool × Tracks)) : Prop :=
  ∃ r t r' t', queue = some (r, t) ∧ playlist = some (r', t') ∧
    (r = false ∧ r' = false ∨ r = true ∧ r' = true ∧ t.loadedFile = t'.loadedFile ∧
      ∃ j : ℕ, t.folderQueuePos = j ∧ t'.selIndex = some j)

/-- The queue mirrors the playlist. -/
def Mirrors (order : PlayOrder) (forced : Bool) (s u : Tracks) : Prop :=
  if order = .shuffle then
    folderQueueAdvance order forced s = folderQueueShuffle s ∧
      playlistAdvance order forced u = playlistShuffle u
  else Agree (folderQueueAdvance order forced s) (playlistAdvance order forced u)

/-- Both go to the track `j`. -/
theorem SameTracks.agree (h : SameTracks q k s u) (j : ℕ) :
    Agree (some (true, s.playAt j)) (some (true, u.select j)) := by
  refine ⟨true, _, true, _, rfl, rfl, Or.inr ⟨rfl, rfl, ?_, j, rfl, rfl⟩⟩
  show s.folderQueue.getD j [] = u.browserMusic.getD j []
  rw [h.queue, h.music]

/-- Both stop. -/
theorem agree_stop (s u : Tracks) : Agree (some (false, s)) (some (false, u)) :=
  ⟨false, s, false, u, rfl, rfl, Or.inl ⟨rfl, rfl⟩⟩

theorem not_agree (s u : Tracks) : ¬ Agree (some (true, s)) (some (false, u)) := by
  rintro ⟨r, t, r', t', ⟨⟩, ⟨⟩, ⟨h, -⟩ | ⟨-, h, -⟩⟩ <;> cases h

theorem shuffleLoop_length {count j : ℕ} {pos : ℤ} {ds ds' : List Draw}
    (h : shuffleLoop count pos ds = some (j, ds')) : ds'.length < ds.length := by
  induction ds with
  | nil => cases h
  | cons d ds ih =>
      rw [shuffleLoop] at h
      by_cases hd : (slot count d : ℤ) = pos
      · rw [if_pos hd] at h
        exact Nat.lt_succ_of_lt (ih h)
      · rw [if_neg hd] at h
        cases h
        exact Nat.lt_succ_self _

/-- With a request the queue goes to the next track, in every order. -/
theorem SameTracks.queue_forced (h : SameTracks q k s u) (order : PlayOrder) :
    folderQueueAdvance order true s = some (true, s.playAt ((k + 1) % q.length : ℕ)) := by
  have hlt := h.lt
  unfold folderQueueAdvance
  rw [if_neg (by rw [h.queue, h.pos]; omega), h.queue, h.pos, succ_mod_eq hlt]
  simp only [Bool.true_eq_false, and_false, or_true, if_true, if_false]

theorem next_eq_mod (hlt : k < q.length) :
    (if k + 1 < q.length then k + 1 else 0) = (k + 1) % q.length := by
  by_cases hend : k + 1 < q.length
  · rw [if_pos hend, Nat.mod_eq_of_lt hend]
  · obtain heq : k + 1 = q.length := by omega
    rw [if_neg hend, heq, Nat.mod_self]

/-- Drawing a track changes what `rand()` returns next. -/
theorem forced_ne_shuffle (h : SameTracks q k s u) (hmany : 1 < q.length) :
    folderQueueAdvance .shuffle true s ≠ folderQueueShuffle s := by
  rw [h.queue_forced, folderQueueShuffle, if_pos (by rw [h.queue]; exact hmany)]
  intro heq
  obtain ⟨⟨j, ds⟩, hloop, hstate⟩ := Option.map_eq_some_iff.mp heq.symm
  have hdraws : ds = s.draws := congrArg (fun r => r.2.draws) hstate
  exact absurd (hdraws ▸ shuffleLoop_length hloop) (lt_irrefl _)

theorem playlistAdvance_shuffle (h : SameTracks q k s u) (forced : Bool) :
    playlistAdvance .shuffle forced u = playlistShuffle u := by
  simp [playlistAdvance, h.selIndex]

/-- In `PLAY_SHUFFLE` the queue shuffles unless the next track is requested. -/
theorem mirrors_shuffle (h : SameTracks q k s u) :
    Mirrors .shuffle forced s u ↔ ¬ (forced = true ∧ 1 < q.length) := by
  have hlt := h.lt
  rw [Mirrors, if_pos rfl]
  cases forced with
  | true =>
      constructor
      · rintro ⟨hqueue, -⟩ ⟨-, hmany⟩
        exact forced_ne_shuffle h hmany hqueue
      · intro hnot
        have hone : ¬ 1 < q.length := fun hmany => hnot ⟨rfl, hmany⟩
        refine ⟨?_, playlistAdvance_shuffle h true⟩
        -- a single track
        have hlen : q.length = 1 := by omega
        have hk : k = 0 := by omega
        rw [h.queue_forced, folderQueueShuffle, if_neg (by rw [h.queue]; exact hone), h.pos, hk, hlen]
  | false =>
      refine ⟨fun _ hand => Bool.false_ne_true hand.1, fun _ => ⟨?_, playlistAdvance_shuffle h false⟩⟩
      unfold folderQueueAdvance
      rw [if_neg (by rw [h.queue, h.pos]; omega)]
      simp

/-- `PLAY_THROUGH` behind the test of `PLAY_SINGLE`: the playlist does not look at the request. -/
theorem playlistAdvance_through (h : SameTracks q k s u) (forced : Bool) :
    playlistAdvance .through forced u =
      if k + 1 < q.length then some (true, u.select (k + 1))
      else some (false, { u with selIndex := none }) := by
  simp [playlistAdvance, h.selIndex, h.music]

theorem mirrors_through (h : SameTracks q k s u) :
    Mirrors .through forced s u ↔ ¬ (forced = true ∧ k + 1 = q.length) := by
  have hlt := h.lt
  rw [Mirrors, if_neg nofun, playlistAdvance_through h]
  cases forced with
  -- forced, the two differ at the last track: the queue wraps around
  | true =>
      rw [h.queue_forced]
      by_cases hend : k + 1 < q.length
      · rw [if_pos hend, Nat.mod_eq_of_lt hend]
        exact ⟨fun _ hand => hend.ne hand.2, fun _ => h.agree (k + 1)⟩
      · rw [if_neg hend]
        have hlast : k + 1 = q.length := by omega
        exact ⟨fun hagree => absurd hagree (not_agree _ _), fun hnot => absurd ⟨rfl, hlast⟩ hnot⟩
  | false =>
      refine ⟨fun _ hand => Bool.false_ne_true hand.1, fun _ => ?_⟩
      have hqueue : folderQueueAdvance .through false s =
          if k + 1 < q.length then some (true, s.playAt ((k + 1 : ℕ) : ℤ)) else some (false, s) := by
        unfold folderQueueAdvance
        rw [if_neg (by rw [h.queue, h.pos]; omega), h.queue, h.pos]
        by_cases hend : k + 1 < q.length
        · rw [if_neg nofun, if_pos ⟨rfl, rfl⟩, if_neg (by omega), if_pos hend]
          push_cast
          rfl
        · rw [if_neg nofun, if_pos ⟨rfl, rfl⟩, if_pos (by omega), if_neg hend]
      rw [hqueue]
      by_cases hend : k + 1 < q.length
      · rw [if_pos hend, if_pos hend]
        exact h.agree (k + 1)
      · rw [if_neg hend, if_neg hend]
        exact agree_stop _ _

/-- In the other orders the queue mirrors the playlist. -/
theorem mirrors_other (h : SameTracks q k s u) (hshuffle : order ≠ .shuffle)
    (hthrough : order ≠ .through) : Mirrors order forced s u := by
  have hlt := h.lt
  rw [Mirrors, if_neg hshuffle]
  cases forced with
  -- forced, both go one track on, around the end
  | true =>
      have hplaylist : playlistAdvance order true u =
          some (true, u.select ((k + 1) % q.length)) := by
        rw [← next_eq_mod hlt]
        simp [playlistAdvance, h.selIndex, h.music, hshuffle, hthrough]
      rw [h.queue_forced, hplaylist]
      exact h.agree _
  | false =>
      unfold folderQueueAdvance
      rw [if_neg (by rw [h.queue, h.pos]; omega), h.queue, h.pos, succ_mod_eq hlt]
      cases order with
      | shuffle => exact absurd rfl hshuffle
      | through => exact absurd rfl hthrough
      | single =>
          have hplaylist : playlistAdvance .single false u = some (false, { u with selIndex := none }) := by
            simp [playlistAdvance, h.selIndex]
          rw [hplaylist]
          exact agree_stop _ _
      | continuous =>
          have hplaylist : playlistAdvance .continuous false u =
              some (true, u.select ((k + 1) % q.length)) := by
            rw [← next_eq_mod hlt]
            simp [playlistAdvance, h.selIndex, h.music]
          rw [hplaylist]
          exact h.agree _
      | loop =>
          have hplaylist : playlistAdvance .loop false u = some (true, u.select k) := by
            simp [playlistAdvance, h.selIndex]
          rw [hplaylist]
          exact h.agree k

/-- For all tracks, every play order, forced or not: the queue mirrors the playlist, unless the next
track is requested in `PLAY_SHUFFLE` (of more than one track) or behind the last one in
`PLAY_THROUGH`. -/
theorem mirrors_iff (h : SameTracks q k s u) (order : PlayOrder) (forced : Bool) :
    Mirrors order forced s u ↔
      ¬ (forced = true ∧ (order = .shuffle ∧ 1 < q.length ∨ order = .through ∧ k + 1 = q.length)) := by
  by_cases hshuffle : order = .shuffle
  · subst hshuffle
    simp [mirrors_shuffle h]
  by_cases hthrough : order = .through
  · subst hthrough
    simp [mirrors_through h]
  · simp [mirrors_other h hshuffle hthrough, hshuffle, hthrough]

section Sample

open Bytes

/-- A queue and a playlist of three tracks, at the last one. -/
def lastTrack : Tracks :=
  { sampleTracks with
    folderQueue := [ascii "a", ascii "b", ascii "c"]
    folderQueuePos := 2
    browserMusic := [ascii "a", ascii "b", ascii "c"]
    selIndex := some 2 }

theorem mirrors_iff_lastTrack : Mirrors .continuous true lastTrack lastTrack := by
  have hsame : SameTracks [ascii "a", ascii "b", ascii "c"] 2 lastTrack lastTrack :=
    ⟨rfl, rfl, rfl, rfl, by decide⟩
  exact (mirrors_iff hsame .continuous true).mpr (by decide)

/-- A request behind the last track, and one in `PLAY_SHUFFLE`. -/
theorem forced_disagrees :
    folderQueueAdvance .through true lastTrack = some (true, lastTrack.playAt 0) ∧
      playlistAdvance .through true lastTrack = some (false, { lastTrack with selIndex := none }) ∧
      folderQueueAdvance .shuffle true lastTrack = some (true, lastTrack.playAt 0) ∧
      folderQueueShuffle lastTrack ≠ some (true, lastTrack.playAt 0) ∧
      ¬ Mirrors .through true lastTrack lastTrack ∧ ¬ Mirrors .shuffle true lastTrack lastTrack := by
  have hqueue : folderQueueAdvance .through true lastTrack = some (true, lastTrack.playAt 0) := by
    decide +kernel
  have hplaylist : playlistAdvance .through true lastTrack =
      some (false, { lastTrack with selIndex := none }) := by decide +kernel
  have hforced : folderQueueAdvance .shuffle true lastTrack = some (true, lastTrack.playAt 0) := by
    decide +kernel
  have hshuffle : folderQueueShuffle lastTrack ≠ some (true, lastTrack.playAt 0) := by decide +kernel
  refine ⟨hqueue, hplaylist, hforced, hshuffle, fun hmirrors => ?_, fun hmirrors => ?_⟩
  · rw [Mirrors, if_neg nofun, hqueue, hplaylist] at hmirrors
    exact not_agree _ _ hmirrors
  · rw [Mirrors, if_pos rfl, hforced] at hmirrors
    exact hshuffle hmirrors.1.symm

end Sample

end WiiMC.Player
