import WiiMC.Player.Browser
import WiiMC.Lib.Transition
import Mathlib.Data.Fintype.Fin
import Mathlib.Tactic.Linarith

/-!
# The folder as a queue

`wiimc.cpp`: a song that is started from the browser takes the audio files of its folder along as a
queue, and `FindNextFile` walks the queue where the user has no playlist (`musicplaylist.cpp`) of
their own. What `FindNextFile` does to the highlighting of the browser is left out.

* `buildFolderQueue_spec`: the queue and the position behind `BuildFolderQueue`.
* `folderQueueAdvance_spec`: where the queue goes in each play order.
* `follows_of_exec`: any run of the calls.
* `folderQueue_iff`: what the listener hears, and for which folders.
-/

namespace WiiMC.Player

open Transition

/-- The play orders. -/
inductive PlayOrder
  | single | continuous | shuffle | loop | through
  deriving DecidableEq

/-- A result of `rand()`, between 0 and `RAND_MAX`. -/
abbrev Draw := Fin (2 ^ 31)

/-- There is some number that `rand` can return. -/
instance Draw.instNeZero : NeZero (2 ^ 31) := ⟨by decide⟩

def randMax : ℕ := 2 ^ 31 - 1

/-- `rand() / (RAND_MAX / count + 1)`. -/
def slot (count : ℕ) (d : Draw) : ℕ := d / (randMax / count + 1)

/-- The variables behind `FindNextFile`. -/
structure Tracks where
  browserDir : Text
  browser : List BrowserEntry
  /-- `menuCurrent == MENU_BROWSE_MUSIC`. -/
  browseMusic : Bool
  /-- The files of the user's playlist. -/
  browserMusic : List Text
  /-- `browserMusic.selIndex`, as an index. -/
  selIndex : Option ℕ
  shuffleList : List ℕ
  shuffleIndex : ℤ
  folderQueue : List Text
  folderQueuePos : ℤ
  forceNextFile : Bool
  loadedFile : Text
  /-- What `wiiLoadFile` has given to MPlayer. -/
  filename : Option Text
  /-- What `rand()` is going to return. -/
  draws : List Draw
  deriving DecidableEq

namespace Tracks

/-- `ClearFolderQueue`. -/
def clearFolderQueue (s : Tracks) : Tracks := { s with folderQueue := [], folderQueuePos := -1 }

/-- The queue goes to `pos` and its song is loaded. -/
def playAt (s : Tracks) (pos : ℤ) : Tracks :=
  { s with folderQueuePos := pos, loadedFile := s.folderQueue.getD pos.toNat [] }

/-- The playlist goes to `k`. -/
def select (s : Tracks) (k : ℕ) : Tracks :=
  { s with selIndex := some k, loadedFile := s.browserMusic.getD k [] }

end Tracks

/-- `FOLDER_QUEUE_MAX`. -/
def folderQueueMax : ℕ := 4096

/-- The loop of `BuildFolderQueue`; `alloc` says which allocations succeed. `none` where a full path
is written past the end of `path`. -/
def queueLoop (dir loadedFile : Text) (alloc : ℕ → Bool) (max : ℕ) :
    List BrowserEntry → List Text → ℤ → Option (List Text × ℤ)
  | [], queue, pos => some (queue, pos)
  | e :: es, queue, pos =>
      if max ≤ queue.length then some (queue, pos)
      else match e.song? with
      | none => queueLoop dir loadedFile alloc max es queue pos
      | some file => (fullPathIn maxPathLen dir file).bind fun path =>
          if path = [] then queueLoop dir loadedFile alloc max es queue pos
          -- no mem, keep what we have
          else if alloc (queue.length + 1) = false then some (queue, pos)
          else queueLoop dir loadedFile alloc max es (queue ++ [path])
            (if path = loadedFile then queue.length else pos)

/-- `BuildFolderQueue`; `none` where it writes past the end of `path`. -/
def buildFolderQueue (alloc : ℕ → Bool) (s : Tracks) : Option Tracks :=
  if s.browseMusic = false ∨ 0 < s.browserMusic.length then some s.clearFolderQueue
  else if s.browser.length = 0 ∨ alloc 0 = false then some s.clearFolderQueue
  else
    (queueLoop s.browserDir s.loadedFile alloc (min s.browser.length folderQueueMax)
      s.browser [] (-1)).map fun r =>
        if r.2 < 0 then s.clearFolderQueue
        else { s with folderQueue := r.1, folderQueuePos := r.2 }

/-- The loop of `FolderQueueAdvance` that draws another position; `none` where `rand()` has to
return more. -/
def shuffleLoop (count : ℕ) (pos : ℤ) : List Draw → Option (ℕ × List Draw)
  | [] => none
  | d :: ds => if (slot count d : ℤ) = pos then shuffleLoop count pos ds else some (slot count d, ds)

/-- The shuffle of `FolderQueueAdvance`. -/
def folderQueueShuffle (s : Tracks) : Option (Bool × Tracks) :=
  if 1 < s.folderQueue.length then
    (shuffleLoop s.folderQueue.length s.folderQueuePos s.draws).map fun r =>
      (true, { s with draws := r.2 }.playAt r.1)
  else some (true, s.playAt s.folderQueuePos)

/-- `FolderQueueAdvance`. -/
def folderQueueAdvance (order : PlayOrder) (forced : Bool) (s : Tracks) : Option (Bool × Tracks) :=
  if s.folderQueue.length = 0 ∨ s.folderQueuePos < 0 then some (false, s)
  else if order = .single ∧ forced = false then some (false, s)
  else if order = .through ∧ forced = false then
    if (s.folderQueue.length : ℤ) ≤ s.folderQueuePos + 1 then some (false, s)
    else some (true, s.playAt (s.folderQueuePos + 1))
  else if order = .shuffle ∧ forced = false then folderQueueShuffle s
  else if order ≠ .loop ∨ forced = true then
    some (true, s.playAt
      (if (s.folderQueue.length : ℤ) ≤ s.folderQueuePos + 1 then 0 else s.folderQueuePos + 1))
  else some (true, s.playAt s.folderQueuePos)

/-- `RequestNextFile`. -/
def requestNextFile (s : Tracks) : Tracks := { s with forceNextFile := true }

/-- The loop that shuffles the list of `MusicPlaylistGetNextShuffle` (`musicplaylist.cpp`). -/
def swapLoop (num : ℕ) : ℕ → List ℕ → List Draw → Option (List ℕ × List Draw)
  | 0, list, ds => some (list, ds)
  | _ + 1, _, [] => none
  | n + 1, list, d :: ds =>
      -- `i` is `num - 1 - (n + 1)`
      let i := num - 1 - (n + 1)
      let j := i + slot (num - i) d
      swapLoop num n ((list.set i (list.getD j 0)).set j (list.getD i 0)) ds

/-- What the player sees of `MusicPlaylistGetNextShuffle`, which goes along the entries of the
playlist: the index of the entry that is returned. `none` where `rand()` has to return more, or outside
of the list. -/
def Tracks.nextShuffle (s : Tracks) : Option (ℕ × Tracks) :=
  let next (s : Tracks) : Option (ℕ × Tracks) :=
    (s.shuffleList[s.shuffleIndex.toNat]?).bind fun k =>
      if k < s.browserMusic.length then
        some (k, { s with shuffleIndex := s.shuffleIndex + 1 })
      else none
  if s.shuffleIndex = -1 ∨ (s.browserMusic.length : ℤ) ≤ s.shuffleIndex then
    (swapLoop s.browserMusic.length (s.browserMusic.length - 1) (List.range s.browserMusic.length)
      s.draws).bind fun r => next { s with shuffleList := r.1, shuffleIndex := 0, draws := r.2 }
  else next s

/-- The shuffle of the playlist. -/
def playlistShuffle (s : Tracks) : Option (Bool × Tracks) :=
  s.nextShuffle.map fun r => (true, r.2.select r.1)

/-- The playlist branch of `FindNextFile`. -/
def playlistAdvance (order : PlayOrder) (forced : Bool) (s : Tracks) : Option (Bool × Tracks) :=
  if forced = false ∧ order = .single ∧ s.selIndex ≠ none then
    some (false, { s with selIndex := none })
  else if order = .through then
    match s.selIndex with
    | none => some (false, s)
    | some k =>
        if k + 1 < s.browserMusic.length then some (true, s.select (k + 1))
        else some (false, { s with selIndex := none })
  else match s.selIndex with
  | none => some (true, s.select 0)
  | some k =>
      if order = .continuous ∨ (forced = true ∧ order ≠ .shuffle) then
        some (true, s.select (if k + 1 < s.browserMusic.length then k + 1 else 0))
      else if order = .shuffle then playlistShuffle s
      else some (true, s.select k)

/-- The end of `FindNextFile`. -/
def Tracks.load (s : Tracks) (load : Bool) : Tracks :=
  if load then { s with filename := some s.loadedFile } else s

/-- `FindNextFile`, with the `playOrder` and the `controlledbygui` that it finds. -/
def findNextFile (order : PlayOrder) (controlledbygui : ℕ) (load : Bool) (s : Tracks) :
    Option (Bool × Tracks) :=
  let forced := s.forceNextFile
  let s := { s with forceNextFile := false }
  if controlledbygui = 2 then some (false, s)
  else if controlledbygui = 0 then
    if load = false then some (false, s) else some (true, s.load load)
  else if s.browserMusic.length = 0 then
    (folderQueueAdvance order forced s).map fun r =>
      if r.1 = false then (false, { r.2 with selIndex := none }) else (true, r.2.load load)
  else
    (playlistAdvance order forced s).map fun r =>
      if r.1 = false then (false, r.2) else (true, r.2.load load)

/-! ## Building the queue -/

section Build

variable {x : Text} {alloc : ℕ → Bool} {q : List Text} {pos : ℤ}

/-- `pos` is the last place of `x`, or -1 without one. -/
def LastAt (x : Text) (q : List Text) (pos : ℤ) : Prop :=
  (∃ p : ℕ, pos = p ∧ q[p]? = some x ∧ ∀ j, q[j]? = some x → j ≤ p) ∨ (pos = -1 ∧ x ∉ q)

/-- When a path is added, the last place of a file is the new one or the old one. -/
theorem LastAt.append (h : LastAt x q pos) (path : Text) :
    LastAt x (q ++ [path]) (if path = x then q.length else pos) := by
  have hlt : ∀ {j : ℕ}, (q ++ [path])[j]? = some x → j ≤ q.length := by
    intro j hj
    have hj' := (List.getElem?_eq_some_iff.mp hj).1
    rw [List.length_append, List.length_singleton] at hj'
    omega
  by_cases hpath : path = x
  · rw [if_pos hpath]
    exact Or.inl ⟨q.length, rfl, by rw [List.getElem?_concat_length, hpath], fun j => hlt⟩
  rw [if_neg hpath]
  -- the new path is another one
  have hold : ∀ {j : ℕ}, (q ++ [path])[j]? = some x → q[j]? = some x := by
    intro j hj
    rcases (hlt hj).lt_or_eq with hlt | rfl
    · rwa [List.getElem?_append_left hlt] at hj
    · rw [List.getElem?_concat_length] at hj
      exact absurd (Option.some.inj hj) hpath
  rcases h with ⟨p, hpos, hp, hlast⟩ | ⟨hpos, hnot⟩
  · refine Or.inl ⟨p, hpos, ?_, fun j hj => hlast j (hold hj)⟩
    rw [List.getElem?_append_left (List.getElem?_eq_some_iff.mp hp).1, hp]
  · refine Or.inr ⟨hpos, fun hmem => ?_⟩
    rcases List.mem_append.mp hmem with h | h
    · exact hnot h
    · exact hpath (List.mem_singleton.mp h).symm

/-- The songs of a listing, entry by entry. -/
theorem songPaths_cons (dir : Text) (e : BrowserEntry) (es : List BrowserEntry) :
    songPaths dir (e :: es) = (e.song?.map (getFullPath dir)).toList ++ songPaths dir es := by
  rw [songPaths, List.filterMap_cons]
  cases e.song?.map (getFullPath dir) <;> rfl

/-- A song has the extension of an audio file. -/
theorem isAudioExt_of_song? {e : BrowserEntry} {file : Text} (h : e.song? = some file) :
    isAudioExt (getExt file) = true := by
  unfold BrowserEntry.song? at h
  split at h
  · split_ifs at h with haudio
    cases h
    exact haudio
  · cases h

/-- The songs of `paths` for which there is still room in a queue of `max`. -/
def room (max : ℕ) (q paths : List Text) : List Text := paths.take (max - q.length)

/-- A path that finds room is put at the end of the queue. -/
theorem room_cons {max : ℕ} (hlt : q.length < max) (path : Text) (paths : List Text) :
    room max q (path :: paths) = path :: room max (q ++ [path]) paths := by
  obtain ⟨k, hk⟩ : ∃ k, max - q.length = k + 1 := ⟨max - q.length - 1, by omega⟩
  have hk' : max - (q ++ [path]).length = k := by
    rw [List.length_append, List.length_singleton]
    omega
  rw [room, room, hk, hk', List.take_succ_cons]

/-- The loop appends the songs of the listing, as long as there is room, and gets to its end if the
path of each of them fits. -/
theorem queueLoop_spec (dir : Text) (halloc : ∀ k, alloc k = true) {max : ℕ}
    (es : List BrowserEntry) (hq : LastAt x q pos) (hmax : q.length ≤ max) :
    (∀ r, queueLoop dir x alloc max es q pos = some r →
        r.1 = q ++ room max q (songPaths dir es) ∧ LastAt x r.1 r.2) ∧
      ((queueLoop dir x alloc max es q pos).isSome = true ↔
        ∀ path ∈ room max q (songPaths dir es), path.length < maxPathLen) := by
  -- The induction carries the queue built so far.
  induction es generalizing q pos with
  | nil =>
      refine ⟨fun r hr => ?_, by simp [queueLoop, room, songPaths]⟩
      cases hr
      exact ⟨by simp [room, songPaths], hq⟩
  | cons e es ih =>
      rw [queueLoop]
      -- a full queue takes no more, as the loop's test says
      by_cases hfull : max ≤ q.length
      · have hroom : room max q (songPaths dir (e :: es)) = [] := by
          rw [room, Nat.sub_eq_zero_of_le hfull, List.take_zero]
        rw [if_pos hfull, hroom, List.append_nil]
        refine ⟨fun r hr => ?_, by simp⟩
        cases hr
        exact ⟨rfl, hq⟩
      rw [if_neg hfull, songPaths_cons]
      cases hsong : e.song? with
      | none => exact ih hq hmax
      | some file =>
          have hne : getFullPath dir file ≠ [] := getFullPath_ne_nil (isAudioExt_of_song? hsong)
          have hnext := ih (hq.append (getFullPath dir file)) (by
            rw [List.length_append, List.length_singleton]
            omega)
          have hroom := room_cons (by omega : q.length < max) (getFullPath dir file)
            (songPaths dir es)
          simp only [Option.map_some, Option.toList_some, List.singleton_append, hroom,
            List.forall_mem_cons]
          by_cases hfits : (getFullPath dir file).length < maxPathLen
          · have hpath : fullPathIn maxPathLen dir file = some (getFullPath dir file) :=
              if_pos hfits
            simp only [hpath, Option.bind_some, if_neg hne, halloc, Bool.true_eq_false, if_false]
            refine ⟨fun r hr => ?_, hnext.2.trans (and_iff_right hfits).symm⟩
            obtain ⟨hqueue, hlast⟩ := hnext.1 r hr
            exact ⟨by rw [hqueue, List.append_assoc, List.singleton_append], hlast⟩
          · -- the array is overrun by this entry
            have hpath : fullPathIn maxPathLen dir file = none := if_neg hfits
            simp only [hpath, Option.bind_none]
            refine ⟨?_, iff_of_false Bool.false_ne_true fun h => hfits h.1⟩
            rintro r ⟨⟩

/-- There are no more songs than entries. -/
theorem length_songPaths_le (dir : Text) (es : List BrowserEntry) :
    (songPaths dir es).length ≤ es.length :=
  List.length_filterMap_le ..

/-- The songs of the listing for which the queue has room. -/
def Tracks.songs (s : Tracks) : List Text := (songPaths s.browserDir s.browser).take folderQueueMax

/-- `BuildFolderQueue` returns if the path of every song fits; then the queue holds the songs of the
folder, and stands at the song that is started, at the last place of it. -/
theorem buildFolderQueue_spec (halloc : ∀ k, alloc k = true) {s : Tracks}
    (hmenu : s.browseMusic = true) (hnone : s.browserMusic = []) (hsong : s.loadedFile ∈ s.songs) :
    (∀ t, buildFolderQueue alloc s = some t →
        ∃ p : ℕ, t = { s with folderQueue := s.songs, folderQueuePos := p } ∧
          s.songs[p]? = some s.loadedFile ∧
          ∀ j, s.songs[j]? = some s.loadedFile → j ≤ p) ∧
      ((buildFolderQueue alloc s).isSome = true ↔ ∀ path ∈ s.songs, path.length < maxPathLen) := by
  have hempty : LastAt s.loadedFile [] (-1) := Or.inr ⟨rfl, List.not_mem_nil⟩
  -- The queue is as long as the listing, so it takes every song up to its maximum.
  have hroom : room (min s.browser.length folderQueueMax) [] (songPaths s.browserDir s.browser) =
      s.songs := by
    have hle := length_songPaths_le s.browserDir s.browser
    rw [room, List.length_nil, Nat.sub_zero, Nat.min_comm, ← List.take_take,
      List.take_of_length_le hle, Tracks.songs]
  obtain ⟨hloop, hret⟩ := queueLoop_spec s.browserDir halloc s.browser hempty
    (Nat.zero_le (min s.browser.length folderQueueMax))
  rw [hroom] at hret
  have hbrowser : s.browser.length ≠ 0 := by
    intro hzero
    rw [Tracks.songs, List.length_eq_zero_iff.mp hzero] at hsong
    exact absurd (List.mem_of_mem_take hsong) List.not_mem_nil
  unfold buildFolderQueue
  rw [if_neg (by simp [hmenu, hnone]), if_neg (by simp [hbrowser, halloc]), Option.isSome_map]
  refine ⟨fun t ht => ?_, hret⟩
  obtain ⟨⟨queue, pos⟩, hr, rfl⟩ := Option.map_eq_some_iff.mp ht
  obtain ⟨hqueue, hlast⟩ := hloop _ hr
  rw [hroom, List.nil_append] at hqueue
  change queue = s.songs at hqueue
  subst hqueue
  -- the song that plays is listed, so the position is the last place it has
  rcases hlast with ⟨p, rfl, hp, hlast⟩ | ⟨-, hnot⟩
  · exact ⟨p, if_neg (by simp), hp, hlast⟩
  · exact absurd hsong hnot

end Build

/-! ## One call -/

section Call

variable {order : PlayOrder} {forced r : Bool} {q : List Text} {n p p' : ℕ} {s t : Tracks}

/-- A draw gives an index into the queue. -/
theorem slot_lt {count : ℕ} (hcount : 0 < count) (d : Draw) : slot count d < count := by
  unfold slot
  rw [Nat.div_lt_iff_lt_mul (Nat.succ_pos _)]
  have hd : (d : ℕ) ≤ randMax := Nat.le_of_lt_succ d.isLt
  calc (d : ℕ) ≤ randMax := hd
    _ < count * (randMax / count + 1) := by
      rw [Nat.mul_comm]
      exact Nat.lt_mul_of_div_lt (Nat.lt_succ_self _) hcount

/-- The loop ends at the first draw of another position. -/
theorem shuffleLoop_spec {count k : ℕ} {pos : ℤ} {ds ds' : List Draw}
    (h : shuffleLoop count pos ds = some (k, ds')) : (k : ℤ) ≠ pos ∧ ∃ d, k = slot count d := by
  induction ds with
  | nil => cases h
  | cons d ds ih =>
      rw [shuffleLoop] at h
      by_cases hd : (slot count d : ℤ) = pos
      · rw [if_pos hd] at h
        exact ih h
      · rw [if_neg hd] at h
        cases h
        exact ⟨hd, d, rfl⟩

/-- The loop ends if some draw gives another track. -/
theorem shuffleLoop_isSome {count : ℕ} {pos : ℤ} {ds : List Draw}
    (h : ∃ d ∈ ds, (slot count d : ℤ) ≠ pos) : (shuffleLoop count pos ds).isSome = true := by
  induction ds with
  | nil => simp at h
  | cons d ds ih =>
      rw [shuffleLoop]
      by_cases hd : (slot count d : ℤ) = pos
      · rw [if_pos hd]
        refine ih ?_
        obtain ⟨d', hmem, hne⟩ := h
        rcases List.mem_cons.mp hmem with rfl | hmem
        · exact absurd hd hne
        · exact ⟨d', hmem, hne⟩
      · rw [if_neg hd]
        rfl

/-- Where a queue of `n` songs goes from `p`, and whether anything follows. -/
def Goes (order : PlayOrder) (forced : Bool) (n p : ℕ) (r : Bool) (p' : ℕ) : Prop :=
  if forced = true then r = true ∧ p' = (p + 1) % n
  else match order with
  | .single => r = false ∧ p' = p
  | .continuous => r = true ∧ p' = (p + 1) % n
  | .shuffle => r = true ∧ (1 < n → p' ≠ p)
  | .loop => r = true ∧ p' = p
  | .through => if p + 1 < n then r = true ∧ p' = p + 1 else r = false ∧ p' = p

/-- With and without a request, `PLAY_CONTINUOUS` goes to the next song. -/
theorem goes_continuous :
    Goes .continuous forced n p r p' ↔ r = true ∧ p' = (p + 1) % n := by
  cases forced <;> exact Iff.rfl

/-- The queue `q` stands at the song `p`, which is loaded; there is no playlist. -/
structure OnQueue (q : List Text) (p : ℕ) (s : Tracks) : Prop where
  queue : s.folderQueue = q
  pos : s.folderQueuePos = p
  loaded : q[p]? = some s.loadedFile
  music : s.browserMusic = []

/-- The position is an index into the queue. -/
theorem OnQueue.lt (h : OnQueue q p s) : p < q.length :=
  (List.getElem?_eq_some_iff.mp h.loaded).1

/-- The queue goes to another song of it. -/
theorem OnQueue.playAt (h : OnQueue q p s) (hp' : p' < q.length) : OnQueue q p' (s.playAt p') where
  queue := h.queue
  pos := rfl
  loaded := by
    show q[p']? = some (s.folderQueue.getD p' [])
    rw [h.queue, List.getD_eq_getElem?_getD, List.getElem?_eq_getElem hp', Option.getD_some]
  music := h.music

/-- Going on behind the last track begins with the first one. -/
theorem succ_mod_eq (hp : p < n) :
    (if (n : ℤ) ≤ (p : ℤ) + 1 then 0 else (p : ℤ) + 1) = ((p + 1) % n : ℕ) := by
  by_cases hend : n ≤ p + 1
  · obtain rfl : n = p + 1 := by omega
    rw [if_pos (by push_cast; rfl), Nat.mod_self]
    rfl
  · rw [if_neg (by omega), Nat.mod_eq_of_lt (by omega)]
    push_cast
    rfl

/-- `FolderQueueAdvance` follows the play order, and does nothing to the request. -/
theorem folderQueueAdvance_spec (h : OnQueue q p s)
    (hadv : folderQueueAdvance order forced s = some (r, t)) :
    ∃ p', OnQueue q p' t ∧ Goes order forced q.length p r p' ∧
      t.forceNextFile = s.forceNextFile := by
  have hlt := h.lt
  have hnext : (p + 1) % q.length < q.length := Nat.mod_lt _ (by omega)
  unfold folderQueueAdvance at hadv
  rw [if_neg (by rw [h.queue, h.pos]; omega), h.queue, h.pos, succ_mod_eq hlt] at hadv
  cases forced with
  -- forced: one step, around the end, whatever the order is
  | true =>
      simp only [Bool.true_eq_false, and_false, or_true, if_true, if_false] at hadv
      cases hadv
      exact ⟨_, h.playAt hnext, ⟨rfl, rfl⟩, rfl⟩
  | false =>
      simp only [and_true, Bool.false_eq_true, or_false] at hadv
      cases order with
      | single =>
          cases hadv
          exact ⟨p, h, ⟨rfl, rfl⟩, rfl⟩
      | continuous =>
          cases hadv
          exact ⟨_, h.playAt hnext, ⟨rfl, rfl⟩, rfl⟩
      | loop =>
          cases hadv
          exact ⟨p, h.playAt hlt, ⟨rfl, rfl⟩, rfl⟩
      -- at the last track the queue is left as it is
      | through =>
          simp only [reduceCtorEq, if_false, if_true] at hadv
          by_cases hend : (q.length : ℤ) ≤ (p : ℤ) + 1
          · rw [if_pos hend] at hadv
            cases hadv
            exact ⟨p, h, by simp [Goes]; omega, rfl⟩
          · rw [if_neg hend] at hadv
            cases hadv
            have hlt' : p + 1 < q.length := by omega
            exact ⟨p + 1, h.playAt hlt', by simp [Goes, hlt'], rfl⟩
      -- the draw is repeated until it gives another track
      | shuffle =>
          simp only [reduceCtorEq, if_false, if_true] at hadv
          rw [folderQueueShuffle] at hadv
          by_cases hone : 1 < s.folderQueue.length
          · rw [if_pos hone] at hadv
            obtain ⟨⟨k, ds⟩, hloop, hrt⟩ := Option.map_eq_some_iff.mp hadv
            cases hrt
            obtain ⟨hne, d, hk⟩ := shuffleLoop_spec hloop
            have hk : k < q.length := h.queue ▸ hk ▸ slot_lt (by omega) d
            have hdraws : OnQueue q p { s with draws := ds } := ⟨h.queue, h.pos, h.loaded, h.music⟩
            exact ⟨k, hdraws.playAt hk, ⟨rfl, fun _ heq => hne (by rw [heq, h.pos])⟩, rfl⟩
          · rw [if_neg hone, h.pos] at hadv
            cases hadv
            exact ⟨p, h.playAt hlt, ⟨rfl, fun hone' => absurd (h.queue ▸ hone') hone⟩, rfl⟩

/-- The call returns unless it has to draw another song and `rand()` does not give one. -/
def Returns (order : PlayOrder) (forced : Bool) (n p : ℕ) (ds : List Draw) : Prop :=
  order ≠ .shuffle ∨ forced = true ∨ n ≤ 1 ∨ ∃ d ∈ ds, slot n d ≠ p

/-- Advancing returns if the draws let it. -/
theorem folderQueueAdvance_isSome (h : OnQueue q p s)
    (hret : Returns order forced q.length p s.draws) :
    (folderQueueAdvance order forced s).isSome = true := by
  unfold folderQueueAdvance
  rcases hret with horder | hforced | hone | ⟨d, hd, hne⟩
  · simp only [horder, false_and, if_false]
    split_ifs <;> rfl
  · simp only [hforced, Bool.true_eq_false, and_false, if_false, or_true, if_true]
    split_ifs <;> rfl
  · have hnot : ¬ 1 < s.folderQueue.length := by
      rw [h.queue]
      omega
    rw [folderQueueShuffle, if_neg hnot]
    split_ifs <;> rfl
  · have hloop : (shuffleLoop s.folderQueue.length s.folderQueuePos s.draws).isSome = true := by
      rw [h.queue, h.pos]
      exact shuffleLoop_isSome ⟨d, hd, by exact_mod_cast hne⟩
    rw [folderQueueShuffle]
    split_ifs <;> first | rfl | (rw [Option.isSome_map]; exact hloop)

/-- Whether `FindNextFile` looks for another song: no stop has been requested, and no video is
playing. -/
def Audio (controlledbygui : ℕ) : Prop := controlledbygui ≠ 2 ∧ controlledbygui ≠ 0

/-- Whether an audio file is played is decided by `controlledbygui`. -/
instance (controlledbygui : ℕ) : Decidable (Audio controlledbygui) :=
  inferInstanceAs (Decidable (_ ∧ _))

variable {controlledbygui : ℕ} {load : Bool}

/-- The variables of the queue do not change. -/
theorem OnQueue.of_eq (h : OnQueue q p s) (hqueue : t.folderQueue = s.folderQueue)
    (hpos : t.folderQueuePos = s.folderQueuePos) (hfile : t.loadedFile = s.loadedFile)
    (hmusic : t.browserMusic = s.browserMusic) : OnQueue q p t :=
  ⟨hqueue.trans h.queue, hpos.trans h.pos, hfile.symm ▸ h.loaded, hmusic.trans h.music⟩

/-- Loading the track stays on the queue. -/
theorem OnQueue.loadFile (h : OnQueue q p s) (load : Bool) : OnQueue q p (s.load load) := by
  unfold Tracks.load
  split_ifs
  · exact h.of_eq rfl rfl rfl rfl
  · exact h

/-- Loading the track leaves the request as it is. -/
theorem forceNextFile_load (s : Tracks) (load : Bool) :
    (s.load load).forceNextFile = s.forceNextFile := by
  unfold Tracks.load
  split_ifs <;> rfl

theorem filename_load (s : Tracks) : (s.load true).filename = some (s.load true).loadedFile := rfl

/-- `FindNextFile` consumes the request, and follows the play order. -/
theorem findNextFile_spec (h : OnQueue q p s)
    (hfind : findNextFile order controlledbygui load s = some (r, t)) :
    ∃ p', OnQueue q p' t ∧ t.forceNextFile = false ∧ (¬ Audio controlledbygui → p' = p) ∧
      (Audio controlledbygui → Goes order s.forceNextFile q.length p r p' ∧
        (r = true → load = true → t.filename = some t.loadedFile)) := by
  -- The request is cleared in any case; a stop and a video leave the queue alone.
  have hclear : OnQueue q p { s with forceNextFile := false } := h.of_eq rfl rfl rfl rfl
  unfold findNextFile at hfind
  simp only at hfind
  by_cases hstop : controlledbygui = 2
  · rw [if_pos hstop] at hfind
    cases hfind
    exact ⟨p, hclear, rfl, fun _ => rfl, fun haudio => absurd hstop haudio.1⟩
  rw [if_neg hstop] at hfind
  by_cases hvideo : controlledbygui = 0
  · rw [if_pos hvideo] at hfind
    have hnot : Audio controlledbygui → False := fun haudio => haudio.2 hvideo
    cases load with
    | false =>
        cases hfind
        exact ⟨p, hclear, rfl, fun _ => rfl, fun haudio => (hnot haudio).elim⟩
    | true =>
        cases hfind
        exact ⟨p, hclear.loadFile true, rfl, fun _ => rfl, fun haudio => (hnot haudio).elim⟩
  rw [if_neg hvideo, if_pos (by rw [h.music]; rfl)] at hfind
  obtain ⟨⟨r', u⟩, hadv, hrt⟩ := Option.map_eq_some_iff.mp hfind
  obtain ⟨p', hu, hgoes, hforce⟩ := folderQueueAdvance_spec hclear hadv
  refine ⟨p', ?_⟩
  cases r' with
  | false =>
      cases hrt
      exact ⟨hu.of_eq rfl rfl rfl rfl, hforce, fun hnot => absurd ⟨hstop, hvideo⟩ hnot,
        fun _ => ⟨hgoes, nofun⟩⟩
  | true =>
      cases hrt
      refine ⟨hu.loadFile load, (forceNextFile_load u load).trans hforce,
        fun hnot => absurd ⟨hstop, hvideo⟩ hnot, fun _ => ⟨hgoes, fun _ hload => ?_⟩⟩
      subst hload
      exact filename_load u

/-- `FindNextFile` returns if the draws let it. -/
theorem findNextFile_isSome (h : OnQueue q p s)
    (hret : Returns order s.forceNextFile q.length p s.draws) :
    (findNextFile order controlledbygui load s).isSome = true := by
  have hclear : OnQueue q p { s with forceNextFile := false } := h.of_eq rfl rfl rfl rfl
  have hmusic : s.browserMusic.length = 0 := by rw [h.music]; rfl
  unfold findNextFile
  simp only [hmusic, if_true]
  split_ifs
  · rfl
  · rfl
  · rfl
  · rw [Option.isSome_map]
    exact folderQueueAdvance_isSome hclear hret

end Call

/-! ## Runs -/

/-- A call, or a change of the listing. -/
inductive Call
  | request
  | find (order : PlayOrder) (controlledbygui : ℕ) (load : Bool)
  | browse (dir : Text) (entries : List BrowserEntry)
  deriving DecidableEq

/-- The effect of a call. -/
def callStep (s : Tracks) : Call → Option Tracks
  | .request => some (requestNextFile s)
  | .find order controlledbygui load => (findNextFile order controlledbygui load s).map Prod.snd
  | .browse dir entries => some { s with browserDir := dir, browser := entries }

/-- The calls behind the start of a song. -/
def calls (start : Tracks) : System Tracks Call where
  init s := s = start
  step := callStep

/-- How many calls have looked for another song. -/
def advances (cs : List Call) : ℕ :=
  cs.countP fun
    | .find _ controlledbygui _ => decide (Audio controlledbygui)
    | _ => false

/-- Whether a request is pending behind the calls. -/
def pending (forced : Bool) (cs : List Call) : Bool :=
  cs.foldl (fun forced c => match c with
    | .request => true
    | .find _ _ _ => false
    | .browse _ _ => forced) forced

/-- All calls find this play order. -/
def AllInOrder (order : PlayOrder) (cs : List Call) : Prop :=
  ∀ c ∈ cs, ∀ o controlledbygui load, c = .find o controlledbygui load → o = order

section Run

variable {order : PlayOrder} {q : List Text} {p : ℕ} {s t start : Tracks} {cs : List Call}
  {c : Call}

/-- One call moves the queue as the play order says, if it looks for another song, and not at all
otherwise. -/
theorem callStep_spec (h : OnQueue q p s) (hstep : callStep s c = some t) :
    ∃ p', OnQueue q p' t ∧ t.forceNextFile = pending s.forceNextFile [c] ∧
      (advances [c] = 0 ∧ p' = p ∨ advances [c] = 1 ∧
        ∃ order controlledbygui load r, c = .find order controlledbygui load ∧
          Goes order s.forceNextFile q.length p r p') := by
  cases c with
  | request =>
      cases hstep
      exact ⟨p, h.of_eq rfl rfl rfl rfl, rfl, Or.inl ⟨rfl, rfl⟩⟩
  | browse dir entries =>
      cases hstep
      exact ⟨p, h.of_eq rfl rfl rfl rfl, rfl, Or.inl ⟨rfl, rfl⟩⟩
  | find order controlledbygui load =>
      obtain ⟨⟨r, u⟩, hfind, rfl⟩ := Option.map_eq_some_iff.mp hstep
      obtain ⟨p', hu, hforce, hnot, haudio⟩ := findNextFile_spec h hfind
      refine ⟨p', hu, hforce, ?_⟩
      by_cases hcase : Audio controlledbygui
      · exact Or.inr ⟨by simp [advances, hcase], order, controlledbygui, load, r, rfl, (haudio hcase).1⟩
      · exact Or.inl ⟨by simp [advances, hcase], hnot hcase⟩

/-- The calls that advance are counted one by one. -/
theorem advances_cons (c : Call) (cs : List Call) :
    advances (c :: cs) = advances [c] + advances cs := by
  rw [advances, advances, advances, List.countP_cons, List.countP_singleton]
  omega

/-- Where the queue stands behind the calls: `PLAY_CONTINUOUS` goes round; without a request,
`PLAY_THROUGH` stays at the last song, and `PLAY_LOOP` and `PLAY_SINGLE` stay. -/
structure Reached (n p : ℕ) (forced : Bool) (cs : List Call) (p' : ℕ) : Prop where
  continuous : AllInOrder .continuous cs → p' = (p + advances cs) % n
  through : forced = false → .request ∉ cs → AllInOrder .through cs →
    p' = min (p + advances cs) (n - 1)
  stays : forced = false → .request ∉ cs → AllInOrder .loop cs ∨ AllInOrder .single cs → p' = p

/-- The rest of such calls are such calls. -/
theorem AllInOrder.tail (h : AllInOrder order (c :: cs)) : AllInOrder order cs :=
  fun c' hc' => h c' (List.mem_cons_of_mem c hc')

/-- Only a request is pending behind itself. -/
theorem pending_singleton_false (hc : c ≠ .request) : pending false [c] = false := by
  cases c with
  | request => exact absurd rfl hc
  | find order controlledbygui load => rfl
  | browse dir entries => rfl

/-- A call in front of others. -/
theorem Reached.cons {n p₁ p' : ℕ} {forced : Bool} (hp : p < n) (hp₁ : p₁ < n)
    (hstep : advances [c] = 0 ∧ p₁ = p ∨ advances [c] = 1 ∧
      ∃ order controlledbygui load r, c = .find order controlledbygui load ∧
        Goes order forced n p r p₁)
    (h : Reached n p₁ (pending forced [c]) cs p') : Reached n p forced (c :: cs) p' where
  -- One call goes on by one, or stays; the rest goes on from there.
  continuous horder := by
    rw [h.continuous horder.tail, advances_cons]
    rcases hstep with ⟨hzero, rfl⟩ | ⟨hone, o, cg, load, r, rfl, hgoes⟩
    · rw [hzero, Nat.zero_add]
    · obtain rfl := horder _ List.mem_cons_self o cg load rfl
      rw [hone, (goes_continuous.mp hgoes).2, Nat.mod_add_mod, Nat.add_assoc]
  through hforced hreq horder := by
    subst hforced
    have hc : c ≠ .request := fun h => hreq (h ▸ List.mem_cons_self)
    have hcs : Call.request ∉ cs := fun h => hreq (List.mem_cons_of_mem c h)
    rw [h.through (pending_singleton_false hc) hcs horder.tail, advances_cons]
    rcases hstep with ⟨hzero, rfl⟩ | ⟨hone, o, cg, load, r, rfl, hgoes⟩
    · rw [hzero, Nat.zero_add]
    · obtain rfl := horder _ List.mem_cons_self o cg load rfl
      simp only [Goes, Bool.false_eq_true, if_false] at hgoes
      split_ifs at hgoes <;> omega
  stays hforced hreq horder := by
    subst hforced
    have hc : c ≠ .request := fun h => hreq (h ▸ List.mem_cons_self)
    have hcs : Call.request ∉ cs := fun h => hreq (List.mem_cons_of_mem c h)
    rw [h.stays (pending_singleton_false hc) hcs (horder.imp AllInOrder.tail AllInOrder.tail)]
    rcases hstep with ⟨-, rfl⟩ | ⟨-, o, cg, load, r, rfl, hgoes⟩
    · rfl
    · rcases horder with horder | horder
      · obtain rfl := horder _ List.mem_cons_self o cg load rfl
        exact hgoes.2
      · obtain rfl := horder _ List.mem_cons_self o cg load rfl
        exact hgoes.2

/-- Any run of calls and changes of the listing. -/
theorem reached_of_exec (h : OnQueue q p s) (hexec : (calls start).exec s cs = some t) :
    ∃ p', OnQueue q p' t ∧ t.forceNextFile = pending s.forceNextFile cs ∧
      Reached q.length p s.forceNextFile cs p' := by
  induction cs generalizing s p with
  | nil =>
      cases hexec
      refine ⟨p, h, rfl, fun _ => ?_, fun _ _ _ => ?_, fun _ _ _ => rfl⟩
      · exact (Nat.mod_eq_of_lt h.lt).symm
      · have hlt := h.lt
        show p = min (p + 0) _
        omega
  | cons c cs ih =>
      obtain ⟨u, hstep, hrest⟩ := Option.bind_eq_some_iff.mp hexec
      obtain ⟨p₁, hu, hforce, hmove⟩ := callStep_spec h hstep
      obtain ⟨p', ht, hforce', hreached⟩ := ih hu hrest
      rw [hforce] at hforce' hreached
      exact ⟨p', ht, hforce', hreached.cons h.lt hu.lt hmove⟩

/-- What the listener hears behind the calls `cs` of a run that ends in `t`. -/
def Follows (q : List Text) (p : ℕ) (forced : Bool) (cs : List Call) (t : Tracks) : Prop :=
  ∃ p', OnQueue q p' t ∧ t.forceNextFile = pending forced cs ∧ Reached q.length p forced cs p' ∧
    ∀ order controlledbygui load,
      (Returns order t.forceNextFile q.length p' t.draws →
        (findNextFile order controlledbygui load t).isSome = true) ∧
      ∀ r u, findNextFile order controlledbygui load t = some (r, u) →
        u.forceNextFile = false ∧ ∃ p'', OnQueue q p'' u ∧
          (Audio controlledbygui → Goes order t.forceNextFile q.length p' r p'' ∧
            (r = true → load = true → u.filename = some u.loadedFile)) ∧
          (¬ Audio controlledbygui → p'' = p')

/-- The track follows from the calls. -/
theorem follows_of_exec (h : OnQueue q p s) (hexec : (calls start).exec s cs = some t) :
    Follows q p s.forceNextFile cs t := by
  obtain ⟨p', ht, hforce, hreached⟩ := reached_of_exec h hexec
  refine ⟨p', ht, hforce, hreached, fun order cg load => ⟨findNextFile_isSome ht, fun r u hfind => ?_⟩⟩
  obtain ⟨p'', hu, hforce', hnot, haudio⟩ := findNextFile_spec ht hfind
  exact ⟨hforce', p'', hu, haudio, hnot⟩

end Run

section Sample

open Bytes

/-- A folder with three songs, a picture and two folders, of which the second song is started. -/
def sampleTracks : Tracks where
  browserDir := ascii "dav1:/A/"
  browser := [⟨.folder, some (ascii "..")⟩, ⟨.file, some (ascii "1.mp3")⟩,
    ⟨.file, some (ascii "cover.jpg")⟩, ⟨.file, some (ascii "2.MP3")⟩, ⟨.folder, some (ascii "B")⟩,
    ⟨.file, some (ascii "3.ogg")⟩]
  browseMusic := true
  browserMusic := []
  selIndex := none
  shuffleList := []
  shuffleIndex := -1
  folderQueue := []
  folderQueuePos := -1
  forceNextFile := false
  loadedFile := ascii "dav1:/A/2.MP3"
  filename := none
  draws := [0, 1000000000, 2000000000]

-- forced at the end of the queue, then by itself, then shuffled away from the first song
example : ((buildFolderQueue (fun _ => true) sampleTracks).bind fun t =>
    (calls sampleTracks).exec t [.find .through 1 true, .find .through 1 true, .request,
      .find .through 1 true, .find .shuffle 1 true]).map (fun t => (t.folderQueuePos, t.filename)) =
    some (1, some (ascii "dav1:/A/2.MP3")) := by
  decide +kernel

/-- A folder of 773 bytes, with a song of 255. -/
def deepTracks : Tracks :=
  { sampleTracks with
    browserDir := ascii "sd1:/" ++ (List.replicate 3 (List.replicate 255 97 ++ [47])).flatten
    browser := [⟨.file, some (List.replicate 251 98 ++ ascii ".mp3")⟩,
      ⟨.file, some (ascii "c.mp3")⟩]
    loadedFile := ascii "sd1:/" ++ (List.replicate 3 (List.replicate 255 97 ++ [47])).flatten ++
      ascii "c.mp3" }

end Sample

end WiiMC.Player
