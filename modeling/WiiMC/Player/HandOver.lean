import WiiMC.Lib.Transition

/-!
# Handing a file over to MPlayer

The GUI thread (`LoadMPlayerFile` of `wiimc.cpp`) and the MPlayer thread (the play loop and
`play_next_file` of `mplayer.c`, `FindNextFile` of `wiimc.cpp`) share `controlledbygui`,
`filename` and `loadedFile` without a lock. Each read and each write of one of them is one step
here. The wait of `LoadMPlayerFile` ends only when the stop request has been answered: its
ten-second escape is left out. Of the other functions of the GUI that store `controlledbygui`,
`ResumeMPlayerFile` is modelled, and the skip button and the removal of a device are not.

* `inv_of_reachable`: what every state keeps in a run in which no stop request falls between
  MPlayer's reading of `controlledbygui` and its storing of what follows from it (`NoRace`).
* `handOver_safe`: in such a run the hand-over works as its comments say.
* `natural_end_race`: it does not if a stop request meets the natural end of a track.
-/

namespace WiiMC.Player

open Transition

/-- A file given to MPlayer, by whom, or opened by it. -/
inductive Entry (F : Type*)
  /-- By `LoadMPlayerFile`. -/
  | handed (file : F)
  /-- By `FindNextFile`. -/
  | picked (file : F)
  | opened (file : F)
  deriving DecidableEq

/-- Where the MPlayer thread is. -/
inductive MPlayerPc (F : Type*)
  /-- At `play_next_file`, where `filename` is read. -/
  | nextFile (endFilmError : Bool)
  /-- Before `filename = NULL`. -/
  | freeFile (endFilmError : Bool)
  /-- In `FindNextFile`, before the test for 2. -/
  | findStopped
  /-- Before the test for 0. -/
  | findVideo
  /-- Before the next file of the playlist is stored in `loadedFile`. -/
  | findPick
  /-- In `wiiLoadFile`, before `filename` is read. -/
  | loadFree
  /-- Before `loadedFile` is read. -/
  | loadDup
  /-- Before `filename` is stored. -/
  | loadStore (file : F)
  /-- Back in `FindNextFile`, before the test for 1. -/
  | findShow
  /-- Before `controlledbygui = 1`. -/
  | giveBack
  /-- In the loop of `play_next_file`, before the test for 2. -/
  | parkPoll
  /-- Before the stop request is discarded. -/
  | parkDiscard
  /-- Before the test of `filename` that ends the loop. -/
  | parkTest
  /-- Before `controlledbygui = 0`. -/
  | take
  /-- Before `open_stream`. -/
  | open_
  /-- Setting up the decoders. -/
  | opened
  /-- Without video, or pausing: before the test for 0. -/
  | handBackTest (pausing : Bool)
  /-- Before `controlledbygui = 1`. -/
  | handBackStore (pausing : Bool)
  /-- In `PauseAndGotoGUI`, waiting for the GUI. -/
  | pauseWait
  /-- In the play loop. -/
  | playing
  /-- Past `goto_next_file`. -/
  | ending
  deriving DecidableEq

/-- Where the GUI thread is. -/
inductive GuiPc (F : Type*)
  /-- In the menus. -/
  | menu
  /-- In `LoadMPlayerFile`, waiting for the previous file to end. -/
  | waitEnd
  /-- Before `loadedFile` is rewritten for a DVD, or not. -/
  | prepare
  /-- Before `controlledbygui = 3`. -/
  | handOver
  /-- In `wiiLoadFile`, before `filename` is read. -/
  | loadFree
  /-- Before `loadedFile` is read. -/
  | loadDup
  /-- Before `filename` is stored. -/
  | loadStore (file : F)
  /-- Waiting for MPlayer to take the file. -/
  | waitTaken
  deriving DecidableEq

/-- The shared variables and the two threads. -/
structure HandOver (F : Type*) where
  controlledbygui : ℕ
  filename : Option F
  loadedFile : F
  mplayer : MPlayerPc F
  gui : GuiPc F
  /-- Ghost state: what was stored in `filename` and what was opened, the latest first. -/
  log : List (Entry F)
  deriving DecidableEq

/-- What happens next: the thread that moves, and what it finds out. -/
inductive Move (F : Type*)
  /-- MPlayer makes its only possible step. -/
  | mplayer
  /-- The playlist has, or does not have, a next file. -/
  | pick (next : Option F)
  /-- The file has a video, or only audio, or cannot be played. -/
  | video | audio | fail
  /-- In the play loop: MPlayer looks at `controlledbygui`, pauses, or the track ends. -/
  | poll | pause | trackEnd
  /-- The end of a film, with `end_film_error`. -/
  | endFilm (error : Bool)
  /-- The user selects a file. -/
  | select (file : F)
  /-- The GUI calls `ResumeMPlayerFile`. -/
  | resume
  /-- The GUI calls `LoadMPlayerFile`. -/
  | load
  /-- `LoadMPlayerFile` prepares `loadedFile`. -/
  | prepare (rewritten : Option F)
  /-- The GUI makes its only possible step. -/
  | gui
  deriving DecidableEq

variable {F : Type*}

/-- The only possible step of MPlayer. -/
def mplayerStep (s : HandOver F) : Option (HandOver F) :=
  match s.mplayer with
  | .nextFile err =>
      if s.filename.isSome then some { s with mplayer := .freeFile err }
      else some { s with mplayer := if err then .giveBack else .findStopped }
  | .freeFile err =>
      some { s with filename := none, mplayer := if err then .giveBack else .findStopped }
  | .findStopped =>
      some { s with mplayer := if s.controlledbygui = 2 then .giveBack else .findVideo }
  | .findVideo =>
      -- a video goes on with the file that is loaded
      some { s with mplayer := if s.controlledbygui = 0 then .loadFree else .findPick }
  | .loadFree => some { s with mplayer := .loadDup }
  | .loadDup => some { s with mplayer := .loadStore s.loadedFile }
  | .loadStore file =>
      some { s with filename := some file, mplayer := .findShow, log := .picked file :: s.log }
  | .findShow => some { s with mplayer := .parkPoll }
  | .giveBack => some { s with controlledbygui := 1, mplayer := .parkPoll }
  | .parkPoll =>
      some { s with mplayer := if s.controlledbygui = 2 then .parkDiscard else .parkTest }
  | .parkDiscard => some { s with controlledbygui := 0, mplayer := .parkTest }
  | .parkTest => some { s with mplayer := if s.filename.isSome then .take else .parkPoll }
  | .take => some { s with controlledbygui := 0, mplayer := .open_ }
  | .open_ =>
      match s.filename with
      | none => none
      | some file => some { s with mplayer := .opened, log := .opened file :: s.log }
  | .handBackTest pausing =>
      some { s with mplayer :=
        if s.controlledbygui = 0 then .handBackStore pausing
        else if pausing then .pauseWait else .playing }
  | .handBackStore pausing =>
      some { s with
        controlledbygui := 1
        mplayer := if pausing then .pauseWait else .playing }
  | .pauseWait => if s.controlledbygui = 1 then some s else some { s with mplayer := .playing }
  | .findPick | .opened | .playing | .ending => none

/-- The only possible step of the GUI. -/
def guiStep (s : HandOver F) : Option (HandOver F) :=
  match s.gui with
  | .waitEnd => if s.controlledbygui = 2 then some s else some { s with gui := .prepare }
  | .handOver => some { s with controlledbygui := 3, gui := .loadFree }
  | .loadFree => some { s with gui := .loadDup }
  | .loadDup => some { s with gui := .loadStore s.loadedFile }
  | .loadStore file =>
      -- from here on MPlayer may leave its loop
      some { s with filename := some file, gui := .waitTaken, log := .handed file :: s.log }
  | .waitTaken => if s.controlledbygui = 3 then some s else some { s with gui := .menu }
  | .menu | .prepare => none

/-- One step of one of the threads. -/
def handOverStep (s : HandOver F) : Move F → Option (HandOver F)
  | .mplayer => mplayerStep s
  | .pick next =>
      if s.mplayer matches .findPick then
        match next with
        | none => some { s with mplayer := .giveBack }
        | some file => some { s with loadedFile := file, mplayer := .loadFree }
      else none
  | .video => if s.mplayer matches .opened then some { s with mplayer := .playing } else none
  | .audio =>
      if s.mplayer matches .opened then some { s with mplayer := .handBackTest false } else none
  | .fail => if s.mplayer matches .opened then some { s with mplayer := .ending } else none
  | .poll =>
      if s.mplayer matches .playing then
        some { s with mplayer := if s.controlledbygui = 2 then .ending else .playing }
      else none
  | .pause =>
      if s.mplayer matches .playing then some { s with mplayer := .handBackTest true } else none
  | .trackEnd => if s.mplayer matches .playing then some { s with mplayer := .ending } else none
  | .endFilm error =>
      if s.mplayer matches .ending then some { s with mplayer := .nextFile error } else none
  | .select file => if s.gui matches .menu then some { s with loadedFile := file } else none
  | .resume => if s.gui matches .menu then some { s with controlledbygui := 0 } else none
  | .load =>
      if s.gui matches .menu then some { s with controlledbygui := 2, gui := .waitEnd } else none
  | .prepare rewritten =>
      if s.gui matches .prepare then
        some { s with loadedFile := rewritten.getD s.loadedFile, gui := .handOver }
      else none
  | .gui => guiStep s

/-- The two threads after the boot. -/
def handOver (F : Type*) : System (HandOver F) (Move F) where
  init s := s.controlledbygui = 1 ∧ s.filename = none ∧ s.mplayer = .nextFile false ∧
    s.gui = .menu ∧ s.log = []
  step := handOverStep

/-! ## The invariant -/

/-- Every file given to MPlayer has been opened next, and once. -/
inductive Paired : List (Entry F) → Prop
  | nil : Paired []
  | handed {file : F} {log : List (Entry F)} : Paired log →
      Paired (.opened file :: .handed file :: log)
  | picked {file : F} {log : List (Entry F)} : Paired log →
      Paired (.opened file :: .picked file :: log)

/-- `file` is in `filename`, and waits for being opened. -/
def HandOver.Given (s : HandOver F) (file : F) (entry : Entry F) : Prop :=
  s.filename = some file ∧ ∃ log, s.log = entry :: log ∧ Paired log

/-- MPlayer has picked its own next file, and no stop request or hand-over is pending. -/
def HandOver.OwnPick (s : HandOver F) : Prop :=
  (∃ file, s.Given file (.picked file)) ∧ s.controlledbygui ≠ 2 ∧ s.controlledbygui ≠ 3

/-- The GUI has handed a file over. -/
def HandOver.Handed (s : HandOver F) : Prop :=
  (∃ file, s.Given file (.handed file)) ∧ s.controlledbygui = 3 ∧ s.gui = .waitTaken

/-- MPlayer waits in the loop of `play_next_file`, without a file. -/
def HandOver.Parked (s : HandOver F) : Prop :=
  (s.mplayer = .parkPoll ∨ s.mplayer = .parkTest) ∧ s.filename = none

/-- What MPlayer relies on at each of its steps. -/
def MPlayerInv (s : HandOver F) : Prop :=
  match s.mplayer with
  | .findStopped | .findVideo | .findPick | .loadFree | .loadDup | .loadStore _ | .giveBack =>
      s.filename = none ∧ Paired s.log
  | .findShow => s.OwnPick
  | .parkPoll | .parkTest => (s.filename = none ∧ Paired s.log) ∨ s.OwnPick ∨ s.Handed
  | .parkDiscard => s.filename = none ∧ Paired s.log ∧ s.controlledbygui = 2
  | .take => s.OwnPick ∨ s.Handed
  | .open_ => ∃ file, s.Given file (.picked file) ∨ s.Given file (.handed file)
  | .handBackStore _ => Paired s.log ∧ s.controlledbygui = 0
  | .nextFile _ | .freeFile _ | .opened | .handBackTest _ | .pauseWait | .playing | .ending =>
      Paired s.log

/-- What the GUI relies on at each of its steps. -/
def GuiInv (s : HandOver F) : Prop :=
  match s.gui with
  | .menu => s.controlledbygui ≠ 2 ∧ s.controlledbygui ≠ 3
  | .waitEnd => s.controlledbygui ≠ 3 ∧ (s.controlledbygui = 2 ∨ s.Parked)
  | .prepare | .handOver => s.Parked ∧ s.controlledbygui ≠ 2 ∧ s.controlledbygui ≠ 3
  | .loadFree | .loadDup => s.Parked ∧ s.controlledbygui = 3
  | .loadStore file => s.Parked ∧ s.controlledbygui = 3 ∧ file = s.loadedFile
  | .waitTaken =>
      s.controlledbygui ≠ 2 ∧ (s.controlledbygui = 3 → s.Handed ∧
        (s.mplayer = .parkPoll ∨ s.mplayer = .parkTest ∨ s.mplayer = .take))

/-- The invariant. -/
structure HandOverInv (s : HandOver F) : Prop where
  mplayer : MPlayerInv s
  gui : GuiInv s

/-- MPlayer has put its own pick into `filename` and not yet stored 0 for it. -/
def HandOver.HoldsPick (s : HandOver F) : Prop :=
  (s.mplayer = .findShow ∨ s.mplayer = .parkPoll ∨ s.mplayer = .parkTest ∨ s.mplayer = .take) ∧
    s.filename ≠ none

/-- The steps of a race-free run: `LoadMPlayerFile` stores no 2 while MPlayer's own pick waits in
`filename`, nor between MPlayer's reading of 0 and its storing of 1; and MPlayer stores no own
pick while a 2 is pending. -/
def NoRace (s : HandOver F) : Move F → Prop
  | .load => ¬ s.HoldsPick ∧ ∀ pausing, s.mplayer ≠ .handBackStore pausing
  | .mplayer => ∀ file, s.mplayer = .loadStore file → s.controlledbygui ≠ 2
  | _ => True

section Gui

variable {s t : HandOver F}

/-- The GUI is in the menus, waits for a stop request to be answered, or for a file that has been
taken to be noticed. -/
def HandOver.Detached (s : HandOver F) : Prop :=
  (s.gui = .waitEnd ∧ s.controlledbygui = 2) ∨
    ((s.gui = .menu ∨ s.gui = .waitTaken) ∧ s.controlledbygui ≠ 2 ∧ s.controlledbygui ≠ 3)

/-- A detached GUI relies on nothing else. -/
theorem HandOver.Detached.guiInv (h : s.Detached) : GuiInv s := by
  unfold GuiInv
  rcases h with ⟨hgui, h2⟩ | ⟨hgui | hgui, h2, h3⟩ <;> rw [hgui]
  · exact ⟨by omega, Or.inl h2⟩
  · exact ⟨h2, h3⟩
  · exact ⟨h2, fun h => absurd h h3⟩

/-- While MPlayer is not in the loop of `play_next_file`, nor taking a file, the GUI hands
nothing over. -/
theorem GuiInv.detached (h : GuiInv s)
    (hpc : s.mplayer ≠ .parkPoll ∧ s.mplayer ≠ .parkTest ∧ s.mplayer ≠ .take) : s.Detached := by
  obtain ⟨hpoll, htest, htake⟩ := hpc
  have hparked : ¬ s.Parked := fun hp => hp.1.elim hpoll htest
  unfold GuiInv at h
  cases hgui : s.gui with
  | menu =>
      rw [hgui] at h
      exact Or.inr ⟨Or.inl hgui, h⟩
  | waitEnd =>
      rw [hgui] at h
      exact Or.inl ⟨hgui, h.2.resolve_right hparked⟩
  | waitTaken =>
      rw [hgui] at h
      refine Or.inr ⟨Or.inr hgui, h.1, fun h3 => ?_⟩
      rcases (h.2 h3).2 with hp | hp | hp
      · exact hpoll hp
      · exact htest hp
      · exact htake hp
  | _ =>
      rw [hgui] at h
      exact absurd h.1 hparked

/-- A step that changes neither `controlledbygui` nor the GUI's place. -/
theorem HandOver.Detached.keep (h : s.Detached) (hcbg : t.controlledbygui = s.controlledbygui)
    (hgui : t.gui = s.gui) : GuiInv t := by
  apply HandOver.Detached.guiInv
  unfold HandOver.Detached at h ⊢
  rw [hcbg, hgui]
  exact h

/-- A step with which MPlayer gives control to the GUI, or gives up waiting for it. -/
theorem HandOver.Detached.store (h : s.Detached) (hcbg : t.controlledbygui ≠ 2)
    (hcbg' : t.controlledbygui ≠ 3) (hgui : t.gui = s.gui)
    (hend : s.controlledbygui = 2 → t.Parked) : GuiInv t := by
  unfold GuiInv
  rcases h with ⟨heq, h2⟩ | ⟨heq | heq, -, -⟩ <;> rw [hgui, heq]
  · exact ⟨hcbg', Or.inr (hend h2)⟩
  · exact ⟨hcbg, hcbg'⟩
  · exact ⟨hcbg, fun h => absurd h hcbg'⟩

end Gui

/-! ## The steps -/

section Steps

variable {s t : HandOver F}

/-- A file that was given and is opened now is opened next. -/
theorem HandOver.Given.paired {file : F} {entry : Entry F}
    (h : s.Given file entry) (hentry : entry = .picked file ∨ entry = .handed file) :
    Paired (.opened file :: s.log) := by
  obtain ⟨-, log, hlog, hpaired⟩ := h
  rw [hlog]
  rcases hentry with rfl | rfl
  · exact .picked hpaired
  · exact .handed hpaired

/-- MPlayer polls in the loop of `play_next_file`. -/
theorem inv_parkPoll (h : HandOverInv s) (hpc : s.mplayer = .parkPoll) :
    HandOverInv { s with
      mplayer := if s.controlledbygui = 2 then .parkDiscard else .parkTest } := by
  obtain ⟨hm, hg⟩ := h
  simp only [MPlayerInv, hpc] at hm
  by_cases h2 : s.controlledbygui = 2
  · rw [if_pos h2]
    have hempty : s.filename = none ∧ Paired s.log := by
      rcases hm with hm | hm | hm
      · exact hm
      · exact absurd h2 hm.2.1
      · exact absurd (h2.symm.trans hm.2.1) (by decide)
    refine ⟨⟨hempty.1, hempty.2, h2⟩, HandOver.Detached.guiInv (Or.inl ⟨?_, h2⟩)⟩
    -- only a GUI that waits for it leaves a 2
    unfold GuiInv at hg
    cases hgui : s.gui with
    | waitEnd => rfl
    | menu =>
        rw [hgui] at hg
        exact absurd h2 hg.1
    | prepare =>
        rw [hgui] at hg
        exact absurd h2 hg.2.1
    | handOver =>
        rw [hgui] at hg
        exact absurd h2 hg.2.1
    | waitTaken =>
        rw [hgui] at hg
        exact absurd h2 hg.1
    | loadStore file =>
        rw [hgui] at hg
        exact absurd (h2.symm.trans hg.2.1) (by decide)
    | _ =>
        rw [hgui] at hg
        exact absurd (h2.symm.trans hg.2) (by decide)
  · rw [if_neg h2]
    refine ⟨hm, ?_⟩
    unfold GuiInv at hg ⊢
    cases hgui : s.gui with
    | menu =>
        rw [hgui] at hg
        exact hg
    | waitEnd =>
        rw [hgui] at hg
        exact ⟨hg.1, Or.inr ⟨Or.inr rfl, (hg.2.resolve_left h2).2⟩⟩
    | waitTaken =>
        rw [hgui] at hg
        exact ⟨hg.1, fun h3 => ⟨⟨(hg.2 h3).1.1, h3, rfl⟩, Or.inr (Or.inl rfl)⟩⟩
    | _ =>
        rw [hgui] at hg
        exact ⟨⟨Or.inr rfl, hg.1.2⟩, hg.2⟩

/-- MPlayer tests `filename` in the loop of `play_next_file`. -/
theorem inv_parkTest (h : HandOverInv s) (hpc : s.mplayer = .parkTest) :
    HandOverInv { s with mplayer := if s.filename.isSome then .take else .parkPoll } := by
  obtain ⟨hm, hg⟩ := h
  simp only [MPlayerInv, hpc] at hm
  by_cases hfile : s.filename.isSome = true
  -- With a file in `filename` the loop is left: the file is a pick of MPlayer or handed over.
  · rw [if_pos hfile]
    have hnone : s.filename ≠ none := Option.isSome_iff_ne_none.mp hfile
    have hgiven := hm.resolve_left fun hempty => hnone hempty.1
    have hparked : ¬ s.Parked := fun hp => hnone hp.2
    refine ⟨hgiven, ?_⟩
    unfold GuiInv at hg ⊢
    cases hgui : s.gui with
    | menu =>
        rw [hgui] at hg
        exact hg
    | waitEnd =>
        rw [hgui] at hg
        have h2 := hg.2.resolve_right hparked
        rcases hgiven with hown | hhanded
        · exact absurd h2 hown.2.1
        · exact absurd hhanded.2.1 hg.1
    | waitTaken =>
        rw [hgui] at hg
        exact ⟨hg.1, fun h3 => ⟨⟨(hg.2 h3).1.1, h3, rfl⟩, Or.inr (Or.inr rfl)⟩⟩
    | _ =>
        rw [hgui] at hg
        exact absurd hg.1 hparked
  -- Without one MPlayer stays in the loop, and what the GUI relies on stays true.
  · rw [if_neg hfile]
    refine ⟨hm, ?_⟩
    unfold GuiInv at hg ⊢
    cases hgui : s.gui with
    | menu =>
        rw [hgui] at hg
        exact hg
    | waitEnd =>
        rw [hgui] at hg
        exact ⟨hg.1, hg.2.imp_right fun hp => ⟨Or.inl rfl, hp.2⟩⟩
    | waitTaken =>
        rw [hgui] at hg
        exact ⟨hg.1, fun h3 => ⟨⟨(hg.2 h3).1.1, h3, rfl⟩, Or.inl rfl⟩⟩
    | _ =>
        rw [hgui] at hg
        exact ⟨⟨Or.inl rfl, hg.1.2⟩, hg.2⟩

/-- MPlayer takes the file: its own pick, with no stop request pending, or the one handed over. -/
theorem inv_take (h : HandOverInv s) (hpc : s.mplayer = .take) :
    HandOverInv { s with controlledbygui := 0, mplayer := .open_ } := by
  obtain ⟨hm, hg⟩ := h
  simp only [MPlayerInv, hpc] at hm
  have hparked : ¬ s.Parked := by
    rintro ⟨hp | hp, -⟩ <;> rw [hpc] at hp <;> cases hp
  have hnot2 : s.controlledbygui ≠ 2 := by
    rcases hm with hown | hhanded
    · exact hown.2.1
    · rw [hhanded.2.1]
      decide
  constructor
  · rcases hm with ⟨⟨file, hgiven⟩, -⟩ | ⟨⟨file, hgiven⟩, -⟩
    · exact ⟨file, Or.inl hgiven⟩
    · exact ⟨file, Or.inr hgiven⟩
  · unfold GuiInv at hg ⊢
    cases hgui : s.gui with
    | menu => exact ⟨by simp, by simp⟩
    | waitEnd =>
        rw [hgui] at hg
        exact absurd (hg.2.resolve_right hparked) hnot2
    | waitTaken => exact ⟨by simp, fun h3 => absurd h3 (by simp)⟩
    | _ =>
        rw [hgui] at hg
        exact absurd hg.1 hparked

/-- MPlayer moves outside of the loop of `play_next_file`, and touches no shared variable that
the GUI relies on. -/
theorem inv_play (h : HandOverInv s)
    (hpc : s.mplayer ≠ .parkPoll ∧ s.mplayer ≠ .parkTest ∧ s.mplayer ≠ .take)
    (hm : MPlayerInv t) (hcbg : t.controlledbygui = s.controlledbygui) (hgui : t.gui = s.gui) :
    HandOverInv t :=
  ⟨hm, (h.gui.detached hpc).keep hcbg hgui⟩

/-- Behind the end of a film MPlayer gives up its file. -/
theorem inv_nextFile {err : Bool} (h : HandOverInv s)
    (hpc : s.mplayer = .nextFile err ∨ s.mplayer = .freeFile err)
    (hstep : mplayerStep s = some t) : HandOverInv t := by
  have hm := h.mplayer
  rcases hpc with hpc | hpc
  · simp only [mplayerStep, hpc] at hstep
    simp only [MPlayerInv, hpc] at hm
    by_cases hfile : s.filename.isSome = true
    · rw [if_pos hfile, Option.some.injEq] at hstep
      subst hstep
      exact inv_play h (by simp [hpc]) hm rfl rfl
    · rw [if_neg hfile, Option.some.injEq] at hstep
      subst hstep
      have hnone : s.filename = none := by simpa using hfile
      refine inv_play h (by simp [hpc]) ?_ rfl rfl
      cases err <;> exact ⟨hnone, hm⟩
  · simp only [mplayerStep, hpc, Option.some.injEq] at hstep
    simp only [MPlayerInv, hpc] at hm
    subst hstep
    refine inv_play h (by simp [hpc]) ?_ rfl rfl
    cases err <;> exact ⟨rfl, hm⟩

/-- The tests of `FindNextFile` in front of the playlist. -/
theorem inv_find (h : HandOverInv s) (hpc : s.mplayer = .findStopped ∨ s.mplayer = .findVideo)
    (hstep : mplayerStep s = some t) : HandOverInv t := by
  have hm := h.mplayer
  rcases hpc with hpc | hpc
  all_goals
    simp only [mplayerStep, hpc, Option.some.injEq] at hstep
    simp only [MPlayerInv, hpc] at hm
    subst hstep
    refine inv_play h (by simp [hpc]) ?_ rfl rfl
    simp only [MPlayerInv]
    split_ifs <;> exact hm

/-- `wiiLoadFile` in front of its store. -/
theorem inv_loadFile (h : HandOverInv s) (hpc : s.mplayer = .loadFree ∨ s.mplayer = .loadDup)
    (hstep : mplayerStep s = some t) : HandOverInv t := by
  have hm := h.mplayer
  rcases hpc with hpc | hpc
  all_goals
    simp only [mplayerStep, hpc, Option.some.injEq] at hstep
    simp only [MPlayerInv, hpc] at hm
    subst hstep
    exact inv_play h (by simp [hpc]) hm rfl rfl

/-- MPlayer stores its own pick, while no stop request is pending. -/
theorem inv_loadStore {file : F} (h : HandOverInv s) (hpc : s.mplayer = .loadStore file)
    (hnot2 : s.controlledbygui ≠ 2) :
    HandOverInv { s with
      filename := some file, mplayer := .findShow, log := .picked file :: s.log } := by
  have hm := h.mplayer
  simp only [MPlayerInv, hpc] at hm
  have hnot3 : s.controlledbygui ≠ 3 := by
    rcases h.gui.detached (by simp [hpc]) with ⟨-, h2⟩ | ⟨-, -, h3⟩
    · exact absurd h2 hnot2
    · exact h3
  exact inv_play h (by simp [hpc]) ⟨⟨file, rfl, s.log, rfl, hm.2⟩, hnot2, hnot3⟩ rfl rfl

/-- MPlayer goes to the loop of `play_next_file` without a file, and answers a stop request. -/
theorem inv_goPark (h : HandOverInv s) (hpc : s.mplayer = .giveBack ∨ s.mplayer = .parkDiscard)
    (hstep : mplayerStep s = some t) : HandOverInv t := by
  have hm := h.mplayer
  rcases hpc with hpc | hpc
  · simp only [mplayerStep, hpc, Option.some.injEq] at hstep
    simp only [MPlayerInv, hpc] at hm
    subst hstep
    have hdet := h.gui.detached (by simp [hpc])
    exact ⟨Or.inl hm, hdet.store (by simp) (by simp) rfl fun _ => ⟨Or.inl rfl, hm.1⟩⟩
  · simp only [mplayerStep, hpc, Option.some.injEq] at hstep
    simp only [MPlayerInv, hpc] at hm
    subst hstep
    have hdet := h.gui.detached (by simp [hpc])
    exact ⟨Or.inl ⟨hm.1, hm.2.1⟩,
      hdet.store (by simp) (by simp) rfl fun _ => ⟨Or.inr rfl, hm.1⟩⟩

/-- MPlayer opens the file that it has been given. -/
theorem inv_open_ (h : HandOverInv s) (hpc : s.mplayer = .open_)
    (hstep : mplayerStep s = some t) : HandOverInv t := by
  have hm := h.mplayer
  simp only [MPlayerInv, hpc] at hm
  obtain ⟨file, hgiven⟩ := hm
  have hfile : s.filename = some file := hgiven.elim (·.1) (·.1)
  simp only [mplayerStep, hpc, hfile, Option.some.injEq] at hstep
  subst hstep
  refine inv_play h (by simp [hpc]) ?_ rfl rfl
  rcases hgiven with hgiven | hgiven
  · exact hgiven.paired (Or.inl rfl)
  · exact hgiven.paired (Or.inr rfl)

/-- MPlayer gives control to the GUI, unless a stop request or a hand-over is pending. -/
theorem inv_handBack {pausing : Bool} (h : HandOverInv s)
    (hpc : s.mplayer = .handBackTest pausing ∨ s.mplayer = .handBackStore pausing)
    (hstep : mplayerStep s = some t) : HandOverInv t := by
  have hm := h.mplayer
  rcases hpc with hpc | hpc
  · simp only [mplayerStep, hpc, Option.some.injEq] at hstep
    simp only [MPlayerInv, hpc] at hm
    subst hstep
    refine inv_play h (by simp [hpc]) ?_ rfl rfl
    simp only [MPlayerInv]
    split_ifs with h0
    · exact ⟨hm, h0⟩
    · exact hm
    · exact hm
  · simp only [mplayerStep, hpc, Option.some.injEq] at hstep
    simp only [MPlayerInv, hpc] at hm
    subst hstep
    -- no stop request: the variable was 0 at the test, and nobody has stored since
    have hdet := h.gui.detached (by simp [hpc])
    refine ⟨?_, hdet.store (by simp) (by simp) rfl
      fun h2 => absurd (h2.symm.trans hm.2) (by decide)⟩
    cases pausing <;> exact hm.1

/-- A step of MPlayer keeps the invariant. -/
theorem inv_mplayerStep (h : HandOverInv s) (hrace : NoRace s .mplayer)
    (hstep : mplayerStep s = some t) : HandOverInv t := by
  have hm := h.mplayer
  cases hpc : s.mplayer with
  | nextFile err => exact inv_nextFile h (Or.inl hpc) hstep
  | freeFile err => exact inv_nextFile h (Or.inr hpc) hstep
  | findStopped => exact inv_find h (Or.inl hpc) hstep
  | findVideo => exact inv_find h (Or.inr hpc) hstep
  | loadFree => exact inv_loadFile h (Or.inl hpc) hstep
  | loadDup => exact inv_loadFile h (Or.inr hpc) hstep
  | loadStore file =>
      simp only [mplayerStep, hpc, Option.some.injEq] at hstep
      exact hstep ▸ inv_loadStore h hpc (hrace file hpc)
  | findShow =>
      simp only [mplayerStep, hpc, Option.some.injEq] at hstep
      simp only [MPlayerInv, hpc] at hm
      subst hstep
      exact inv_play h (by simp [hpc]) (Or.inr (Or.inl hm)) rfl rfl
  | giveBack => exact inv_goPark h (Or.inl hpc) hstep
  | parkDiscard => exact inv_goPark h (Or.inr hpc) hstep
  | parkPoll =>
      simp only [mplayerStep, hpc, Option.some.injEq] at hstep
      exact hstep ▸ inv_parkPoll h hpc
  | parkTest =>
      simp only [mplayerStep, hpc, Option.some.injEq] at hstep
      exact hstep ▸ inv_parkTest h hpc
  | take =>
      simp only [mplayerStep, hpc, Option.some.injEq] at hstep
      exact hstep ▸ inv_take h hpc
  | open_ => exact inv_open_ h hpc hstep
  | handBackTest pausing => exact inv_handBack h (Or.inl hpc) hstep
  | handBackStore pausing => exact inv_handBack h (Or.inr hpc) hstep
  | pauseWait =>
      simp only [mplayerStep, hpc] at hstep
      simp only [MPlayerInv, hpc] at hm
      split_ifs at hstep <;> cases hstep
      · exact h
      · exact inv_play h (by simp [hpc]) hm rfl rfl
  | findPick => simp [mplayerStep, hpc] at hstep
  | opened => simp [mplayerStep, hpc] at hstep
  | playing => simp [mplayerStep, hpc] at hstep
  | ending => simp [mplayerStep, hpc] at hstep

/-- A step that changes nothing MPlayer relies on. -/
theorem MPlayerInv.keep (h : MPlayerInv s) (hpc : t.mplayer = s.mplayer)
    (hfile : t.filename = s.filename) (hlog : t.log = s.log)
    (hcbg : t.controlledbygui = s.controlledbygui) (hhanded : s.Handed → t.Handed) :
    MPlayerInv t := by
  -- What is given depends on the file and the log only.
  have hgiven : ∀ file entry, s.Given file entry → t.Given file entry := by
    intro file entry hg
    unfold HandOver.Given
    rw [hfile, hlog]
    exact hg
  have hown : s.OwnPick → t.OwnPick := by
    rintro ⟨⟨file, hg⟩, h2, h3⟩
    exact ⟨⟨file, hgiven _ _ hg⟩, hcbg ▸ h2, hcbg ▸ h3⟩
  unfold MPlayerInv at h ⊢
  rw [hpc, hfile, hlog, hcbg]
  cases hs : s.mplayer with
  | findShow =>
      rw [hs] at h
      exact hown h
  | parkPoll =>
      rw [hs] at h
      exact h.imp_right (Or.imp hown hhanded)
  | parkTest =>
      rw [hs] at h
      exact h.imp_right (Or.imp hown hhanded)
  | take =>
      rw [hs] at h
      exact h.imp hown hhanded
  | open_ =>
      rw [hs] at h
      obtain ⟨file, hg⟩ := h
      exact ⟨file, hg.imp (hgiven _ _) (hgiven _ _)⟩
  | _ =>
      rw [hs] at h
      exact h

/-- A parked MPlayer relies on nothing but the order of the log. -/
theorem HandOver.Parked.mplayerInv (h : s.Parked) (hpaired : Paired s.log) : MPlayerInv s := by
  unfold MPlayerInv
  rcases h.1 with hpc | hpc <;> rw [hpc] <;> exact Or.inl ⟨h.2, hpaired⟩

/-- While MPlayer is parked, every file that was given has been opened. -/
theorem HandOver.Parked.paired (h : s.Parked) (hm : MPlayerInv s) : Paired s.log := by
  have hgiven : ∀ file entry, ¬ s.Given file entry := by
    intro file entry hg
    exact absurd (h.2.symm.trans hg.1) (by simp)
  unfold MPlayerInv at hm
  rcases h.1 with hpc | hpc <;> rw [hpc] at hm
  all_goals
    rcases hm with hm | ⟨⟨file, hg⟩, -⟩ | ⟨⟨file, hg⟩, -⟩
    · exact hm.2
    · exact absurd hg (hgiven _ _)
    · exact absurd hg (hgiven _ _)

/-- A step of the GUI in `LoadMPlayerFile` keeps the invariant. -/
theorem inv_guiStep (h : HandOverInv s) (hstep : guiStep s = some t) : HandOverInv t := by
  obtain ⟨hm, hg⟩ := id h
  unfold GuiInv at hg
  cases hgui : s.gui with
  | menu => simp [guiStep, hgui] at hstep
  | prepare => simp [guiStep, hgui] at hstep
  | waitEnd =>
      simp only [guiStep, hgui] at hstep
      rw [hgui] at hg
      split_ifs at hstep with h2 <;> cases hstep
      · exact h
      · have hparked := hg.2.resolve_left h2
        exact ⟨HandOver.Parked.mplayerInv (s := { s with gui := .prepare }) hparked
          (hparked.paired hm), hparked, h2, hg.1⟩
  -- until `filename` is stored MPlayer stays in its loop, whatever the GUI does
  | handOver =>
      simp only [guiStep, hgui, Option.some.injEq] at hstep
      rw [hgui] at hg
      subst hstep
      exact ⟨HandOver.Parked.mplayerInv (s := { s with controlledbygui := 3, gui := .loadFree })
        hg.1 (hg.1.paired hm), hg.1, rfl⟩
  | loadFree =>
      simp only [guiStep, hgui, Option.some.injEq] at hstep
      rw [hgui] at hg
      subst hstep
      exact ⟨HandOver.Parked.mplayerInv (s := { s with gui := .loadDup }) hg.1 (hg.1.paired hm),
        hg.1, hg.2⟩
  | loadDup =>
      simp only [guiStep, hgui, Option.some.injEq] at hstep
      rw [hgui] at hg
      subst hstep
      exact ⟨HandOver.Parked.mplayerInv (s := { s with gui := .loadStore s.loadedFile }) hg.1
        (hg.1.paired hm), hg.1, hg.2, rfl⟩
  | loadStore file =>
      simp only [guiStep, hgui, Option.some.injEq] at hstep
      rw [hgui] at hg
      obtain ⟨hparked, h3, -⟩ := hg
      have hpaired := hparked.paired hm
      subst hstep
      -- the file is handed over, and MPlayer may take it at once
      have hhanded : HandOver.Handed { s with
          filename := some file, gui := .waitTaken, log := .handed file :: s.log } :=
        ⟨⟨file, rfl, s.log, rfl, hpaired⟩, h3, rfl⟩
      refine ⟨?_, by simp only; omega,
        fun _ => ⟨hhanded, hparked.1.imp_right Or.inl⟩⟩
      unfold MPlayerInv
      rcases hparked.1 with hpc | hpc <;> simp only [hpc] <;> exact Or.inr (Or.inr hhanded)
  | waitTaken =>
      simp only [guiStep, hgui] at hstep
      rw [hgui] at hg
      split_ifs at hstep with h3 <;> cases hstep
      · exact h
      · exact ⟨hm.keep rfl rfl rfl rfl fun hhanded => absurd hhanded.2.1 h3, hg.1, h3⟩

/-- `LoadMPlayerFile` stores its stop request. -/
theorem inv_load (h : HandOverInv s) (hgui : s.gui = .menu) (hrace : NoRace s .load) :
    HandOverInv { s with controlledbygui := 2, gui := .waitEnd } := by
  obtain ⟨hm, -⟩ := h
  obtain ⟨hpick, hback⟩ := hrace
  have hown : ∀ {pc}, s.mplayer = pc → s.OwnPick →
      pc ≠ .findShow ∧ pc ≠ .parkPoll ∧ pc ≠ .parkTest ∧ pc ≠ .take := by
    rintro pc rfl ⟨⟨file, hg⟩, -⟩
    have hsome : s.filename ≠ none := by simp [hg.1]
    exact ⟨fun hp => hpick ⟨Or.inl hp, hsome⟩, fun hp => hpick ⟨Or.inr (Or.inl hp), hsome⟩,
      fun hp => hpick ⟨Or.inr (Or.inr (Or.inl hp)), hsome⟩,
      fun hp => hpick ⟨Or.inr (Or.inr (Or.inr hp)), hsome⟩⟩
  have hhanded : ¬ s.Handed := fun hh => absurd (hgui.symm.trans hh.2.2) (by simp)
  refine ⟨?_, by simp, Or.inl rfl⟩
  unfold MPlayerInv at hm ⊢
  -- where a pick of MPlayer's own waits, or 1 is about to be stored, there is no such step
  cases hpc : s.mplayer with
  | findShow =>
      rw [hpc] at hm
      exact absurd rfl (hown hpc hm).1
  | parkPoll =>
      rw [hpc] at hm
      exact Or.inl (hm.resolve_right fun h =>
        h.elim (fun ho => (hown hpc ho).2.1 rfl) hhanded)
  | parkTest =>
      rw [hpc] at hm
      exact Or.inl (hm.resolve_right fun h =>
        h.elim (fun ho => (hown hpc ho).2.2.1 rfl) hhanded)
  | take =>
      rw [hpc] at hm
      exact (hm.elim (fun ho => (hown hpc ho).2.2.2 rfl) hhanded).elim
  | handBackStore pausing => exact absurd hpc (hback pausing)
  | parkDiscard =>
      rw [hpc] at hm
      exact ⟨hm.1, hm.2.1, rfl⟩
  | _ =>
      rw [hpc] at hm
      exact hm

/-- The user resumes a paused file, or one that plays without video. -/
theorem inv_resume (h : HandOverInv s) (hgui : s.gui = .menu) :
    HandOverInv { s with controlledbygui := 0 } := by
  obtain ⟨hm, hg⟩ := h
  unfold GuiInv at hg
  rw [hgui] at hg
  -- In the menu no file is being handed over, so storing 0 takes none back.
  have hhanded : ¬ s.Handed := fun hh => hg.2 hh.2.1
  have hown : s.OwnPick → HandOver.OwnPick { s with controlledbygui := 0 } :=
    fun ho => ⟨ho.1, by simp, by simp⟩
  refine ⟨?_, HandOver.Detached.guiInv (Or.inr ⟨Or.inl hgui, by simp, by simp⟩)⟩
  unfold MPlayerInv at hm ⊢
  cases hpc : s.mplayer with
  | findShow =>
      rw [hpc] at hm
      exact hown hm
  | parkPoll =>
      rw [hpc] at hm
      exact hm.imp_right fun h => Or.inl (hown (h.resolve_right hhanded))
  | parkTest =>
      rw [hpc] at hm
      exact hm.imp_right fun h => Or.inl (hown (h.resolve_right hhanded))
  | take =>
      rw [hpc] at hm
      exact Or.inl (hown (hm.resolve_right hhanded))
  | parkDiscard =>
      rw [hpc] at hm
      exact absurd hm.2.2 hg.1
  | handBackStore pausing =>
      rw [hpc] at hm
      exact ⟨hm.1, rfl⟩
  | _ =>
      rw [hpc] at hm
      exact hm

/-- `LoadMPlayerFile` prepares `loadedFile` while MPlayer is parked. -/
theorem inv_prepare (h : HandOverInv s) (hgui : s.gui = .prepare) (file : F) :
    HandOverInv { s with loadedFile := file, gui := .handOver } := by
  obtain ⟨hm, hg⟩ := h
  unfold GuiInv at hg
  rw [hgui] at hg
  exact ⟨HandOver.Parked.mplayerInv (s := { s with loadedFile := file, gui := .handOver }) hg.1
    (hg.1.paired hm), hg⟩

/-- Every admitted step keeps the invariant. -/
theorem inv_step {move : Move F} (h : HandOverInv s) (hrace : NoRace s move)
    (hstep : handOverStep s move = some t) : HandOverInv t := by
  obtain ⟨hm, hg⟩ := id h
  cases move with
  | mplayer => exact inv_mplayerStep h hrace hstep
  | gui => exact inv_guiStep h hstep
  -- The choices of MPlayer leave `controlledbygui` and `filename` as they are.
  | pick next =>
      cases hpc : s.mplayer with
      | findPick =>
          simp only [MPlayerInv, hpc] at hm
          cases next with
          | none =>
              simp only [handOverStep, hpc, if_true, Option.some.injEq] at hstep
              subst hstep
              exact inv_play h (by simp [hpc]) hm rfl rfl
          | some file =>
              simp only [handOverStep, hpc, if_true, Option.some.injEq] at hstep
              subst hstep
              exact inv_play h (by simp [hpc]) hm rfl rfl
      | _ => simp [handOverStep, hpc] at hstep
  | video | audio | fail =>
      cases hpc : s.mplayer with
      | opened =>
          simp only [MPlayerInv, hpc] at hm
          simp only [handOverStep, hpc, if_true, Option.some.injEq] at hstep
          subst hstep
          exact inv_play h (by simp [hpc]) hm rfl rfl
      | _ => simp [handOverStep, hpc] at hstep
  | poll =>
      cases hpc : s.mplayer with
      | playing =>
          simp only [MPlayerInv, hpc] at hm
          simp only [handOverStep, hpc, if_true, Option.some.injEq] at hstep
          subst hstep
          refine inv_play h (by simp [hpc]) ?_ rfl rfl
          by_cases h2 : s.controlledbygui = 2
          · rw [if_pos h2]
            exact hm
          · rw [if_neg h2]
            exact hm
      | _ => simp [handOverStep, hpc] at hstep
  | pause | trackEnd =>
      cases hpc : s.mplayer with
      | playing =>
          simp only [MPlayerInv, hpc] at hm
          simp only [handOverStep, hpc, if_true, Option.some.injEq] at hstep
          subst hstep
          exact inv_play h (by simp [hpc]) hm rfl rfl
      | _ => simp [handOverStep, hpc] at hstep
  | endFilm error =>
      cases hpc : s.mplayer with
      | ending =>
          simp only [MPlayerInv, hpc] at hm
          simp only [handOverStep, hpc, if_true, Option.some.injEq] at hstep
          subst hstep
          exact inv_play h (by simp [hpc]) hm rfl rfl
      | _ => simp [handOverStep, hpc] at hstep
  -- The menu moves while it has handed nothing over, so MPlayer's part is kept.
  | select file =>
      cases hgui : s.gui with
      | menu =>
          simp only [handOverStep, hgui, if_true, Option.some.injEq] at hstep
          subst hstep
          refine ⟨hm.keep rfl rfl rfl rfl fun hh => absurd (hgui.symm.trans hh.2.2) (by simp), ?_⟩
          unfold GuiInv at hg
          rw [hgui] at hg
          exact HandOver.Detached.guiInv (Or.inr ⟨Or.inl rfl, hg⟩)
      | _ => simp [handOverStep, hgui] at hstep
  | resume =>
      cases hgui : s.gui with
      | menu =>
          simp only [handOverStep, hgui, if_true, Option.some.injEq] at hstep
          subst hstep
          simpa only [hgui] using inv_resume h hgui
      | _ => simp [handOverStep, hgui] at hstep
  -- a race-free load finds no pick of MPlayer waiting
  | load =>
      cases hgui : s.gui with
      | menu =>
          simp only [handOverStep, hgui, if_true, Option.some.injEq] at hstep
          subst hstep
          exact inv_load h hgui hrace
      | _ => simp [handOverStep, hgui] at hstep
  | prepare rewritten =>
      cases hgui : s.gui with
      | prepare =>
          simp only [handOverStep, hgui, if_true, Option.some.injEq] at hstep
          subst hstep
          exact inv_prepare h hgui _
      | _ => simp [handOverStep, hgui] at hstep

/-- Every state of a race-free run keeps the invariant. -/
theorem inv_of_reachable (h : (handOver F).Reachable NoRace s) : HandOverInv s := by
  refine h.invariant ?_ fun s move t _ hs hrace hstep => inv_step hs hrace hstep
  rintro s ⟨hcbg, hfile, hpc, hgui, hlog⟩
  constructor
  · unfold MPlayerInv
    rw [hpc, hlog]
    exact .nil
  · unfold GuiInv
    rw [hgui, hcbg]
    exact ⟨by decide, by decide⟩

end Steps

/-! ## The hand-over -/

section HandedOver

variable {s t : HandOver F}

/-- Every file given to MPlayer has been opened next, and once; the latest may still wait. -/
def Orderly (log : List (Entry F)) : Prop :=
  Paired log ∨ ∃ file log', Paired log' ∧ (log = .picked file :: log' ∨ log = .handed file :: log')

/-- A file is being opened, plays, is paused or ends. -/
def HandOver.InFile (s : HandOver F) : Prop :=
  match s.mplayer with
  | .open_ | .opened | .handBackTest _ | .handBackStore _ | .pauseWait | .playing | .ending => True
  | _ => False

/-- `LoadMPlayerFile` is between its storing of 3 and its storing of `filename`. -/
def HandOver.HandingOver (s : HandOver F) : Prop :=
  match s.gui with
  | .handOver | .loadFree | .loadDup | .loadStore _ => True
  | _ => False

/-- The files are opened in the order in which they were given. -/
theorem MPlayerInv.orderly (h : MPlayerInv s) : Orderly s.log := by
  have hown : s.OwnPick → Orderly s.log := by
    rintro ⟨⟨file, -, log, hlog, hpaired⟩, -⟩
    exact Or.inr ⟨file, log, hpaired, Or.inl hlog⟩
  have hhanded : s.Handed → Orderly s.log := by
    rintro ⟨⟨file, -, log, hlog, hpaired⟩, -⟩
    exact Or.inr ⟨file, log, hpaired, Or.inr hlog⟩
  -- The last entry is a file that waits for being opened, or the log is paired.
  unfold MPlayerInv at h
  cases hpc : s.mplayer with
  | findShow =>
      rw [hpc] at h
      exact hown h
  | parkPoll | parkTest =>
      rw [hpc] at h
      exact h.elim (fun hempty => Or.inl hempty.2) fun h => h.elim hown hhanded
  | take =>
      rw [hpc] at h
      exact h.elim hown hhanded
  | open_ =>
      rw [hpc] at h
      obtain ⟨file, ⟨-, log, hlog, hpaired⟩ | ⟨-, log, hlog, hpaired⟩⟩ := h
      · exact Or.inr ⟨file, log, hpaired, Or.inl hlog⟩
      · exact Or.inr ⟨file, log, hpaired, Or.inr hlog⟩
  | parkDiscard =>
      rw [hpc] at h
      exact Or.inl h.2.1
  | handBackStore pausing =>
      rw [hpc] at h
      exact Or.inl h.1
  | findStopped | findVideo | findPick | loadFree | loadDup | loadStore _ | giveBack =>
      rw [hpc] at h
      exact Or.inl h.2
  | _ =>
      rw [hpc] at h
      exact Or.inl h

/-- While the GUI hands a file over, MPlayer is parked. -/
theorem GuiInv.parked (h : GuiInv s) (hgui : s.HandingOver) : s.Parked := by
  unfold GuiInv at h
  unfold HandOver.HandingOver at hgui
  cases hpc : s.gui with
  | menu | waitEnd | prepare | waitTaken =>
      rw [hpc] at hgui
      exact hgui.elim
  | _ =>
      rw [hpc] at h
      exact h.1

/-- While 3 is stored, MPlayer is parked, or it has the file that was handed over. -/
theorem GuiInv.of_three (h : GuiInv s) (h3 : s.controlledbygui = 3) :
    s.gui ≠ .menu ∧ (s.Parked ∨ s.Handed ∧
      (s.mplayer = .parkPoll ∨ s.mplayer = .parkTest ∨ s.mplayer = .take)) := by
  unfold GuiInv at h
  cases hpc : s.gui with
  | menu =>
      rw [hpc] at h
      exact absurd h3 h.2
  | waitEnd =>
      rw [hpc] at h
      exact absurd h3 h.1
  | prepare | handOver =>
      rw [hpc] at h
      exact absurd h3 h.2.2
  | waitTaken =>
      rw [hpc] at h
      exact ⟨by simp, Or.inr (h.2 h3)⟩
  | _ =>
      rw [hpc] at h
      exact ⟨by simp, Or.inl h.1⟩

/-- The steps that store into `controlledbygui`. -/
theorem stores_controlledbygui {move : Move F} (hstep : handOverStep s move = some t)
    (hne : t.controlledbygui ≠ s.controlledbygui) :
    (move = .mplayer ∧ (s.mplayer = .giveBack ∨ s.mplayer = .parkDiscard ∨ s.mplayer = .take ∨
      ∃ pausing, s.mplayer = .handBackStore pausing)) ∨
    (move = .gui ∧ s.gui = .handOver) ∨ s.gui = .menu := by
  cases move with
  | mplayer =>
      refine Or.inl ⟨rfl, ?_⟩
      cases hpc : s.mplayer with
      | giveBack => exact Or.inl rfl
      | parkDiscard => exact Or.inr (Or.inl rfl)
      | take => exact Or.inr (Or.inr (Or.inl rfl))
      | handBackStore pausing => exact Or.inr (Or.inr (Or.inr ⟨pausing, rfl⟩))
      -- the other stages leave the variable as it is
      | nextFile err =>
          simp only [handOverStep, mplayerStep, hpc] at hstep
          by_cases hfile : s.filename.isSome = true
          · rw [if_pos hfile] at hstep
            cases hstep
            exact absurd rfl hne
          · rw [if_neg hfile] at hstep
            cases hstep
            exact absurd rfl hne
      | open_ =>
          cases hfile : s.filename with
          | none => simp [handOverStep, mplayerStep, hpc, hfile] at hstep
          | some file =>
              simp only [handOverStep, mplayerStep, hpc, hfile] at hstep
              cases hstep
              exact absurd rfl hne
      | pauseWait =>
          simp only [handOverStep, mplayerStep, hpc] at hstep
          split_ifs at hstep <;> cases hstep <;> exact absurd rfl hne
      | findPick | opened | playing | ending => simp [handOverStep, mplayerStep, hpc] at hstep
      | _ =>
          simp only [handOverStep, mplayerStep, hpc] at hstep
          cases hstep
          exact absurd rfl hne
  -- the GUI stores 3 in `LoadMPlayerFile`, its menu stores the rest
  | gui =>
      cases hpc : s.gui with
      | handOver => exact Or.inr (Or.inl ⟨rfl, rfl⟩)
      | menu => exact Or.inr (Or.inr rfl)
      | prepare => simp [handOverStep, guiStep, hpc] at hstep
      | waitEnd | waitTaken =>
          simp only [handOverStep, guiStep, hpc] at hstep
          split_ifs at hstep <;> cases hstep <;> exact absurd rfl hne
      | _ =>
          simp only [handOverStep, guiStep, hpc] at hstep
          cases hstep
          exact absurd rfl hne
  | load | resume | select file =>
      cases hpc : s.gui with
      | menu => exact Or.inr (Or.inr rfl)
      | _ => simp [handOverStep, hpc] at hstep
  | prepare rewritten =>
      simp only [handOverStep] at hstep
      split_ifs at hstep
      cases hstep
      exact absurd rfl hne
  | pick next =>
      cases next <;> simp only [handOverStep] at hstep <;> split_ifs at hstep <;> cases hstep <;>
        exact absurd rfl hne
  | _ =>
      simp only [handOverStep] at hstep
      split_ifs at hstep <;> cases hstep <;> exact absurd rfl hne

/-- The steps that store into `loadedFile`. -/
theorem stores_loadedFile {move : Move F} (hstep : handOverStep s move = some t)
    (hne : t.loadedFile ≠ s.loadedFile) :
    s.mplayer = .findPick ∨ s.gui = .menu ∨ s.gui = .prepare := by
  cases move with
  | mplayer =>
      -- no stage of MPlayer writes it; `FindNextFile` does in `pick` below
      exfalso
      apply hne
      cases hpc : s.mplayer with
      | open_ =>
          cases hfile : s.filename with
          | none => simp [handOverStep, mplayerStep, hpc, hfile] at hstep
          | some file =>
              simp only [handOverStep, mplayerStep, hpc, hfile] at hstep
              cases hstep
              rfl
      | nextFile err =>
          simp only [handOverStep, mplayerStep, hpc] at hstep
          by_cases hfile : s.filename.isSome = true
          · rw [if_pos hfile] at hstep
            cases hstep
            rfl
          · rw [if_neg hfile] at hstep
            cases hstep
            rfl
      | pauseWait =>
          simp only [handOverStep, mplayerStep, hpc] at hstep
          split_ifs at hstep <;> cases hstep <;> rfl
      | findPick | opened | playing | ending => simp [handOverStep, mplayerStep, hpc] at hstep
      | _ =>
          simp only [handOverStep, mplayerStep, hpc] at hstep
          cases hstep
          rfl
  | gui =>
      exfalso
      apply hne
      cases hpc : s.gui with
      | menu | prepare => simp [handOverStep, guiStep, hpc] at hstep
      | waitEnd | waitTaken =>
          simp only [handOverStep, guiStep, hpc] at hstep
          split_ifs at hstep <;> cases hstep <;> rfl
      | _ =>
          simp only [handOverStep, guiStep, hpc] at hstep
          cases hstep
          rfl
  | load | resume | select file =>
      cases hpc : s.gui with
      | menu => exact Or.inr (Or.inl rfl)
      | _ => simp [handOverStep, hpc] at hstep
  | prepare rewritten =>
      cases hpc : s.gui with
      | prepare => exact Or.inr (Or.inr rfl)
      | _ => simp [handOverStep, hpc] at hstep
  | pick next =>
      cases hpc : s.mplayer with
      | findPick => exact Or.inl rfl
      | _ => simp [handOverStep, hpc] at hstep
  | _ =>
      simp only [handOverStep] at hstep
      split_ifs at hstep <;> cases hstep <;> exact absurd rfl hne

/-- MPlayer opens the file in one step. -/
theorem exec_open_ {file : F} (hpc : s.mplayer = .open_) (hfile : s.filename = some file) :
    (handOver F).exec s (List.replicate 1 .mplayer) =
      some { s with mplayer := .opened, log := .opened file :: s.log } := by
  change (mplayerStep s).bind some = _
  simp only [mplayerStep, hpc, hfile, Option.bind_some]

/-- MPlayer takes and opens the file in two steps. -/
theorem exec_take {file : F} (hpc : s.mplayer = .take) (hfile : s.filename = some file) :
    (handOver F).exec s (List.replicate 2 .mplayer) =
      some { s with controlledbygui := 0, mplayer := .opened, log := .opened file :: s.log } := by
  rw [List.replicate_succ, System.exec]
  change (mplayerStep s).bind _ = _
  simp only [mplayerStep, hpc, Option.bind_some]
  exact exec_open_ rfl hfile

/-- MPlayer finds, takes and opens the file in three steps. -/
theorem exec_parkTest {file : F} (hpc : s.mplayer = .parkTest) (hfile : s.filename = some file) :
    (handOver F).exec s (List.replicate 3 .mplayer) =
      some { s with controlledbygui := 0, mplayer := .opened, log := .opened file :: s.log } := by
  rw [List.replicate_succ, System.exec]
  change (mplayerStep s).bind _ = _
  simp only [mplayerStep, hpc, hfile, Option.isSome_some, if_true, Option.bind_some]
  exact exec_take (s := { s with filename := some file, mplayer := .take }) rfl rfl

/-- MPlayer polls, finds, takes and opens the file that is handed over in four steps. -/
theorem exec_parkPoll {file : F} (hpc : s.mplayer = .parkPoll) (h3 : s.controlledbygui = 3)
    (hfile : s.filename = some file) :
    (handOver F).exec s (List.replicate 4 .mplayer) =
      some { s with controlledbygui := 0, mplayer := .opened, log := .opened file :: s.log } := by
  rw [List.replicate_succ, System.exec]
  change (mplayerStep s).bind _ = _
  have h2 : s.controlledbygui ≠ 2 := by omega
  simp only [mplayerStep, hpc, if_neg h2, Option.bind_some]
  exact exec_parkTest (s := { s with mplayer := .parkTest }) rfl hfile

/-- A file that has been handed over is opened within four steps of MPlayer. -/
theorem opens_handed {file : F} {log : List (Entry F)} (h : MPlayerInv s)
    (hlog : s.log = .handed file :: log) :
    ∃ n ≤ 4, ∃ u, (handOver F).exec s (List.replicate n .mplayer) = some u ∧
      u.log = .opened file :: s.log := by
  -- With a handed file waiting the log is not paired, which leaves the stages where a handed file
  -- is on its way: at the park loop, at the take or at the opening.
  have hpick : ¬ ∃ file', s.Given file' (.picked file') := by
    rintro ⟨file', -, log', hlog', -⟩
    simp [hlog] at hlog'
  have hown : ¬ s.OwnPick := fun ho => hpick ho.1
  have hpaired : ¬ Paired s.log := by
    rw [hlog]
    rintro ⟨⟩
  have hgiven : ∀ file', s.Given file' (.handed file') → s.filename = some file := by
    rintro file' ⟨hfile, log', hlog', -⟩
    rw [hlog] at hlog'
    cases hlog'
    exact hfile
  have hhanded : s.Handed → s.filename = some file ∧ s.controlledbygui = 3 :=
    fun hh => ⟨hgiven _ hh.1.choose_spec, hh.2.1⟩
  unfold MPlayerInv at h
  cases hpc : s.mplayer with
  -- from the park loop it takes four steps, and one less from each later stage
  | parkPoll =>
      rw [hpc] at h
      obtain ⟨hfile, h3⟩ := hhanded ((h.resolve_left fun h => hpaired h.2).resolve_left hown)
      exact ⟨4, Nat.le_refl 4, _, exec_parkPoll hpc h3 hfile, rfl⟩
  | parkTest =>
      rw [hpc] at h
      obtain ⟨hfile, -⟩ := hhanded ((h.resolve_left fun h => hpaired h.2).resolve_left hown)
      exact ⟨3, by decide, _, exec_parkTest hpc hfile, rfl⟩
  | take =>
      rw [hpc] at h
      obtain ⟨hfile, -⟩ := hhanded (h.resolve_left hown)
      exact ⟨2, by decide, _, exec_take hpc hfile, rfl⟩
  | open_ =>
      rw [hpc] at h
      obtain ⟨file', hg⟩ := h
      have hfile := hgiven file' (hg.resolve_left fun hg => hpick ⟨file', hg⟩)
      exact ⟨1, by decide, _, exec_open_ hpc hfile, rfl⟩
  -- everywhere else the log would have to be paired
  | findShow =>
      rw [hpc] at h
      exact absurd h hown
  | parkDiscard =>
      rw [hpc] at h
      exact absurd h.2.1 hpaired
  | handBackStore pausing =>
      rw [hpc] at h
      exact absurd h.1 hpaired
  | findStopped | findVideo | findPick | loadFree | loadDup | loadStore _ | giveBack =>
      rw [hpc] at h
      exact absurd h.2 hpaired
  | _ =>
      rw [hpc] at h
      exact absurd h hpaired

/-- In a race-free run, at every step: `LoadMPlayerFile` stores 3 only while MPlayer is parked in
`play_next_file`; the file it passes on is the next one that MPlayer opens, and is opened once;
only MPlayer's taking of that file changes a 3; and nothing overwrites a stop request before the
file has been left. -/
theorem handOver_safe {move : Move F} (h : (handOver F).Reachable NoRace s)
    (hrace : NoRace s move) (hstep : (handOver F).step s move = some t) :
    (s.HandingOver → s.Parked ∧ t.loadedFile = s.loadedFile) ∧
    (∀ file, s.gui = .loadStore file → file = s.loadedFile) ∧
    Orderly s.log ∧
    (∀ file log, s.log = .handed file :: log → ∃ n ≤ 4, ∃ u,
      (handOver F).exec s (List.replicate n .mplayer) = some u ∧ u.log = .opened file :: s.log) ∧
    (s.controlledbygui = 3 → t.controlledbygui ≠ 3 →
      move = .mplayer ∧ s.mplayer = .take ∧ ∃ file, s.Given file (.handed file)) ∧
    (s.InFile → s.controlledbygui = 2 → t.controlledbygui = 2) := by
  obtain ⟨hm, hg⟩ := inv_of_reachable h
  refine ⟨fun hgui => ⟨hg.parked hgui, ?_⟩, fun file hgui => ?_, hm.orderly,
    fun file log => opens_handed hm, fun h3 hne => ?_, fun hpc h2 => ?_⟩
  -- during the hand-over nobody writes `loadedFile`
  · by_contra hne
    unfold HandOver.HandingOver at hgui
    rcases stores_loadedFile hstep hne with hpick | hmenu | hprepare
    · rcases (hg.parked hgui).1 with hpc | hpc <;> rw [hpick] at hpc <;> cases hpc
    · rw [hmenu] at hgui
      exact hgui
    · rw [hprepare] at hgui
      exact hgui
  -- what is stored is what was duplicated
  · unfold GuiInv at hg
    rw [hgui] at hg
    exact hg.2.2
  -- the 3 is taken back by the take alone
  · obtain ⟨hmenu, hpark⟩ := hg.of_three h3
    have hparked : s.Parked → s.mplayer = .parkPoll ∨ s.mplayer = .parkTest := fun hp => hp.1
    rcases stores_controlledbygui hstep (h3.symm ▸ hne) with ⟨rfl, hpc⟩ | ⟨-, hgui⟩ | hgui
    · refine ⟨rfl, ?_⟩
      rcases hpark with hp | ⟨hhanded, hp⟩
      · -- a parked MPlayer stores nothing here
        rcases hparked hp with hp | hp <;> rw [hp] at hpc <;> simp at hpc
      · rcases hp with hp | hp | hp
        · rw [hp] at hpc
          simp at hpc
        · rw [hp] at hpc
          simp at hpc
        · exact ⟨hp, hhanded.1⟩
    · unfold GuiInv at hg
      rw [hgui] at hg
      exact absurd h3 hg.2.2
    · exact absurd hgui hmenu
  -- within a file a stop stays requested: the GUI waits for its end
  · by_contra hne
    have hout : s.mplayer ≠ .parkPoll ∧ s.mplayer ≠ .parkTest ∧ s.mplayer ≠ .take := by
      refine ⟨?_, ?_, ?_⟩ <;> intro hp <;> rw [HandOver.InFile, hp] at hpc <;> exact hpc
    have hwait : s.gui = .waitEnd := by
      rcases hg.detached hout with ⟨hgui, -⟩ | ⟨-, hnot2, -⟩
      · exact hgui
      · exact absurd h2 hnot2
    rcases stores_controlledbygui hstep (h2.symm ▸ hne) with ⟨-, hstore⟩ | ⟨-, hgui⟩ | hgui
    · rcases hstore with hp | hp | hp | ⟨pausing, hp⟩
      · rw [HandOver.InFile, hp] at hpc
        exact hpc
      · rw [HandOver.InFile, hp] at hpc
        exact hpc
      · exact hout.2.2 hp
      · unfold MPlayerInv at hm
        rw [hp] at hm
        exact absurd (h2.symm.trans hm.2) (by decide)
    · rw [hwait] at hgui
      cases hgui
    · rw [hwait] at hgui
      cases hgui

end HandedOver

section Races

/-- After the boot, with the file 0 in `loadedFile`. -/
def boot : HandOver ℕ :=
  { controlledbygui := 1, filename := none, loadedFile := 0, mplayer := .nextFile false,
    gui := .menu, log := [] }

/-- The state after the boot is reached. -/
theorem boot_reachable (ok : HandOver ℕ → Move ℕ → Prop) : (handOver ℕ).Reachable ok boot :=
  .init ⟨rfl, rfl, rfl, rfl, rfl⟩

/-- MPlayer parks, the user selects the file 1, and the stop request is answered. -/
def stopFirst : List (Move ℕ) :=
  [.mplayer, .mplayer, .mplayer, .pick none, .mplayer, .select 1, .load, .mplayer, .mplayer,
    .gui, .prepare none]

/-- The file 1 is handed over, and MPlayer opens it. -/
def loadFirst : List (Move ℕ) :=
  stopFirst ++ [.gui, .gui, .gui, .gui, .mplayer, .mplayer, .mplayer, .gui, .audio]

/-- The track ends, and the user selects the file 2 just before MPlayer stores its own pick. -/
def naturalEnd : List (Move ℕ) :=
  loadFirst ++ [.mplayer, .mplayer, .trackEnd, .endFilm false, .mplayer, .mplayer, .mplayer,
    .mplayer, .pick (some 5), .mplayer, .mplayer, .select 2, .load, .mplayer, .mplayer, .mplayer,
    .mplayer, .gui, .prepare none, .mplayer]

/-- MPlayer opens its pick while the file 2 is handed over, plays it to the end, and frees the
file 2 for its next pick. -/
def handedLost : List (Move ℕ) :=
  naturalEnd ++ [.mplayer, .mplayer, .gui, .gui, .gui, .gui, .audio, .mplayer, .trackEnd,
    .endFilm false, .mplayer, .mplayer, .mplayer, .mplayer, .pick (some 6), .mplayer, .mplayer,
    .mplayer]

/-- The user selects the file 2 between MPlayer's reading of 0 and its storing of 1. -/
def noVideo : List (Move ℕ) :=
  loadFirst ++ [.mplayer, .select 2, .load]

/-- The run in which the GUI stops MPlayer first has no race. -/
theorem stopFirst_okAlong : (handOver ℕ).OkAlong NoRace boot stopFirst := by
  refine ⟨nofun, ?_⟩; rintro _ ⟨⟩
  refine ⟨nofun, ?_⟩; rintro _ ⟨⟩
  refine ⟨nofun, ?_⟩; rintro _ ⟨⟩
  refine ⟨trivial, ?_⟩; rintro _ ⟨⟩
  refine ⟨nofun, ?_⟩; rintro _ ⟨⟩
  refine ⟨trivial, ?_⟩; rintro _ ⟨⟩
  refine ⟨⟨fun h => h.2 rfl, nofun⟩, ?_⟩; rintro _ ⟨⟩
  refine ⟨nofun, ?_⟩; rintro _ ⟨⟩
  refine ⟨nofun, ?_⟩; rintro _ ⟨⟩
  refine ⟨trivial, ?_⟩; rintro _ ⟨⟩
  refine ⟨trivial, ?_⟩; rintro _ ⟨⟩
  trivial

theorem handOver_safe_stopFirst :
    ∃ s t : HandOver ℕ, (handOver ℕ).exec boot stopFirst = some s ∧
      (handOver ℕ).step s .gui = some t ∧ t.controlledbygui = 3 ∧ s.Parked ∧ s.loadedFile = 1 ∧
      t.loadedFile = 1 := by
  have hs := (boot_reachable NoRace).exec stopFirst_okAlong rfl
  have h := handOver_safe hs (show NoRace _ .gui from trivial) rfl
  exact ⟨_, _, rfl, rfl, rfl, (h.1 trivial).1, rfl, (h.1 trivial).2⟩

/-- With a stop request at the natural end of a track, 3 is about to be stored while MPlayer takes
its own pick; the file handed over is then never opened. With one at the no-video store of 1, the
request is overwritten while the file plays. -/
theorem natural_end_race :
    (∃ s, (handOver ℕ).Reachable (fun _ _ => True) s ∧ s.gui = .handOver ∧ s.mplayer = .take) ∧
    (∃ s, (handOver ℕ).Reachable (fun _ _ => True) s ∧
      s.log = [.picked 6, .handed 2, .opened 5, .picked 5, .opened 1, .handed 1]) ∧
    (∃ s t, (handOver ℕ).Reachable (fun _ _ => True) s ∧ s.InFile ∧ s.controlledbygui = 2 ∧
      (handOver ℕ).step s .mplayer = some t ∧ t.controlledbygui = 1) := by
  have hok : ∀ (as : List (Move ℕ)), (handOver ℕ).OkAlong (fun _ _ => True) boot as :=
    fun as => System.OkAlong.of_forall (P := fun _ => True) (fun _ _ => trivial) boot
  have hrun : ∀ (as : List (Move ℕ)) s, (handOver ℕ).exec boot as = some s →
      (handOver ℕ).Reachable (fun _ _ => True) s :=
    fun as s h => (boot_reachable _).exec (hok as) h
  refine ⟨⟨_, hrun naturalEnd _ rfl, rfl, rfl⟩, ⟨_, hrun handedLost _ rfl, rfl⟩,
    ⟨_, _, hrun noVideo _ rfl, trivial, rfl, rfl, rfl⟩⟩

end Races

end WiiMC.Player
