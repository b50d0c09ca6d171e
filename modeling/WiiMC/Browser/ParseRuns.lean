import WiiMC.Browser.ParseBatches

/-!
# Whatever the threads do

The GUI lists a directory and goes on, the parse thread lists the rest, and any thread may halt it
at any time. Every run of them is a run of `ParseDirEntries` on the directory, batch by batch.

* `Orderly`: who touches the list, who has the directory open, and what has been listed of it.
* `parseThread_lists`: the parse thread is suspended where the GUI touches the list, and what is on
  the screen are the batches of the directory that was asked for.
* `suspendParseThread_waits`: `SuspendParseThread` waits for at most seven steps of the thread.
* `stopParseThread_iff`: `StopParseThread` returns exactly where the thread sees its flag.
-/

namespace WiiMC.Browser

open Bytes Player Transition ParseState

variable {menu : Menu} {l : Listing} {s t : ParseState} {e : Entries} {rest : List (Dirent × Memory)}

/-! ## The threads -/

namespace GuiStage

/-- The GUI has the list for itself. -/
def owns : GuiStage → Bool
  | .idle halted => halted
  | .stop | .stopTest | .reset _ | .open _ | .climb _ | .upEntry _ | .start _ | .entries _ _ => true
  | .resume (.directory _) | .resumeThread (.directory _) => true
  | _ => false

/-- No directory is open. -/
def closed : GuiStage → Bool
  | .idle halted => halted
  | .stop | .stopTest | .join | .reset _ | .climb _ => true
  | _ => false

/-- The GUI may have a directory open itself. -/
def opens : GuiStage → Bool
  | .open _ | .upEntry _ | .start _ | .entries _ _ => true
  | .resume (.directory _) | .resumeThread (.directory _) => true
  | _ => false

/-- The GUI opens a directory, or has just done so. -/
def asked : GuiStage → Bool
  | .open _ | .upEntry _ | .start _ => true
  | _ => false

/-- The GUI ends the thread. -/
def stopping : GuiStage → Bool
  | .stopTest | .join => true
  | _ => false

/-- The GUI is in `ParseDirectory`, and has not listed anything yet. -/
def before : GuiStage → Bool
  | .suspend (.directory _) | .suspendWait (.directory _) | .reset _ | .open _ | .climb _
  | .upEntry _ | .start _ => true
  | _ => false

/-- The GUI is in `ParseDirectory`, and has not resumed the thread yet. -/
def directory : GuiStage → Bool
  | .entries _ _ | .resume (.directory _) | .resumeThread (.directory _) => true
  | stage => stage.before

end GuiStage

/-- The directory is closed, unless the parse thread is about to read it. -/
def Rests (s : ParseState) : Prop :=
  (∀ p ∈ s.thread, p.suspended = true ∨ p.pc = .suspend ∨ p.pc = .gone) → s.dirHandle = none

/-- The call of `ParseDirEntries` in the thread. -/
def ParseThread.batch (p : ParseThread) : Option Entries :=
  match p.pc with
  | .entries e => some e
  | _ => none

/-- The call of `ParseDirEntries` under way. -/
def ParseState.batch (s : ParseState) : Option Entries :=
  match s.gui with
  | .entries _ e => some e
  | _ => s.thread.bind ParseThread.batch

/-- What is done of the listing, with this call under way. -/
def Done (menu : Menu) (l : Listing) (s : ParseState) : Option Entries → Prop
  | some e => Amid menu l s e
  | none => Between menu l s

/-- The invariant. -/
structure Orderly (menu : Menu) (s : ParseState) : Prop where
  parked : ∀ p ∈ s.thread, p.suspended = true → p.pc = .resumed
  owner : s.gui.owns = true → s.parked = true
  closed : s.gui.closed = true → s.dirHandle = none
  rests : s.gui.opens = false → Rests s
  asked : s.gui.asked = true → ∀ h ∈ s.dirHandle, h.path = s.dir
  two : s.parseHalt = 2 →
    s.gui.stopping = true ∨ s.thread = none ∧ ∀ next, s.gui ≠ .resumeThread next
  before : s.gui.before = true → s.shown = none
  created : s.gui.directory = true → s.thread.isSome = true
  path : ∀ l ∈ s.shown, l.path = s.dir
  flag : s.shown.isSome = true → s.parseHalt ≠ 0 → s.disturbed = true
  listing : ∀ l ∈ s.shown, Done menu l s s.batch

/-- The steps that the menu takes. It stops the thread where it has halted it, and lists a directory
where it has a thread; and there is memory for the entry that leads up. -/
def ByMenu (s : ParseState) : ParseAct → Prop
  | .callStop => s.gui = .idle true
  | .callDirectory _ _ => s.thread.isSome = true
  | .upEntry m => m.serves ⟨ascii "..", true⟩ = true
  | _ => True

variable {p : ParseThread}

/-! ### Setting `parseHalt` -/

/-- A listing that may be disturbed asks for less. -/
theorem SoFar.disturb {disturbed : Bool} {browser : Browser}
    (h : SoFar menu l disturbed rest browser) : SoFar menu l true rest browser :=
  let ⟨halts, _, heq⟩ := h
  ⟨halts, ⟨fun hquiet => by cases hquiet⟩, heq⟩

/-- A listing that may have been disturbed asks for less. -/
theorem Ended.disturb {disturbed : Bool} {browser : Browser}
    (h : Ended menu l disturbed browser) : Ended menu l true browser :=
  let ⟨halts, _, heq⟩ := h
  ⟨halts, ⟨fun hquiet => by cases hquiet⟩, heq⟩

/-- Setting `parseHalt` leaves the listing between two batches. -/
theorem Between.halt (h : Between menu l s) (v : ℕ) : Between menu l (s.halt v) := by
  unfold Between at h ⊢
  simp only [ParseState.halt]
  cases hhandle : s.dirHandle with
  | none =>
    rw [hhandle] at h
    exact h.disturb
  | some handle =>
    rw [hhandle] at h
    exact h.disturb

/-- Setting `parseHalt` leaves the listing in its batch. -/
theorem Amid.halt (h : Amid menu l s e) (v : ℕ) : Amid menu l (s.halt v) e := by
  cases e with
  | loop i ended =>
    obtain ⟨rest, browser, handle, hsofar, hrest⟩ := h
    exact ⟨rest, browser, handle, hsofar.disturb, hrest⟩
  | sort i ended =>
    obtain ⟨rest, browser, handle, hsofar, hhandle, k, b, -, heq⟩ := h
    exact ⟨rest, browser, handle, hsofar.disturb, hhandle, k, b, fun hquiet => (by cases hquiet), heq⟩
  | last ended =>
    obtain ⟨rest, browser, handle, hsofar, hhandle, k, b, i, -, heq⟩ := h
    exact ⟨rest, browser, handle, hsofar.disturb, hhandle, k, b, i, fun hquiet => (by cases hquiet),
      heq⟩
  | close => exact Ended.disturb h

/-- Setting `parseHalt` leaves the listing where it is. -/
theorem Done.halt {b : Option Entries} (h : Done menu l s b) (v : ℕ) :
    Done menu l (s.halt v) b := by
  cases b with
  | none => exact Between.halt h v
  | some e => exact Amid.halt h v

/-- Whatever is not the listing itself may change. -/
theorem Done.congr {b : Option Entries} (h : Done menu l s b) (hbrowser : t.browser = s.browser)
    (hhandle : t.dirHandle = s.dirHandle) (hdisturbed : t.disturbed = s.disturbed) :
    Done menu l t b := by
  cases b with
  | none =>
    simp only [Done, Between, hbrowser, hhandle, hdisturbed] at h ⊢
    exact h
  | some e =>
    cases e <;> simp only [Done, Amid, hbrowser, hhandle, hdisturbed] at h ⊢ <;> exact h

/-- Setting `parseHalt` keeps the invariant, if a 2 is stored by the GUI that ends the thread. -/
theorem Orderly.halt (h : Orderly menu s) {v : ℕ} (hv : v = 2 →
    s.gui.stopping = true ∨ s.thread = none ∧ ∀ next, s.gui ≠ .resumeThread next) :
    Orderly menu (s.halt v) where
  parked := h.parked
  owner := h.owner
  closed := h.closed
  rests := h.rests
  asked := h.asked
  two := hv
  before := h.before
  created := h.created
  path := h.path
  flag := fun _ _ => rfl
  listing l hl := (h.listing l hl).halt v

/-- Clearing `parseHalt` keeps the invariant. -/
theorem Orderly.release (h : Orderly menu s) : Orderly menu { s with parseHalt := 0 } :=
  { h with
    two := fun htwo => by cases htwo
    flag := fun _ hset => absurd rfl hset
    listing := fun l hl => (h.listing l hl).congr rfl rfl rfl }

/-! ### The parse thread -/

/-- Where the GUI is in no batch, the thread is in the one under way. -/
theorem batch_thread (hgui : ∀ waitParse e, s.gui ≠ .entries waitParse e)
    (hs : s.thread = some p) : s.batch = p.batch := by
  unfold ParseState.batch
  split
  · next h => exact absurd h (hgui _ _)
  · rw [hs]
    rfl

/-- A closed directory stays closed. -/
theorem entriesStep_none {r : Entries ⊕ Bool} (hnone : s.dirHandle = none)
    (h : s.entriesStep menu e = some (t, r)) : t.dirHandle = none := by
  cases e with
  | loop i ended =>
    simp only [entriesStep, hnone] at h
    split_ifs at h
    · cases h
      exact hnone
    · cases h
  | sort i ended =>
    simp only [entriesStep] at h
    split_ifs at h
    · obtain ⟨browser, -, heq⟩ := Option.map_eq_some_iff.mp h
      cases heq
      exact hnone
    · cases h
      exact hnone
  | last ended =>
    simp only [entriesStep] at h
    split_ifs at h <;> cases h <;> exact hnone
  | close =>
    cases h
    rfl

/-- A GUI that has not got the list for itself opens no directory. -/
theorem opens_of_not_owns (howns : s.gui.owns = false) : s.gui.opens = false := by
  cases hg : s.gui with
  | resume next | resumeThread next =>
    rw [hg] at howns
    cases next <;> first | rfl | cases howns
  | «open» _ | upEntry _ | start _ | entries _ _ =>
    rw [hg] at howns
    cases howns
  | _ => rfl

/-- The thread goes on, where the GUI has not got the list for itself. -/
theorem Orderly.goOn (h : Orderly menu s) (howns : s.gui.owns = false) (hsome : s.thread ≠ none)
    (hp : p.suspended = true → p.pc = .resumed)
    (hframe : t = { s with
      browser := t.browser, dirHandle := t.dirHandle, thread := some p })
    (hclosed : s.dirHandle = none → t.dirHandle = none)
    (hrests : p.suspended = true ∨ p.pc = .suspend ∨ p.pc = .gone → t.dirHandle = none)
    (hlisting : ∀ l ∈ s.shown, Done menu l t p.batch) : Orderly menu t := by
  -- The GUI is outside `ParseDirEntries`, so the batch is the thread's.
  have hgui : ∀ waitParse e, s.gui ≠ .entries waitParse e := by
    intro waitParse e hg
    rw [hg] at howns
    cases howns
  have hbatch : t.batch = p.batch :=
    batch_thread (by rw [hframe]; exact hgui) (by rw [hframe])
  obtain ⟨browser, dir, dirHandle, parseHalt, thread, gui, shown, disturbed⟩ := t
  cases hframe
  refine ⟨?_, ?_, fun hc => hclosed (h.closed hc), fun _ hpc => hrests (hpc p rfl), ?_, ?_, h.before,
    fun _ => rfl, h.path, h.flag, fun l hl => ?_⟩
  · intro q hq
    cases hq
    exact hp
  · intro ho
    exact absurd ho (by simp [howns])
  · intro ha
    cases hg : s.gui <;> simp_all [GuiStage.asked, GuiStage.owns]
  · intro htwo
    rcases h.two htwo with hstop | ⟨hnone, -⟩
    · exact Or.inl hstop
    · exact absurd hnone hsome
  · rw [hbatch]
    exact hlisting l hl

/-- While the thread is awake the GUI has not got the list for itself, and the listing is as far as
the thread is. -/
theorem Orderly.awake (h : Orderly menu s) {pc : ParsePc} (hs : s.thread = some ⟨pc, false⟩) :
    s.gui.owns = false ∧ ∀ l ∈ s.shown, Done menu l s (ParseThread.batch ⟨pc, false⟩) := by
  have howns : s.gui.owns = false := by
    by_contra ho
    have hparked := h.owner (by simpa using ho)
    simp [ParseState.parked, hs] at hparked
  refine ⟨howns, ?_⟩
  have hgui : ∀ waitParse e, s.gui ≠ .entries waitParse e := by
    intro waitParse e hg
    rw [hg] at howns
    cases howns
  rw [← batch_thread hgui hs]
  exact h.listing

/-- The thread suspends itself. The directory is closed. -/
theorem Orderly.threadSuspend (h : Orderly menu s) (hs : s.thread = some ⟨.suspend, false⟩) :
    Orderly menu { s with thread := some ⟨.resumed, true⟩ } := by
  obtain ⟨howns, hdone⟩ := h.awake hs
  have hnone : s.dirHandle = none := h.rests (opens_of_not_owns howns) fun q hq => by
    rw [hs] at hq
    cases hq
    exact Or.inr (Or.inl rfl)
  exact h.goOn howns (by simp [hs]) (fun _ => rfl) rfl id (fun _ => hnone) fun l hl =>
    (hdone l hl).congr rfl rfl rfl

/-- The thread has been resumed, and looks whether it is to end. -/
theorem Orderly.threadResumed (h : Orderly menu s) (hs : s.thread = some ⟨.resumed, false⟩) :
    Orderly menu { s with
      thread := some ⟨if s.parseHalt = 2 then .gone else .call, false⟩ } := by
  obtain ⟨howns, hdone⟩ := h.awake hs
  refine h.goOn howns (by simp [hs]) (by simp) rfl id ?_ fun l hl => ?_
  · intro hgone
    by_cases htwo : s.parseHalt = 2
    · -- only the GUI that ends the thread has set this value
      rcases h.two htwo with hstop | ⟨hnone, -⟩
      · refine h.closed ?_
        cases hg : s.gui <;> simp_all [GuiStage.closed, GuiStage.stopping]
      · exact absurd (hs.symm.trans hnone) (Option.some_ne_none _)
    · simp [htwo] at hgone
  · have hnone : ParseThread.batch ⟨if s.parseHalt = 2 then .gone else .call, false⟩ = none := by
      split_ifs <;> rfl
    rw [hnone]
    exact (hdone l hl).congr rfl rfl rfl

/-- The thread calls `ParseDirEntries` while a directory is open. -/
theorem Orderly.threadCall (h : Orderly menu s) (hs : s.thread = some ⟨.call, false⟩) :
    Orderly menu { s with
      thread :=
        some ⟨if s.dirHandle.isSome then .entries (.loop 0 true) else .suspend, false⟩ } := by
  obtain ⟨howns, hdone⟩ := h.awake hs
  refine h.goOn howns (by simp [hs]) (by simp) rfl id ?_ fun l hl => ?_
  · cases hhandle : s.dirHandle <;> simp
  · have hbetween := hdone l hl
    simp only [ParseThread.batch, Done, Between] at hbetween
    cases hhandle : s.dirHandle with
    | none =>
      rw [hhandle] at hbetween
      simp only [Option.isSome_none, Bool.false_eq_true, if_false, ParseThread.batch, Done, Between]
      exact hbetween
    | some handle =>
      rw [hhandle] at hbetween
      simp only [Option.isSome_some, if_true, ParseThread.batch, Done]
      exact ⟨handle.rest, s.browser, handle, hbetween, rfl, 0, fun _ _ => rfl⟩

/-- The thread is in `ParseDirEntries`. -/
theorem Orderly.threadEntries (h : Orderly menu s) (hs : s.thread = some ⟨.entries e, false⟩)
    {u : ParseState} {r : Entries ⊕ Bool} (hentries : s.entriesStep menu e = some (u, r)) :
    Orderly menu { u with
      thread := some ⟨r.elim .entries fun more => if more then .call else .suspend, false⟩ } := by
  obtain ⟨howns, hdone⟩ := h.awake hs
  have hsome : s.thread ≠ none := by simp [hs]
  have hframe := entriesStep_frame hentries
  have hfollows : ∀ l ∈ s.shown, Follows menu l u r := fun l hl =>
    Amid.step (hdone l hl) (h.flag (Option.isSome_iff_exists.mpr ⟨l, hl⟩)) hentries
  cases r with
  | inl e' =>
    exact h.goOn (p := ⟨.entries e', false⟩) howns hsome (by simp) (by rw [hframe]; rfl)
      (fun hnone => entriesStep_none (t := u) hnone hentries) (by simp)
      fun l hl => Done.congr (s := u) (b := some e') (hfollows l hl) rfl rfl rfl
  | inr more =>
    refine h.goOn (p := ⟨if more then .call else .suspend, false⟩) howns hsome (by simp)
      (by rw [hframe]; rfl) (fun hnone => entriesStep_none (t := u) hnone hentries) ?_ fun l hl => ?_
    · cases more with
      | true => simp
      | false => exact fun _ => entriesStep_closed (t := u) hentries
    · have hnone : ParseThread.batch ⟨if more then .call else .suspend, false⟩ = none := by
        cases more <;> rfl
      rw [hnone]
      exact Done.congr (s := u) (b := none) (hfollows l hl) rfl rfl rfl

/-- A step of the parse thread. -/
theorem Orderly.thread (h : Orderly menu s) (hs : s.thread = some p)
    (hstep : s.threadStep menu p = some t) : Orderly menu t := by
  obtain ⟨pc, suspended⟩ := p
  cases suspended with
  | true => simp [ParseState.threadStep] at hstep
  | false =>
    simp only [ParseState.threadStep, Bool.false_eq_true, if_false] at hstep
    cases pc with
    | suspend =>
      cases hstep
      exact h.threadSuspend hs
    | resumed =>
      cases hstep
      exact h.threadResumed hs
    | call =>
      cases hstep
      exact h.threadCall hs
    | entries e =>
      obtain ⟨⟨u, r⟩, hentries, heq⟩ := Option.map_eq_some_iff.mp hstep
      have hnext := h.threadEntries hs hentries
      cases r <;> exact heq ▸ hnext
    | gone => cases hstep

/-! ### The GUI -/

/-- The GUI goes on, and leaves everything alone. -/
theorem Orderly.moveTo (h : Orderly menu s) (g : GuiStage)
    (howns : g.owns = true → s.parked = true) (hclosed : g.closed = true → s.dirHandle = none)
    (hrests : g.opens = false → Rests s)
    (hasked : g.asked = true → ∀ h ∈ s.dirHandle, h.path = s.dir)
    (htwo : s.gui.stopping = true → g.stopping = true)
    (hresume : s.thread = none → ∀ next, g = .resumeThread next → s.parseHalt ≠ 2)
    (hbefore : g.before = true → s.shown = none)
    (hcreated : g.directory = true → s.thread.isSome = true)
    (hbatch : s.shown.isSome = true → { s with gui := g }.batch = s.batch) :
    Orderly menu { s with gui := g } where
  parked := h.parked
  owner := howns
  closed := hclosed
  rests := hrests
  asked := hasked
  two h2 := (h.two h2).imp htwo fun ⟨hnone, _⟩ => ⟨hnone, fun next hg => hresume hnone next hg h2⟩
  before := hbefore
  created := hcreated
  path := h.path
  flag := h.flag
  listing l hl := by
    rw [hbatch (Option.isSome_iff_exists.mpr ⟨l, hl⟩)]
    exact (h.listing l hl).congr rfl rfl rfl

/-- Without a batch in the GUI it does not matter where it is. -/
theorem batch_moveTo {g : GuiStage} (hgui : ∀ waitParse e, s.gui ≠ .entries waitParse e)
    (hg : ∀ waitParse e, g ≠ .entries waitParse e) : { s with gui := g }.batch = s.batch := by
  have hall : ∀ u : ParseState, (∀ waitParse e, u.gui ≠ .entries waitParse e) →
      u.batch = u.thread.bind ParseThread.batch := by
    intro u hu
    unfold ParseState.batch
    split
    · next h => exact absurd h (hu _ _)
    · rfl
  rw [hall s hgui, hall { s with gui := g } hg]

/-- Where the thread is parked, a directory that the GUI has not opened is closed. -/
theorem Rests.none_of_parked (h : Rests s) (hparked : s.parked = true) : s.dirHandle = none := by
  refine h fun p hp => ?_
  rw [Option.mem_def] at hp
  rw [ParseState.parked, hp] at hparked
  exact Or.inl hparked

/-- The GUI creates the thread or resumes it. -/
theorem Orderly.resumeThread (h : Orderly menu s) {next : Then} (hg : s.gui = .resumeThread next)
    {q : ParseThread} (hq : q = match s.thread with
      | none => ⟨.suspend, false⟩
      | some p => { p with suspended := false }) {g : GuiStage}
    (hidle : g = .parseWait ∨ g = .idle false) :
    Orderly menu { s with thread := some q, gui := g } := by
  have howner := h.owner
  have hrests := h.rests
  have hcreated := h.created
  rw [hg] at howner hrests hcreated
  have hrun : q.suspended = false := by
    rw [hq]
    split <;> rfl
  -- Creating or resuming the thread changes no entry of the batch.
  have hbatch : { s with thread := some q, gui := g }.batch = s.batch := by
    have hgui : ∀ waitParse e, s.gui ≠ .entries waitParse e := by simp [hg]
    rw [batch_thread (s := { s with thread := some q, gui := g })
      (by rcases hidle with rfl | rfl <;> simp) rfl]
    cases hthread : s.thread with
    | none =>
      rw [hthread] at hq
      subst hq
      unfold ParseState.batch
      simp only [hg, hthread]
      rfl
    | some p =>
      rw [hthread] at hq
      subst hq
      exact (batch_thread hgui hthread).symm
  refine ⟨?_, ?_, ?_, ?_, ?_, ?_, ?_, ?_, h.path, h.flag, fun l hl => ?_⟩
  · intro p hp
    cases hp
    simp [hrun]
  · rcases hidle with rfl | rfl <;> simp [GuiStage.owns]
  · rcases hidle with rfl | rfl <;> simp [GuiStage.closed]
  · -- a thread that has been parked is not at rest any more
    intro _ hrest
    have hpc := hrest q rfl
    rw [hrun] at hpc
    cases hthread : s.thread with
    | none =>
      cases next with
      | «return» =>
        refine hrests rfl fun p hp => ?_
        rw [hthread] at hp
        cases hp
      | directory waitParse =>
        rw [hthread] at hcreated
        cases hcreated rfl
    | some p =>
      rw [hthread] at hq
      subst hq
      have hresumed : p.suspended = true → False := by
        intro hsuspended
        rw [h.parked p hthread hsuspended] at hpc
        simp at hpc
      cases next with
      | «return» =>
        refine hrests rfl fun p' hp' => ?_
        rw [hthread] at hp'
        cases hp'
        exact Or.inr (hpc.resolve_left (by simp))
      | directory waitParse =>
        have hparked := howner rfl
        rw [ParseState.parked, hthread] at hparked
        exact (hresumed hparked).elim
  · rcases hidle with rfl | rfl <;> simp [GuiStage.asked]
  · intro htwo
    rcases h.two htwo with hstop | ⟨-, hnot⟩
    · rw [hg] at hstop
      cases hstop
    · exact absurd hg (hnot next)
  · rcases hidle with rfl | rfl <;> simp [GuiStage.before]
  · exact fun _ => rfl
  · rw [hbatch]
    exact (h.listing l hl).congr rfl rfl rfl

/-- The GUI wakes the thread to end it. -/
theorem Orderly.stopTest (h : Orderly menu s) (hg : s.gui = .stopTest) :
    Orderly menu { s with
      thread := s.thread.map fun p => { p with suspended := false }, gui := .join } := by
  have hclosed := h.closed
  rw [hg] at hclosed
  have hbatch : ({ s with
      thread := s.thread.map fun p => { p with suspended := false }, gui := .join } :
        ParseState).batch = s.batch := by
    unfold ParseState.batch
    simp only [hg]
    cases s.thread <;> rfl
  refine ⟨?_, ?_, hclosed, fun _ _ => hclosed rfl, ?_, fun _ => Or.inl rfl, ?_, ?_, h.path, h.flag,
    fun l hl => ?_⟩
  · intro p hp
    obtain ⟨p', -, rfl⟩ := Option.map_eq_some_iff.mp hp
    simp
  · simp [GuiStage.owns]
  · simp [GuiStage.asked]
  · simp [GuiStage.before]
  · simp [GuiStage.directory, GuiStage.before]
  · rw [hbatch]
    exact (h.listing l hl).congr rfl rfl rfl

/-- The thread has ended. -/
theorem Orderly.join (h : Orderly menu s) (hg : s.gui = .join) (hgone : ∀ p ∈ s.thread, p.pc = .gone) :
    Orderly menu { s with thread := none, gui := .idle true } := by
  have hclosed := h.closed
  rw [hg] at hclosed
  have hbatch : { s with thread := none, gui := .idle true }.batch = s.batch := by
    unfold ParseState.batch
    simp only [hg]
    cases hthread : s.thread with
    | none => rfl
    | some p =>
      have hpc := hgone p hthread
      simp only [Option.bind_none, Option.bind_some, ParseThread.batch, hpc]
  refine ⟨by simp, fun _ => rfl, hclosed, fun _ _ => hclosed rfl, ?_, ?_, ?_, ?_, h.path, h.flag,
    fun l hl => ?_⟩
  · simp [GuiStage.asked]
  · exact fun _ => Or.inr ⟨rfl, by simp⟩
  · simp [GuiStage.before]
  · simp [GuiStage.directory, GuiStage.before]
  · rw [hbatch]
    exact (h.listing l hl).congr rfl rfl rfl

/-- The GUI changes the list, where it shows none. -/
theorem Orderly.withBrowser (h : Orderly menu s) (hshown : s.shown = none) (browser : Browser) :
    Orderly menu { s with browser } :=
  { h with
    listing := fun l hl => by
      rw [hshown] at hl
      cases hl }

/-- The listing begins. -/
theorem Orderly.start (h : Orderly menu s) {waitParse : Bool} (hg : s.gui = .start waitParse) :
    Orderly menu { s with
      parseHalt := 0
      gui := .entries waitParse (.loop 0 true)
      shown := s.dirHandle.map fun h => ⟨h.path, h.rest, s.browser⟩
      disturbed := false } := by
  have howner := h.owner
  have hasked := h.asked
  have hcreated := h.created
  rw [hg] at howner hasked hcreated
  refine ⟨h.parked, howner, by simp [GuiStage.closed], by simp [GuiStage.opens],
    by simp [GuiStage.asked], by simp, by simp [GuiStage.before], hcreated, ?_, by simp,
    fun l hl => ?_⟩
  · intro l hl
    obtain ⟨handle, hhandle, rfl⟩ := Option.map_eq_some_iff.mp hl
    exact hasked rfl handle hhandle
  · obtain ⟨handle, hhandle, rfl⟩ := Option.map_eq_some_iff.mp hl
    exact ⟨handle.rest, s.browser, handle, ⟨[], ⟨by simp⟩, fun _ => rfl⟩, hhandle, 0,
      fun _ _ => rfl⟩

/-- The GUI lists entries itself. -/
theorem Orderly.entries (h : Orderly menu s) {waitParse : Bool} (hg : s.gui = .entries waitParse e)
    {r : Entries ⊕ Bool} (hentries : s.entriesStep menu e = some (t, r)) :
    Orderly menu { t with gui := match r with
      | .inl e => .entries waitParse e
      | .inr _ => .resume (.directory waitParse) } := by
  have hframe := entriesStep_frame hentries
  have howner := h.owner
  have hcreated := h.created
  rw [hg] at howner hcreated
  have hfollows : ∀ l ∈ s.shown, Follows menu l t r := by
    intro l hl
    have hdone := h.listing l hl
    rw [show s.batch = some e by unfold ParseState.batch; rw [hg]] at hdone
    exact Amid.step hdone (h.flag (Option.isSome_iff_exists.mpr ⟨l, hl⟩)) hentries
  -- the thread is parked outside of a batch
  have hparked : ∀ p ∈ s.thread, p.batch = none := by
    intro p hp
    have hsuspended := howner rfl
    rw [Option.mem_def] at hp
    rw [ParseState.parked, hp] at hsuspended
    rw [ParseThread.batch, h.parked p hp hsuspended]
  obtain ⟨browser, dir, dirHandle, parseHalt, thread, gui, shown, disturbed⟩ := t
  cases hframe
  cases r with
  | inl e' =>
    exact ⟨h.parked, howner, by simp [GuiStage.closed], by simp [GuiStage.opens],
      by simp [GuiStage.asked], fun htwo => (h.two htwo).imp (by simp [hg, GuiStage.stopping])
        fun hnone => ⟨hnone.1, by simp⟩,
      by simp [GuiStage.before], hcreated, h.path, h.flag,
      fun l hl => Done.congr (b := some e') (hfollows l hl) rfl rfl rfl⟩
  | inr more =>
    refine ⟨h.parked, howner, by simp [GuiStage.closed], by simp [GuiStage.opens],
      by simp [GuiStage.asked], fun htwo => (h.two htwo).imp (by simp [hg, GuiStage.stopping])
        fun hnone => ⟨hnone.1, by simp⟩,
      by simp [GuiStage.before], hcreated, h.path, h.flag, fun l hl => ?_⟩
    have hnone : ({ s with
        browser, dirHandle, gui := .resume (.directory waitParse) } : ParseState).batch = none := by
      unfold ParseState.batch
      cases hthread : s.thread with
      | none => rfl
      | some p =>
        have hp := hparked p hthread
        simp only [Option.bind_some]
        exact hp
    rw [hnone]
    exact Done.congr (b := none) (hfollows l hl) rfl rfl rfl

/-- The GUI comes out of a function. Where it says that it has halted the thread, it has the list for
itself and no directory is open. -/
theorem Orderly.leave (h : Orderly menu s) (halted : Bool)
    (hgui : ∀ waitParse e, s.gui ≠ .entries waitParse e) (hstopping : s.gui.stopping = false)
    (howns : halted = true → s.parked = true) (hclosed : halted = true → s.dirHandle = none)
    (hrests : Rests s) : Orderly menu { s with gui := .idle halted } :=
  h.moveTo (.idle halted) howns hclosed (fun _ => hrests) nofun
    (fun hset => absurd hset (Bool.not_eq_true _ ▸ hstopping)) nofun nofun
    (by simp [GuiStage.directory, GuiStage.before]) fun _ => batch_moveTo hgui nofun

/-- `parseHalt = 1`. -/
theorem Orderly.suspend (h : Orderly menu s) {next : Then} (hg : s.gui = .suspend next) :
    Orderly menu { s.halt 1 with gui := .suspendWait next } := by
  have hrests := h.rests
  have hbefore := h.before
  have hcreated := h.created
  rw [hg] at hrests hbefore hcreated
  refine (h.halt (v := 1) (by simp)).moveTo (.suspendWait next) (by simp [GuiStage.owns])
    (by simp [GuiStage.closed]) (fun _ => hrests rfl) (by simp [GuiStage.asked])
    (by simp [ParseState.halt, hg, GuiStage.stopping]) (by simp) ?_ ?_ ?_
  · cases next <;> exact hbefore
  · cases next <;> exact hcreated
  · exact fun _ => batch_moveTo (by simp [ParseState.halt, hg]) (by simp)

/-- The wait of `SuspendParseThread` ends. -/
theorem Orderly.suspendReturn (h : Orderly menu s) (hg : s.gui = .suspendWait .return)
    (hparked : s.parked = true) : Orderly menu { s with gui := .idle true } := by
  have hrests := h.rests
  rw [hg] at hrests
  exact h.leave true (by simp [hg]) (by simp [hg, GuiStage.stopping]) (fun _ => hparked)
    (fun _ => (hrests rfl).none_of_parked hparked) (hrests rfl)

/-- The wait ends in `ParseDirectory`. -/
theorem Orderly.suspendDirectory (h : Orderly menu s) {waitParse : Bool}
    (hg : s.gui = .suspendWait (.directory waitParse)) (hparked : s.parked = true) :
    Orderly menu { s with gui := .reset waitParse } := by
  have hrests := h.rests
  have hbefore := h.before
  have hcreated := h.created
  rw [hg] at hrests hbefore hcreated
  exact h.moveTo (.reset waitParse) (fun _ => hparked)
    (fun _ => (hrests rfl).none_of_parked hparked) (fun _ => hrests rfl) (by simp [GuiStage.asked])
    (by simp [hg, GuiStage.stopping]) (by simp) hbefore hcreated
    fun _ => batch_moveTo (by simp [hg]) (by simp)

/-- `parseHalt = 0` in `ResumeParseThread`. -/
theorem Orderly.resume (h : Orderly menu s) {next : Then} (hg : s.gui = .resume next) :
    Orderly menu { s with parseHalt := 0, gui := .resumeThread next } := by
  have howner := h.owner
  have hrests := h.rests
  have hcreated := h.created
  rw [hg] at howner hrests hcreated
  refine h.release.moveTo (.resumeThread next) ?_ (by simp [GuiStage.closed]) ?_
    (by simp [GuiStage.asked]) (by simp [hg, GuiStage.stopping]) (by simp)
    (by simp [GuiStage.before]) ?_ fun _ => batch_moveTo (by simp [hg]) (by simp)
  · cases next <;> exact howner
  · cases next <;> exact hrests
  · cases next <;> exact hcreated

/-- `parseHalt = 2`. -/
theorem Orderly.stop (h : Orderly menu s) (hg : s.gui = .stop) :
    Orderly menu { s.halt 2 with gui := if s.thread.isSome then .stopTest else .idle true } := by
  have howner := h.owner
  have hclosed := h.closed
  have hrests := h.rests
  rw [hg] at howner hclosed hrests
  cases hthread : s.thread with
  | none =>
    have hidle := h.leave true (by simp [hg]) (by simp [hg, GuiStage.stopping]) howner hclosed
      (hrests rfl)
    exact hidle.halt fun _ => Or.inr ⟨hthread, by simp⟩
  | some p =>
    have htest := h.moveTo .stopTest howner hclosed hrests (by simp [GuiStage.asked])
      (by simp [hg, GuiStage.stopping]) (by simp) (by simp [GuiStage.before])
      (by simp [GuiStage.directory, GuiStage.before])
      fun _ => batch_moveTo (by simp [hg]) (by simp)
    exact htest.halt fun _ => Or.inl rfl

/-- `ResetFiles`. -/
theorem Orderly.reset (h : Orderly menu s) {waitParse : Bool} (hg : s.gui = .reset waitParse)
    (browser : Browser) : Orderly menu { s with browser, gui := .open waitParse } := by
  have howner := h.owner
  have hclosed := h.closed
  have hbefore := h.before
  have hcreated := h.created
  rw [hg] at howner hclosed hbefore hcreated
  refine (h.withBrowser (hbefore rfl) browser).moveTo (.open waitParse) howner
    (by simp [GuiStage.closed]) (by simp [GuiStage.opens]) ?_ (by simp [hg, GuiStage.stopping])
    (by simp) hbefore hcreated fun _ => batch_moveTo (by simp [hg]) (by simp)
  intro _ handle hhandle
  rw [show s.dirHandle = none from hclosed rfl] at hhandle
  cases hhandle

/-- The directory is open. -/
theorem Orderly.isOpen (h : Orderly menu s) {waitParse : Bool} (hg : s.gui = .open waitParse) :
    Orderly menu { s with gui := .upEntry waitParse } := by
  have howner := h.owner
  have hasked := h.asked
  have hbefore := h.before
  have hcreated := h.created
  rw [hg] at howner hasked hbefore hcreated
  exact h.moveTo (.upEntry waitParse) howner (by simp [GuiStage.closed]) (by simp [GuiStage.opens])
    hasked (by simp [hg, GuiStage.stopping]) (by simp) hbefore hcreated
    fun _ => batch_moveTo (by simp [hg]) (by simp)

/-- No higher level is left. -/
theorem Orderly.climb (h : Orderly menu s) {waitParse : Bool} (hg : s.gui = .climb waitParse) :
    Orderly menu { s with gui := .idle true } := by
  have howner := h.owner
  have hclosed := h.closed
  have hrests := h.rests
  rw [hg] at howner hclosed hrests
  exact h.leave true (by simp [hg]) (by simp [hg, GuiStage.stopping]) howner hclosed (hrests rfl)

/-- The wait at the end of `ParseDirectory` ends. -/
theorem Orderly.parseWait (h : Orderly menu s) (hg : s.gui = .parseWait) :
    Orderly menu { s with gui := .idle false } := by
  have hrests := h.rests
  rw [hg] at hrests
  exact h.leave false (by simp [hg]) (by simp [hg, GuiStage.stopping]) nofun nofun (hrests rfl)

/-- A step of the GUI. -/
theorem Orderly.gui (h : Orderly menu s) (hstep : s.guiStep menu = some t) : Orderly menu t := by
  cases hg : s.gui with
  | idle halted => simp [ParseState.guiStep, hg] at hstep
  | upEntry waitParse => simp [ParseState.guiStep, hg] at hstep
  | suspend next =>
    simp only [ParseState.guiStep, hg, Option.some.injEq] at hstep
    exact hstep ▸ h.suspend hg
  -- the wait of `SuspendParseThread` ends with a parked thread
  | suspendWait next =>
    simp only [ParseState.guiStep, hg] at hstep
    split_ifs at hstep with hparked
    cases hstep
    cases next with
    | «return» => exact h.suspendReturn hg hparked
    | directory waitParse => exact h.suspendDirectory hg hparked
  | resume next =>
    simp only [ParseState.guiStep, hg, Option.some.injEq] at hstep
    exact hstep ▸ h.resume hg
  | resumeThread next =>
    simp only [ParseState.guiStep, hg, Option.some.injEq] at hstep
    subst hstep
    have hidle : ∀ b : Bool, (if b then GuiStage.parseWait else .idle false) = .parseWait ∨
        (if b then GuiStage.parseWait else .idle false) = .idle false := by
      intro b
      cases b
      · exact Or.inr rfl
      · exact Or.inl rfl
    cases hthread : s.thread with
    | none => exact h.resumeThread hg (by rw [hthread]) (by simpa using hidle (next = .directory true))
    | some p =>
      exact h.resumeThread hg (by rw [hthread]) (by simpa using hidle (next = .directory true))
  -- the three stages of `StopParseThread`
  | stop =>
    simp only [ParseState.guiStep, hg, Option.some.injEq] at hstep
    exact hstep ▸ h.stop hg
  | stopTest =>
    simp only [ParseState.guiStep, hg, Option.some.injEq] at hstep
    exact hstep ▸ h.stopTest hg
  | join =>
    simp only [ParseState.guiStep, hg] at hstep
    split_ifs at hstep with hgone
    cases hstep
    refine h.join hg fun p hp => ?_
    rw [Option.mem_def] at hp
    simpa [hp] using hgone
  -- from here on the stages of `ParseDirectory`
  | reset waitParse =>
    simp only [ParseState.guiStep, hg] at hstep
    obtain ⟨browser, -, rfl⟩ := Option.map_eq_some_iff.mp hstep
    exact h.reset hg browser
  | «open» waitParse =>
    simp only [ParseState.guiStep, hg] at hstep
    split_ifs at hstep with hopen
    cases hstep
    exact h.isOpen hg
  | climb waitParse =>
    simp only [ParseState.guiStep, hg] at hstep
    split_ifs at hstep with hroot
    cases hstep
    exact h.climb hg
  | start waitParse =>
    simp only [ParseState.guiStep, hg, Option.some.injEq] at hstep
    exact hstep ▸ h.start hg
  -- the first batch is listed by the GUI itself
  | entries waitParse e =>
    simp only [ParseState.guiStep, hg] at hstep
    obtain ⟨⟨u, r⟩, hentries, heq⟩ := Option.map_eq_some_iff.mp hstep
    have hnext := h.entries hg hentries
    cases r <;> exact heq ▸ hnext
  | parseWait =>
    simp only [ParseState.guiStep, hg] at hstep
    split_ifs at hstep with hparked
    cases hstep
    exact h.parseWait hg

/-- The GUI has opened `dir`. -/
theorem Orderly.opened (h : Orderly menu s) {g : GuiStage} (dir : Text)
    (howns : s.gui.owns = true) (hdirectory : s.gui.before = true ∧ s.gui.directory = true)
    (hg : ∃ waitParse, g = .open waitParse ∨ g = .upEntry waitParse) :
    Orderly menu { s with dir, dirHandle := some ⟨dir, rest⟩, gui := g } := by
  have hshown := h.before hdirectory.1
  have hcreated := h.created hdirectory.2
  obtain ⟨waitParse, hg⟩ := hg
  refine ⟨h.parked, fun _ => h.owner howns, ?_, ?_, ?_, ?_, fun _ => hshown, fun _ => hcreated, ?_,
    h.flag, ?_⟩
  · rcases hg with rfl | rfl <;> simp [GuiStage.closed]
  · rcases hg with rfl | rfl <;> simp [GuiStage.opens]
  · intro _ handle hhandle
    cases hhandle
    rfl
  · intro htwo
    rcases h.two htwo with hstop | ⟨hnone, -⟩
    · cases hs : s.gui <;> simp_all [GuiStage.stopping, GuiStage.before]
    · rw [hnone] at hcreated
      cases hcreated
  · intro l hl
    rw [show s.shown = none from hshown] at hl
    cases hl
  · intro l hl
    rw [show s.shown = none from hshown] at hl
    cases hl

/-- The GUI gives `ParseDirectory` up. -/
theorem Orderly.giveUp (h : Orderly menu s) (dir : Text) (howns : s.gui.owns = true)
    (hclosed : s.dirHandle = none) (hbefore : s.gui.before = true) {g : GuiStage}
    (hg : g = .idle true ∨ ∃ waitParse, g = .climb waitParse)
    (hcreated : s.gui.directory = true) : Orderly menu { s with dir, gui := g } := by
  have hshown := h.before hbefore
  have hthread := h.created hcreated
  refine ⟨h.parked, fun _ => h.owner howns, fun _ => hclosed, fun _ _ => hclosed, ?_, ?_,
    fun _ => hshown, fun _ => hthread, ?_, h.flag, ?_⟩
  · rcases hg with rfl | ⟨waitParse, rfl⟩ <;> simp [GuiStage.asked]
  · intro htwo
    rcases h.two htwo with hstop | ⟨hnone, -⟩
    · cases hs : s.gui <;> simp_all [GuiStage.stopping, GuiStage.before]
    · rw [hnone] at hthread
      cases hthread
  · intro l hl
    rw [show s.shown = none from hshown] at hl
    cases hl
  · intro l hl
    rw [show s.shown = none from hshown] at hl
    cases hl

/-- `opendir` returns. -/
theorem Orderly.opendir (h : Orderly menu s) {found : Option (List (Dirent × Memory))} {retry : Bool}
    (hstep : s.guiOpendir found retry = some t) : Orderly menu t := by
  cases hg : s.gui with
  | «open» waitParse =>
    simp only [ParseState.guiOpendir, hg] at hstep
    by_cases hopen : s.dirHandle.isSome = true
    · rw [if_pos hopen] at hstep
      cases hstep
    rw [if_neg hopen] at hstep
    have hnone : s.dirHandle = none := by simpa using hopen
    have hself : { s with dir := s.dir, gui := .open waitParse } = s := by rw [← hg]
    cases found with
    -- `opendir` has failed: the same path again, or no directory
    | none =>
      cases hstep
      cases retry with
      | true => exact hself ▸ h
      | false =>
        exact h.giveUp s.dir (by rw [hg]; rfl) hnone (by rw [hg]; rfl) (Or.inr ⟨waitParse, rfl⟩)
          (by rw [hg]; rfl)
    | some rest =>
      cases hstep
      exact h.opened s.dir (by rw [hg]; rfl) (by rw [hg]; exact ⟨rfl, rfl⟩) ⟨waitParse, Or.inl rfl⟩
  -- one level up, until a directory opens or the root has failed
  | climb waitParse =>
    have hclosed : s.dirHandle = none := h.closed (by rw [hg]; rfl)
    simp only [ParseState.guiOpendir, hg] at hstep
    split_ifs at hstep with hroot
    obtain ⟨⟨dir, again⟩, -, heq⟩ := Option.map_eq_some_iff.mp hstep
    cases again with
    | false =>
      cases heq
      exact h.giveUp dir (by rw [hg]; rfl) hclosed (by rw [hg]; rfl) (Or.inl rfl) (by rw [hg]; rfl)
    | true =>
      cases found with
      | none =>
        cases heq
        exact h.giveUp dir (by rw [hg]; rfl) hclosed (by rw [hg]; rfl) (Or.inr ⟨waitParse, rfl⟩)
          (by rw [hg]; rfl)
      | some rest =>
        cases heq
        exact h.opened dir (by rw [hg]; rfl) (by rw [hg]; exact ⟨rfl, rfl⟩)
          ⟨waitParse, Or.inr rfl⟩
  | _ => simp [ParseState.guiOpendir, hg] at hstep

/-- With memory for it, the entry is added. -/
theorem addFile_of_serves {d : Dirent} {m : Memory} {browser : Browser} {r : Bool × Browser}
    (hm : m.serves d = true) (hadd : addFile d m browser = some r) : r.1 = true := by
  obtain ⟨subs, new, file, display⟩ := m
  simp only [Memory.serves, Bool.and_eq_true, Bool.or_eq_true, Bool.not_eq_true'] at hm
  obtain ⟨⟨hnew, rfl⟩, hdisplay⟩ := hm
  obtain ⟨⟨o, browser'⟩, hentry, hadd⟩ := Option.bind_eq_some_iff.mp hadd
  cases o with
  | none =>
    obtain ⟨p, rfl⟩ := Option.isSome_iff_exists.mp hnew
    obtain ⟨-, heq⟩ := Option.ite_none_left_eq_some.mp hentry
    cases heq
  | some p =>
    have hshown : ¬ (d.isDir = true ∧ display = false) := by
      rintro ⟨hdir, rfl⟩
      simp [hdir] at hdisplay
    simp only [Bool.true_eq_false, if_false, hshown] at hadd
    obtain ⟨browser'', -, rfl⟩ := Option.map_eq_some_iff.mp hadd
    rfl

/-- Where it opens no directory, the GUI may go to another one, and forget what it shows. -/
theorem Orderly.forget (h : Orderly menu s) (dir : Text) (hasked : s.gui.asked = false) :
    Orderly menu { s with dir, shown := none } :=
  { h with
    asked := fun ha => absurd ha (by simp [hasked])
    before := fun _ => rfl
    path := fun l hl => by cases hl
    flag := fun hsome => by cases hsome
    listing := fun l hl => by cases hl }

/-- The GUI calls a function. -/
theorem Orderly.call (h : Orderly menu s) {g : GuiStage} (hstep : s.call g = some t)
    (hg : g = .suspend .return ∨ g = .resume .return ∨
      (∃ waitParse, g = .suspend (.directory waitParse) ∧ s.shown = none ∧
        s.thread.isSome = true) ∨
      g = .stop ∧ s.gui = .idle true) : Orderly menu t := by
  have howner := h.owner
  have hclosed := h.closed
  have hrests := h.rests
  cases hidle : s.gui with
  | idle halted =>
    simp only [ParseState.call, hidle, Option.some.injEq] at hstep
    subst hstep
    rw [hidle] at howner hclosed hrests
    -- A call only moves the GUI; each part is checked for the four kinds of call.
    refine h.moveTo g ?_ ?_ (fun _ => hrests rfl) ?_ (by simp [hidle, GuiStage.stopping]) ?_ ?_ ?_
      fun _ => batch_moveTo (by simp [hidle]) ?_
    · rcases hg with rfl | rfl | ⟨waitParse, rfl, -⟩ | ⟨rfl, hhalted⟩
      · simp [GuiStage.owns]
      · simp [GuiStage.owns]
      · simp [GuiStage.owns]
      · rw [hidle] at hhalted
        cases hhalted
        exact howner
    · rcases hg with rfl | rfl | ⟨waitParse, rfl, -⟩ | ⟨rfl, hhalted⟩
      · simp [GuiStage.closed]
      · simp [GuiStage.closed]
      · simp [GuiStage.closed]
      · rw [hidle] at hhalted
        cases hhalted
        exact hclosed
    · rcases hg with rfl | rfl | ⟨waitParse, rfl, -⟩ | ⟨rfl, -⟩ <;> simp [GuiStage.asked]
    · rcases hg with rfl | rfl | ⟨waitParse, rfl, -⟩ | ⟨rfl, -⟩ <;> simp
    · rcases hg with rfl | rfl | ⟨waitParse, rfl, hshown, -⟩ | ⟨rfl, -⟩
      · simp [GuiStage.before]
      · simp [GuiStage.before]
      · exact fun _ => hshown
      · simp [GuiStage.before]
    · rcases hg with rfl | rfl | ⟨waitParse, rfl, -, hthread⟩ | ⟨rfl, -⟩
      · simp [GuiStage.directory, GuiStage.before]
      · simp [GuiStage.directory, GuiStage.before]
      · exact fun _ => hthread
      · simp [GuiStage.directory, GuiStage.before]
    · rcases hg with rfl | rfl | ⟨waitParse, rfl, -⟩ | ⟨rfl, -⟩ <;> simp
  | _ => simp [ParseState.call, hidle] at hstep

/-- The entry that leads up is added. -/
theorem Orderly.upEntry (h : Orderly menu s) {waitParse : Bool} (hg : s.gui = .upEntry waitParse)
    (browser : Browser) : Orderly menu { s with browser, gui := .start waitParse } := by
  have howner := h.owner
  have hasked := h.asked
  have hbefore := h.before
  have hcreated := h.created
  rw [hg] at howner hasked hbefore hcreated
  refine (h.withBrowser (hbefore rfl) browser).moveTo (.start waitParse) howner ?_ ?_ hasked ?_ ?_
    hbefore hcreated fun _ => batch_moveTo (by simp [hg]) (by simp)
  · simp [GuiStage.closed]
  · simp [GuiStage.opens]
  · simp [hg, GuiStage.stopping]
  · simp

/-- A step of the menu keeps the invariant. -/
theorem Orderly.step (h : Orderly menu s) {a : ParseAct} (hok : ByMenu s a)
    (hstep : parseStep menu s a = some t) : Orderly menu t := by
  cases a with
  | gui => exact h.gui hstep
  | opendir found retry => exact h.opendir hstep
  | thread =>
    obtain ⟨p, hp, hthread⟩ := Option.bind_eq_some_iff.mp hstep
    exact h.thread hp hthread
  -- the other threads may only ask for a halt
  | halt =>
    cases hstep
    exact h.halt (by simp)
  | touch browser =>
    obtain ⟨hidle, heq⟩ := Option.ite_none_right_eq_some.mp hstep
    cases heq
    exact (h.forget s.dir (by rw [hidle]; rfl)).withBrowser rfl browser
  | upEntry m =>
    simp only [parseStep] at hstep
    split at hstep
    · next waitParse hg =>
      obtain ⟨⟨added, u⟩, hadd, heq⟩ := Option.map_eq_some_iff.mp hstep
      obtain ⟨⟨r, browser⟩, hfile, heq'⟩ := Option.map_eq_some_iff.mp hadd
      cases heq'
      obtain rfl : r = true := addFile_of_serves hok hfile
      cases heq
      exact h.upEntry hg browser
    · cases hstep
  | callSuspend => exact h.call hstep (Or.inl rfl)
  | callResume => exact h.call hstep (Or.inr (Or.inl rfl))
  -- stopping is called behind a halt
  | callStop => exact h.call hstep (Or.inr (Or.inr (Or.inr ⟨rfl, hok⟩)))
  | callDirectory dir waitParse =>
    cases hg : s.gui with
    | idle halted =>
      exact (h.forget dir (by rw [hg]; rfl)).call hstep
        (Or.inr (Or.inr (Or.inl ⟨waitParse, rfl, rfl, hok⟩)))
    | _ => simp [parseStep, ParseState.call, hg] at hstep

/-- Whether the menu takes a step is decided by where the GUI is. -/
instance (s : ParseState) : DecidablePred (ByMenu s) := fun a => by
  unfold ByMenu
  split <;> infer_instance

/-- The invariant holds in every state of a run of the menu. -/
theorem orderly_of_reachable (hs : (parsing menu).Reachable ByMenu s) : Orderly menu s := by
  refine hs.invariant (I := Orderly menu) ?_ fun _ _ _ _ h hok hstep => h.step hok hstep
  rintro s ⟨-, hhandle, hzero, hthread, hgui, hshown⟩
  refine ⟨?_, ?_, fun _ => hhandle, fun _ _ => hhandle, ?_, ?_, fun _ => hshown, ?_, ?_, ?_, ?_⟩
  · simp [hthread]
  · simp [ParseState.parked, hthread]
  · simp [hgui, GuiStage.asked]
  · simp [hzero]
  · simp [hgui, GuiStage.directory, GuiStage.before]
  · simp [hshown]
  · simp [hshown]
  · simp [hshown]

/-- Whatever the threads do, the parse thread is suspended where the GUI has the list for itself;
`ParseDirectory` never goes on with a directory that was left open; and where the thread is
suspended, the list is what the batches of the directory `browser.dir` have made of it, all of them
unless `parseHalt` was set. -/
theorem parseThread_lists (hs : (parsing menu).Reachable ByMenu s) :
    (s.gui.owns = true → ∀ p ∈ s.thread, p.suspended = true) ∧
      (s.gui.asked = true → ∀ h ∈ s.dirHandle, h.path = s.dir) ∧
      (s.gui.opens = false → s.parked = true → s.dirHandle = none ∧ ∀ l ∈ s.shown, l.path = s.dir ∧
        (∃ halts, parseAll true menu halts l.entries l.up = some s.browser) ∧
        (s.disturbed = false → ∃ n, ∀ m ≥ n,
          parseAll true menu (List.replicate m fun _ => false) l.entries l.up =
            some s.browser)) := by
  have h := orderly_of_reachable hs
  refine ⟨fun howns p hp => ?_, h.asked, fun hopens hparked => ?_⟩
  · have hparked := h.owner howns
    rw [Option.mem_def] at hp
    rwa [ParseState.parked, hp] at hparked
  · have hnone := (h.rests hopens).none_of_parked hparked
    refine ⟨hnone, fun l hl => ⟨h.path l hl, ?_⟩⟩
    -- neither the GUI nor the thread is in a batch
    have hbatch : s.batch = none := by
      unfold ParseState.batch
      split
      · next hg =>
        rw [hg] at hopens
        cases hopens
      · cases hthread : s.thread with
        | none => rfl
        | some p =>
          rw [ParseState.parked, hthread] at hparked
          rw [Option.bind_some, ParseThread.batch, h.parked p hthread hparked]
    have hdone := h.listing l hl
    rw [hbatch] at hdone
    simp only [Done, Between, hnone] at hdone
    obtain ⟨halts, hbatches, heq⟩ := hdone
    refine ⟨⟨halts, ?_⟩, fun hquiet => ⟨halts.length, fun m hm => ?_⟩⟩
    · rw [← List.append_nil halts]
      exact heq []
    · rw [← heq (List.replicate (m - halts.length) fun _ => false)]
      congr 1
      rw [List.eq_replicate_of_mem (hbatches.quiet hquiet), List.length_replicate,
        List.replicate_append_replicate]
      congr 1
      omega

/-- A folder with one song. -/
def oneSong : List (Dirent × Memory) := [(⟨ascii "a.mp3", false⟩, ⟨true, some 2, true, true⟩)]

/-- The state at the start of the program. -/
def booted : ParseState :=
  ⟨blank, [], none, 0, none, .idle true, none, false⟩

/-- The thread is created and parks; the GUI lists the folder, and the thread finds its end. -/
def oneSongRun : List ParseAct :=
  [.callResume, .gui, .gui, .thread, .callDirectory (ascii "sd1:/m/") false, .gui, .gui, .gui,
    .opendir (some oneSong) false, .gui, .upEntry ⟨true, some 1, true, true⟩, .gui, .gui, .gui, .gui,
    .gui, .gui, .gui, .gui, .thread, .thread, .thread]

theorem parseThread_lists_oneSong : ∃ s, (parsing .music).exec booted oneSongRun = some s ∧
    s.dirHandle = none ∧ ∃ l ∈ s.shown, l.entries = oneSong ∧ l.path = ascii "sd1:/m/" ∧
      ∃ n, ∀ m ≥ n, parseAll true .music (List.replicate m fun _ => false) l.entries l.up =
        some s.browser := by
  have hstart : (parsing .music).Reachable ByMenu booted :=
    .init ⟨listed_init _ _, rfl, rfl, rfl, rfl, rfl⟩
  have hok : (parsing .music).OkAlong ByMenu booted oneSongRun := by decide +kernel
  obtain ⟨s, hexec, hgui, hparked, hdir, hdisturbed, l, hl, hentries⟩ : ∃ s,
      (parsing .music).exec booted oneSongRun = some s ∧ s.gui = .idle false ∧ s.parked = true ∧
        s.dir = ascii "sd1:/m/" ∧ s.disturbed = false ∧ ∃ l ∈ s.shown, l.entries = oneSong :=
    ⟨_, rfl, rfl, rfl, rfl, rfl, _, rfl, rfl⟩
  obtain ⟨-, -, hlists⟩ := parseThread_lists (hstart.exec hok hexec)
  obtain ⟨hnone, hall⟩ := hlists (by rw [hgui]; rfl) hparked
  obtain ⟨hpath, -, hwhole⟩ := hall l hl
  exact ⟨s, hexec, hnone, l, hl, hentries, hpath.trans hdir, hwhole hdisturbed⟩

/-! ## The waits -/

/-- How many steps of the thread there are before it is suspended, with `parseHalt` set. -/
def ParseThread.rank (p : ParseThread) : ℕ :=
  if p.suspended then 0
  else match p.pc with
  | .gone => 0
  | .suspend => 1
  | .entries .close => 2
  | .entries (.last _) => 3
  | .entries (.sort ..) => 4
  | .entries (.loop ..) => 5
  | .call => 6
  | .resumed => 7

/-- The rank of a state without a thread is zero. -/
def ParseState.rank (s : ParseState) : ℕ := (s.thread.map ParseThread.rank).getD 0

def ParseAct.isThread : ParseAct → Bool
  | .thread => true
  | _ => false

/-- A step of the thread brings it nearer to its suspension. -/
theorem rank_threadStep (hs : s.thread = some p) (hset : s.parseHalt ≠ 0)
    (hstep : s.threadStep menu p = some t) : t.rank < s.rank := by
  obtain ⟨pc, suspended⟩ := p
  have hrank : s.rank = ParseThread.rank ⟨pc, suspended⟩ := by rw [ParseState.rank, hs]; rfl
  rw [hrank]
  cases suspended with
  | true => simp [ParseState.threadStep] at hstep
  | false =>
  simp only [ParseState.threadStep, Bool.false_eq_true, if_false] at hstep
  -- With `parseHalt` set every step leads towards the thread's suspension.
  cases pc with
  | suspend =>
    cases hstep
    exact Nat.one_pos
  | resumed =>
    cases hstep
    by_cases htwo : s.parseHalt = 2 <;>
      simp [ParseState.rank, ParseThread.rank, htwo]
  | call =>
    cases hstep
    cases hhandle : s.dirHandle <;> simp [ParseState.rank, ParseThread.rank]
  | gone => cases hstep
  | entries e =>
    obtain ⟨⟨u, r⟩, hentries, heq⟩ := Option.map_eq_some_iff.mp hstep
    cases e with
    -- the loop ends at once, and so does the rest of the batch
    | loop i ended =>
      simp only [entriesStep, hset, ne_eq, not_false_eq_true, or_true, if_true] at hentries
      cases hentries
      subst heq
      exact Nat.lt_succ_self 4
    | sort i ended =>
      simp only [entriesStep] at hentries
      split_ifs at hentries
      · obtain ⟨browser, -, heq'⟩ := Option.map_eq_some_iff.mp hentries
        cases heq'
        subst heq
        exact Nat.lt_succ_self 3
      · cases hentries
        subst heq
        exact Nat.lt_succ_self 3
    | last ended =>
      simp only [entriesStep, hset, ne_eq, not_false_eq_true, or_true, if_true] at hentries
      cases hentries
      subst heq
      exact Nat.lt_succ_self 2
    | close =>
      cases hentries
      subst heq
      exact Nat.lt_succ_self 1

/-- The parse thread does not store to `parseHalt`, nor does it move the GUI. -/
theorem threadStep_frame (hstep : s.threadStep menu p = some t) :
    t.parseHalt = s.parseHalt ∧ t.gui = s.gui := by
  obtain ⟨pc, suspended⟩ := p
  cases suspended with
  | true => simp [ParseState.threadStep] at hstep
  | false =>
  simp only [ParseState.threadStep, Bool.false_eq_true, if_false] at hstep
  cases pc with
  | suspend | resumed | call =>
    cases hstep
    exact ⟨rfl, rfl⟩
  | gone => cases hstep
  | entries e =>
    obtain ⟨⟨u, r⟩, hentries, heq⟩ := Option.map_eq_some_iff.mp hstep
    have hu : u.parseHalt = s.parseHalt ∧ u.gui = s.gui := by
      rw [entriesStep_frame hentries]
      exact ⟨rfl, rfl⟩
    cases r <;> cases heq <;> exact hu

/-- In the wait of `SuspendParseThread` its store to `parseHalt` is not undone, and the steps of the
thread bring it nearer to its suspension. -/
theorem suspendWait_step {next : Then} {a : ParseAct} (hs : s.gui = .suspendWait next)
    (ht : t.gui = .suspendWait next) (hset : s.parseHalt ≠ 0)
    (hstep : parseStep menu s a = some t) :
    t.parseHalt ≠ 0 ∧ t.rank + (if a.isThread then 1 else 0) ≤ s.rank := by
  cases a with
  | thread =>
    obtain ⟨p, hp, hthread⟩ := Option.bind_eq_some_iff.mp hstep
    exact ⟨by rwa [(threadStep_frame hthread).1], rank_threadStep hp hset hthread⟩
  | halt =>
    cases hstep
    exact ⟨Nat.one_ne_zero, le_rfl⟩
  | gui =>
    -- the step that ends the wait
    simp only [parseStep, ParseState.guiStep, hs] at hstep
    split_ifs at hstep
    cases hstep
    cases next <;> cases ht
  | _ => simp [parseStep, ParseState.call, ParseState.guiOpendir, hs] at hstep

/-- A thread in the middle of a batch is seven steps from suspending itself. -/
theorem rank_le_seven (s : ParseState) : s.rank ≤ 7 := by
  rw [ParseState.rank]
  cases s.thread with
  | none => exact Nat.zero_le 7
  | some p =>
    show p.rank ≤ 7
    unfold ParseThread.rank
    split_ifs
    · exact Nat.zero_le 7
    · split <;> decide

/-- From its store to `parseHalt` on, `SuspendParseThread` waits for at most seven steps of the
parse thread, wherever that is, and however many entries there are left. -/
theorem suspendParseThread_waits {next : Then} {u : ParseState} {as : List ParseAct}
    (hs : s.gui = .suspend next) (hstore : parseStep menu s .gui = some u)
    (hwait : (parsing menu).During (fun s => s.gui = .suspendWait next) u as)
    (hexec : (parsing menu).exec u as = some t) : as.countP ParseAct.isThread ≤ 7 := by
  have hset : u.parseHalt ≠ 0 := by
    simp only [parseStep, ParseState.guiStep, hs] at hstore
    cases hstore
    exact Nat.one_ne_zero
  have hboth := hwait.and (I := fun s => s.parseHalt ≠ 0)
    (fun s a t hs ht hset (hstep : parseStep menu s a = some t) =>
      (suspendWait_step hs ht hset hstep).1) hset
  have hbound := Transition.System.countP_add_le_rank (p := ParseAct.isThread)
    (fun s a t hs ht (hstep : parseStep menu s a = some t) =>
      (suspendWait_step hs.1 ht.1 hs.2 hstep).2) hboth hexec
  have hrank := rank_le_seven u
  omega

/-- A folder with songs for more than one batch. -/
def songs : List (Dirent × Memory) :=
  (List.range 22).map fun i => (⟨ascii "a.mp3", false⟩, ⟨true, some (i + 2), true, true⟩)

/-- The GUI has listed twenty songs of the folder, and is about to halt the thread, which has listed
the next one and goes on. -/
def songsRun : List ParseAct :=
  [.callResume, .gui, .gui, .thread, .callDirectory (ascii "sd1:/m/") false, .gui, .gui, .gui,
    .opendir (some songs) false, .gui, .upEntry ⟨true, some 1, true, true⟩] ++
    List.replicate 26 .gui ++ [.thread, .thread, .thread, .callSuspend]

/-- The thread finishes its batch, and another thread sets `parseHalt` meanwhile. -/
def finishing : List ParseAct := [.thread, .thread, .halt, .thread, .thread, .thread]

/-- The steps of the other threads do not end the wait. -/
theorem during_suspendWait {next : Then} {as : List ParseAct} (hs : s.gui = .suspendWait next)
    (has : ∀ a ∈ as, a = .thread ∨ a = .halt) :
    (parsing menu).During (fun s => s.gui = .suspendWait next) s as := by
  induction as generalizing s with
  | nil => exact hs
  | cons a as ih =>
    obtain ⟨ha, has⟩ := List.forall_mem_cons.mp has
    refine ⟨hs, fun t hstep => ih ?_ has⟩
    change parseStep menu s a = some t at hstep
    rcases ha with rfl | rfl
    · obtain ⟨p, -, hthread⟩ := Option.bind_eq_some_iff.mp hstep
      exact (threadStep_frame hthread).2.trans hs
    · cases hstep
      exact hs

theorem suspendParseThread_waits_songs : ∃ s u t,
    (parsing .music).exec booted songsRun = some s ∧ s.dirHandle.map (·.rest.length) = some 1 ∧
      parseStep .music s .gui = some u ∧ (parsing .music).exec u finishing = some t ∧
      finishing.countP ParseAct.isThread ≤ 7 := by
  have hrun : ((parsing .music).exec booted songsRun).map
      (fun s => (s.gui, s.dirHandle.map (·.rest.length))) = some (.suspend .return, some 1) := by
    decide +kernel
  have hsome : ((parsing .music).exec booted (songsRun ++ .gui :: finishing)).isSome = true := by
    decide +kernel
  obtain ⟨t, hexec⟩ := Option.isSome_iff_exists.mp hsome
  rw [Transition.System.exec_append] at hexec
  obtain ⟨s, hs, hexec⟩ := Option.bind_eq_some_iff.mp hexec
  obtain ⟨u, hstore, hfinish⟩ := Option.bind_eq_some_iff.mp hexec
  rw [hs] at hrun
  obtain ⟨hgui, hrest⟩ := Prod.mk.inj (Option.some.inj hrun)
  have hu : u.gui = .suspendWait .return := by
    change s.guiStep .music = some u at hstore
    simp only [ParseState.guiStep, hgui] at hstore
    cases hstore
    rfl
  refine ⟨s, u, t, hs, hrest, hstore, hfinish, ?_⟩
  exact suspendParseThread_waits hgui hstore
    (during_suspendWait hu (by simp [finishing])) hfinish

/-- In `LWP_JoinThread`, with a thread that is not going to end: it does not see the flag. -/
def Hangs (s : ParseState) : Prop :=
  s.gui = .join ∧ ∃ p, s.thread = some p ∧ p.pc ≠ .gone ∧
    ¬ (p.suspended = false ∧ p.pc = .resumed ∧ s.parseHalt = 2)

/-- A thread that does not see the flag suspends itself, and nothing resumes it. -/
theorem hangs_step {a : ParseAct} (h : Hangs s) (hstep : (parsing menu).step s a = some t) :
    Hangs t := by
  obtain ⟨hg, p, hp, hgone, hsees⟩ := h
  change parseStep menu s a = some t at hstep
  cases a with
  | thread =>
    obtain ⟨q, hq, hthread⟩ := Option.bind_eq_some_iff.mp hstep
    obtain rfl : p = q := Option.some.inj (hp.symm.trans hq)
    obtain ⟨pc, suspended⟩ := p
    cases suspended with
    | true => simp [ParseState.threadStep] at hthread
    | false =>
    simp only [ParseState.threadStep, Bool.false_eq_true, if_false] at hthread
    cases pc with
    | suspend =>
      cases hthread
      exact ⟨hg, _, rfl, by simp, by simp⟩
    -- it has not read a 2, so it goes on
    | resumed =>
      cases hthread
      have hne : s.parseHalt ≠ 2 := fun htwo => hsees ⟨rfl, rfl, htwo⟩
      exact ⟨hg, _, rfl, by simp [hne], by simp [hne]⟩
    | call =>
      cases hthread
      refine ⟨hg, _, rfl, ?_, ?_⟩ <;> split_ifs <;> simp
    | gone => exact absurd rfl hgone
    | entries e =>
      obtain ⟨⟨u, r⟩, hentries, heq⟩ := Option.map_eq_some_iff.mp hthread
      have hu : u.gui = .join := by
        rw [entriesStep_frame hentries]
        exact hg
      cases r with
      | inl e' =>
        dsimp only at heq
        subst heq
        exact ⟨hu, _, rfl, by simp, by simp⟩
      | inr more =>
        dsimp only at heq
        subst heq
        refine ⟨hu, _, rfl, ?_, ?_⟩ <;> cases more <;> simp
  | halt =>
    cases hstep
    exact ⟨hg, p, hp, hgone, by simp [ParseState.halt]⟩
  -- the GUI stays at its join
  | gui =>
    simp only [parseStep, ParseState.guiStep, hg, hp, Option.any_some, decide_eq_true_eq, hgone,
      if_false] at hstep
    cases hstep
  | _ => simp [parseStep, ParseState.call, ParseState.guiOpendir, hg] at hstep

/-- `StopParseThread` comes out of `LWP_JoinThread` exactly where the thread has ended, or is
awake before its test of `parseHalt`, with the value that the GUI has set. -/
theorem stopParseThread_iff (menu : Menu) (hg : s.gui = .join) (hp : s.thread = some p) :
    (∃ as t, (parsing menu).exec s as = some t ∧ t.gui = .idle true) ↔
      p.pc = .gone ∨ p.suspended = false ∧ p.pc = .resumed ∧ s.parseHalt = 2 := by
  constructor
  · rintro ⟨as, t, hexec, ht⟩
    by_contra hnot
    rw [not_or] at hnot
    have hlast := (Transition.System.During.never (S := parsing menu)
      (fun s a t h hstep => hangs_step h hstep) ⟨hg, p, hp, hnot.1, hnot.2⟩ as).last hexec
    rw [hlast.1] at ht
    cases ht
  · rintro (hgone | ⟨hawake, hresumed, htwo⟩)
    · refine ⟨[.gui], { s with thread := none, gui := .idle true }, ?_, rfl⟩
      change (parseStep menu s .gui).bind some = _
      simp only [parseStep, ParseState.guiStep, hg, hp, Option.any_some, hgone, decide_true, if_true,
        Option.bind_some]
    · obtain ⟨pc, suspended⟩ := p
      obtain rfl : suspended = false := hawake
      obtain rfl : pc = .resumed := hresumed
      refine ⟨[.thread, .gui], { s with thread := none, gui := .idle true }, ?_, rfl⟩
      change (parseStep menu s .thread).bind (fun u => (parseStep menu u .gui).bind some) = _
      simp only [parseStep, hp, ParseState.threadStep, Bool.false_eq_true, if_false, htwo, if_true,
        Option.bind_some, ParseState.guiStep, hg, Option.any_some, decide_true]

/-- The thread has been resumed by `ParseDirectory`, and the GUI stops it without having halted it;
the thread has made its test of `parseHalt` already. -/
theorem stopParseThread_hangs : ∃ s,
    (parsing .music).exec booted (oneSongRun.dropLast.dropLast ++ [.callStop, .gui, .gui]) = some s ∧
      s.gui = .join ∧ ¬ ∃ as t, (parsing .music).exec s as = some t ∧ t.gui = .idle true := by
  obtain ⟨s, hexec, hg, hp⟩ : ∃ s, (parsing .music).exec booted
      (oneSongRun.dropLast.dropLast ++ [.callStop, .gui, .gui]) = some s ∧ s.gui = .join ∧
        s.thread = some ⟨.call, false⟩ := ⟨_, rfl, rfl, rfl⟩
  refine ⟨s, hexec, hg, fun hreturns => ?_⟩
  rcases (stopParseThread_iff .music hg hp).mp hreturns with hgone | ⟨-, hresumed, -⟩
  · cases hgone
  · cases hresumed

end WiiMC.Browser
