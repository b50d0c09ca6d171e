import WiiMC.Browser.Folders
import WiiMC.Lib.Waiting

/-!
# The parse thread

`fileop.cpp`: `ParseDirectory` opens a directory and lists its first entries, and the parse thread
lists the others, while the GUI goes on. The GUI halts the thread before it touches the list, and
so do `LoadFile` and `SaveFile`, from whatever thread they are called. Each read and each write of
`parseHalt`, each call on the thread and each entry of the directory is one step here, and the
threads take their steps in any order.

What is selected and shown is left out, and so is a thread that cannot be created. A wait is a step
that is not possible before its end.

* `Entries`: a call of `ParseDirEntries`, between its steps.
* `parsing`: the system.
-/

namespace WiiMC.Browser

open Bytes Player Transition

/-! ## The state -/

/-- Where a call of `ParseDirEntries` is, behind its test of `dirHandle`. -/
inductive Entries
  /-- Before the test of the loop, with `i` entries added; `ended` says that `entry` is NULL. -/
  | loop (i : ℕ) (ended : Bool)
  /-- Behind the loop. -/
  | sort (i : ℕ) (ended : Bool)
  /-- Before the last test of `parseHalt`. -/
  | last (ended : Bool)
  /-- In `closedir`. -/
  | close
  deriving DecidableEq

/-- Where the parse thread is in `parsecallback`. -/
inductive ParsePc
  /-- Before `LWP_SuspendThread`. -/
  | suspend
  /-- Behind it, before the test for the end of the thread. -/
  | resumed
  /-- Before the test of `dirHandle` in `ParseDirEntries`. -/
  | call
  | entries (e : Entries)
  | gone
  deriving DecidableEq

/-- The parse thread. -/
structure ParseThread where
  pc : ParsePc
  suspended : Bool
  deriving DecidableEq

/-- What the GUI does behind `SuspendParseThread` or `ResumeParseThread`: it returns, or it goes on
in `ParseDirectory`, which was called with `waitParse`. -/
inductive Then
  | return
  | directory (waitParse : Bool)
  deriving DecidableEq

/-- Where the GUI is. -/
inductive GuiStage
  /-- In none of the functions. It halted the thread and did not resume it if `halted`. -/
  | idle (halted : Bool)
  /-- Before `parseHalt = 1`. -/
  | suspend (next : Then)
  /-- In the wait of `SuspendParseThread`. -/
  | suspendWait (next : Then)
  /-- Before `parseHalt = 0` in `ResumeParseThread`. -/
  | resume (next : Then)
  /-- In `LWP_CreateThread` or `LWP_ResumeThread`. -/
  | resumeThread (next : Then)
  /-- Before `parseHalt = 2`. -/
  | stop
  /-- In `LWP_ThreadIsSuspended`. -/
  | stopTest
  /-- In `LWP_JoinThread`. -/
  | join
  /-- In `ResetFiles`. -/
  | reset (waitParse : Bool)
  /-- Before the test of the loop that opens the directory. -/
  | open (waitParse : Bool)
  /-- Before the test of the loop that tries the higher levels. -/
  | climb (waitParse : Bool)
  /-- Adding the entry that leads up. -/
  | upEntry (waitParse : Bool)
  /-- Before `parseHalt = 0` in `ParseDirectory`. -/
  | start (waitParse : Bool)
  | entries (waitParse : Bool) (e : Entries)
  /-- In the wait at the end of `ParseDirectory`. -/
  | parseWait
  deriving DecidableEq

/-- `DIR`: the path, and what `readdir` is going to return. -/
structure DirHandle where
  path : Text
  rest : List (Dirent × Memory)

/-- The listing of a directory: what was in it, and the browser with the entry that leads up. -/
structure Listing where
  path : Text
  entries : List (Dirent × Memory)
  up : Browser

/-- The variables and the threads. -/
structure ParseState where
  browser : Browser
  /-- `browser.dir`. -/
  dir : Text
  dirHandle : Option DirHandle
  parseHalt : ℕ
  thread : Option ParseThread
  gui : GuiStage
  /-- The listing under way, or the last one. -/
  shown : Option Listing
  /-- `parseHalt` has been set since it began. -/
  disturbed : Bool

/-- What happens next. -/
inductive ParseAct
  | callSuspend | callResume | callStop
  /-- The GUI stores `dir` in `browser.dir` and calls `ParseDirectory`. -/
  | callDirectory (dir : Text) (waitParse : Bool)
  /-- The GUI changes the list. -/
  | touch (browser : Browser)
  /-- The GUI makes its only possible step. -/
  | gui
  /-- `opendir` returns; where it fails, the user retries or does not. -/
  | opendir (found : Option (List (Dirent × Memory))) (retry : Bool)
  /-- The entry that leads up is added with this memory. -/
  | upEntry (m : Memory)
  /-- The parse thread makes its only possible step. -/
  | thread
  /-- `LoadFile` or `SaveFile` sets `parseHalt` in another thread. -/
  | halt

namespace ParseState

/-! ## `ParseDirEntries` -/

/-- An iteration of the loop of `ParseDirEntries`, where it does not end. -/
def readEntry (menu : Menu) (s : ParseState) (h : DirHandle) (i : ℕ) :
    Option (ParseState × Entries) :=
  match h.rest with
  | [] => some (s, .sort i true)
  | (d, m) :: rest =>
      let s := { s with dirHandle := some { h with rest } }
      if d.name.head? = some 46 ∨ d.name.head? = some 36 then some (s, .loop i false)
      else if d.isDir = false ∧ menu = .videos ∧ isSubtitleExt (getExt d.name) ∧ m.subs = false then
        some (s, .sort i true)
      else if d.isDir = false ∧ isAllowedExt menu (getExt d.name) = false ∧
          isPlaylistExt (getExt d.name) = false then
        some (s, .loop i false)
      else
        (addFile d m s.browser).map fun
          | (true, browser) => ({ s with browser }, .loop (i + 1) false)
          | (false, browser) => ({ s with browser }, .sort i true)

/-- A step of `ParseDirEntries`; at its end it says whether there are more entries. -/
def entriesStep (menu : Menu) (s : ParseState) : Entries → Option (ParseState × (Entries ⊕ Bool))
  | .loop i ended =>
      if 20 ≤ i ∨ s.parseHalt ≠ 0 then some (s, .inl (.sort i ended))
      else s.dirHandle.bind fun h => (s.readEntry menu h i).map fun r => (r.1, .inl r.2)
  | .sort i ended =>
      if 0 < i then
        (s.browser.sortBrowser fileSortCallback).map fun browser =>
          ({ s with browser }, .inl (.last ended))
      else some (s, .inl (.last ended))
  | .last ended =>
      if ended = true ∨ s.parseHalt ≠ 0 then some (s, .inl .close) else some (s, .inr true)
  | .close => some ({ s with dirHandle := none }, .inr false)

/-! ## The parse thread -/

/-- The step of the parse thread. -/
def threadStep (menu : Menu) (s : ParseState) (t : ParseThread) : Option ParseState :=
  let goto (s : ParseState) (pc : ParsePc) : ParseState := { s with thread := some { t with pc } }
  if t.suspended then none
  else match t.pc with
  | .suspend => some { s with thread := some ⟨.resumed, true⟩ }
  | .resumed => some (goto s (if s.parseHalt = 2 then .gone else .call))
  | .call => some (goto s (if s.dirHandle.isSome then .entries (.loop 0 true) else .suspend))
  | .entries e =>
      (s.entriesStep menu e).map fun
        | (s, .inl e) => goto s (.entries e)
        | (s, .inr more) => goto s (if more then .call else .suspend)
  | .gone => none

/-! ## The GUI -/

/-- The test of the waits: there is no parse thread, or it is suspended. -/
def parked (s : ParseState) : Bool :=
  match s.thread with
  | none => true
  | some t => t.suspended

/-- `parseHalt` is set. -/
def halt (s : ParseState) (v : ℕ) : ParseState := { s with parseHalt := v, disturbed := true }

/-- The higher level of a directory in `ParseDirectory`: what stands before its last slash, up to
the slash before that one, and whether there is such a slash. `none` is a write through NULL. -/
def higherLevel (dir : Text) : Option (Text × Bool) :=
  (afterLast? 47 dir).map fun name =>
    let stripped := dir.take (dir.length - name.length - 1)
    match afterLast? 47 stripped with
    | none => (stripped, false)
    | some name => (stripped.take (stripped.length - name.length), true)

/-- `dirHandle = opendir(browser.dir)`. -/
def opened (s : ParseState) (rest : List (Dirent × Memory)) : ParseState :=
  { s with dirHandle := some ⟨s.dir, rest⟩ }

/-- The entry that leads up; `false` means that there is no memory. -/
def addUp (s : ParseState) (m : Memory) : Option (Bool × ParseState) :=
  (addFile ⟨ascii "..", true⟩ m s.browser).map fun r => (r.1, { s with browser := r.2 })

/-- The step of the GUI where it has no choice. -/
def guiStep (menu : Menu) (s : ParseState) : Option ParseState :=
  match s.gui with
  | .idle _ => none
  | .suspend next => some { s.halt 1 with gui := .suspendWait next }
  | .suspendWait next =>
      if s.parked then
        some { s with gui := match next with
          | .return => .idle true
          | .directory waitParse => .reset waitParse }
      else none
  | .resume next => some { s with parseHalt := 0, gui := .resumeThread next }
  | .resumeThread next =>
      some { s with
        thread := match s.thread with
          | none => some ⟨.suspend, false⟩
          | some t => some { t with suspended := false }
        gui := if next = .directory true then .parseWait else .idle false }
  | .stop => some { s.halt 2 with gui := if s.thread.isSome then .stopTest else .idle true }
  | .stopTest =>
      some { s with
        thread := s.thread.map fun t => { t with suspended := false }
        gui := .join }
  | .join =>
      if s.thread.any fun t => t.pc = .gone then some { s with thread := none, gui := .idle true }
      else none
  | .reset waitParse =>
      s.browser.reset.map fun browser => { s with browser, gui := .open waitParse }
  | .open waitParse =>
      if s.dirHandle.isSome then some { s with gui := .upEntry waitParse } else none
  | .climb _ => if isDeviceRoot s.dir then some { s with gui := .idle true } else none
  | .upEntry _ => none
  | .start waitParse =>
      some { s with
        parseHalt := 0
        gui := .entries waitParse (.loop 0 true)
        shown := s.dirHandle.map fun h => ⟨h.path, h.rest, s.browser⟩
        disturbed := false }
  | .entries waitParse e =>
      (s.entriesStep menu e).map fun
        | (s, .inl e) => { s with gui := .entries waitParse e }
        | (s, .inr _) => { s with gui := .resume (.directory waitParse) }
  | .parseWait => if s.parked then some { s with gui := .idle false } else none

/-- `opendir` returns to the GUI. -/
def guiOpendir (s : ParseState) (found : Option (List (Dirent × Memory))) (retry : Bool) :
    Option ParseState :=
  match s.gui with
  | .open waitParse =>
      if s.dirHandle.isSome then none
      else match found with
      | some rest => some { s.opened rest with gui := .open waitParse }
      | none => some { s with gui := if retry then .open waitParse else .climb waitParse }
  | .climb waitParse =>
      if isDeviceRoot s.dir then none
      else (higherLevel s.dir).map fun
        | (dir, false) => { s with dir, gui := .idle true }
        | (dir, true) =>
            match found with
            | some rest => { { s with dir }.opened rest with gui := .upEntry waitParse }
            | none => { s with dir, gui := .climb waitParse }
  | _ => none

/-- The GUI begins with a call. -/
def call (s : ParseState) (next : GuiStage) : Option ParseState :=
  match s.gui with
  | .idle _ => some { s with gui := next }
  | _ => none

end ParseState

open ParseState

/-- One step of one of the threads. -/
def parseStep (menu : Menu) (s : ParseState) : ParseAct → Option ParseState
  | .callSuspend => s.call (.suspend .return)
  | .callResume => s.call (.resume .return)
  | .callStop => s.call .stop
  | .callDirectory dir waitParse =>
      { s with dir, shown := none }.call (.suspend (.directory waitParse))
  | .touch browser => if s.gui = .idle true then some { s with browser, shown := none } else none
  | .gui => s.guiStep menu
  | .opendir found retry => s.guiOpendir found retry
  | .upEntry m =>
      match s.gui with
      | .upEntry waitParse =>
          (s.addUp m).map fun
            | (true, s) => { s with gui := .start waitParse }
            | (false, s) => { s with gui := .idle true }
      | _ => none
  | .thread => s.thread.bind fun t => s.threadStep menu t
  | .halt => some (s.halt 1)

/-- The parse thread and the GUI, from the start of the program on. -/
def parsing (menu : Menu) : System ParseState ParseAct where
  init s := Listed s.browser [] ∧ s.dirHandle = none ∧ s.parseHalt = 0 ∧ s.thread = none ∧
    s.gui = .idle true ∧ s.shown = none
  step := parseStep menu

end WiiMC.Browser
