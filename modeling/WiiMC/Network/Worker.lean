import WiiMC.Lib.Transition
import Mathlib.Data.Int.Notation
import Mathlib.Logic.Function.Basic

/-!
# The network worker

`networkop.cpp`: `netcb` runs in a thread of its own, because nothing can interrupt `if_config`.
The GUI creates, resumes, stops and joins it through `StartNetworkThread` and
`StopNetworkThread`, and waits for it in `WaitForNetworkAtBoot` and `InitializeNetwork`. Each read
and each write of a variable that both sides use is one step here, and the threads take their
steps in any order.

`StopNetworkThread` waits a hundred times 20 ms. A step takes any time, so that the worker may do
anything during the wait, or nothing.

* `network`: the system.
* `workerStep_frame`: what a step of a worker leaves alone.
-/

namespace WiiMC.Network

open Transition

/-- A text that fits into a `char [16]`. -/
structure IpText where
  text : List UInt8
  fits : text.length < 16
  deriving DecidableEq

/-- `UsableAddress`, with the `inet_aton` of the C library. -/
def UsableAddress (inetAton : List UInt8 → Option UInt32) (s : List UInt8) : Bool :=
  match s with
  | [] => false
  | s =>
      match inetAton s with
      | none => false
      | some a => a ≠ 0 && a ≠ 0xffffffff

/-- Where a worker is in `netcb`. -/
inductive WorkerPc
  /-- Before the test of the outer loop. -/
  | outer
  /-- Before `netHalt` is read in the test of the inner loop. -/
  | attempt (retry : ℕ)
  /-- Before `networkInit` is read there. -/
  | attemptInit (retry : ℕ)
  | ifConfig (retry : ℕ)
  /-- Before `wiiIP` is written. -/
  | publish (ip : IpText)
  /-- Before `networkInit = true`. -/
  | bringUp
  /-- Behind a failure, before `netHalt` is read. -/
  | backOff (retry : ℕ)
  | sleeping (retry : ℕ)
  /-- Behind the inner loop, before `netHalt` is read. -/
  | parkTest
  /-- Before `LWP_SuspendThread`. -/
  | suspend
  /-- Behind it. -/
  | resumed
  /-- Before `netThreadExited = true`. -/
  | leave
  /-- Before the end of the thread. -/
  | leaving
  | gone
  deriving DecidableEq

/-- A thread. -/
structure Worker where
  pc : WorkerPc
  suspended : Bool
  deriving DecidableEq

/-- Who has called `StartNetworkThread`. -/
inductive StartCaller
  | menu | boot | init
  deriving DecidableEq

/-- Who has called `StopNetworkThread`; `WaitForNetworkAtBoot` does so behind a probe without an
address, and at its end. -/
inductive StopCaller
  | menu | bootProbe | bootUp | init
  deriving DecidableEq

/-- Where the GUI is. -/
inductive GuiPc
  /-- In none of the functions. -/
  | menu
  /-- At the start of `StartNetworkThread`. -/
  | start (caller : StartCaller)
  /-- In `LWP_JoinThread`. -/
  | startJoin (caller : StartCaller)
  /-- Before `netHalt = 0`. -/
  | startHalt (caller : StartCaller)
  /-- Before `netThreadExited = false`. -/
  | startClear (caller : StartCaller)
  /-- In `LWP_CreateThread`. -/
  | startCreate (caller : StartCaller)
  /-- In `LWP_ThreadIsSuspended`. -/
  | startTest (caller : StartCaller)
  /-- In `LWP_ResumeThread`. -/
  | startResume (caller : StartCaller)
  /-- At the start of `StopNetworkThread`. -/
  | stop (caller : StopCaller)
  /-- Before `netHalt = 2`. -/
  | stopHalt (caller : StopCaller)
  /-- In `LWP_ThreadIsSuspended`. -/
  | stopTest (caller : StopCaller)
  /-- In `LWP_ResumeThread`. -/
  | stopResume (caller : StopCaller)
  /-- In the wait, in round `i`. -/
  | stopWait (caller : StopCaller) (i : ℕ)
  /-- Behind the wait, before `netThreadExited` is read. -/
  | stopCheck (caller : StopCaller)
  /-- In `LWP_JoinThread`. -/
  | stopJoin (caller : StopCaller)
  | stopped (caller : StopCaller) (result : Bool)
  /-- At the start of `WaitForNetworkAtBoot`. -/
  | boot
  /-- Before the test of its outer loop. -/
  | bootLoop
  /-- Before `networkInit` is read in the test of its inner loop. -/
  | bootWait
  /-- In `LWP_ThreadIsSuspended` there. -/
  | bootWaitSuspended
  /-- Behind the inner loop. -/
  | bootAfter
  | bootPrompt
  /-- Behind the outer loop. -/
  | bootEnd
  | bootReturn
  /-- At the start of `InitializeNetwork`. -/
  | init
  /-- Before `cancelNetworkInit = false`. -/
  | initClear
  /-- Before the second test of `networkInit`. -/
  | initTest
  /-- In `LWP_ThreadIsSuspended` in the test of its loop. -/
  | initWait
  /-- Before `cancelNetworkInit` is read there. -/
  | initWaitCancel
  | initReturn
  /-- `WaitForNetworkAtBoot` or `InitializeNetwork` has returned. -/
  | returned (result : Bool)
  deriving DecidableEq

/-- The variables and the threads. -/
structure NetState where
  netHalt : ℕ
  networkInit : Bool
  wiiIP : List UInt8
  networkthread : Option ℕ
  netThreadExited : Bool
  netThreadAbandoned : Bool
  cancelNetworkInit : Bool
  /-- The threads by their handles; without a thread a handle is `gone`. -/
  threads : ℕ → Worker
  /-- The next handle. -/
  created : ℕ
  gui : GuiPc

/-- What happens next. -/
inductive Act
  /-- A worker makes its only possible step. -/
  | worker (i : ℕ)
  /-- `if_config` returns. -/
  | ifConfig (i : ℕ) (res : ℤ) (ip : IpText)
  /-- The GUI makes a step. `answer` is what it finds out: that `ExitRequested` is set, that 30
  seconds are over, that the user retries, that a thread has been created. -/
  | gui (answer : Bool)
  | callStart | callStop | callBoot | callInit
  /-- The user clicks on the button that cancels `InitializeNetwork`. -/
  | click
  /-- `CheckMplayerNetwork` finds no address. -/
  | checkMplayerNetwork
  deriving DecidableEq

namespace NetState

/-- A worker goes to `pc`. -/
def goto (s : NetState) (i : ℕ) (pc : WorkerPc) : NetState :=
  { s with threads := Function.update s.threads i { s.threads i with pc } }

/-- `LWP_SuspendThread`, which does nothing to a thread that is gone. -/
def suspendThread (s : NetState) : Option ℕ → NetState
  | none => s
  | some i =>
      if (s.threads i).pc = .gone then s
      else { s with threads := Function.update s.threads i { s.threads i with suspended := true } }

/-- `LWP_ResumeThread`. -/
def resumeThread (s : NetState) : Option ℕ → NetState
  | none => s
  | some i =>
      { s with threads := Function.update s.threads i { s.threads i with suspended := false } }

/-- `LWP_ThreadIsSuspended`. -/
def threadIsSuspended (s : NetState) : Option ℕ → Bool
  | none => false
  | some i => (s.threads i).suspended

/-- `LWP_CreateThread`, which stores the handle before the new thread runs. -/
def createThread (s : NetState) : NetState :=
  { s with
    networkthread := some s.created
    threads := Function.update s.threads s.created ⟨.outer, false⟩
    created := s.created + 1 }

/-- `LWP_JoinThread` and what follows it; it waits for the end of the thread. -/
def joinThread (s : NetState) : Option NetState :=
  match s.networkthread with
  | none => none
  | some i =>
      if (s.threads i).pc = .gone then
        some { s with networkthread := none, netThreadAbandoned := false }
      else none

end NetState

open NetState

/-- The only possible step of a worker. -/
def workerStep (s : NetState) (i : ℕ) : Option NetState :=
  if (s.threads i).suspended then none
  else match (s.threads i).pc with
  | .outer => some (s.goto i (if s.netHalt = 2 then .leave else .attempt 3))
  | .attempt retry =>
      some (s.goto i (if 0 < retry ∧ s.netHalt ≠ 2 then .attemptInit retry else .parkTest))
  | .attemptInit retry => some (s.goto i (if s.networkInit then .parkTest else .ifConfig retry))
  | .publish ip => some ({ s with wiiIP := ip.text.take 15 }.goto i .bringUp)
  | .bringUp => some ({ s with networkInit := true }.goto i .parkTest)
  | .backOff retry =>
      some (s.goto i (if 0 < retry ∧ s.netHalt ≠ 2 then .sleeping retry else .attempt retry))
  | .sleeping retry => some (s.goto i (.attempt retry))
  | .parkTest => some (s.goto i (if s.netHalt ≠ 2 then .suspend else .outer))
  | .suspend => some ((s.suspendThread s.networkthread).goto i .resumed)
  | .resumed => some (s.goto i .outer)
  | .leave => some ({ s with netThreadExited := true }.goto i .leaving)
  | .leaving => some (s.goto i .gone)
  | .ifConfig _ | .gone => none

/-- Where a worker goes behind `if_config`. -/
def afterIfConfig (inetAton : List UInt8 → Option UInt32) (retry : ℕ) (res : ℤ) (ip : IpText) :
    WorkerPc :=
  if 0 ≤ res ∧ UsableAddress inetAton ip.text then .publish ip
  else if 0 ≤ res then .parkTest
  else .backOff (retry - 1)

/-- Where the GUI goes behind `StartNetworkThread`. -/
def StartCaller.next : StartCaller → GuiPc
  | .menu => .menu
  | .boot => .bootWait
  | .init => .initWait

/-- Where it goes behind `StopNetworkThread`. -/
def StopCaller.next : StopCaller → GuiPc
  | .menu => .menu
  | .bootProbe => .bootPrompt
  | .bootUp => .bootReturn
  | .init => .initReturn

/-- A step of the GUI. -/
def guiStep (s : NetState) (answer : Bool) : Option NetState :=
  match s.gui with
  | .menu => none
  | .start c =>
      if s.netThreadAbandoned then
        some { s with gui := if s.netThreadExited then .startJoin c else c.next }
      else some { s with gui := .startHalt c }
  | .startJoin c => s.joinThread.map fun s => { s with gui := .startHalt c }
  | .startHalt c =>
      some { s with
        netHalt := 0
        gui := if s.networkthread = none then .startClear c else .startTest c }
  | .startClear c => some { s with netThreadExited := false, gui := .startCreate c }
  | .startCreate c =>
      if answer then some { s.createThread with gui := c.next }
      else some { s with networkthread := none, netThreadExited := true, gui := c.next }
  | .startTest c =>
      some { s with
        gui := if s.threadIsSuspended s.networkthread then .startResume c else c.next }
  | .startResume c => some { s.resumeThread s.networkthread with gui := c.next }
  | .stop c =>
      some { s with gui := if s.networkthread = none then .stopped c true else .stopHalt c }
  | .stopHalt c => some { s with netHalt := 2, gui := .stopTest c }
  | .stopTest c =>
      some { s with
        gui := if s.threadIsSuspended s.networkthread then .stopResume c else .stopWait c 0 }
  | .stopResume c => some { s.resumeThread s.networkthread with gui := .stopWait c 0 }
  | .stopWait c i =>
      -- NET_STOP_TIMEOUT_SECS * 50
      some { s with
        gui := if i < 100 ∧ s.netThreadExited = false then .stopWait c (i + 1) else .stopCheck c }
  | .stopCheck c =>
      if s.netThreadExited then some { s with gui := .stopJoin c }
      else some { s with netThreadAbandoned := true, gui := .stopped c false }
  | .stopJoin c => s.joinThread.map fun s => { s with gui := .stopped c true }
  | .stopped c _ => some { s with gui := c.next }
  | .boot => some { s with gui := if s.networkInit then .returned true else .bootLoop }
  | .bootLoop => some { s with gui := if s.networkInit || answer then .bootEnd else .start .boot }
  | .bootWait =>
      some { s with
        gui := if s.networkInit || answer || s.networkthread = none then .bootAfter
          else .bootWaitSuspended }
  | .bootWaitSuspended =>
      some { s with
        gui := if s.threadIsSuspended s.networkthread || answer then .bootAfter else .bootWait }
  | .bootAfter =>
      some { s with gui := if s.networkInit || answer then .bootEnd else .stop .bootProbe }
  | .bootPrompt => some { s with gui := if answer then .bootLoop else .bootEnd }
  | .bootEnd => some { s with gui := if s.networkInit then .stop .bootUp else .bootReturn }
  | .bootReturn => some { s with gui := .returned s.networkInit }
  | .init => some { s with gui := if s.networkInit then .returned true else .initClear }
  | .initClear => some { s with cancelNetworkInit := false, gui := .initTest }
  | .initTest => some { s with gui := if s.networkInit then .initReturn else .start .init }
  | .initWait =>
      some { s with
        gui := if s.networkthread = none ∨ s.threadIsSuspended s.networkthread then .stop .init
          else .initWaitCancel }
  | .initWaitCancel =>
      some { s with gui := if s.cancelNetworkInit then .stop .init else .initWait }
  | .initReturn => some { s with gui := .returned s.networkInit }
  | .returned _ => some { s with gui := .menu }

/-- One step of one of the threads. -/
def networkStep (inetAton : List UInt8 → Option UInt32) (s : NetState) : Act → Option NetState
  | .worker i => workerStep s i
  | .ifConfig i res ip =>
      match s.threads i with
      | ⟨.ifConfig retry, false⟩ => some (s.goto i (afterIfConfig inetAton retry res ip))
      | _ => none
  | .gui answer => guiStep s answer
  | .callStart => if s.gui = .menu then some { s with gui := .start .menu } else none
  | .callStop => if s.gui = .menu then some { s with gui := .stop .menu } else none
  | .callBoot => if s.gui = .menu then some { s with gui := .boot } else none
  | .callInit => if s.gui = .menu then some { s with gui := .init } else none
  | .click => some { s with cancelNetworkInit := true }
  | .checkMplayerNetwork => some { s with networkInit := false }

/-- The program after its start. -/
def booted : NetState where
  netHalt := 0
  networkInit := false
  wiiIP := []
  networkthread := none
  netThreadExited := false
  netThreadAbandoned := false
  cancelNetworkInit := false
  threads := fun _ => ⟨.gone, false⟩
  created := 0
  gui := .menu

/-- The worker and the GUI. -/
def network (inetAton : List UInt8 → Option UInt32) : System NetState Act where
  init s := s = booted
  step := networkStep inetAton

/-! ## What a step can do -/

section Step

variable {s t : NetState} {i : ℕ} {answer : Bool}

/-- A worker has set `netThreadExited`. -/
def WorkerPc.Exited (pc : WorkerPc) : Prop := pc = .leaving ∨ pc = .gone

instance (pc : WorkerPc) : Decidable pc.Exited := inferInstanceAs (Decidable (_ ∨ _))

/-- A step of a worker that only leads from `pc` to `pc'`. -/
structure Moves (s : NetState) (pc pc' : WorkerPc) : Prop where
  alive : pc ≠ .gone
  publish : ∀ ip, pc' ≠ .publish ip
  bringUp : pc' ≠ .bringUp
  exited : pc.Exited ↔ pc'.Exited
  /-- It goes to `LWP_SuspendThread` and leaves only as `netHalt` says. -/
  suspend : pc' = .suspend → s.netHalt ≠ 2
  leave : pc' = .leave → s.netHalt = 2

theorem workerStep_cases (h : workerStep s i = some t) :
    (s.threads i).suspended = false ∧
    ((∃ pc, Moves s (s.threads i).pc pc ∧ t = s.goto i pc) ∨
      (∃ ip, (s.threads i).pc = .publish ip ∧
        t = { s with wiiIP := ip.text.take 15 }.goto i .bringUp) ∨
      ((s.threads i).pc = .bringUp ∧ t = { s with networkInit := true }.goto i .parkTest) ∨
      ((s.threads i).pc = .suspend ∧ t = (s.suspendThread s.networkthread).goto i .resumed) ∨
      ((s.threads i).pc = .leave ∧ t = { s with netThreadExited := true }.goto i .leaving)) := by
  unfold workerStep at h
  by_cases hsus : (s.threads i).suspended = true
  · rw [if_pos hsus] at h
    cases h
  rw [if_neg hsus] at h
  refine ⟨Bool.eq_false_iff.mpr hsus, ?_⟩
  cases hpc : (s.threads i).pc <;> rw [hpc] at h
  case ifConfig | gone => cases h
  case publish ip =>
    cases h
    exact Or.inr (Or.inl ⟨ip, rfl, rfl⟩)
  case bringUp =>
    cases h
    exact Or.inr (Or.inr (Or.inl ⟨rfl, rfl⟩))
  case suspend =>
    cases h
    exact Or.inr (Or.inr (Or.inr (Or.inl ⟨rfl, rfl⟩)))
  case leave =>
    cases h
    exact Or.inr (Or.inr (Or.inr (Or.inr ⟨rfl, rfl⟩)))
  -- all others change nothing but the place
  case outer | parkTest =>
    cases h
    refine Or.inl ⟨_, ?_, rfl⟩
    split_ifs with hhalt <;> constructor <;> simp [WorkerPc.Exited, hhalt]
  case attempt | attemptInit | backOff =>
    cases h
    refine Or.inl ⟨_, ?_, rfl⟩
    split_ifs <;> constructor <;> simp [WorkerPc.Exited]
  case sleeping | resumed | leaving =>
    cases h
    refine Or.inl ⟨_, ?_, rfl⟩
    constructor <;> simp [WorkerPc.Exited]

end Step

end WiiMC.Network
