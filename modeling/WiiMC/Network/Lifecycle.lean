import WiiMC.Network.Worker

/-!
# The life of the network worker

Whatever the worker and the GUI do, in any order: there is at most one worker, it is joined only
behind its `netThreadExited = true`, and nothing believes in an address that is none.

* `Safe`: the invariant.
* `Safe.workerStep`, `Safe.guiStep`: a step of either side.
* `networkWorker_safe`: what the GUI relies on.
-/

namespace WiiMC.Network

open Transition NetState

variable {inetAton : List UInt8 → Option UInt32} {s t : NetState} {i : ℕ} {answer : Bool}

/-- What the GUI relies on at its steps. -/
def GuiSafe (networkthread : Option ℕ) (exited : Bool) : GuiPc → Prop
  | .startJoin _ | .stopJoin _ => exited = true
  | .startClear _ => networkthread = none
  | .startCreate _ => networkthread = none ∧ exited = false
  | .stopped _ true => networkthread = none
  | _ => True

/-- What the worker relies on at its steps. -/
def WorkerSafe (inetAton : List UInt8 → Option UInt32) (wiiIP : List UInt8) : WorkerPc → Prop
  | .publish ip => UsableAddress inetAton ip.text = true
  | .bringUp => UsableAddress inetAton wiiIP = true
  | _ => True

/-- The invariant. -/
structure Safe (inetAton : List UInt8 → Option UInt32) (s : NetState) : Prop where
  only : ∀ i, (s.threads i).pc ≠ .gone → s.networkthread = some i
  exited : ∀ i, s.networkthread = some i → s.netThreadExited = true → (s.threads i).pc.Exited
  worker : ∀ i, s.networkthread = some i → WorkerSafe inetAton s.wiiIP (s.threads i).pc
  address : s.networkInit = true → UsableAddress inetAton s.wiiIP = true
  gui : GuiSafe s.networkthread s.netThreadExited s.gui

/-- Without a handle there is no worker. -/
theorem Safe.gone (hs : Safe inetAton s) (hnone : s.networkthread = none) (i : ℕ) :
    (s.threads i).pc = .gone :=
  by_contra fun halive => by cases hnone.symm.trans (hs.only i halive)

/-! ## Steps of the worker -/

/-- A thread that goes on is where it goes. -/
@[simp]
theorem goto_threads_self (s : NetState) (i : ℕ) (pc : WorkerPc) :
    (s.goto i pc).threads i = { s.threads i with pc } :=
  Function.update_self ..

/-- The other threads stay where they are. -/
theorem goto_threads_of_ne {j : ℕ} (hne : j ≠ i) (s : NetState) (pc : WorkerPc) :
    (s.goto i pc).threads j = s.threads j :=
  Function.update_of_ne hne ..

/-- The thread that the worker suspends is itself. -/
theorem suspendThread_self (hi : s.networkthread = some i) (halive : (s.threads i).pc ≠ .gone) :
    s.suspendThread s.networkthread =
      { s with threads := Function.update s.threads i { s.threads i with suspended := true } } := by
  rw [hi, suspendThread, if_neg halive, hi]

/-- The flag of a thread has no influence on where it is. -/
theorem pc_update_suspended (s : NetState) (i j : ℕ) (suspended : Bool) :
    (Function.update s.threads i { s.threads i with suspended } j).pc = (s.threads j).pc := by
  by_cases hji : j = i
  · rw [hji, Function.update_self]
  · rw [Function.update_of_ne hji]

/-- Suspending or waking a thread keeps the invariant. -/
theorem Safe.setSuspended (hs : Safe inetAton s) (i : ℕ) (suspended : Bool) :
    Safe inetAton
      { s with threads := Function.update s.threads i { s.threads i with suspended } } where
  only j hj := hs.only j (pc_update_suspended s i j suspended ▸ hj)
  exited j hj hset := (pc_update_suspended s i j suspended).symm ▸ hs.exited j hj hset
  worker j hj := (pc_update_suspended s i j suspended).symm ▸ hs.worker j hj
  address := hs.address
  gui := hs.gui

/-- The worker goes on, with the variables that it may change. -/
theorem Safe.goto (hs : Safe inetAton s) (hi : s.networkthread = some i) {pc : WorkerPc}
    {exited networkInit : Bool} {wiiIP : List UInt8}
    (hexited : exited = true → pc.Exited) (hset : s.netThreadExited = true → exited = true)
    (hworker : WorkerSafe inetAton wiiIP pc)
    (haddress : networkInit = true → UsableAddress inetAton wiiIP = true) :
    Safe inetAton
      ({ s with netThreadExited := exited, networkInit, wiiIP }.goto i pc) where
  only j hj := by
    by_cases hji : j = i
    · rw [hji]
      exact hi
    · rw [goto_threads_of_ne hji] at hj
      exact hs.only j hj
  exited j hj h := by
    obtain rfl : i = j := Option.some.inj (hi.symm.trans hj)
    rw [goto_threads_self]
    exact hexited h
  worker j hj := by
    obtain rfl : i = j := Option.some.inj (hi.symm.trans hj)
    rw [goto_threads_self]
    exact hworker
  address := haddress
  gui := by
    have hgui := hs.gui
    show GuiSafe s.networkthread exited s.gui
    rw [hi] at hgui ⊢
    -- with a worker, setting the flag is all that matters to the GUI
    cases hpc : s.gui with
    | startJoin c | stopJoin c =>
        rw [hpc] at hgui
        exact hset hgui
    | startClear c =>
        rw [hpc] at hgui
        cases hgui
    | startCreate c =>
        rw [hpc] at hgui
        cases hgui.1
    | stopped c result =>
        rw [hpc] at hgui
        cases result with
        | false => trivial
        | true => cases hgui
    | _ => trivial

/-- The copy of an address is usable if the address is. -/
theorem usableAddress_take (ip : IpText) :
    UsableAddress inetAton (ip.text.take 15) = UsableAddress inetAton ip.text := by
  rw [List.take_of_length_le (Nat.le_of_lt_succ ip.fits)]

/-- What `UsableAddress` tests. -/
theorem usableAddress_iff {text : List UInt8} : UsableAddress inetAton text = true ↔
    text ≠ [] ∧ ∃ a, inetAton text = some a ∧ a ≠ 0 ∧ a ≠ 0xffffffff := by
  unfold UsableAddress
  cases text with
  | nil => simp
  | cons b text =>
      simp only
      cases inetAton (b :: text) with
      | none => simp
      | some a => simp

/-- A step of a worker keeps the invariant. -/
theorem Safe.workerStep (hs : Safe inetAton s) (h : workerStep s i = some t) :
    Safe inetAton t := by
  obtain ⟨-, hcases⟩ := workerStep_cases h
  -- A move, a publication, a bring-up, a suspension, or the end of the thread.
  rcases hcases with ⟨pc, hmoves, rfl⟩ | ⟨ip, hpc, rfl⟩ | ⟨hpc, rfl⟩ | ⟨hpc, rfl⟩ | ⟨hpc, rfl⟩
  · have hi := hs.only i hmoves.alive
    refine hs.goto hi (fun hset => hmoves.exited.mp (hs.exited i hi hset)) id ?_ hs.address
    cases pc with
    | publish ip => exact absurd rfl (hmoves.publish ip)
    | bringUp => exact absurd rfl hmoves.bringUp
    | _ => trivial
  · have hi := hs.only i (by rw [hpc]; nofun)
    have hip : UsableAddress inetAton (ip.text.take 15) = true := by
      have hworker := hs.worker i hi
      rw [hpc] at hworker
      exact (usableAddress_take ip).trans hworker
    refine hs.goto hi (fun hset => ?_) id hip fun _ => hip
    rcases hs.exited i hi hset with h | h <;> cases hpc.symm.trans h
  · have hi := hs.only i (by rw [hpc]; nofun)
    have hworker := hs.worker i hi
    rw [hpc] at hworker
    refine hs.goto hi (fun hset => ?_) id trivial fun _ => hworker
    rcases hs.exited i hi hset with h | h <;> cases hpc.symm.trans h
  · have halive : (s.threads i).pc ≠ .gone := by rw [hpc]; nofun
    have hi := hs.only i halive
    -- the worker suspends itself, and does nothing more
    rw [suspendThread_self hi halive]
    refine (hs.setSuspended i true).goto hi (fun hset => ?_) id trivial hs.address
    rcases hs.exited i hi hset with h | h <;> cases hpc.symm.trans h
  · have hi := hs.only i (by rw [hpc]; nofun)
    exact hs.goto hi (fun _ => Or.inl rfl) (fun _ => rfl) trivial hs.address

/-- What `if_config` returns keeps the invariant. -/
theorem Safe.afterIfConfig (hs : Safe inetAton s) {retry : ℕ}
    (hpc : s.threads i = ⟨.ifConfig retry, false⟩) (res : ℤ) (ip : IpText) :
    Safe inetAton (s.goto i (afterIfConfig inetAton retry res ip)) := by
  have hi := hs.only i (by rw [hpc]; nofun)
  refine hs.goto hi (fun hset => ?_) id ?_ hs.address
  · have hexited := hs.exited i hi hset
    rw [hpc] at hexited
    rcases hexited with h | h <;> cases h
  · unfold Network.afterIfConfig
    split_ifs with hgood
    · exact hgood.2
    · trivial
    · trivial

/-! ## Steps of the GUI -/

/-- The GUI goes on, with the variables that do not matter to the worker. -/
theorem Safe.setGui (hs : Safe inetAton s) {t : NetState} (hthreads : t.threads = s.threads)
    (hthread : t.networkthread = s.networkthread) (hexited : t.netThreadExited = s.netThreadExited)
    (hip : t.wiiIP = s.wiiIP) (hinit : t.networkInit = true → s.networkInit = true)
    (hgui : GuiSafe s.networkthread s.netThreadExited t.gui) : Safe inetAton t where
  only i hi := hthread.trans (hs.only i (hthreads ▸ hi))
  exited i hi hset := hthreads ▸ hs.exited i (hthread ▸ hi) (hexited ▸ hset)
  worker i hi := hip ▸ hthreads ▸ hs.worker i (hthread ▸ hi)
  address h := hip ▸ hs.address (hinit h)
  gui := hthread ▸ hexited ▸ hgui

/-- Without a worker, the variables that only a worker uses do not matter. -/
theorem Safe.unhandled (hs : Safe inetAton s) {t : NetState}
    (hgone : ∀ i, (s.threads i).pc = .gone) (hthreads : t.threads = s.threads)
    (hnone : t.networkthread = none) (hip : t.wiiIP = s.wiiIP)
    (hinit : t.networkInit = s.networkInit) (hgui : GuiSafe none t.netThreadExited t.gui) :
    Safe inetAton t where
  only i hi := absurd (hthreads ▸ hgone i) hi
  exited i hi := by cases hnone.symm.trans hi
  worker i hi := by cases hnone.symm.trans hi
  address h := hip ▸ hs.address (hinit ▸ h)
  gui := hnone ▸ hgui

/-- A new worker keeps the invariant, where the last one has been joined. -/
theorem Safe.createThread (hs : Safe inetAton s) (hnone : s.networkthread = none)
    (hexited : s.netThreadExited = false) {gui : GuiPc} (hgui : ∀ i, GuiSafe (some i) false gui) :
    Safe inetAton { s.createThread with gui } where
  only i hi := by
    by_cases hnew : i = s.created
    · rw [hnew]
      rfl
    · refine absurd ?_ hi
      show (Function.update s.threads s.created ⟨.outer, false⟩ i).pc = .gone
      rw [Function.update_of_ne hnew]
      exact hs.gone hnone i
  exited i _ hset := by cases hexited.symm.trans hset
  worker i hi := by
    obtain rfl : s.created = i := Option.some.inj hi
    show WorkerSafe inetAton s.wiiIP (Function.update s.threads s.created ⟨.outer, false⟩ _).pc
    rw [Function.update_self]
    trivial
  address := hs.address
  gui := by
    show GuiSafe (some s.created) s.netThreadExited gui
    rw [hexited]
    exact hgui _

/-- Joining the worker keeps the invariant. -/
theorem Safe.joinThread (hs : Safe inetAton s) (h : s.joinThread = some t) {gui : GuiPc}
    (hgui : GuiSafe none t.netThreadExited gui) : Safe inetAton { t with gui } := by
  rw [NetState.joinThread] at h
  rcases hi : s.networkthread with _ | i <;> rw [hi] at h
  · cases h
  · by_cases hgone : (s.threads i).pc = .gone
    · cases (if_pos hgone).symm.trans h
      refine hs.unhandled (fun j => by_contra fun halive => ?_) rfl rfl rfl rfl hgui
      obtain rfl : i = j := Option.some.inj (hi.symm.trans (hs.only j halive))
      exact halive hgone
    · cases (if_neg hgone).symm.trans h

/-- Where the GUI goes behind the two functions it relies on nothing. -/
theorem guiSafe_startNext (c : StartCaller) (networkthread : Option ℕ) (exited : Bool) :
    GuiSafe networkthread exited c.next := by
  cases c <;> trivial

/-- Behind `StopNetworkThread` nothing is expected of the worker. -/
theorem guiSafe_stopNext (c : StopCaller) (networkthread : Option ℕ) (exited : Bool) :
    GuiSafe networkthread exited c.next := by
  cases c <;> trivial

/-- A branch is safe for the GUI if both of its sides are. -/
theorem guiSafe_ite {networkthread : Option ℕ} {exited : Bool} {p : Prop} [Decidable p]
    {g g' : GuiPc} (h : p → GuiSafe networkthread exited g)
    (h' : ¬ p → GuiSafe networkthread exited g') :
    GuiSafe networkthread exited (if p then g else g') := by
  split_ifs with hp
  · exact h hp
  · exact h' hp

/-- Waking the worker keeps the invariant. -/
theorem Safe.resumeThread (hs : Safe inetAton s) {gui : GuiPc}
    (hgui : GuiSafe s.networkthread s.netThreadExited gui) :
    Safe inetAton { s.resumeThread s.networkthread with gui } := by
  cases hi : s.networkthread with
  | none => exact hs.setGui rfl rfl rfl rfl id hgui
  | some i => exact (hs.setSuspended i false).setGui rfl rfl rfl rfl id hgui

/-- A step of the GUI keeps the invariant. -/
theorem Safe.guiStep (hs : Safe inetAton s) (h : guiStep s answer = some t) :
    Safe inetAton t := by
  have hgui := hs.gui
  unfold Network.guiStep at h
  cases hpc : s.gui <;> rw [hpc] at h hgui
  case menu => cases h
  case start c =>
    by_cases habandoned : s.netThreadAbandoned = true
    · cases (if_pos habandoned).symm.trans h
      exact hs.setGui rfl rfl rfl rfl id (guiSafe_ite id fun _ => guiSafe_startNext ..)
    · cases (if_neg habandoned).symm.trans h
      exact hs.setGui rfl rfl rfl rfl id trivial
  case startJoin c | stopJoin c =>
    obtain ⟨u, hjoin, rfl⟩ := Option.map_eq_some_iff.mp h
    exact hs.joinThread hjoin (by trivial)
  case startHalt c =>
    cases h
    exact hs.setGui rfl rfl rfl rfl id (guiSafe_ite id fun _ => trivial)
  case startClear c =>
    cases h
    exact hs.unhandled (hs.gone hgui) rfl hgui rfl rfl ⟨rfl, rfl⟩
  case startCreate c =>
    cases answer with
    | true =>
        cases h
        exact hs.createThread hgui.1 hgui.2 fun i => guiSafe_startNext ..
    | false =>
        cases h
        exact hs.unhandled (hs.gone hgui.1) rfl rfl rfl rfl (guiSafe_startNext ..)
  case startTest c =>
    cases h
    exact hs.setGui rfl rfl rfl rfl id (guiSafe_ite (fun _ => trivial) fun _ => guiSafe_startNext ..)
  case startResume c =>
    cases h
    exact hs.resumeThread (guiSafe_startNext ..)
  case stopResume c =>
    cases h
    exact hs.resumeThread trivial
  case stop c =>
    cases h
    exact hs.setGui rfl rfl rfl rfl id (guiSafe_ite id fun _ => trivial)
  case stopCheck c =>
    by_cases hexited : s.netThreadExited = true
    · cases (if_pos hexited).symm.trans h
      exact hs.setGui rfl rfl rfl rfl id hexited
    · cases (if_neg hexited).symm.trans h
      exact hs.setGui rfl rfl rfl rfl id trivial
  case stopped c result =>
    cases h
    exact hs.setGui rfl rfl rfl rfl id (guiSafe_stopNext ..)
  case stopHalt | bootReturn | initClear | initReturn | returned =>
    cases h
    exact hs.setGui rfl rfl rfl rfl id trivial
  -- a test, behind which the GUI relies on nothing
  all_goals
    cases h
    exact hs.setGui rfl rfl rfl rfl id (guiSafe_ite (fun _ => trivial) fun _ => trivial)

/-! ## Runs -/

/-- The invariant holds after the boot. -/
theorem safe_booted : Safe inetAton booted where
  only _ h := absurd rfl h
  exited _ h := nomatch h
  worker _ h := nomatch h
  address := nofun
  gui := trivial

/-- A step keeps the invariant. -/
theorem Safe.step (hs : Safe inetAton s) {a : Act} (h : networkStep inetAton s a = some t) :
    Safe inetAton t := by
  cases a with
  | worker i => exact hs.workerStep h
  | ifConfig i res ip =>
      rcases hi : s.threads i with ⟨pc, suspended⟩
      rw [networkStep, hi] at h
      split at h
      · next heq =>
          cases heq
          cases h
          exact hs.afterIfConfig hi res ip
      · cases h
  | gui answer => exact hs.guiStep h
  | callStart | callStop | callBoot | callInit =>
      obtain ⟨-, ⟨⟩⟩ := Option.ite_none_right_eq_some.mp h
      exact hs.setGui rfl rfl rfl rfl id trivial
  | click =>
      cases h
      exact hs.setGui rfl rfl rfl rfl id hs.gui
  | checkMplayerNetwork =>
      cases h
      exact hs.setGui rfl rfl rfl rfl nofun hs.gui

/-- The invariant holds in every state of a run. -/
theorem safe_of_reachable {ok : NetState → Act → Prop}
    (hs : (network inetAton).Reachable ok s) : Safe inetAton s :=
  hs.invariant (by rintro _ rfl; exact safe_booted) fun _ _ _ _ hsafe _ hstep => hsafe.step hstep

/-- Suspending creates no thread. -/
theorem suspendThread_created (s : NetState) (handle : Option ℕ) :
    (s.suspendThread handle).created = s.created := by
  cases handle with
  | none => rfl
  | some i =>
      rw [suspendThread]
      split_ifs
      · rfl
      · rfl

/-- Waking creates no thread. -/
theorem resumeThread_created (s : NetState) (handle : Option ℕ) :
    (s.resumeThread handle).created = s.created := by
  cases handle with
  | none => rfl
  | some i => rfl

/-- Joining creates no thread. -/
theorem joinThread_created (h : s.joinThread = some t) : t.created = s.created := by
  rw [NetState.joinThread] at h
  rcases hi : s.networkthread with _ | i <;> rw [hi] at h
  · cases h
  · obtain ⟨-, ⟨⟩⟩ := Option.ite_none_right_eq_some.mp h
    rfl

/-- Only `LWP_CreateThread` creates a thread. -/
theorem created_of_step {a : Act} (h : networkStep inetAton s a = some t)
    (hnew : t.created ≠ s.created) : ∃ c, s.gui = .startCreate c := by
  by_contra hnot
  refine hnew ?_
  -- The steps are gone through for one that creates a thread.
  cases a with
  | worker i =>
      obtain ⟨-, ⟨pc, -, rfl⟩ | ⟨ip, -, rfl⟩ | ⟨-, rfl⟩ | ⟨-, rfl⟩ | ⟨-, rfl⟩⟩ := workerStep_cases h
      · rfl
      · rfl
      · rfl
      · exact suspendThread_created s s.networkthread
      · rfl
  | ifConfig i res ip =>
      rw [networkStep] at h
      split at h
      · cases h
        rfl
      · cases h
  -- of the GUI's stages it is `LWP_CreateThread` alone
  | gui answer =>
      rw [networkStep] at h
      unfold Network.guiStep at h
      cases hpc : s.gui <;> rw [hpc] at h
      case menu => cases h
      case start =>
        simp only at h
        split_ifs at h <;> cases h <;> rfl
      case stopCheck =>
        simp only at h
        split_ifs at h <;> cases h <;> rfl
      case startJoin | stopJoin =>
        obtain ⟨u, hjoin, rfl⟩ := Option.map_eq_some_iff.mp h
        show u.created = s.created
        exact joinThread_created hjoin
      case startCreate c => exact absurd ⟨c, hpc⟩ hnot
      case startResume | stopResume =>
        cases h
        exact resumeThread_created s s.networkthread
      all_goals
        cases h
        rfl
  | callStart | callStop | callBoot | callInit =>
      obtain ⟨-, ⟨⟩⟩ := Option.ite_none_right_eq_some.mp h
      rfl
  | click | checkMplayerNetwork =>
      cases h
      rfl

/-- A worker is alive. -/
def NetState.Alive (s : NetState) (i : ℕ) : Prop := (s.threads i).pc ≠ .gone

/-- The GUI calls `LWP_JoinThread` with the handle `i`. -/
def NetState.Joins (s : NetState) (i : ℕ) : Prop :=
  s.networkthread = some i ∧ ((∃ c, s.gui = .startJoin c) ∨ ∃ c, s.gui = .stopJoin c)

/-- In whatever order the worker and the GUI take their steps: there is at most one worker, it is
joined only behind its `netThreadExited = true`, none is created while another one is left, none is
left when `StopNetworkThread` has returned true, and while `networkInit` is set there is an address
in `wiiIP`, which is neither 0.0.0.0 nor 255.255.255.255. -/
theorem networkWorker_safe (hs : (network inetAton).Reachable (fun _ _ => True) s) :
    (∀ i j, s.Alive i → s.Alive j → i = j) ∧
      (∀ i, s.Joins i → (s.threads i).pc.Exited) ∧
      (∀ a t, networkStep inetAton s a = some t → t.created ≠ s.created → ∀ i, ¬ s.Alive i) ∧
      (∀ c, s.gui = .stopped c true → ∀ i, ¬ s.Alive i) ∧
      (s.networkInit = true →
        s.wiiIP ≠ [] ∧ ∃ a, inetAton s.wiiIP = some a ∧ a ≠ 0 ∧ a ≠ 0xffffffff) := by
  have hsafe := safe_of_reachable hs
  have hgui := hsafe.gui
  refine ⟨fun i j hi hj => ?_, ?_, ?_, fun c hpc i => ?_,
    fun hinit => usableAddress_iff.mp (hsafe.address hinit)⟩
  · exact Option.some.inj ((hsafe.only i hi).symm.trans (hsafe.only j hj))
  · rintro i ⟨hi, ⟨c, hpc⟩ | ⟨c, hpc⟩⟩ <;> rw [hpc] at hgui <;> exact hsafe.exited i hi hgui
  · intro a t hstep hnew i
    obtain ⟨c, hpc⟩ := created_of_step hstep hnew
    rw [hpc] at hgui
    exact not_not.mpr (hsafe.gone hgui.1 i)
  · rw [hpc] at hgui
    exact not_not.mpr (hsafe.gone hgui i)

section Sample

/-- An `inet_aton` that knows one address, `10.0.0.2`. -/
def sampleAton (text : List UInt8) : Option UInt32 :=
  if text = [49, 48, 46, 48, 46, 48, 46, 50] then some 0x0a000002 else none

def sampleIp : IpText := ⟨[49, 48, 46, 48, 46, 48, 46, 50], by decide⟩

/-- `InitializeNetwork` has created a worker and looks whether it is suspended. -/
def initialized : List Act := .callInit :: List.replicate 7 (.gui true)

/-- The worker is in `if_config`. -/
def probing : List Act := initialized ++ List.replicate 3 (.worker 0)

/-- It finds an address and is stopped. -/
def connected : List Act :=
  probing ++ .ifConfig 0 0 sampleIp :: List.replicate 4 (.worker 0) ++
    List.replicate 5 (.gui true) ++ List.replicate 4 (.worker 0) ++ List.replicate 3 (.gui true)

theorem networkWorker_safe_connected :
    ∃ s, (network sampleAton).exec booted connected = some s ∧ s.gui = .stopped .init true ∧
      (∀ i, ¬ s.Alive i) ∧ s.wiiIP ≠ [] := by
  have hrun : ((network sampleAton).exec booted connected).map
      (fun s => (s.gui, s.networkInit)) = some (.stopped .init true, true) := by decide +kernel
  obtain ⟨s, hexec, hs⟩ := Option.map_eq_some_iff.mp hrun
  obtain ⟨hgui, hinit⟩ := Prod.mk.inj hs
  have hreach : (network sampleAton).Reachable (fun _ _ => True) s :=
    (System.Reachable.init rfl).exec (.of_forall (fun _ _ => trivial) _) hexec
  obtain ⟨-, -, -, hstopped, haddress⟩ := networkWorker_safe hreach
  exact ⟨s, hexec, hgui, hstopped _ hgui, (haddress hinit).1⟩

end Sample

end WiiMC.Network
