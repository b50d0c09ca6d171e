import WiiMC.Network.Lifecycle

/-!
# Stranded workers

`StopNetworkThread` stores 2 in `netHalt` and then looks whether the worker is suspended; the worker
reads `netHalt` and then suspends itself. `InitializeNetwork` waits until the worker is suspended or
the user cancels.

* `Careful`: a run in which `StopNetworkThread` does not look while the worker stands between its
  test and `LWP_SuspendThread`, and `InitializeNetwork` is not called while an abandoned worker still
  runs.
* `Unstranded`: the invariant of such a run.
* `careful_unstranded`: an abandoned worker is not suspended and comes to its end, and
  `InitializeNetwork` does not wait for one that has ended.
* `lostWakeup_stranded`: neither holds of every run.
-/

namespace WiiMC.Network

open Transition NetState

variable {inetAton : List UInt8 → Option UInt32} {s t : NetState} {i : ℕ} {answer : Bool}

/-- The steps of a careful run. -/
def Careful (s : NetState) : Act → Prop
  | .gui _ =>
      match s.gui with
      | .stopTest _ => ∀ i ∈ s.networkthread, (s.threads i).pc ≠ .suspend
      | .start .init => s.netThreadAbandoned = true → s.netThreadExited = true
      | _ => True
  | _ => True

/-- Whether a step is careful is decided by the state. -/
instance (s : NetState) (a : Act) : Decidable (Careful s a) := by
  unfold Careful
  split
  · split <;> infer_instance
  · infer_instance

/-- A thread that is not suspended, nor about to be. -/
def Worker.Free (w : Worker) : Prop := w.pc ≠ .suspend ∧ w.suspended = false

/-- A worker that has read that it has to stop, and leaves. -/
def WorkerPc.Ended (pc : WorkerPc) : Prop := pc = .leave ∨ pc.Exited

/-- The GUI is in `StopNetworkThread`, behind `netHalt = 2`. -/
def GuiPc.Stopping : GuiPc → Prop
  | .stopTest _ | .stopResume _ | .stopWait _ _ | .stopCheck _ | .stopJoin _ => True
  | _ => False

/-- It is behind the test for suspension as well. -/
def GuiPc.Waiting : GuiPc → Prop
  | .stopWait _ _ | .stopCheck _ | .stopJoin _ => True
  | _ => False

/-- The GUI has seen that no worker is abandoned. -/
def GuiPc.Attended : GuiPc → Prop
  | .startHalt _ | .startClear _ | .startCreate _ | .startTest _ | .startResume _ | .initWait
  | .initWaitCancel => True
  | _ => False

/-- It is about to create a worker. -/
def GuiPc.Creating : GuiPc → Prop
  | .startClear _ | .startCreate _ => True
  | _ => False

/-- What a careful run keeps of the worker `w`. -/
structure Unstranded (netHalt : ℕ) (abandoned : Bool) (gui : GuiPc) (w : Worker) : Prop where
  parked : w.suspended = true → w.pc = .resumed
  free : abandoned = true ∨ gui.Waiting → netHalt = 2 ∧ w.Free
  stopping : gui.Stopping → netHalt = 2
  resume : ∀ c, gui = .stopResume c → w.suspended = true
  ended : w.pc.Ended → netHalt = 2
  halted : netHalt = 2 → abandoned = true ∨ gui.Stopping

/-- The invariant of a careful run. -/
structure Kept (s : NetState) : Prop where
  attended : s.gui.Attended → s.netThreadAbandoned = false
  creating : s.gui.Creating → s.netHalt ≠ 2
  worker : ∀ i, s.networkthread = some i →
    Unstranded s.netHalt s.netThreadAbandoned s.gui (s.threads i)

/-! ## Steps of the worker -/

section Worker

variable {netHalt : ℕ} {abandoned : Bool} {gui : GuiPc} {w : Worker}

/-- The worker goes on; it is not about to suspend itself once it has read 2. -/
theorem Unstranded.go (hu : Unstranded netHalt abandoned gui w) (hsus : w.suspended = false)
    {pc : WorkerPc} (hpark : pc = .suspend → netHalt ≠ 2) (hend : pc.Ended → netHalt = 2) :
    Unstranded netHalt abandoned gui { w with pc } where
  parked h := by cases hsus.symm.trans h
  free h := ⟨(hu.free h).1, fun hpc => hpark hpc (hu.free h).1, hsus⟩
  stopping := hu.stopping
  resume c hgui := by cases hsus.symm.trans (hu.resume c hgui)
  ended := hend
  halted := hu.halted

/-- The worker suspends itself, which a careful run allows only before `netHalt = 2`. -/
theorem Unstranded.park (hu : Unstranded netHalt abandoned gui w) (hpc : w.pc = .suspend) :
    Unstranded netHalt abandoned gui ⟨.resumed, true⟩ where
  parked _ := rfl
  free h := absurd hpc (hu.free h).2.1
  stopping := hu.stopping
  resume _ _ := rfl
  ended h := by rcases h with h | h | h <;> cases h
  halted := hu.halted

/-- What a step of the worker changes beside its own place. -/
theorem Kept.update (hk : Kept s) {w : Worker} (hi : s.networkthread = some i)
    (hw : Unstranded s.netHalt s.netThreadAbandoned s.gui w) {t : NetState}
    (hthreads : t.threads = Function.update s.threads i w) (hhalt : t.netHalt = s.netHalt)
    (habandoned : t.netThreadAbandoned = s.netThreadAbandoned) (hgui : t.gui = s.gui)
    (hthread : t.networkthread = s.networkthread) : Kept t where
  attended h := habandoned.trans (hk.attended (hgui ▸ h))
  creating h := hhalt.trans_ne (hk.creating (hgui ▸ h))
  worker j hj := by
    obtain rfl : i = j := Option.some.inj (hi.symm.trans (hthread.symm.trans hj))
    rw [hhalt, habandoned, hgui, hthreads, Function.update_self]
    exact hw

/-- A step of a worker keeps the invariant. -/
theorem Kept.workerStep (hk : Kept s) (hsafe : Safe inetAton s)
    (h : workerStep s i = some t) : Kept t := by
  obtain ⟨hsus, hcases⟩ := workerStep_cases h
  have hgo : ∀ (pc : WorkerPc) (hi : s.networkthread = some i), (pc = .suspend → s.netHalt ≠ 2) →
      (pc.Ended → s.netHalt = 2) →
      Unstranded s.netHalt s.netThreadAbandoned s.gui { s.threads i with pc } :=
    fun pc hi hpark hend => (hk.worker i hi).go hsus hpark hend
  rcases hcases with ⟨pc, hmoves, rfl⟩ | ⟨ip, hpc, rfl⟩ | ⟨hpc, rfl⟩ | ⟨hpc, rfl⟩ | ⟨hpc, rfl⟩
  · have hi := hsafe.only i hmoves.alive
    refine hk.update hi (hgo pc hi hmoves.suspend fun hend => ?_) rfl rfl rfl rfl rfl
    rcases hend with hleave | hexited
    · exact hmoves.leave hleave
    · exact (hk.worker i hi).ended (Or.inr (hmoves.exited.mpr hexited))
  · have hi := hsafe.only i (by rw [hpc]; nofun)
    refine hk.update hi (hgo .bringUp hi nofun fun hend => ?_) rfl rfl rfl rfl rfl
    rcases hend with h | h | h <;> cases h
  · have hi := hsafe.only i (by rw [hpc]; nofun)
    refine hk.update hi (hgo .parkTest hi nofun fun hend => ?_) rfl rfl rfl rfl rfl
    rcases hend with h | h | h <;> cases h
  · have halive : (s.threads i).pc ≠ .gone := by rw [hpc]; nofun
    have hi := hsafe.only i halive
    rw [suspendThread_self hi halive]
    refine hk.update hi ((hk.worker i hi).park hpc) ?_ rfl rfl rfl rfl
    simp [goto, Function.update_idem]
  · have hi := hsafe.only i (by rw [hpc]; nofun)
    refine hk.update hi (hgo .leaving hi nofun fun _ => ?_) rfl rfl rfl rfl rfl
    exact (hk.worker i hi).ended (Or.inl hpc)

/-- Behind `if_config` the worker goes on, or suspends itself, and the invariant is kept. -/
theorem Kept.afterIfConfig (hk : Kept s) (hsafe : Safe inetAton s) {retry : ℕ}
    (hpc : s.threads i = ⟨.ifConfig retry, false⟩) (res : ℤ) (ip : IpText) :
    Kept (s.goto i (afterIfConfig inetAton retry res ip)) := by
  have hi := hsafe.only i (by rw [hpc]; nofun)
  refine hk.update hi ((hk.worker i hi).go (by rw [hpc]) ?_ ?_) rfl rfl rfl rfl rfl
  · unfold Network.afterIfConfig
    split_ifs <;> nofun
  · unfold Network.afterIfConfig
    split_ifs <;> rintro (h | h | h) <;> cases h

/-! ## Steps of the GUI -/

/-- A GUI that waits for the worker is stopping it. -/
theorem GuiPc.Waiting.stopping (h : gui.Waiting) : gui.Stopping := by
  cases gui <;> trivial

/-- Outside of `StopNetworkThread` the GUI may go anywhere else outside of it. -/
theorem Unstranded.setGui (hu : Unstranded netHalt abandoned gui w) (hgui : ¬ gui.Stopping)
    {gui' : GuiPc} (hgui' : ¬ gui'.Stopping) : Unstranded netHalt abandoned gui' w where
  parked := hu.parked
  free h := hu.free (Or.inl (h.resolve_right fun hw => hgui' hw.stopping))
  stopping h := absurd h hgui'
  resume _ h := absurd (h ▸ trivial) hgui'
  ended := hu.ended
  halted h := Or.inl ((hu.halted h).resolve_right hgui)

/-- `netHalt = 0`: a worker that is not abandoned has not read 2. -/
theorem Unstranded.release (hu : Unstranded netHalt false gui w) (hgui : ¬ gui.Stopping) :
    Unstranded 0 false gui w where
  parked := hu.parked
  free h := absurd ((h.resolve_left nofun).stopping) hgui
  stopping h := absurd h hgui
  resume := hu.resume
  ended h := absurd (hu.halted (hu.ended h)) (by simpa using hgui)
  halted := nofun

/-- `netHalt = 2`. -/
theorem Unstranded.halt (hu : Unstranded netHalt abandoned gui w) (c : StopCaller) :
    Unstranded 2 abandoned (.stopTest c) w where
  parked := hu.parked
  free h := ⟨rfl, (hu.free (Or.inl (h.resolve_right id))).2⟩
  stopping _ := rfl
  resume _ := nofun
  ended _ := rfl
  halted _ := Or.inr trivial

/-- A GUI that finds the worker suspended is going to resume it. -/
theorem Unstranded.isSuspended {c : StopCaller} (hu : Unstranded netHalt abandoned (.stopTest c) w)
    (hsus : w.suspended = true) : Unstranded netHalt abandoned (.stopResume c) w where
  parked := hu.parked
  free h := hu.free (Or.inl (h.resolve_right id))
  stopping _ := hu.stopping trivial
  resume _ _ := hsus
  ended := hu.ended
  halted _ := Or.inr trivial

/-- A worker that is free when the wait starts. -/
theorem Unstranded.wait (hu : Unstranded netHalt abandoned gui w) (hgui : gui.Stopping)
    (hfree : w.Free) {gui' : GuiPc} (hgui' : gui'.Waiting) :
    Unstranded netHalt abandoned gui' w where
  parked := hu.parked
  free _ := ⟨hu.stopping hgui, hfree⟩
  stopping _ := hu.stopping hgui
  resume _ h := absurd hgui' (h ▸ id)
  ended := hu.ended
  halted _ := Or.inr hgui'.stopping

/-- `LWP_ResumeThread`. -/
theorem Unstranded.wake {c : StopCaller} (hu : Unstranded netHalt abandoned (.stopResume c) w) :
    Unstranded netHalt abandoned (.stopWait c 0) { w with suspended := false } where
  parked := nofun
  free _ := by
    refine ⟨hu.stopping trivial, fun hpc => ?_, rfl⟩
    -- it is suspended, and so behind `LWP_SuspendThread`
    cases hpc.symm.trans (hu.parked (hu.resume c rfl))
  stopping _ := hu.stopping trivial
  resume _ := nofun
  ended := hu.ended
  halted _ := Or.inr trivial

/-- A worker that is resumed is not stranded. -/
theorem Unstranded.rouse (hu : Unstranded netHalt abandoned gui w) (hgui : ¬ gui.Stopping) :
    Unstranded netHalt abandoned gui { w with suspended := false } where
  parked := nofun
  free h := ⟨(hu.free h).1, (hu.free h).2.1, rfl⟩
  stopping := hu.stopping
  resume _ h := absurd (h ▸ trivial) hgui
  ended := hu.ended
  halted := hu.halted

/-- A worker may be given up while it is on its way out. -/
theorem Unstranded.abandon {c : StopCaller} (hu : Unstranded netHalt abandoned (.stopCheck c) w) :
    Unstranded netHalt true (.stopped c false) w where
  parked := hu.parked
  free _ := hu.free (Or.inr trivial)
  stopping := nofun
  resume _ := nofun
  ended := hu.ended
  halted _ := Or.inl rfl

/-- A worker at the top of its loop has somewhere to go, unless it has been halted. -/
theorem unstranded_outer (hhalt : netHalt ≠ 2) (hgui : ¬ gui.Stopping) :
    Unstranded netHalt false gui ⟨.outer, false⟩ where
  parked := nofun
  free h := absurd ((h.resolve_left nofun).stopping) hgui
  stopping h := absurd h hgui
  resume _ h := absurd (h ▸ trivial) hgui
  ended h := by rcases h with h | h | h <;> cases h
  halted h := absurd h hhalt

end Worker

/-- The GUI goes on outside of `StopNetworkThread`. -/
theorem Kept.setGui (hk : Kept s) {gui : GuiPc} (hold : ¬ s.gui.Stopping) (hnew : ¬ gui.Stopping)
    (hattended : gui.Attended → s.netThreadAbandoned = false)
    (hcreating : gui.Creating → s.netHalt ≠ 2) : Kept { s with gui } where
  attended := hattended
  creating := hcreating
  worker i hi := (hk.worker i hi).setGui hold hnew

/-- The GUI goes on with a worker for which the steps above say what is kept. -/
theorem Kept.setWorker {t : NetState} {gui : GuiPc} (hgui : t.gui = gui)
    (hattended : ¬ gui.Attended) (hcreating : ¬ gui.Creating)
    (hworker : ∀ i, t.networkthread = some i →
      Unstranded t.netHalt t.netThreadAbandoned gui (t.threads i)) : Kept t where
  attended h := absurd (hgui ▸ h) hattended
  creating h := absurd (hgui ▸ h) hcreating
  worker i hi := hgui ▸ hworker i hi

/-- Joining forgets the thread, and that it had been given up. -/
theorem joinThread_eq (h : s.joinThread = some t) :
    t = { s with networkthread := none, netThreadAbandoned := false } := by
  rw [NetState.joinThread] at h
  rcases hi : s.networkthread with _ | i <;> rw [hi] at h
  · cases h
  · obtain ⟨-, ⟨⟩⟩ := Option.ite_none_right_eq_some.mp h
    rfl

/-- Behind a join there is no worker that could be stranded. -/
theorem Kept.joined (h : s.joinThread = some t) {gui : GuiPc} (hcreating : ¬ gui.Creating) :
    Kept { t with gui } := by
  rw [joinThread_eq h]
  exact ⟨fun _ => rfl, fun h => absurd h hcreating, nofun⟩

/-- Resuming wakes the worker, and changes nothing else about it. -/
theorem resumeThread_self (hi : s.networkthread = some i) :
    (s.resumeThread s.networkthread).threads i = { s.threads i with suspended := false } := by
  rw [hi]
  exact Function.update_self ..

/-- Behind `StartNetworkThread` the GUI is not in `StopNetworkThread`, and only
`InitializeNetwork` relies on a worker that is not abandoned. -/
theorem startNext_spec (c : StartCaller) :
    ¬ c.next.Stopping ∧ ¬ c.next.Creating ∧ (c.next.Attended → c = .init) := by
  cases c <;> exact ⟨id, id, by simp [StartCaller.next, GuiPc.Attended]⟩

/-- Behind `StopNetworkThread` the GUI is neither stopping nor creating a thread. -/
theorem stopNext_spec (c : StopCaller) :
    ¬ c.next.Stopping ∧ ¬ c.next.Creating ∧ ¬ c.next.Attended := by
  cases c <;> exact ⟨id, id, id⟩

/-- `StartNetworkThread` ends without having done anything. -/
theorem Kept.startNext (hk : Kept s) (c : StartCaller) (hold : ¬ s.gui.Stopping)
    (hattended : c = .init → s.netThreadAbandoned = false) : Kept { s with gui := c.next } := by
  obtain ⟨hstopping, hcreating, hinit⟩ := startNext_spec c
  exact hk.setGui hold hstopping (fun h => hattended (hinit h)) fun h => absurd h hcreating

/-- A step of the GUI between two places that are neither in `StopNetworkThread` nor in
`StartNetworkThread`, nor in the wait of `InitializeNetwork`. -/
theorem Kept.elsewhere (hk : Kept s) {gui : GuiPc} (hold : ¬ s.gui.Stopping) (hnew : ¬ gui.Stopping)
    (hattended : ¬ gui.Attended) (hcreating : ¬ gui.Creating) : Kept { s with gui } :=
  hk.setGui hold hnew (fun h => absurd h hattended) fun h => absurd h hcreating

/-- `StartNetworkThread` makes its test. -/
theorem Kept.startStep (hk : Kept s) {c : StartCaller} (hpc : s.gui = .start c)
    (hok : Careful s (.gui answer)) (h : guiStep s answer = some t) : Kept t := by
  have hold : ¬ s.gui.Stopping := hpc ▸ id
  unfold Careful at hok
  unfold Network.guiStep at h
  rw [hpc] at h hok
  by_cases habandoned : s.netThreadAbandoned = true
  · cases (if_pos habandoned).symm.trans h
    by_cases hexited : s.netThreadExited = true
    · rw [if_pos hexited]
      exact hk.elsewhere hold id id id
    · rw [if_neg hexited]
      refine hk.startNext c hold fun hc => ?_
      subst hc
      exact absurd (hok habandoned) hexited
  · cases (if_neg habandoned).symm.trans h
    exact hk.setGui hold id (fun _ => Bool.eq_false_iff.mpr habandoned) False.elim

/-- `netHalt = 0`, behind which the worker is created or resumed. -/
theorem Kept.startHalt (hk : Kept s) {c : StartCaller} (hpc : s.gui = .startHalt c)
    {gui : GuiPc} (hgui : ¬ gui.Stopping) : Kept { s with netHalt := 0, gui } where
  attended _ := hk.attended (hpc ▸ trivial)
  creating _ := nofun
  worker i hi := by
    have hold : ¬ s.gui.Stopping := hpc ▸ id
    have hu := hk.worker i hi
    rw [hk.attended (hpc ▸ trivial)] at hu ⊢
    exact (hu.release hold).setGui hold hgui

/-- The new worker begins at the top of its loop. -/
theorem Kept.startCreate (hk : Kept s) {c : StartCaller} (hpc : s.gui = .startCreate c) :
    Kept { s.createThread with gui := c.next } := by
  obtain ⟨hstopping, hcreating, -⟩ := startNext_spec c
  have habandoned : s.netThreadAbandoned = false := hk.attended (hpc ▸ trivial)
  refine ⟨fun _ => habandoned, fun h => absurd h hcreating, fun i hi => ?_⟩
  obtain rfl : s.created = i := Option.some.inj hi
  show Unstranded s.netHalt s.netThreadAbandoned c.next
    (Function.update s.threads s.created ⟨.outer, false⟩ s.created)
  rw [Function.update_self, habandoned]
  exact unstranded_outer (hk.creating (hpc ▸ trivial)) hstopping

/-- The worker that was parked is woken. -/
theorem Kept.startResume (hk : Kept s) {c : StartCaller} (hpc : s.gui = .startResume c) :
    Kept { s.resumeThread s.networkthread with gui := c.next } := by
  have hold : ¬ s.gui.Stopping := hpc ▸ id
  obtain ⟨hstopping, hcreating, -⟩ := startNext_spec c
  cases hthread : s.networkthread with
  | none => exact hk.startNext c hold fun _ => hk.attended (hpc ▸ trivial)
  | some i =>
      refine ⟨fun _ => hk.attended (hpc ▸ trivial), fun h => absurd h hcreating, fun j hj => ?_⟩
      obtain rfl : i = j := Option.some.inj (hthread.symm.trans hj)
      show Unstranded s.netHalt s.netThreadAbandoned c.next ((s.resumeThread (some i)).threads i)
      rw [← hthread, resumeThread_self hthread]
      exact ((hk.worker i hthread).rouse hold).setGui hold hstopping

/-- Behind the test for suspension the worker is free, if the run is careful. -/
theorem Kept.stopTest (hk : Kept s) {c : StopCaller} (hpc : s.gui = .stopTest c)
    (hok : Careful s (.gui answer)) (h : guiStep s answer = some t) : Kept t := by
  unfold Careful at hok
  unfold Network.guiStep at h
  rw [hpc] at h hok
  cases h
  by_cases hsus : s.threadIsSuspended s.networkthread = true
  · rw [if_pos hsus]
    refine .setWorker rfl id id fun i hi => ?_
    have hi : s.networkthread = some i := hi
    rw [hi] at hsus
    exact (hpc ▸ hk.worker i hi).isSuspended hsus
  · rw [if_neg hsus]
    refine .setWorker rfl id id fun i hi => ?_
    have hi : s.networkthread = some i := hi
    rw [hi] at hsus
    exact (hk.worker i hi).wait (hpc ▸ trivial) ⟨hok i hi, Bool.eq_false_iff.mpr hsus⟩ trivial

/-- The halted worker is woken, so that it finds out. -/
theorem Kept.stopResume (hk : Kept s) {c : StopCaller} (hpc : s.gui = .stopResume c) :
    Kept { s.resumeThread s.networkthread with gui := .stopWait c 0 } := by
  cases hthread : s.networkthread with
  | none => exact .setWorker rfl id id fun i hi => by cases hthread.symm.trans hi
  | some i =>
      refine .setWorker rfl id id fun j hj => ?_
      obtain rfl : i = j := Option.some.inj (hthread.symm.trans hj)
      show Unstranded s.netHalt s.netThreadAbandoned _ ((s.resumeThread (some i)).threads i)
      rw [← hthread, resumeThread_self hthread]
      exact (hpc ▸ hk.worker i hthread).wake

/-- In the wait the worker stays free. -/
theorem Kept.stopWait (hk : Kept s) (hold : s.gui.Waiting) {gui : GuiPc} (hgui : gui.Waiting) :
    Kept { s with gui } := by
  refine .setWorker rfl ?_ ?_ fun i hi => ?_
  · cases gui <;> first | exact id | cases hgui
  · cases gui <;> first | exact id | cases hgui
  · have hu := hk.worker i hi
    exact hu.wait hold.stopping (hu.free (Or.inr hold)).2 hgui

/-- A step of the GUI keeps the invariant. -/
theorem Kept.guiStep (hk : Kept s) (hok : Careful s (.gui answer))
    (h : guiStep s answer = some t) : Kept t := by
  cases hpc : s.gui
  -- the two tests that decide about the worker, with lemmas of their own
  case start c => exact hk.startStep hpc hok h
  case stopTest c => exact hk.stopTest hpc hok h
  all_goals
    unfold Network.guiStep at h
    rw [hpc] at h
  case menu => cases h
  -- behind a join there is no worker left to strand
  case startJoin c | stopJoin c =>
    obtain ⟨u, hjoin, rfl⟩ := Option.map_eq_some_iff.mp h
    exact .joined hjoin id
  case startHalt c =>
    cases h
    refine hk.startHalt hpc ?_
    split_ifs <;> exact id
  case startClear c =>
    cases h
    have hset : Kept { s with gui := .startCreate c } := hk.setGui (hpc ▸ id) id
      (fun _ => hk.attended (hpc ▸ trivial)) fun _ => hk.creating (hpc ▸ trivial)
    exact ⟨hset.attended, hset.creating, hset.worker⟩
  case startCreate c =>
    cases answer with
    | true =>
        cases h
        exact hk.startCreate hpc
    | false =>
        cases h
        obtain ⟨-, hcreating, -⟩ := startNext_spec c
        exact ⟨fun _ => hk.attended (hpc ▸ trivial), fun h => absurd h hcreating, nofun⟩
  -- a suspended worker is resumed next, another one needs nobody
  case startTest c =>
    cases h
    by_cases hsus : s.threadIsSuspended s.networkthread = true
    · rw [if_pos hsus]
      exact hk.setGui (hpc ▸ id) id (fun _ => hk.attended (hpc ▸ trivial)) False.elim
    · rw [if_neg hsus]
      exact hk.startNext c (hpc ▸ id) fun _ => hk.attended (hpc ▸ trivial)
  case startResume c =>
    cases h
    exact hk.startResume hpc
  case stopHalt c =>
    cases h
    exact .setWorker rfl id id fun i hi => (hk.worker i hi).halt c
  case stopResume c =>
    cases h
    exact hk.stopResume hpc
  case stopWait c n =>
    cases h
    refine hk.stopWait (hpc ▸ trivial) ?_
    split_ifs <;> trivial
  -- the worker has exited, or `StopNetworkThread` gives up waiting for it
  case stopCheck c =>
    by_cases hexited : s.netThreadExited = true
    · cases (if_pos hexited).symm.trans h
      exact hk.stopWait (hpc ▸ trivial) trivial
    · cases (if_neg hexited).symm.trans h
      exact .setWorker rfl id id fun i hi => (hpc ▸ hk.worker i hi).abandon
  case stopped c result =>
    cases h
    obtain ⟨hstopping, hcreating, hattended⟩ := stopNext_spec c
    exact hk.elsewhere (hpc ▸ id) hstopping hattended hcreating
  -- the stages of `InitNetwork` leave the worker alone
  case initWait =>
    cases h
    refine hk.setGui (hpc ▸ id) ?_ (fun _ => hk.attended (hpc ▸ trivial)) fun hc => ?_
    · split_ifs <;> exact id
    · split_ifs at hc <;> cases hc
  case initWaitCancel =>
    cases h
    refine hk.setGui (hpc ▸ id) ?_ (fun _ => hk.attended (hpc ▸ trivial)) fun hc => ?_
    · split_ifs <;> exact id
    · split_ifs at hc <;> cases hc
  case initClear =>
    cases h
    have hset : Kept { s with gui := .initTest } := hk.elsewhere (hpc ▸ id) id id id
    exact ⟨hset.attended, hset.creating, hset.worker⟩
  all_goals
    cases h
    refine hk.elsewhere (hpc ▸ id) ?_ ?_ ?_ <;> first | exact id | (split_ifs <;> exact id)

/-! ## Runs -/

/-- A careful step keeps the invariant. -/
theorem Kept.step (hk : Kept s) (hsafe : Safe inetAton s) {a : Act} (hok : Careful s a)
    (h : networkStep inetAton s a = some t) : Kept t := by
  cases a with
  | worker i => exact hk.workerStep hsafe h
  | ifConfig i res ip =>
      rcases hi : s.threads i with ⟨pc, suspended⟩
      rw [networkStep, hi] at h
      split at h
      · next heq =>
          cases heq
          cases h
          exact hk.afterIfConfig hsafe hi res ip
      · cases h
  | gui answer => exact hk.guiStep hok h
  | callStart | callStop | callBoot | callInit =>
      obtain ⟨hpc, ⟨⟩⟩ := Option.ite_none_right_eq_some.mp h
      exact hk.elsewhere (hpc ▸ id) id id id
  | click | checkMplayerNetwork =>
      cases h
      exact ⟨hk.attended, hk.creating, hk.worker⟩

/-- The invariant holds in every state of a careful run. -/
theorem kept_of_reachable (hs : (network inetAton).Reachable Careful s) : Kept s := by
  refine hs.invariant ?_ fun _ _ _ hreach hk hok hstep => hk.step (safe_of_reachable hreach) hok hstep
  rintro _ rfl
  exact ⟨nofun, nofun, nofun⟩

/-- By its own steps alone the worker gets into `if_config`, or has set `netThreadExited`. -/
def NetState.GetsOut (inetAton : List UInt8 → Option UInt32) (s : NetState) (i : ℕ) : Prop :=
  ∃ n t, (network inetAton).exec s (List.replicate n (.worker i)) = some t ∧
    ((∃ retry, (t.threads i).pc = .ifConfig retry) ∨ (t.threads i).pc.Exited)

/-- A worker gets out if it does so from its next step on. -/
theorem getsOut_of_step (h : workerStep s i = some t) (ht : t.GetsOut inetAton i) :
    s.GetsOut inetAton i := by
  obtain ⟨n, u, hexec, hu⟩ := ht
  refine ⟨n + 1, u, ?_, hu⟩
  rw [List.replicate_succ, System.exec]
  show (workerStep s i).bind _ = _
  rw [h]
  exact hexec

/-- In `if_config` and past the loop there is nothing to prove. -/
theorem getsOut_here (h : (∃ retry, (s.threads i).pc = .ifConfig retry) ∨ (s.threads i).pc.Exited) :
    s.GetsOut inetAton i :=
  ⟨0, s, rfl, h⟩

/-- The worker is at `pc`, able to run, and has to stop. -/
def NetState.HaltedAt (s : NetState) (i : ℕ) (pc : WorkerPc) : Prop :=
  s.netHalt = 2 ∧ s.threads i = ⟨pc, false⟩

/-- A halted worker gets out if it does so from the place where it goes next. -/
theorem getsOut_goto (u : NetState) {pc : WorkerPc} (pc' : WorkerPc)
    (hstep : workerStep s i = some (u.goto i pc'))
    (hu : u.HaltedAt i pc) (hnext : ∀ {t : NetState}, t.HaltedAt i pc' → t.GetsOut inetAton i) :
    s.GetsOut inetAton i := by
  refine getsOut_of_step hstep (hnext ⟨hu.1, ?_⟩)
  rw [goto_threads_self, hu.2]

/-- A halted worker that leaves its loops gets out. -/
theorem getsOut_leave (h : s.HaltedAt i .leave) : s.GetsOut inetAton i :=
  getsOut_goto { s with netThreadExited := true } .leaving (by simp [workerStep, h.2]) h
    fun ht => getsOut_here (Or.inr (Or.inl (by rw [ht.2])))

/-- At the top of the loop it leaves. -/
theorem getsOut_outer (h : s.HaltedAt i .outer) : s.GetsOut inetAton i :=
  getsOut_goto s .leave (by simp [workerStep, h.1, h.2]) h getsOut_leave

/-- At the test in front of the suspension it leaves. -/
theorem getsOut_parkTest (h : s.HaltedAt i .parkTest) : s.GetsOut inetAton i :=
  getsOut_goto s .outer (by simp [workerStep, h.1, h.2]) h getsOut_outer

/-- Between two retries it leaves. -/
theorem getsOut_attempt {retry : ℕ} (h : s.HaltedAt i (.attempt retry)) : s.GetsOut inetAton i :=
  getsOut_goto s .parkTest (by simp [workerStep, h.1, h.2]) h getsOut_parkTest

/-- Before it brings the network up it leaves. -/
theorem getsOut_bringUp (h : s.HaltedAt i .bringUp) : s.GetsOut inetAton i :=
  getsOut_goto { s with networkInit := true } .parkTest (by simp [workerStep, h.2]) h
    getsOut_parkTest

/-- A worker that is free and has to stop is on its way out, or into `if_config`. -/
theorem getsOut_of_free (hhalt : s.netHalt = 2) (hfree : (s.threads i).Free) :
    s.GetsOut inetAton i := by
  obtain ⟨hpark, hsus⟩ := hfree
  rcases hw : s.threads i with ⟨pc, suspended⟩
  rw [hw] at hpark hsus
  obtain rfl : suspended = false := hsus
  have h : s.HaltedAt i pc := ⟨hhalt, hw⟩
  -- From each stage the halted worker comes to its end, or to a call it waits in.
  cases pc with
  | outer => exact getsOut_outer h
  | attempt retry => exact getsOut_attempt h
  | attemptInit retry =>
      cases hinit : s.networkInit with
      | true => exact getsOut_goto s .parkTest (by simp [workerStep, h.2, hinit]) h getsOut_parkTest
      | false =>
          refine getsOut_goto s (.ifConfig retry) (by simp [workerStep, h.2, hinit]) h fun ht => ?_
          exact getsOut_here (Or.inl ⟨retry, by rw [ht.2]⟩)
  | ifConfig retry => exact getsOut_here (Or.inl ⟨retry, by rw [hw]⟩)
  | publish ip =>
      exact getsOut_goto { s with wiiIP := ip.text.take 15 } .bringUp (by simp [workerStep, h.2]) h
        getsOut_bringUp
  | bringUp => exact getsOut_bringUp h
  | backOff retry =>
      exact getsOut_goto s (.attempt retry) (by simp [workerStep, h.1, h.2]) h getsOut_attempt
  | sleeping retry => exact getsOut_goto s (.attempt retry) (by simp [workerStep, h.2]) h getsOut_attempt
  | parkTest => exact getsOut_parkTest h
  | suspend => exact absurd rfl hpark
  | resumed => exact getsOut_goto s .outer (by simp [workerStep, h.2]) h getsOut_outer
  | leave => exact getsOut_leave h
  | leaving => exact getsOut_here (Or.inr (Or.inl (by rw [hw])))
  | gone => exact getsOut_here (Or.inr (Or.inr (by rw [hw])))

/-- The GUI is in the wait of `InitializeNetwork`. -/
def NetState.InWait (s : NetState) : Prop := s.gui = .initWait ∨ s.gui = .initWaitCancel

/-- What ends this wait. -/
def NetState.WaitEnds (s : NetState) : Prop :=
  s.networkthread = none ∨ s.threadIsSuspended s.networkthread = true ∨ s.cancelNetworkInit = true

/-- In a careful run: an abandoned worker is neither suspended nor about to be, and by its own steps
it gets into `if_config`, or to its end; and where `InitializeNetwork` waits for a worker that has
ended, or is suspended, its wait ends. -/
theorem careful_unstranded (hs : (network inetAton).Reachable Careful s)
    (hi : s.networkthread = some i) :
    (s.netThreadAbandoned = true → (s.threads i).Free ∧ s.GetsOut inetAton i) ∧
      (s.InWait → (s.threads i).pc.Exited ∨ (s.threads i).suspended = true → s.WaitEnds) := by
  have hk := kept_of_reachable hs
  have hu := hk.worker i hi
  refine ⟨fun habandoned => ?_, fun hwait hdone => ?_⟩
  · obtain ⟨hhalt, hfree⟩ := hu.free (Or.inl habandoned)
    exact ⟨hfree, getsOut_of_free hhalt hfree⟩
  · rcases hdone with hexited | hsus
    · -- it would have read 2, which nobody has stored
      have hattended : s.gui.Attended := by rcases hwait with h | h <;> rw [h] <;> trivial
      rcases hu.halted (hu.ended (Or.inr hexited)) with habandoned | hstopping
      · cases (hk.attended hattended).symm.trans habandoned
      · rcases hwait with h | h <;> rw [h] at hstopping <;> cases hstopping
    · refine Or.inr (Or.inl ?_)
      rw [hi]
      exact hsus

section Sample

/-- The user cancels while the worker is in `if_config`, and `StopNetworkThread` gives it up. -/
def cancelled : List Act := probing ++ .click :: List.replicate 107 (.gui true)

theorem careful_unstranded_cancelled :
    ∃ s, (network sampleAton).exec booted cancelled = some s ∧ s.netThreadAbandoned = true ∧
      (s.threads 0).Free ∧ s.GetsOut sampleAton 0 := by
  have hrun : ((network sampleAton).exec booted cancelled).map
      (fun s => (s.netThreadAbandoned, s.networkthread)) = some (true, some 0) := by decide +kernel
  obtain ⟨s, hexec, hs⟩ := Option.map_eq_some_iff.mp hrun
  obtain ⟨habandoned, hthread⟩ := Prod.mk.inj hs
  have hreach : (network sampleAton).Reachable Careful s :=
    (System.Reachable.init rfl).exec (by decide +kernel) hexec
  exact ⟨s, hexec, habandoned, (careful_unstranded hreach hthread).1 habandoned⟩

/-- Three attempts fail. The user cancels when the worker has just read that it may suspend itself;
it does so behind the test of `StopNetworkThread`. -/
def lostWakeup : List Act :=
  probing ++ .ifConfig 0 (-1) sampleIp :: List.replicate 4 (.worker 0) ++
    .ifConfig 0 (-1) sampleIp :: List.replicate 4 (.worker 0) ++
    .ifConfig 0 (-1) sampleIp :: List.replicate 3 (.worker 0) ++
    .click :: List.replicate 5 (.gui true) ++ .worker 0 :: List.replicate 102 (.gui true)

/-- The user cancels and tries again, and `if_config` returns with an address. -/
def deadWait : List Act :=
  cancelled ++ List.replicate 3 (.gui true) ++ .callInit :: List.replicate 4 (.gui true) ++
    .ifConfig 0 0 sampleIp :: List.replicate 5 (.worker 0) ++ List.replicate 20 (.gui true)

/-- A worker that is abandoned while it is suspended, and a wait for one that has ended. -/
theorem lostWakeup_stranded :
    (∃ s, (network sampleAton).Reachable (fun _ _ => True) s ∧ s.netThreadAbandoned = true ∧
      s.netHalt = 2 ∧ s.networkthread = some 0 ∧ s.threads 0 = ⟨.resumed, true⟩) ∧
    ∃ s, (network sampleAton).Reachable (fun _ _ => True) s ∧ s.InWait ∧
      s.networkthread = some 0 ∧ (s.threads 0).pc.Exited ∧ ¬ s.WaitEnds := by
  have hok : ∀ as, (network sampleAton).OkAlong (fun _ _ => True) booted as :=
    fun as => .of_forall (P := fun _ => True) (fun _ _ => trivial) booted
  have hlost : ((network sampleAton).exec booted lostWakeup).map
      (fun s => (s.netThreadAbandoned, s.netHalt, s.networkthread, s.threads 0)) =
        some (true, 2, some 0, ⟨.resumed, true⟩) := by decide +kernel
  have hdead : ((network sampleAton).exec booted deadWait).map
      (fun s => (s.gui, s.networkthread, s.threads 0, s.cancelNetworkInit)) =
        some (.initWait, some 0, ⟨.leaving, false⟩, false) := by decide +kernel
  obtain ⟨s, hexec, hs⟩ := Option.map_eq_some_iff.mp hlost
  obtain ⟨t, hexec', ht⟩ := Option.map_eq_some_iff.mp hdead
  obtain ⟨habandoned, hhalt, hthread, hparked⟩ := by simpa only [Prod.mk.injEq] using hs
  obtain ⟨hgui, hthread', hgone, hcancel⟩ := by simpa only [Prod.mk.injEq] using ht
  refine ⟨⟨s, (System.Reachable.init rfl).exec (hok _) hexec, habandoned, hhalt, hthread, hparked⟩,
    t, (System.Reachable.init rfl).exec (hok _) hexec', Or.inl hgui, hthread', ?_, ?_⟩
  · exact Or.inl (by rw [hgone])
  · rintro (h | h | h)
    · cases hthread'.symm.trans h
    · rw [hthread', threadIsSuspended, hgone] at h
      cases h
    · cases hcancel.symm.trans h

end Sample

end WiiMC.Network
