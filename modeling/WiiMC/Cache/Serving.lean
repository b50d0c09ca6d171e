import WiiMC.Cache.Dialogue

/-!
# When a command returns

The cache thread of an enabled stream serves it, or it has been stopped, or it has lost the cache:
`cachearg` was cleared for another stream while the thread was not in `ThreadProc`, so that it
suspends itself again when it is resumed. `cache_do_control` waits for it in each case.

* `Serving`: which of the three, between the functions that stop and start the thread.
* `exists_collect`: a thread that serves the cache comes to take a command away.
* `cacheDoControl_returns_iff`: a call returns exactly if the thread serves the cache when it begins.
-/

namespace WiiMC.Cache

open Transition CacheSys

variable {src : Source} {r : Rounding} {s t : CacheSys} {a : ℕ} {o : Chance}

/-! ## What the thread is doing -/

/-- The player is not about to stop the thread or to start it. -/
def PlayerPc.settled : PlayerPc → Bool
  | .idle | .post _ _ | .send _ _ | .wait _ _ | .collect _ _ | .prefill | .uninit | .pauseStop =>
      true
  | _ => false

/-- The thread is on its way to `ThreadProc`, if it finds a cache. -/
def CthreadPc.enters : CthreadPc → Bool
  | .resumed | .call => true
  | _ => false

namespace CacheSys

/-- The thread is in `ThreadProc` with a cache, or finds one in `cachearg` on its way there. -/
def AtWork (s : CacheSys) : Prop :=
  s.cthread.address.isSome = true ∨ s.cthread.enters = true ∧ s.cachearg.isSome = true

/-- The thread has not been stopped, and is at work. -/
def Served (s : CacheSys) : Prop := s.stop = false ∧ s.suspended = false ∧ s.AtWork

/-- The thread has no cache, and finds none. -/
def Lost (s : CacheSys) : Prop := s.cthread.address = none ∧ s.cachearg = none

/-- The thread of an enabled stream is suspended, if it has been stopped; otherwise it serves the
stream or has lost the cache. -/
def Serving (s : CacheSys) : Prop :=
  s.file.cachePid = true → s.player.settled = true →
    s.stop = true ∧ s.suspended = true ∨ s.Served ∨ s.stop = false ∧ s.Lost

end CacheSys

theorem CacheSys.Serving.congr (h : s.Serving)
    (hpid : t.file.cachePid = true → s.file.cachePid = true) (hplayer : s.player.settled = true)
    (hstop : t.stop = s.stop) (hsuspended : t.suspended = s.suspended)
    (hcthread : t.cthread = s.cthread) (hcachearg : t.cachearg = s.cachearg) : t.Serving := by
  intro hset _
  rw [Served, AtWork, Lost, hstop, hsuspended, hcthread, hcachearg]
  exact h (hpid hset) hplayer

/-- The thread is resumed: it will find a cache, or not. -/
theorem serving_of_resumed (hstop : s.stop = false) (hawake : s.suspended = false)
    (hcthread : s.cthread = .resumed) : s.Serving := by
  intro _ _
  right
  rw [Served, AtWork, Lost, hcthread]
  cases s.cachearg with
  | none => exact Or.inr ⟨hstop, rfl, rfl⟩
  | some a => exact Or.inl ⟨hstop, hawake, Or.inr ⟨rfl, rfl⟩⟩

/-! ## A thread at work -/

/-- How many steps of a thread at work there are before it takes a command away. -/
def CthreadPc.duty : CthreadPc → ℕ
  | .suspend => 0
  | .answer _ _ => 2
  | .flush _ => 3
  | .serve _ => 4
  | .test _ => 5
  | .times _ => 6
  | .execute _ => 7
  | .fillRead _ _ => 8
  | .fill _ => 9
  | .stopTest _ | .call => 10
  | .resumed => 11

/-- A step of a thread that stays at work brings it nearer to the place where it takes a command
away, or leaves the cache without one. -/
structure Nearer (s t : CacheSys) : Prop where
  awake : t.suspended = false
  atWork : t.AtWork
  duty : t.cthread.duty < s.cthread.duty ∨
    ∃ a, s.cthread.address = some a ∧ ∀ b ∈ t.blocks a, b.control = none

/-- A step inside of `ThreadProc`. -/
theorem Nearer.of_duty (hawake : t.suspended = false) (haddress : t.cthread.address.isSome = true)
    (hduty : t.cthread.duty < s.cthread.duty) : Nearer s t :=
  ⟨hawake, Or.inl haddress, Or.inl hduty⟩

/-- `cache_fill` to the read of the stream. -/
theorem Lent.nearer_fill (hl : Lent s) (hawake : s.suspended = false)
    (hpc : s.cthread = .fill (some a)) : Nearer s (s.fillStep r a o) := by
  obtain ⟨b, c, hb, hc⟩ := hl.at_work (a := a) (by rw [hpc]; rfl)
  rw [fillStep, touch_of_blocks hb hc]
  refine .of_duty hawake ?_ ?_
  · simp only
    split <;> rfl
  · rw [hpc]
    simp only
    split <;> simp [CthreadPc.duty]

/-- `cache_fill` from the read of the stream on. -/
theorem Lent.nearer_fillRead (hl : Lent s) (hawake : s.suspended = false) {plan : FillPlan}
    (hpc : s.cthread = .fillRead a plan) : Nearer s (s.fillReadStep src r a plan o) := by
  obtain ⟨b, c, hb, hc⟩ := hl.at_work (a := a) (by rw [hpc]; rfl)
  rw [fillReadStep, touch_of_blocks hb hc]
  exact .of_duty hawake rfl (by rw [hpc]; exact Nat.lt_succ_self 7)

/-- `cache_execute_control` to the timer. -/
theorem Lent.nearer_execute (hl : Lent s) (hawake : s.suspended = false)
    (hpc : s.cthread = .execute (some a)) : Nearer s (s.executeStep a) := by
  obtain ⟨b, c, hb, hc⟩ := hl.at_work (a := a) (by rw [hpc]; rfl)
  rw [executeStep, touch_of_blocks hb hc]
  simp only
  split_ifs
  · exact .of_duty hawake rfl (by rw [hpc]; simp [CthreadPc.duty])
  · exact .of_duty hawake rfl (by rw [hpc]; exact Nat.lt_succ_self 6)

/-- The times. -/
theorem Lent.nearer_times (hl : Lent s) (hawake : s.suspended = false)
    (hpc : s.cthread = .times a) : Nearer s (s.timesStep a o) := by
  obtain ⟨b, c, callback, hb, hc, hcallback⟩ :=
    hl.called (a := a) (by rw [hpc]; rfl) (by rw [hpc]; rfl)
  rw [timesStep, touch_of_blocks hb hc]
  simp only [hcallback]
  split_ifs
  · exact .of_duty hawake rfl (by rw [hpc]; exact Nat.lt_succ_self 5)
  · exact .of_duty hawake rfl (by rw [hpc]; exact Nat.lt_succ_self 5)

/-- The test finds a command, or there is none. -/
theorem Lent.nearer_test (hl : Lent s) (hawake : s.suspended = false) (hpc : s.cthread = .test a) :
    Nearer s (s.touch a fun b _ =>
      { s with cthread := if b.control.isNone then .stopTest a else .serve a }) := by
  have ha : s.cthread.address = some a := by rw [hpc]; rfl
  obtain ⟨b, c, hb, hc⟩ := hl.at_work ha
  rw [touch_of_blocks hb hc]
  by_cases hnone : b.control.isNone = true
  · rw [if_pos hnone]
    refine ⟨hawake, Or.inl rfl, Or.inr ⟨a, ha, ?_⟩⟩
    intro b' hb'
    rw [Option.mem_def, hb] at hb'
    cases hb'
    exact Option.isNone_iff_eq_none.mp hnone
  · rw [if_neg hnone]
    exact .of_duty hawake rfl (by rw [hpc]; exact Nat.lt_succ_self 4)

/-- The switch. -/
theorem Lent.nearer_serve (hl : Lent s) (hawake : s.suspended = false)
    (hpc : s.cthread = .serve a) : Nearer s (s.serveStep a o) := by
  obtain ⟨b, c, callback, hb, hc, hcallback⟩ :=
    hl.called (a := a) (by rw [hpc]; rfl) (by rw [hpc]; rfl)
  have hanswer : (CthreadPc.answer a false).duty < s.cthread.duty := by
    rw [hpc]
    simp [CthreadPc.duty]
  rw [serveStep, touch_of_blocks hb hc]
  cases hcontrol : b.control with
  | none => exact .of_duty hawake rfl hanswer
  | some cmd =>
    cases hf : cmd.field with
    | none =>
      simp only [hf]
      exact .of_duty hawake rfl hanswer
    | some f =>
      simp only [hf, hcallback]
      split_ifs
      · exact .of_duty hawake rfl (by rw [hpc]; exact Nat.lt_succ_self 3)
      · exact .of_duty hawake rfl hanswer

/-- The cache starts again at another place. -/
theorem Lent.nearer_flush (hl : Lent s) (hawake : s.suspended = false)
    (hpc : s.cthread = .flush a) : Nearer s (s.flushStep a) := by
  obtain ⟨b, c, hb, hc⟩ := hl.at_work (a := a) (by rw [hpc]; rfl)
  rw [flushStep, touch_of_blocks hb hc]
  exact .of_duty hawake rfl (by rw [hpc]; exact Nat.lt_succ_self 2)

/-- The command is taken away. -/
theorem Lent.nearer_answer (hl : Lent s) (hawake : s.suspended = false)
    (hpc : s.cthread = .answer a false) :
    Nearer s (s.touch a fun b _ =>
      { s.store a { b with control := none } with
        cthread := if false then .suspend else .stopTest a }) := by
  have ha : s.cthread.address = some a := by rw [hpc]; rfl
  obtain ⟨b, c, hb, hc⟩ := hl.at_work ha
  rw [touch_of_blocks hb hc]
  refine ⟨hawake, Or.inl rfl, Or.inr ⟨a, ha, ?_⟩⟩
  intro b' hb'
  change b' ∈ (s.store a _).blocks a at hb'
  rw [store_blocks_self] at hb'
  cases hb'
  rfl

/-- A thread that serves the cache goes on to do so, wherever it is. -/
theorem nearer_cthreadStep (hl : Lent s) (hk : Talk s) (hpid : s.file.cachePid = true)
    (hs : s.Served) (hstep : s.cthreadStep src r o = some t) : Nearer s t := by
  obtain ⟨hstop, hawake, hwork⟩ := hs
  unfold CacheSys.cthreadStep at hstep
  rw [if_neg (by rw [hawake]; exact Bool.false_ne_true)] at hstep
  -- Along the loop every stage is one nearer to the answer, and its end leads to its start.
  cases hpc : s.cthread with
  -- a thread at work does not come here
  | suspend =>
    rw [AtWork, hpc] at hwork
    rcases hwork with hnone | ⟨hnone, -⟩ <;> cases hnone
  | resumed =>
    rw [AtWork, hpc] at hwork
    rcases hwork with hnone | ⟨-, hsome⟩
    · cases hnone
    · rw [hpc, hsome] at hstep
      cases hstep
      exact ⟨hawake, Or.inr ⟨rfl, hsome⟩, Or.inl (by rw [hpc]; exact Nat.lt_succ_self 10)⟩
  | call =>
    rw [AtWork, hpc] at hwork
    rcases hwork with hnone | ⟨-, hsome⟩
    · cases hnone
    · rw [hpc] at hstep
      cases hstep
      exact .of_duty hawake hsome (by rw [hpc]; exact Nat.lt_succ_self 9)
  | fill arg =>
    rw [hpc] at hstep
    cases arg with
    | none =>
      rw [AtWork, hpc] at hwork
      rcases hwork with hnone | ⟨hnone, -⟩ <;> cases hnone
    | some a => exact Option.some.inj hstep ▸ hl.nearer_fill hawake hpc
  | fillRead a plan =>
    rw [hpc] at hstep
    exact Option.some.inj hstep ▸ hl.nearer_fillRead hawake hpc
  | execute arg =>
    rw [hpc] at hstep
    cases arg with
    | none =>
      rw [AtWork, hpc] at hwork
      rcases hwork with hnone | ⟨hnone, -⟩ <;> cases hnone
    | some a => exact Option.some.inj hstep ▸ hl.nearer_execute hawake hpc
  | times a =>
    rw [hpc] at hstep
    exact Option.some.inj hstep ▸ hl.nearer_times hawake hpc
  | test a =>
    rw [hpc] at hstep
    exact Option.some.inj hstep ▸ hl.nearer_test hawake hpc
  | serve a =>
    rw [hpc] at hstep
    exact Option.some.inj hstep ▸ hl.nearer_serve hawake hpc
  | flush a =>
    rw [hpc] at hstep
    exact Option.some.inj hstep ▸ hl.nearer_flush hawake hpc
  -- nothing sends -2, so the thread goes on
  | answer a quit =>
    cases quit with
    | true => exact absurd hpc (hk.quit hpid a)
    | false =>
      rw [hpc] at hstep
      exact Option.some.inj hstep ▸ hl.nearer_answer hawake hpc
  | stopTest a =>
    rw [hpc, hstop] at hstep
    cases hstep
    exact .of_duty hawake rfl (by rw [hpc]; exact Nat.lt_succ_self 9)

/-! ## A thread that has lost the cache -/

/-- It does not come to have one again, and changes none. -/
theorem CacheSys.Lost.cthreadStep (h : s.Lost) (hstep : s.cthreadStep src r o = some t) :
    t.Lost ∧ t.stop = s.stop ∧ t.blocks = s.blocks ∧ t.file = s.file ∧ t.player = s.player := by
  obtain ⟨haddress, hcachearg⟩ := h
  have hawake := awake_of_cthreadStep hstep
  unfold CacheSys.cthreadStep at hstep
  rw [if_neg (by rw [hawake]; exact Bool.false_ne_true)] at hstep
  cases hpc : s.cthread with
  | suspend | resumed | call =>
    rw [hpc] at hstep
    cases hstep
    refine ⟨⟨?_, hcachearg⟩, rfl, rfl, rfl, rfl⟩
    simp [hcachearg, CthreadPc.address]
  | fill arg | execute arg =>
    cases arg with
    | none =>
      rw [hpc] at hstep
      cases hstep
      exact ⟨⟨rfl, hcachearg⟩, rfl, rfl, rfl, rfl⟩
    | some a =>
      rw [hpc] at haddress
      cases haddress
  | _ =>
    rw [hpc] at haddress
    cases haddress

/-! ## Every run -/

/-- A step of the player inside of one of its functions. -/
theorem serving_playerStep (hl : Lent s) (h : s.Serving) (hstep : s.playerStep = some t) :
    t.Serving := by
  have hstage := hl.stage
  unfold CacheSys.playerStep at hstep
  cases hplayer : s.player with
  | idle | enableCopy | prefill | paused =>
    rw [hplayer] at hstep
    cases hstep
  | post cmd given | send cmd given =>
    simp only [Stage, hplayer] at hstage
    obtain ⟨a, b, ha, hb, -⟩ := hl.data hstage
    simp only [hplayer, touchData_of_blocks ha hb] at hstep
    cases hstep
    exact h.congr id (by rw [hplayer]; rfl) rfl rfl rfl rfl
  | wait cmd given =>
    simp only [Stage, hplayer] at hstage
    obtain ⟨a, b, ha, hb, -⟩ := hl.data hstage
    simp only [hplayer, ha, hb] at hstep
    split_ifs at hstep
    cases hstep
    exact h.congr id (by rw [hplayer]; rfl) rfl rfl rfl rfl
  | collect cmd given =>
    simp only [Stage, hplayer] at hstage
    obtain ⟨a, b, ha, hb, -⟩ := hl.data hstage
    simp only [hplayer, collectStep, touchData_of_blocks ha hb] at hstep
    cases hstep
    split_ifs <;> exact h.congr id (by rw [hplayer]; rfl) rfl rfl rfl rfl
  -- the stores of `cachearg` and of the flag come before the resumption
  | enableResume =>
    simp only [Stage, hplayer] at hstage
    simp only [hplayer] at hstep
    cases hstep
    exact serving_of_resumed hstage.2.1 rfl (hl.parked hstage.2.2)
  | pauseResume =>
    simp only [Stage, hplayer] at hstage
    simp only [hplayer] at hstep
    cases hstep
    exact serving_of_resumed hstage.2.1 rfl (hl.parked hstage.2.2)
  -- a stream that is freed has given up its `cache_pid`
  | uninitStream =>
    simp only [Stage, hplayer] at hstage
    intro hpid
    have hfree : t.file.cachePid = s.file.cachePid := by
      simp only [hplayer] at hstep
      split at hstep
      · cases hstep
        rfl
      · split at hstep <;> cases hstep <;> rfl
    rw [hfree, hstage.1] at hpid
    cases hpid
  | uninitFree a =>
    simp only [Stage, hplayer] at hstage
    simp only [hplayer] at hstep
    cases hstep
    intro hpid
    change s.file.cachePid = true at hpid
    rw [hstage.1] at hpid
    cases hpid
  | uninit =>
    simp only [hplayer] at hstep
    cases hstep
    intro _ hset
    split_ifs at hset <;> cases hset
  -- while the thread is being stopped nothing is promised
  | enableWait | uninitWait | pauseWait =>
    simp only [hplayer] at hstep
    split_ifs at hstep
    cases hstep
    intro _ hset
    cases hset
  | enableStop | enableArg | enableGo | enablePid | uninitClear | pauseStop | pauseGo =>
    simp only [hplayer] at hstep
    cases hstep
    intro _ hset
    cases hset

/-- A step of the cache thread. -/
theorem serving_cthreadStep (hl : Lent s) (hk : Talk s) (h : s.Serving)
    (hstep : s.cthreadStep src r o = some t) : t.Serving := by
  have hm := cthreadStep_moves hl hstep
  intro hpid hsettled
  rw [hm.file] at hpid
  rw [hm.player] at hsettled
  rcases h hpid hsettled with ⟨-, hsuspended⟩ | hserved | ⟨hstop, hlost⟩
  · rw [hm.awake] at hsuspended
    cases hsuspended
  · have hnearer := nearer_cthreadStep hl hk hpid hserved hstep
    exact Or.inr (Or.inl ⟨hm.stop.trans hserved.1, hnearer.awake, hnearer.atWork⟩)
  · obtain ⟨hlost', hstop', -⟩ := hlost.cthreadStep hstep
    exact Or.inr (Or.inr ⟨hstop'.trans hstop, hlost'⟩)

/-- Another stream is freed: a thread that is not in `ThreadProc` loses the cache. -/
theorem serving_forget (h : s.Serving) : ({ s with cachearg := none } : CacheSys).Serving := by
  intro hpid hsettled
  rcases h hpid hsettled with hstopped | ⟨hstop, hawake, haddress | ⟨henters, -⟩⟩ | ⟨hstop, hlost⟩
  · exact Or.inl hstopped
  · exact Or.inr (Or.inl ⟨hstop, hawake, Or.inl haddress⟩)
  · refine Or.inr (Or.inr ⟨hstop, ?_, rfl⟩)
    change s.cthread.address = none
    cases hpc : s.cthread <;> rw [hpc] at henters <;> first | rfl | cases henters
  · exact Or.inr (Or.inr ⟨hstop, hlost.1, rfl⟩)

/-- The stream is not being served while its cache is set up. -/
theorem serving_malloc (hl : Lent s) {ok : Bool}
    (hstep : cacheSysStep src r s (.malloc ok) = some t) : t.Serving := by
  simp only [cacheSysStep] at hstep
  split at hstep
  · next a hplayer =>
    have hstage := hl.stage
    simp only [Stage, hplayer] at hstage
    cases hstep
    intro hpid
    have hsame : (s.copyStream a ok).file.cachePid = s.file.cachePid := by
      unfold copyStream
      split_ifs
      · split <;> rfl
      · rfl
    rw [hsame, hstage.1] at hpid
    cases hpid
  · cases hstep

/-- The GUI resumes the player, or has it quit. -/
theorem serving_gui (hl : Lent s) {resumes : Bool}
    (hstep : cacheSysStep src r s (.gui resumes) = some t) : t.Serving := by
  simp only [cacheSysStep] at hstep
  have hstage := hl.stage
  split_ifs at hstep with hplayer hresumes
  · cases hstep
    intro _ hset
    cases hset
  · cases hstep
    simp only [Stage, hplayer] at hstage
    exact fun _ _ => Or.inl hstage.2

/-- `cache_do_control` is called. -/
theorem serving_control (hl : Lent s) (h : s.Serving) {cmd : Ctrl} {given : CtrlArgs}
    (hstep : cacheSysStep src r s (.control cmd given) = some t) : t.Serving := by
  simp only [cacheSysStep, begins] at hstep
  split_ifs at hstep with hplayer
  have hsettled : s.player.settled = true := by rw [hplayer]; rfl
  cases hstep
  unfold beginControl
  split
  · exact h.congr id hsettled rfl rfl rfl rfl
  · split_ifs with hpid
    · exact h.congr id hsettled rfl rfl rfl rfl
    · obtain ⟨a, b, ha, hb, -⟩ := hl.data hpid
      rw [touchData_of_blocks ha hb]
      split <;> exact h.congr id hsettled rfl rfl rfl rfl
    · exact h.congr id hsettled rfl rfl rfl rfl

/-- A step of the whole. -/
theorem serving_step (hs : (cacheThread src r).Reachable NoQuit s) (h : s.Serving) {act : CacheAct}
    (hstep : cacheSysStep src r s act = some t) : t.Serving := by
  have hl := lent_of_reachable hs
  cases act with
  | openStream stream callback =>
    simp only [cacheSysStep, begins] at hstep
    split_ifs at hstep
    cases hstep
    exact fun hset => by cases hset
  -- the stages outside a stop keep what the thread serves
  | enable a memory size sector seekLimit =>
    simp only [cacheSysStep] at hstep
    split_ifs at hstep with hplayer
    have hsettled : s.player.settled = true := by rw [hplayer]; rfl
    unfold CacheSys.enable at hstep
    split_ifs at hstep
    split at hstep <;> cases hstep
    · exact h.congr id hsettled rfl rfl rfl rfl
    · exact h.congr id hsettled rfl rfl rfl rfl
  | malloc ok => exact serving_malloc hl hstep
  | prefilled ok =>
    simp only [cacheSysStep] at hstep
    split_ifs at hstep with hplayer hok
    all_goals
      cases hstep
      exact h.congr id (by rw [hplayer]; rfl) rfl rfl rfl rfl
  | uninit | pause =>
    simp only [cacheSysStep, begins] at hstep
    split_ifs at hstep with hplayer
    cases hstep
    exact h.congr id (by rw [hplayer]; rfl) rfl rfl rfl rfl
  | gui resumes => exact serving_gui hl hstep
  | control cmd given => exact serving_control hl h hstep
  | move pos eof =>
    simp only [cacheSysStep, begins] at hstep
    split_ifs at hstep with hpid hplayer
    obtain ⟨a, b, ha, hb, -⟩ := hl.data hpid
    cases hstep
    rw [touchData_of_blocks ha hb]
    exact h.congr id (by rw [hplayer]; rfl) rfl rfl rfl rfl
  -- without `cachearg` the thread serves nobody, and `Serving` asks nothing of it
  | uninitOther status =>
    cases hstep
    cases status with
    | false => exact serving_forget h
    | true => exact h
  | player => exact serving_playerStep hl h hstep
  | cthread o => exact serving_cthreadStep hl (talk_of_reachable hs) h hstep

/-- The thread serves an enabled stream, has been stopped or has lost the cache. -/
theorem serving_of_reachable (hs : (cacheThread src r).Reachable NoQuit s) : s.Serving := by
  apply hs.invariant (I := Serving)
  · rintro s ⟨-, -, -, -, -, hpid, -⟩ hset
    rw [hpid] at hset
    cases hset
  · intro s act t hs h _ hstep
    exact serving_step hs h hstep

/-! ## A command -/

/-- A thread that is not suspended has a step. -/
theorem exists_cthreadStep (src : Source) (r : Rounding) (hawake : s.suspended = false)
    (o : Chance) : ∃ t, s.cthreadStep src r o = some t := by
  unfold CacheSys.cthreadStep
  rw [if_neg (by rw [hawake]; exact Bool.false_ne_true)]
  cases s.cthread with
  | fill arg => cases arg <;> exact ⟨_, rfl⟩
  | execute arg => cases arg <;> exact ⟨_, rfl⟩
  | _ => exact ⟨_, rfl⟩

/-- A device that answers, and whose times are not asked for. -/
def calm : Chance := ⟨⟨.bytes 65536, true⟩, false, ⟨0, 0, ⟨0, 0, []⟩⟩⟩

/-- The player goes on once the thread has taken the command away. -/
theorem exec_collect {cmd : Ctrl} {given : CtrlArgs} (hplayer : s.player = .wait cmd given)
    {b : CacheBlock} (ha : s.file.cacheData = some a) (hb : s.blocks a = some b)
    (hnone : b.control = none) :
    (cacheThread src r).exec s [.player] = some { s with player := .collect cmd given } := by
  change (s.playerStep).bind some = _
  simp only [CacheSys.playerStep, hplayer, ha, hb, hnone, Option.isNone_none, if_true,
    Option.bind_some]

/-- A thread that serves the cache takes the command away. -/
theorem exists_collect {cmd : Ctrl} {given : CtrlArgs}
    (hs : (cacheThread src r).Reachable NoQuit s) (hplayer : s.player = .wait cmd given)
    (hserved : s.Served) :
    ∃ as t, (cacheThread src r).exec s as = some t ∧ t.player = .collect cmd given := by
  -- The induction is on the thread's way to the answer; the thread alone makes the steps.
  induction hduty : s.cthread.duty using Nat.strong_induction_on generalizing s with
  | _ n ih =>
    have hl := lent_of_reachable hs
    have hk := talk_of_reachable hs
    have hpid := (hk.command cmd (by rw [hplayer]; rfl)).2.1
    obtain ⟨t, hstep⟩ := exists_cthreadStep src r hserved.2.1 calm
    have ht : (cacheThread src r).Reachable NoQuit t :=
      hs.step (a := CacheAct.cthread calm) trivial hstep
    have hm := cthreadStep_moves hl hstep
    have hplayer' : t.player = .wait cmd given := hm.player.trans hplayer
    have hnearer := nearer_cthreadStep hl hk hpid hserved hstep
    have hthen : ∀ {as u}, (cacheThread src r).exec t as = some u →
        (cacheThread src r).exec s (.cthread calm :: as) = some u := by
      intro as u hexec
      change (s.cthreadStep src r calm).bind _ = _
      rw [hstep]
      exact hexec
    rcases hnearer.duty with hless | ⟨a, ha, hnone⟩
    · obtain ⟨as, u, hexec, hu⟩ := ih _ (hduty ▸ hless) ht hplayer'
        ⟨hm.stop.trans hserved.1, hnearer.awake, hnearer.atWork⟩ rfl
      exact ⟨_, u, hthen hexec, hu⟩
    -- it has answered, so the player can collect
    · have hmine : t.file.cacheData = some a := by
        rw [hm.file]
        exact hk.mine hpid a ha
      obtain ⟨b, hb⟩ := Option.isSome_iff_exists.mp ((lent_of_reachable ht).present a hmine)
      exact ⟨_, _, hthen (exec_collect hplayer' hmine hb (hnone b hb)), rfl⟩

/-- A command that nobody takes away: it is stored, and nothing more happens. -/
def Forsaken (cmd : Ctrl) (given : CtrlArgs) (s : CacheSys) : Prop :=
  (s.suspended = true ∨ s.Lost) ∧ (∃ a b, s.file.cacheData = some a ∧ s.blocks a = some b ∧
    (s.player = .post cmd given ∨ s.player = .send cmd given ∨
      s.player = .wait cmd given ∧ b.control.isSome = true))

/-- The player stores the command, and waits. -/
theorem forsaken_playerStep {cmd : Ctrl} {given : CtrlArgs} (h : Forsaken cmd given s)
    (hstep : s.playerStep = some t) : Forsaken cmd given t := by
  obtain ⟨hnobody, a, b, ha, hb, hplayer⟩ := h
  rw [CacheSys.playerStep] at hstep
  rcases hplayer with hpc | hpc | ⟨hpc, hset⟩
  · simp only [hpc, touchData_of_blocks ha hb] at hstep
    cases hstep
    exact ⟨hnobody, a, _, ha, store_blocks_self _ _ _, Or.inr (Or.inl rfl)⟩
  · simp only [hpc, touchData_of_blocks ha hb] at hstep
    cases hstep
    exact ⟨hnobody, a, _, ha, store_blocks_self _ _ _, Or.inr (Or.inr ⟨rfl, rfl⟩)⟩
  · simp only [hpc, ha, hb] at hstep
    rw [if_neg (by rw [Option.isNone_iff_eq_none, ← ne_eq, Option.ne_none_iff_isSome]; exact hset)]
      at hstep
    cases hstep

/-- Nobody comes to take the command away. -/
theorem forsaken_step {cmd : Ctrl} {given : CtrlArgs} {act : CacheAct}
    (h : Forsaken cmd given s) (hstep : (cacheThread src r).step s act = some t) :
    Forsaken cmd given t := by
  -- The player waits, so none of its choices is open.
  have hidle : s.player ≠ .idle ∧ s.player ≠ .prefill ∧ s.player ≠ .paused ∧
      ∀ a, s.player ≠ .enableCopy a := by
    obtain ⟨-, a, b, -, -, hplayer⟩ := h
    rcases hplayer with hpc | hpc | ⟨hpc, -⟩ <;> rw [hpc] <;>
      exact ⟨nofun, nofun, nofun, fun _ => nofun⟩
  change cacheSysStep src r s act = some t at hstep
  cases act with
  -- the suspended thread makes no step; the lost one goes to its suspension
  | cthread o =>
    obtain ⟨hsuspended | hlost, hstored⟩ := h
    · simp only [cacheSysStep, CacheSys.cthreadStep, hsuspended, if_true] at hstep
      cases hstep
    · obtain ⟨hlost', -, hblocks, hfile, hplayer⟩ := hlost.cthreadStep hstep
      rw [Forsaken, hblocks, hfile, hplayer]
      exact ⟨Or.inr hlost', hstored⟩
  | player => exact forsaken_playerStep h hstep
  | uninitOther status =>
    cases hstep
    cases status with
    | false => exact ⟨h.1.imp id fun hlost => ⟨hlost.1, rfl⟩, h.2⟩
    | true => exact h
  | malloc ok =>
    simp only [cacheSysStep] at hstep
    split at hstep
    · next a heq => exact absurd heq (hidle.2.2.2 a)
    · cases hstep
  | prefilled ok => simp [cacheSysStep, hidle] at hstep
  | gui resumes => simp [cacheSysStep, hidle] at hstep
  | _ => simp [cacheSysStep, begins, hidle] at hstep

/-- A call of `cache_do_control` can come out of its wait exactly if the thread serves the cache
when it begins. It never does if `PauseAndGotoGUI` has left the thread suspended, or has resumed it
without a cache, because another stream had been freed in the meantime. -/
theorem cacheDoControl_returns_iff {cmd : Ctrl} {given : CtrlArgs}
    (hs : (cacheThread src r).Reachable NoQuit s) (hplayer : s.player = .post cmd given) :
    (∃ as t, (cacheThread src r).exec s as = some t ∧ t.player = .collect cmd given) ↔
      s.Served := by
  have hl := lent_of_reachable hs
  have hk := talk_of_reachable hs
  have hpid := (hk.command cmd (by rw [hplayer]; rfl)).2.1
  obtain ⟨a, b, ha, hb, -⟩ := hl.data hpid
  constructor
  · rintro ⟨as, t, hexec, ht⟩
    by_contra hunserved
    have hnobody : s.suspended = true ∨ s.Lost := by
      rcases serving_of_reachable hs hpid (by rw [hplayer]; rfl) with ⟨-, hsuspended⟩ | hserved |
        ⟨-, hlost⟩
      · exact Or.inl hsuspended
      · exact absurd hserved hunserved
      · exact Or.inr hlost
    obtain ⟨-, a', b', -, -, hpc⟩ := (System.During.never
      (fun _ _ _ h hstep => forsaken_step h hstep)
      ⟨hnobody, a, b, ha, hb, Or.inl hplayer⟩ as).last hexec
    rw [ht] at hpc
    rcases hpc with hpc | hpc | ⟨hpc, -⟩ <;> cases hpc
  · intro hserved
    -- the argument and the command are stored
    obtain ⟨s₁, hpost, hplayer₁, ha₁, hb₁, hserved₁⟩ : ∃ s₁, s.playerStep = some s₁ ∧
        s₁.player = .send cmd given ∧ s₁.file.cacheData = some a ∧
        s₁.blocks a = some (storeArgs cmd b given) ∧ s₁.Served := by
      refine ⟨_, by simp only [CacheSys.playerStep, hplayer]; rfl, ?_⟩
      rw [touchData_of_blocks ha hb]
      exact ⟨rfl, ha, store_blocks_self _ _ _, hserved⟩
    obtain ⟨s₂, hsend, hplayer₂, hserved₂⟩ : ∃ s₂, s₁.playerStep = some s₂ ∧
        s₂.player = .wait cmd given ∧ s₂.Served := by
      refine ⟨_, by simp only [CacheSys.playerStep, hplayer₁]; rfl, ?_⟩
      rw [touchData_of_blocks ha₁ hb₁]
      exact ⟨rfl, hserved₁⟩
    have hs₁ := hs.step (a := CacheAct.player) trivial hpost
    have hs₂ := hs₁.step (a := CacheAct.player) trivial hsend
    obtain ⟨as, t, hexec, ht⟩ := exists_collect hs₂ hplayer₂ hserved₂
    refine ⟨.player :: .player :: as, t, ?_, ht⟩
    rw [System.exec, show (cacheThread src r).step s .player = some s₁ from hpost, Option.bind_some,
      System.exec, show (cacheThread src r).step s₁ .player = some s₂ from hsend, Option.bind_some]
    exact hexec

theorem cacheDoControl_returns_iff_chapter : ∃ s,
    (cacheThread shortSource exactRounding).exec beforeCache (chapterRun.take 15) = some s ∧
      ∃ as t, (cacheThread shortSource exactRounding).exec s as = some t ∧
        t.player = .collect .seekToChapter ⟨0, 3, ⟨0, 0, []⟩⟩ := by
  obtain ⟨s, hexec, hplayer, hserved⟩ : ∃ s,
      (cacheThread shortSource exactRounding).exec beforeCache (chapterRun.take 15) = some s ∧
        s.player = .post .seekToChapter ⟨0, 3, ⟨0, 0, []⟩⟩ ∧ s.Served :=
    ⟨_, rfl, rfl, rfl, rfl, Or.inl rfl⟩
  have hs : (cacheThread shortSource exactRounding).Reachable NoQuit s :=
    (System.Reachable.init (beforeCache_init _ _)).exec
      (System.OkAlong.of_forall (P := NoQuit beforeCache)
        (fun act hact => chapterRun_noQuit act (List.mem_of_mem_take hact)) _) hexec
  exact ⟨s, hexec, (cacheDoControl_returns_iff hs hplayer).mpr hserved⟩

/-- The film is paused, the file of its subtitles is freed, and the film goes on. -/
def subtitleRun : List CacheAct :=
  chapterRun.take 14 ++ [.pause, .player] ++ List.replicate 6 quietly ++
    [.player, .uninitOther false, .uninitOther true, .gui true, .player, .player,
      .control .seekToChapter ⟨0, 3, ⟨0, 0, []⟩⟩]

-- the thread has not been stopped, and will suspend itself
example : ∃ s, (cacheThread shortSource exactRounding).exec beforeCache subtitleRun = some s ∧
    s.player = .post .seekToChapter ⟨0, 3, ⟨0, 0, []⟩⟩ ∧ s.stop = false ∧ s.Lost :=
  ⟨_, rfl, rfl, rfl, rfl, rfl⟩

end WiiMC.Cache
