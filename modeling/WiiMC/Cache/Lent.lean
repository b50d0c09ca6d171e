import WiiMC.Cache.Worker

/-!
# What is lent to the cache thread

* `Lent`: the cache that the thread uses is there, and the player frees one only while the thread
  has none of it.
* `cthreadStep_moves`: what a step of the cache thread can do.
* `Lent.cthreadStep`, `Lent.playerStep`: the steps of the two threads keep `Lent`.
* `Lent.forget`: another stream may clear `cachearg` at any time.
-/

namespace WiiMC.Cache

open Transition CacheSys

variable {src : Source} {r : Rounding} {s t : CacheSys} {a : ℕ} {o : Chance}

/-! ## Who has a cache -/

/-- The cache that the thread is at work on. -/
def CthreadPc.address : CthreadPc → Option ℕ
  | .suspend | .resumed | .call => none
  | .fill arg | .execute arg => arg
  | .fillRead a _ | .times a | .test a | .serve a | .flush a | .answer a _ | .stopTest a => some a

/-- The thread is at a place where it calls the `control` callback without a test. -/
def CthreadPc.controls : CthreadPc → Bool
  | .times _ | .test _ | .serve _ | .flush _ => true
  | _ => false

/-- How many steps of the thread there are before it is suspended, with `stop_cache_thread` set. -/
def CthreadPc.rank : CthreadPc → ℕ
  | .suspend => 1
  | .stopTest _ => 2
  | .answer _ _ => 3
  | .flush _ => 4
  | .serve _ => 5
  | .test _ => 6
  | .times _ => 7
  | .execute _ => 8
  | .fillRead _ _ => 9
  | .fill _ => 10
  | .call => 11
  | .resumed => 12

namespace CacheSys

/-- The rank of the thread, which is nothing once it is suspended. -/
def rank (s : CacheSys) : ℕ := if s.suspended then 0 else s.cthread.rank

/-- A cache and its stream are there. -/
def Whole (s : CacheSys) (a : ℕ) : Prop := ∃ b ∈ s.blocks a, ∃ c, b.copy = some c

/-- The thread neither has a cache nor will be given it. -/
def Unlent (s : CacheSys) (a : ℕ) : Prop := s.cachearg ≠ some a ∧ s.cthread.address ≠ some a

/-- The cache of the stream is there, and the thread can be lent no other one. -/
def Owns (s : CacheSys) : Prop :=
  ∃ a, s.file.cacheData = some a ∧ s.Whole a ∧ ∀ a' ∈ s.cachearg, a' = a

/-- What the player knows where it is. -/
def Stage (s : CacheSys) : Prop :=
  match s.player with
  | .enableCopy a => s.file.cachePid = false ∧ s.file.cacheData = some a ∧ s.Unlent a
  | .enableStop a => s.file.cachePid = false ∧ s.file.cacheData = some a ∧ s.Whole a
  | .enableWait a =>
      s.file.cachePid = false ∧ s.file.cacheData = some a ∧ s.Whole a ∧ s.stop = true
  | .enableArg a =>
      s.file.cachePid = false ∧ s.file.cacheData = some a ∧ s.Whole a ∧ s.stop = true ∧
        s.suspended = true
  | .enableGo => s.Owns ∧ s.stop = true ∧ s.suspended = true
  | .enablePid => s.Owns ∧ s.stop = false ∧ s.suspended = true
  | .enableResume => s.file.cachePid = true ∧ s.stop = false ∧ s.suspended = true
  | .uninit => s.file.cachePid = false → ∀ a ∈ s.file.cacheData, s.Unlent a
  | .uninitWait => s.file.cachePid = true ∧ s.stop = true
  | .uninitClear =>
      (s.file.cachePid = true ∧ s.suspended = true) ∨
        (s.file.cachePid = false ∧ ∀ a ∈ s.file.cacheData, s.Unlent a)
  | .uninitStream =>
      s.file.cachePid = false ∧ s.cachearg = none ∧
        ∀ a ∈ s.file.cacheData, s.cthread.address ≠ some a
  | .uninitFree a =>
      s.file.cachePid = false ∧ s.cachearg = none ∧ s.file.cacheData = some a ∧
        s.cthread.address ≠ some a
  | .pauseWait => (s.file.cachePid = false → s.file.cacheData = none) ∧ s.stop = true
  | .paused | .pauseGo =>
      (s.file.cachePid = false → s.file.cacheData = none) ∧ s.stop = true ∧ s.suspended = true
  | .pauseResume =>
      (s.file.cachePid = false → s.file.cacheData = none) ∧ s.stop = false ∧ s.suspended = true
  | .post _ _ | .send _ _ | .wait _ _ | .collect _ _ => s.file.cachePid = true
  | .idle | .prefill | .pauseStop => s.file.cachePid = false → s.file.cacheData = none

end CacheSys

/-- What is there and whose it is, in every state. -/
structure Lent (s : CacheSys) : Prop where
  noFault : s.fault = false
  parked : s.suspended = true → s.cthread = .resumed
  cachearg : ∀ a ∈ s.cachearg, s.Whole a
  address : ∀ a ∈ s.cthread.address, s.Whole a
  controls : s.cthread.controls = true → ∀ a ∈ s.cthread.address, ∀ b ∈ s.blocks a,
    ∀ c ∈ b.copy, c.2.isSome = true
  present : ∀ a ∈ s.file.cacheData, (s.blocks a).isSome = true
  enabled : s.file.cachePid = true → s.Owns
  stage : s.Stage

/-! ## Storing a cache -/

/-- A block that is stored is read. -/
@[simp]
theorem store_blocks_self (s : CacheSys) (a : ℕ) (b : CacheBlock) :
    (s.store a b).blocks a = some b := by
  simp [store]

/-- The other blocks are kept. -/
theorem store_blocks_of_ne {a' : ℕ} (h : a' ≠ a) (b : CacheBlock) :
    (s.store a b).blocks a' = s.blocks a' := by
  simp [store, h]

/-- Storing frees no block. -/
theorem isSome_store {a' : ℕ} {b : CacheBlock} (h : (s.blocks a').isSome = true) :
    ((s.store a b).blocks a').isSome = true := by
  by_cases ha : a' = a
  · subst ha
    simp
  · rwa [store_blocks_of_ne ha]

/-- Storing a block with its stream keeps the others whole. -/
theorem whole_store {a' : ℕ} {b : CacheBlock} (hb : b.copy.isSome = true) (h : s.Whole a') :
    (s.store a b).Whole a' := by
  by_cases ha : a' = a
  · subst ha
    obtain ⟨c, hc⟩ := Option.isSome_iff_exists.mp hb
    exact ⟨b, by simp, c, hc⟩
  · obtain ⟨b', hb', hc⟩ := h
    exact ⟨b', by rwa [store_blocks_of_ne ha], hc⟩

/-- The caches that are there stay, and no other one is lent. -/
theorem CacheSys.Owns.of_whole (h : s.Owns) (hdata : t.file.cacheData = s.file.cacheData)
    (hcachearg : t.cachearg = s.cachearg) (hwhole : ∀ a, s.Whole a → t.Whole a) : t.Owns := by
  obtain ⟨a, ha, hw, hlent⟩ := h
  exact ⟨a, hdata.trans ha, hwhole a hw, by rwa [hcachearg]⟩

/-- A whole block has not been freed. -/
theorem CacheSys.Whole.isSome (h : s.Whole a) : (s.blocks a).isSome = true := by
  obtain ⟨b, hb, -⟩ := h
  rw [Option.mem_def.mp hb]
  rfl

/-- A block with its stream is used without a fault. -/
theorem touch_of_blocks {b : CacheBlock} {c : Stream × Option Callback}
    {f : CacheBlock → Stream × Option Callback → CacheSys} (hb : s.blocks a = some b)
    (hc : b.copy = some c) : s.touch a f = f b c := by
  simp only [touch, hb, hc]

/-- The block of the player is used without a fault. -/
theorem touchData_of_blocks {b : CacheBlock} {f : ℕ → CacheBlock → CacheSys}
    (ha : s.file.cacheData = some a) (hb : s.blocks a = some b) : s.touchData f = f a b := by
  simp only [touchData, ha, hb]

/-! ## The cache thread -/

/-- What a step of the cache thread can do. -/
structure CthreadMoves (s t : CacheSys) : Prop where
  awake : s.suspended = false
  stop : t.stop = s.stop
  cachearg : t.cachearg = s.cachearg
  file : t.file = s.file
  player : t.player = s.player
  noFault : t.fault = false
  parked : t.suspended = true → t.cthread = .resumed
  whole : ∀ a, s.Whole a → t.Whole a
  present : ∀ a, (s.blocks a).isSome = true → (t.blocks a).isSome = true
  address : ∀ a ∈ t.cthread.address, a ∈ s.cthread.address ∨ a ∈ s.cachearg
  controls : t.cthread.controls = true → ∀ a ∈ t.cthread.address, ∀ b ∈ t.blocks a,
    ∀ c ∈ b.copy, c.2.isSome = true
  rank : s.stop = true → t.rank < s.rank

namespace CthreadMoves

/-- A step in which no cache is stored. -/
theorem of_blocks (h : Lent s) (hawake : s.suspended = false) {pc : CthreadPc} {fillStatus : ℚ}
    {suspended : Bool} (hparked : suspended = true → pc = .resumed)
    (haddress : ∀ a ∈ pc.address, a ∈ s.cthread.address ∨ a ∈ s.cachearg)
    (hcontrols : pc.controls = true → ∀ a ∈ pc.address, ∀ b ∈ s.blocks a, ∀ c ∈ b.copy,
      c.2.isSome = true)
    (hrank : s.stop = true → (if suspended then 0 else pc.rank) < s.cthread.rank) :
    CthreadMoves s { s with fillStatus, suspended, cthread := pc } where
  awake := hawake
  stop := rfl
  cachearg := rfl
  file := rfl
  player := rfl
  noFault := h.noFault
  parked := hparked
  whole _ hw := hw
  present _ hp := hp
  address := haddress
  controls := hcontrols
  rank hstop := by
    have := hrank hstop
    rwa [CacheSys.rank, CacheSys.rank, hawake]

/-- A step in which the cache at work is stored. -/
theorem of_store (h : Lent s) (hawake : s.suspended = false) {b : CacheBlock} {pc : CthreadPc}
    {fillStatus : ℚ} {log : List Exchange} (hs : s.cthread.address = some a)
    (hb : b.copy.isSome = true)
    (haddress : ∀ a' ∈ pc.address, a' = a)
    (hcontrols : pc.controls = true → ∀ c ∈ b.copy, c.2.isSome = true)
    (hrank : s.stop = true → pc.rank < s.cthread.rank) :
    CthreadMoves s { s.store a b with fillStatus, cthread := pc, log } where
  -- The thread stores to the block it has been lent, and to nothing else.
  awake := hawake
  stop := rfl
  cachearg := rfl
  file := rfl
  player := rfl
  noFault := h.noFault
  parked hsuspended := by
    change s.suspended = true at hsuspended
    rw [hawake] at hsuspended
    cases hsuspended
  whole _ hw := whole_store hb hw
  present _ hp := isSome_store hp
  address a' ha' := by
    cases haddress a' ha'
    exact Or.inl hs
  controls hpc a' ha' b' hb' c hc := by
    cases haddress a' ha'
    change b' ∈ (s.store a b).blocks a at hb'
    rw [store_blocks_self] at hb'
    cases hb'
    exact hcontrols hpc c hc
  rank hstop := by
    change (if s.suspended then 0 else pc.rank) < (if s.suspended then 0 else s.cthread.rank)
    simpa only [hawake, Bool.false_eq_true, if_false] using hrank hstop

/-- A step in which no cache is stored, of a thread that stays awake. -/
theorem of_goes (h : Lent s) (hawake : s.suspended = false) {pc : CthreadPc} {fillStatus : ℚ}
    (haddress : ∀ a ∈ pc.address, a ∈ s.cthread.address ∨ a ∈ s.cachearg)
    (hcontrols : pc.controls = true → ∀ a ∈ pc.address, ∀ b ∈ s.blocks a, ∀ c ∈ b.copy,
      c.2.isSome = true)
    (hrank : s.stop = true → pc.rank < s.cthread.rank) :
    CthreadMoves s { s with fillStatus, cthread := pc } :=
  of_blocks h hawake (fun hs => by rw [hawake] at hs; cases hs) haddress hcontrols
    (by simpa only [hawake, Bool.false_eq_true, if_false] using hrank)

end CthreadMoves

/-! ### Place by place -/

/-- The cache that the thread is at work on is there, with its stream. -/
theorem Lent.at_work (h : Lent s) (ha : s.cthread.address = some a) :
    ∃ b c, s.blocks a = some b ∧ b.copy = some c := by
  obtain ⟨b, hb, c, hc⟩ := h.address a ha
  exact ⟨b, c, hb, hc⟩

/-- Where the thread calls the callback without a test, there is one. -/
theorem Lent.called (h : Lent s) (hcontrols : s.cthread.controls = true)
    (ha : s.cthread.address = some a) :
    ∃ b c callback, s.blocks a = some b ∧ b.copy = some c ∧ c.2 = some callback := by
  obtain ⟨b, c, hb, hc⟩ := h.at_work ha
  obtain ⟨callback, hcallback⟩ := Option.isSome_iff_exists.mp (h.controls hcontrols a ha b hb c hc)
  exact ⟨b, c, callback, hb, hc, hcallback⟩

/-- The thread suspends itself. -/
theorem Lent.moves_suspend (h : Lent s) (hawake : s.suspended = false) (hpc : s.cthread = .suspend) :
    CthreadMoves s { s with suspended := true, cthread := .resumed } := by
  refine .of_blocks h hawake (fun _ => rfl) (fun a ha => ?_) (fun hc => ?_) fun _ => ?_
  · cases ha
  · cases hc
  · rw [hpc]
    exact Nat.one_pos

/-- The test of `cachearg`. -/
theorem Lent.moves_resumed (h : Lent s) (hawake : s.suspended = false) (hpc : s.cthread = .resumed) :
    CthreadMoves s { s with cthread := if s.cachearg.isSome then .call else .suspend } := by
  refine .of_goes h hawake (fun a ha => ?_) (fun hc => ?_) fun _ => ?_
  · split at ha <;> cases ha
  · split at hc <;> cases hc
  · rw [hpc]
    split <;> simp [CthreadPc.rank]

/-- `ThreadProc` is called with what is in `cachearg` by now. -/
theorem Lent.moves_call (h : Lent s) (hawake : s.suspended = false) (hpc : s.cthread = .call) :
    CthreadMoves s { s with cthread := .fill s.cachearg } := by
  refine .of_goes h hawake (fun a ha => Or.inr ha) (fun hc => ?_) fun _ => ?_
  · cases hc
  · rw [hpc]
    exact Nat.lt_succ_self 10

/-- `cache_fill` without a cache. -/
theorem Lent.moves_fill_none (h : Lent s) (hawake : s.suspended = false)
    (hpc : s.cthread = .fill none) :
    CthreadMoves s { s with fillStatus := -1, cthread := .execute none } := by
  refine .of_goes h hawake (fun a ha => ?_) (fun hc => ?_) fun _ => ?_
  · cases ha
  · cases hc
  · rw [hpc]
    simp [CthreadPc.rank]

/-- `cache_fill` to the read of the stream. -/
theorem Lent.moves_fill (h : Lent s) (hawake : s.suspended = false)
    (hpc : s.cthread = .fill (some a)) : CthreadMoves s (s.fillStep r a o) := by
  have ha : s.cthread.address = some a := by rw [hpc]; rfl
  obtain ⟨b, c, hb, hc⟩ := h.at_work ha
  rw [fillStep, touch_of_blocks hb hc]
  refine .of_store h hawake ha rfl (fun a' ha' => ?_) (fun hcontrols => ?_) fun _ => ?_
  · split at ha' <;> exact (Option.some.inj ha').symm
  · split at hcontrols <;> cases hcontrols
  · rw [hpc]
    split <;> simp [CthreadPc.rank]

/-- `cache_fill` from the read of the stream on. -/
theorem Lent.moves_fillRead (h : Lent s) (hawake : s.suspended = false) {plan : FillPlan}
    (hpc : s.cthread = .fillRead a plan) : CthreadMoves s (s.fillReadStep src r a plan o) := by
  have ha : s.cthread.address = some a := by rw [hpc]; rfl
  obtain ⟨b, c, hb, hc⟩ := h.at_work ha
  rw [fillReadStep, touch_of_blocks hb hc]
  refine .of_store h hawake ha rfl (fun a' ha' => (Option.some.inj ha').symm) (fun hcontrols => ?_)
    fun _ => ?_
  · cases hcontrols
  · rw [hpc]
    exact Nat.lt_succ_self 8

/-- `cache_execute_control` without a cache. -/
theorem Lent.moves_execute_none (h : Lent s) (hawake : s.suspended = false)
    (hpc : s.cthread = .execute none) : CthreadMoves s { s with cthread := .suspend } := by
  refine .of_goes h hawake (fun a ha => ?_) (fun hc => ?_) fun _ => ?_
  · cases ha
  · cases hc
  · rw [hpc]
    simp [CthreadPc.rank]

/-- `cache_execute_control` goes on to the timer only with a callback. -/
theorem Lent.moves_execute (h : Lent s) (hawake : s.suspended = false)
    (hpc : s.cthread = .execute (some a)) : CthreadMoves s (s.executeStep a) := by
  have ha : s.cthread.address = some a := by rw [hpc]; rfl
  obtain ⟨b, c, hb, hc⟩ := h.at_work ha
  rw [executeStep, touch_of_blocks hb hc]
  simp only
  split_ifs with hquit
  · refine .of_store h hawake ha (by rw [hc]; rfl) (fun a' ha' => (Option.some.inj ha').symm)
      (fun hcontrols => ?_) fun _ => ?_
    · cases hcontrols
    · rw [hpc]
      simp [CthreadPc.rank]
  · refine .of_goes h hawake (fun a' ha' => Or.inl (ha.trans ha')) ?_ fun _ => ?_
    · intro _ a' ha' b' hb' c' hc'
      cases ha'
      rw [Option.mem_def, hb] at hb'
      cases hb'
      rw [Option.mem_def, hc] at hc'
      cases hc'
      rw [not_or, Option.isNone_iff_eq_none] at hquit
      exact Option.isSome_iff_ne_none.mpr hquit.2
    · rw [hpc]
      exact Nat.lt_succ_self 7

/-- The times. -/
theorem Lent.moves_times (h : Lent s) (hawake : s.suspended = false) (hpc : s.cthread = .times a) :
    CthreadMoves s (s.timesStep a o) := by
  have ha : s.cthread.address = some a := by rw [hpc]; rfl
  have hcontrols : s.cthread.controls = true := by rw [hpc]; rfl
  obtain ⟨b, c, callback, hb, hc, hcallback⟩ := h.called hcontrols ha
  have hrank : s.stop = true → (CthreadPc.test a).rank < s.cthread.rank := by
    intro _
    rw [hpc]
    exact Nat.lt_succ_self 6
  rw [timesStep, touch_of_blocks hb hc]
  split_ifs with hdue
  · rw [hcallback]
    refine .of_store h hawake ha rfl (fun a' ha' => (Option.some.inj ha').symm) ?_ hrank
    rintro - c' ⟨⟩
    rfl
  · exact .of_goes h hawake (fun a' ha' => Or.inl (ha.trans ha'))
      (fun _ a' ha' => h.controls hcontrols a' (ha.trans ha')) hrank

/-- The test for a command. -/
theorem Lent.moves_test (h : Lent s) (hawake : s.suspended = false) (hpc : s.cthread = .test a) :
    CthreadMoves s (s.touch a fun b _ =>
      { s with cthread := if b.control.isNone then .stopTest a else .serve a }) := by
  have ha : s.cthread.address = some a := by rw [hpc]; rfl
  obtain ⟨b, c, hb, hc⟩ := h.at_work ha
  rw [touch_of_blocks hb hc]
  have hsame : ∀ a' ∈ (if b.control.isNone then CthreadPc.stopTest a else .serve a).address,
      a' ∈ s.cthread.address := by
    intro a' ha'
    rw [Option.mem_def, ha]
    split at ha' <;> exact ha'
  refine .of_goes h hawake (fun a' ha' => Or.inl (hsame a' ha')) ?_ fun _ => ?_
  · exact fun _ a' ha' => h.controls (by rw [hpc]; rfl) a' (hsame a' ha')
  · rw [hpc]
    split <;> simp [CthreadPc.rank]

/-- The switch. -/
theorem Lent.moves_serve (h : Lent s) (hawake : s.suspended = false) (hpc : s.cthread = .serve a) :
    CthreadMoves s (s.serveStep a o) := by
  have ha : s.cthread.address = some a := by rw [hpc]; rfl
  obtain ⟨b, c, callback, hb, hc, hcallback⟩ := h.called (by rw [hpc]; rfl) ha
  have hanswer : s.stop = true → (CthreadPc.answer a false).rank < s.cthread.rank := by
    intro _
    rw [hpc]
    simp [CthreadPc.rank]
  rw [serveStep, touch_of_blocks hb hc]
  split
  -- no command waits
  · refine .of_store h hawake ha (by rw [hc]; rfl) (fun a' ha' => (Option.some.inj ha').symm)
      (fun hcontrols => ?_) hanswer
    cases hcontrols
  -- the call through the copied callback
  · split
    · refine .of_store h hawake ha rfl (fun a' ha' => ?_) ?_ fun hstop => ?_
      · split at ha' <;> exact (Option.some.inj ha').symm
      · rintro - c' ⟨⟩
        rw [hcallback]
        rfl
      · split
        · rw [hpc]
          exact Nat.lt_succ_self 4
        · exact hanswer hstop
    · next hnone =>
      rw [hcallback] at hnone
      cases hnone
    · refine .of_store h hawake ha (by rw [hc]; rfl) (fun a' ha' => (Option.some.inj ha').symm)
        (fun hcontrols => ?_) hanswer
      cases hcontrols

/-- The cache starts again at another place. -/
theorem Lent.moves_flush (h : Lent s) (hawake : s.suspended = false) (hpc : s.cthread = .flush a) :
    CthreadMoves s (s.flushStep a) := by
  have ha : s.cthread.address = some a := by rw [hpc]; rfl
  obtain ⟨b, c, hb, hc⟩ := h.at_work ha
  rw [flushStep, touch_of_blocks hb hc]
  refine .of_store h hawake ha (by rw [hc]; rfl) (fun a' ha' => (Option.some.inj ha').symm)
    (fun hcontrols => ?_) fun _ => ?_
  · cases hcontrols
  · rw [hpc]
    exact Nat.lt_succ_self 3

/-- The command is taken away. -/
theorem Lent.moves_answer (h : Lent s) (hawake : s.suspended = false) {quit : Bool}
    (hpc : s.cthread = .answer a quit) :
    CthreadMoves s (s.touch a fun b _ =>
      { s.store a { b with control := none } with
        cthread := if quit then .suspend else .stopTest a }) := by
  have ha : s.cthread.address = some a := by rw [hpc]; rfl
  obtain ⟨b, c, hb, hc⟩ := h.at_work ha
  rw [touch_of_blocks hb hc]
  refine .of_store h hawake ha (by rw [hc]; rfl) (fun a' ha' => ?_) (fun hcontrols => ?_) fun _ => ?_
  · split at ha'
    · cases ha'
    · exact (Option.some.inj ha').symm
  · split at hcontrols <;> cases hcontrols
  · rw [hpc]
    split <;> simp [CthreadPc.rank]

/-- The test of `stop_cache_thread`. -/
theorem Lent.moves_stopTest (h : Lent s) (hawake : s.suspended = false)
    (hpc : s.cthread = .stopTest a) :
    CthreadMoves s { s with cthread := if s.stop then .suspend else .fill (some a) } := by
  have ha : s.cthread.address = some a := by rw [hpc]; rfl
  refine .of_goes h hawake (fun a' ha' => ?_) (fun hcontrols => ?_) fun hstop => ?_
  · split at ha'
    · cases ha'
    · exact Or.inl (ha.trans ha')
  · split at hcontrols <;> cases hcontrols
  · rw [hpc, if_pos hstop]
    exact Nat.lt_succ_self 1

/-- A thread that makes a step is awake. -/
theorem awake_of_cthreadStep (hstep : s.cthreadStep src r o = some t) : s.suspended = false := by
  by_contra hsuspended
  rw [Bool.not_eq_false] at hsuspended
  rw [cthreadStep, if_pos hsuspended] at hstep
  cases hstep

/-- Wherever the thread is. -/
theorem cthreadStep_moves (h : Lent s) (hstep : s.cthreadStep src r o = some t) :
    CthreadMoves s t := by
  have hawake := awake_of_cthreadStep hstep
  rw [cthreadStep, if_neg (by rw [hawake]; exact Bool.false_ne_true)] at hstep
  -- One case per stage, each with its lemma above.
  cases hpc : s.cthread with
  | suspend =>
    rw [hpc] at hstep
    exact Option.some.inj hstep ▸ h.moves_suspend hawake hpc
  | resumed =>
    rw [hpc] at hstep
    exact Option.some.inj hstep ▸ h.moves_resumed hawake hpc
  | call =>
    rw [hpc] at hstep
    exact Option.some.inj hstep ▸ h.moves_call hawake hpc
  | fill arg =>
    rw [hpc] at hstep
    cases arg with
    | none => exact Option.some.inj hstep ▸ h.moves_fill_none hawake hpc
    | some a => exact Option.some.inj hstep ▸ h.moves_fill hawake hpc
  | fillRead a plan =>
    rw [hpc] at hstep
    exact Option.some.inj hstep ▸ h.moves_fillRead hawake hpc
  | execute arg =>
    rw [hpc] at hstep
    cases arg with
    | none => exact Option.some.inj hstep ▸ h.moves_execute_none hawake hpc
    | some a => exact Option.some.inj hstep ▸ h.moves_execute hawake hpc
  | times a =>
    rw [hpc] at hstep
    exact Option.some.inj hstep ▸ h.moves_times hawake hpc
  | test a =>
    rw [hpc] at hstep
    exact Option.some.inj hstep ▸ h.moves_test hawake hpc
  | serve a =>
    rw [hpc] at hstep
    exact Option.some.inj hstep ▸ h.moves_serve hawake hpc
  | flush a =>
    rw [hpc] at hstep
    exact Option.some.inj hstep ▸ h.moves_flush hawake hpc
  | answer a quit =>
    rw [hpc] at hstep
    exact Option.some.inj hstep ▸ h.moves_answer hawake hpc
  | stopTest a =>
    rw [hpc] at hstep
    exact Option.some.inj hstep ▸ h.moves_stopTest hawake hpc

/-! ### What the step keeps -/

/-- A cache that is not lent stays so. -/
theorem CthreadMoves.unlent (h : CthreadMoves s t) (hu : s.Unlent a) : t.Unlent a := by
  refine ⟨by rw [h.cachearg]; exact hu.1, fun ha => ?_⟩
  rcases h.address a ha with hs | hs
  · exact hu.2 hs
  · exact hu.1 hs

/-- Where no cache can be lent, the thread does not come to have one. -/
theorem CthreadMoves.address_ne (h : CthreadMoves s t) (hnone : s.cachearg = none)
    (ha : s.cthread.address ≠ some a) : t.cthread.address ≠ some a := by
  intro ht
  rcases h.address a ht with hs | hs
  · exact ha hs
  · rw [hnone] at hs
    cases hs

/-- What the player knows stays true. -/
theorem CthreadMoves.stage (h : CthreadMoves s t) (hs : s.Stage) : t.Stage := by
  have hawake := h.awake
  unfold Stage at hs ⊢
  rw [h.player, h.file, h.stop, h.cachearg]
  -- where the thread is known to be suspended, it makes no step
  cases hplayer : s.player <;>
    simp only [hplayer, hawake, Bool.false_eq_true, and_false, false_or] at hs ⊢ <;>
    try exact hs
  case enableCopy a => exact ⟨hs.1, hs.2.1, h.unlent hs.2.2⟩
  case enableStop a => exact ⟨hs.1, hs.2.1, h.whole a hs.2.2⟩
  case enableWait a => exact ⟨hs.1, hs.2.1, h.whole a hs.2.2.1, hs.2.2.2⟩
  case uninit => exact fun hpid a ha => h.unlent (hs hpid a ha)
  case uninitClear => exact Or.inr ⟨hs.1, fun a ha => h.unlent (hs.2 a ha)⟩
  case uninitStream => exact ⟨hs.1, hs.2.1, fun a ha => h.address_ne hs.2.1 (hs.2.2 a ha)⟩
  case uninitFree a => exact ⟨hs.1, hs.2.1, hs.2.2.1, h.address_ne hs.2.1 hs.2.2.2⟩

/-- A step of the cache thread. -/
theorem Lent.cthreadStep (h : Lent s) (hstep : s.cthreadStep src r o = some t) : Lent t := by
  have hmoves := cthreadStep_moves h hstep
  constructor
  case noFault => exact hmoves.noFault
  case parked => exact hmoves.parked
  case cachearg =>
    intro a ha
    rw [hmoves.cachearg] at ha
    exact hmoves.whole a (h.cachearg a ha)
  case address =>
    intro a ha
    rcases hmoves.address a ha with hs | hs
    · exact hmoves.whole a (h.address a hs)
    · exact hmoves.whole a (h.cachearg a hs)
  case controls => exact hmoves.controls
  case present =>
    intro a ha
    rw [hmoves.file] at ha
    exact hmoves.present a (h.present a ha)
  case enabled =>
    intro hpid
    rw [hmoves.file] at hpid
    exact (h.enabled hpid).of_whole (by rw [hmoves.file]) hmoves.cachearg hmoves.whole
  case stage => exact hmoves.stage h.stage

/-! ## Another stream -/

/-- Another stream is freed, and `cachearg` is cleared. The thread of an enabled stream goes on with
the cache that it has, but will not find it again. -/
theorem Lent.forget (h : Lent s) : Lent { s with cachearg := none } := by
  have howns : s.Owns → ({ s with cachearg := none } : CacheSys).Owns := by
    rintro ⟨a, ha, hw, -⟩
    exact ⟨a, ha, hw, nofun⟩
  have hunlent : ∀ {a}, s.Unlent a → ({ s with cachearg := none } : CacheSys).Unlent a :=
    fun hu => ⟨nofun, hu.2⟩
  constructor
  case noFault => exact h.noFault
  case parked => exact h.parked
  case cachearg => exact fun a ha => by cases ha
  case address => exact h.address
  case controls => exact h.controls
  case present => exact h.present
  case enabled => exact fun hpid => howns (h.enabled hpid)
  case stage =>
    have hstage := h.stage
    unfold Stage at hstage ⊢
    cases hplayer : s.player <;> simp only [hplayer] at hstage ⊢ <;> try exact hstage
    case enableCopy a => exact ⟨hstage.1, hstage.2.1, hunlent hstage.2.2⟩
    case enableGo => exact ⟨howns hstage.1, hstage.2⟩
    case enablePid => exact ⟨howns hstage.1, hstage.2⟩
    case uninit => exact fun hpid a ha => hunlent (hstage hpid a ha)
    case uninitClear => exact hstage.imp id fun hfree => ⟨hfree.1, fun a ha => hunlent (hfree.2 a ha)⟩
    case uninitStream => exact ⟨hstage.1, trivial, hstage.2.2⟩
    case uninitFree a => exact ⟨hstage.1, trivial, hstage.2.2⟩

/-! ## The player -/

/-- Nothing is known of what is not there. -/
theorem Lent.congr (h : Lent s) (hfault : t.fault = false)
    (hparked : t.suspended = true → t.cthread = .resumed) (hcachearg : t.cachearg = s.cachearg)
    (hblocks : t.blocks = s.blocks) (hcthread : t.cthread = s.cthread)
    (hpresent : ∀ a ∈ t.file.cacheData, (t.blocks a).isSome = true)
    (henabled : t.file.cachePid = true → t.Owns) (hstage : t.Stage) : Lent t where
  noFault := hfault
  parked := hparked
  cachearg a ha := by
    rw [hcachearg] at ha
    rw [Whole, hblocks]
    exact h.cachearg a ha
  address a ha := by
    rw [hcthread] at ha
    rw [Whole, hblocks]
    exact h.address a ha
  controls := by
    rw [hcthread, hblocks]
    exact h.controls
  present := hpresent
  enabled := henabled
  stage := hstage

/-- A step that leaves all but the place of the player and the log as it is. -/
theorem Lent.goTo (h : Lent s) {pc : PlayerPc} {log : List Exchange}
    (hstage : ({ s with player := pc, log } : CacheSys).Stage) :
    Lent { s with player := pc, log } :=
  h.congr h.noFault h.parked rfl rfl rfl h.present h.enabled hstage

/-- A cache is stored that keeps its stream. -/
theorem Lent.store (h : Lent s) {b b' : CacheBlock} {pc : PlayerPc} {log : List Exchange}
    (hb : s.blocks a = some b) (hcopy : b'.copy = b.copy)
    (hstage : ({ s with player := pc } : CacheSys).Stage) :
    Lent { s.store a b' with player := pc, log } := by
  -- A block stays whole, whichever of its words are stored to.
  have hwhole : ∀ a', s.Whole a' → (s.store a b').Whole a' := by
    intro a' ⟨b₀, hb₀, c, hc⟩
    by_cases ha : a' = a
    · subst ha
      rw [Option.mem_def, hb] at hb₀
      cases hb₀
      exact ⟨b', store_blocks_self _ _ _, c, hcopy.trans hc⟩
    · exact ⟨b₀, by rwa [store_blocks_of_ne ha], c, hc⟩
  constructor
  case noFault => exact h.noFault
  case parked => exact h.parked
  case cachearg => exact fun a' ha' => hwhole a' (h.cachearg a' ha')
  case address => exact fun a' ha' => hwhole a' (h.address a' ha')
  -- the callback of the copy is not touched
  case controls =>
    intro hpc a' ha' b₀ hb₀ c hc
    by_cases ha : a' = a
    · subst ha
      change b₀ ∈ (s.store a' b').blocks a' at hb₀
      rw [store_blocks_self, Option.mem_def] at hb₀
      cases hb₀
      rw [hcopy] at hc
      exact h.controls hpc a' ha' b hb c hc
    · change b₀ ∈ (s.store a b').blocks a' at hb₀
      rw [store_blocks_of_ne ha] at hb₀
      exact h.controls hpc a' ha' b₀ hb₀ c hc
  case present => exact fun a' ha' => isSome_store (h.present a' ha')
  case enabled => exact fun hpid => (h.enabled hpid).of_whole rfl rfl hwhole
  case stage =>
    unfold Stage at hstage ⊢
    cases pc <;> try exact hstage
    case enableGo => exact ⟨hstage.1.of_whole rfl rfl hwhole, hstage.2⟩
    case enablePid => exact ⟨hstage.1.of_whole rfl rfl hwhole, hstage.2⟩
    case enableStop a' => exact ⟨hstage.1, hstage.2.1, hwhole a' hstage.2.2⟩
    case enableWait a' => exact ⟨hstage.1, hstage.2.1, hwhole a' hstage.2.2.1, hstage.2.2.2⟩
    case enableArg a' => exact ⟨hstage.1, hstage.2.1, hwhole a' hstage.2.2.1, hstage.2.2.2⟩

/-- An enabled stream has its cache. -/
theorem Lent.data (h : Lent s) (hpid : s.file.cachePid = true) :
    ∃ a b, s.file.cacheData = some a ∧ s.blocks a = some b ∧ ∃ c, b.copy = some c := by
  obtain ⟨a, ha, ⟨b, hb, hc⟩, -⟩ := h.enabled hpid
  exact ⟨a, b, ha, hb, hc⟩

/-- The thread of an enabled stream can be lent no other cache than that of the stream. -/
theorem Lent.cachearg_mine (h : Lent s) (hpid : s.file.cachePid = true) :
    ∀ a ∈ s.cachearg, s.file.cacheData = some a := by
  intro a' ha'
  obtain ⟨a, ha, -, hlent⟩ := h.enabled hpid
  rw [hlent a' ha']
  exact ha

/-- The argument is not stored where the stream is. -/
@[simp]
theorem storeArgs_copy (cmd : Ctrl) (b : CacheBlock) (given : CtrlArgs) :
    (storeArgs cmd b given).copy = b.copy := by
  cases cmd <;> rfl

/-- Collecting the answer keeps the invariant. -/
theorem Lent.collectStep (h : Lent s) {cmd : Ctrl} {given : CtrlArgs}
    (hpid : s.file.cachePid = true) : Lent (s.collectStep cmd given) := by
  obtain ⟨a, b, ha, hb, -⟩ := h.data hpid
  have hstage : ∀ stream log, ({ s with
      file := { s.file with stream := stream }, player := .idle, log := log } : CacheSys).Stage := by
    intro stream log hfree
    change s.file.cachePid = false at hfree
    rw [hpid] at hfree
    cases hfree
  rw [CacheSys.collectStep, touchData_of_blocks ha hb]
  split_ifs
  · exact h.congr h.noFault h.parked rfl rfl rfl h.present h.enabled (hstage _ _)
  · exact h.congr h.noFault h.parked rfl rfl rfl h.present h.enabled (hstage _ _)
  · exact h.congr h.noFault h.parked rfl rfl rfl h.present h.enabled (hstage _ _)

/-- The stream of a cache that is not lent is freed. -/
theorem Lent.freeStream (h : Lent s) (hplayer : s.player = .uninitStream) {b : CacheBlock}
    (ha : s.file.cacheData = some a) (hb : s.blocks a = some b) :
    Lent { s.store a { b with copy := none } with player := .uninitFree a } := by
  have hstage := h.stage
  simp only [Stage, hplayer] at hstage
  obtain ⟨hpid, hnone, haddress⟩ := hstage
  -- The thread has let go of the block before it is freed.
  have hne : ∀ a' ∈ s.cthread.address, a' ≠ a := by
    intro a' ha' heq
    subst heq
    exact haddress a' ha ha'
  constructor
  case noFault => exact h.noFault
  case parked => exact h.parked
  case cachearg =>
    intro a' ha'
    change a' ∈ s.cachearg at ha'
    rw [hnone] at ha'
    cases ha'
  case address =>
    intro a' ha'
    obtain ⟨b', hb', hc⟩ := h.address a' ha'
    exact ⟨b', by
      change b' ∈ (s.store a _).blocks a'
      rwa [store_blocks_of_ne (hne a' ha')], hc⟩
  case controls =>
    intro hcontrols a' ha' b' hb'
    change b' ∈ (s.store a _).blocks a' at hb'
    rw [store_blocks_of_ne (hne a' ha')] at hb'
    exact h.controls hcontrols a' ha' b' hb'
  case present => exact fun a' ha' => isSome_store (h.present a' ha')
  case enabled =>
    intro hset
    change s.file.cachePid = true at hset
    rw [hpid] at hset
    cases hset
  case stage => exact ⟨hpid, hnone, ha, fun hs => hne a hs rfl⟩

/-- A cache that is not lent is freed. -/
theorem Lent.freeCache (h : Lent s) (hplayer : s.player = .uninitFree a) :
    Lent { s with
      blocks := Function.update s.blocks a none
      file := { s.file with cacheData := none }
      player := .idle } := by
  have hstage := h.stage
  simp only [Stage, hplayer] at hstage
  obtain ⟨hpid, hnone, -, haddress⟩ := hstage
  -- The same holds of the block itself.
  have hne : ∀ a' ∈ s.cthread.address, a' ≠ a := by
    intro a' ha' heq
    subst heq
    exact haddress ha'
  constructor
  case noFault => exact h.noFault
  case parked => exact h.parked
  case cachearg =>
    intro a' ha'
    change a' ∈ s.cachearg at ha'
    rw [hnone] at ha'
    cases ha'
  case address =>
    intro a' ha'
    obtain ⟨b', hb', hc⟩ := h.address a' ha'
    refine ⟨b', ?_, hc⟩
    change b' ∈ Function.update s.blocks a none a'
    rwa [Function.update_of_ne (hne a' ha')]
  case controls =>
    intro hcontrols a' ha' b' hb'
    change b' ∈ Function.update s.blocks a none a' at hb'
    rw [Function.update_of_ne (hne a' ha')] at hb'
    exact h.controls hcontrols a' ha' b' hb'
  case present => exact fun a' ha' => by cases ha'
  case enabled =>
    intro hset
    change s.file.cachePid = true at hset
    rw [hpid] at hset
    cases hset
  case stage => exact fun _ => rfl

/-! ### Place by place -/

/-- The cache of an enabled stream, where the player follows `cache_data`. -/
theorem Lent.touched (h : Lent s) (hpid : s.file.cachePid = true) (f : ℕ → CacheBlock → CacheSys) :
    ∃ a b, s.file.cacheData = some a ∧ s.blocks a = some b ∧ s.touchData f = f a b := by
  obtain ⟨a, b, ha, hb, -⟩ := h.data hpid
  exact ⟨a, b, ha, hb, touchData_of_blocks ha hb⟩

/-- A command is given to an enabled stream only. -/
theorem Lent.enabled_of_command (h : Lent s) {cmd : Ctrl} {given : CtrlArgs}
    (hplayer : s.player = .post cmd given ∨ s.player = .send cmd given ∨
      s.player = .wait cmd given ∨ s.player = .collect cmd given) : s.file.cachePid = true := by
  have hstage := h.stage
  unfold Stage at hstage
  rcases hplayer with heq | heq | heq | heq <;> rw [heq] at hstage <;> exact hstage

/-- `cache_do_control` stores the argument. -/
theorem Lent.post (h : Lent s) {cmd : Ctrl} {given : CtrlArgs} (hplayer : s.player = .post cmd given) :
    Lent (s.touchData fun a b =>
      { s.store a (storeArgs cmd b given) with player := .send cmd given }) := by
  have hpid := h.enabled_of_command (Or.inl hplayer)
  obtain ⟨a, b, -, hb, heq⟩ := h.touched hpid fun a b =>
    { s.store a (storeArgs cmd b given) with player := .send cmd given }
  rw [heq]
  exact h.store hb (storeArgs_copy _ _ _) hpid

/-- `cache_do_control` stores the command. -/
theorem Lent.send (h : Lent s) {cmd : Ctrl} {given : CtrlArgs} (hplayer : s.player = .send cmd given) :
    Lent (s.touchData fun a b =>
      { s.store a { b with control := some cmd } with
        player := .wait cmd given
        log := .sent s.file.callback cmd given :: s.log }) := by
  have hpid := h.enabled_of_command (Or.inr (Or.inl hplayer))
  obtain ⟨a, b, -, hb, heq⟩ := h.touched hpid fun a b =>
    { s.store a { b with control := some cmd } with
      player := .wait cmd given
      log := .sent s.file.callback cmd given :: s.log }
  rw [heq]
  exact h.store hb rfl hpid

/-- The cache is lent. -/
theorem Lent.enableArg (h : Lent s) (hplayer : s.player = .enableArg a) :
    Lent { s with cachearg := some a, player := .enableGo } := by
  have hstage := h.stage
  simp only [Stage, hplayer] at hstage
  obtain ⟨hpid, hdata, hwhole, hstop, hsuspended⟩ := hstage
  have howns : ({ s with cachearg := some a, player := .enableGo } : CacheSys).Owns :=
    ⟨a, hdata, hwhole, fun a' ha' => (Option.some.inj ha').symm⟩
  constructor
  case noFault => exact h.noFault
  case parked => exact h.parked
  case cachearg =>
    rintro a' ⟨⟩
    exact hwhole
  case address => exact h.address
  case controls => exact h.controls
  case present => exact h.present
  case enabled => exact fun _ => howns
  case stage => exact ⟨howns, hstop, hsuspended⟩

/-- The thread is woken up for the new cache. -/
theorem Lent.enableResume (h : Lent s) (hplayer : s.player = .enableResume) :
    Lent { s with suspended := false, player := .prefill } := by
  have hstage := h.stage
  simp only [Stage, hplayer] at hstage
  refine h.congr h.noFault (fun hs => by cases hs) rfl rfl rfl h.present h.enabled fun hfree => ?_
  change s.file.cachePid = false at hfree
  rw [hstage.1] at hfree
  cases hfree

/-- `cache_uninit` tells the thread to stop, if the stream is enabled. -/
theorem Lent.uninit (h : Lent s) (hplayer : s.player = .uninit) :
    Lent (if s.file.cachePid then { s with stop := true, player := .uninitWait }
      else { s with player := .uninitClear }) := by
  have hstage := h.stage
  simp only [Stage, hplayer] at hstage
  split_ifs with hpid
  · exact h.congr h.noFault h.parked rfl rfl rfl h.present h.enabled ⟨hpid, rfl⟩
  · rw [Bool.not_eq_true] at hpid
    exact h.goTo (Or.inr ⟨hpid, hstage hpid⟩)

/-- `cachearg` is cleared, while the thread has nothing of the cache. -/
theorem Lent.uninitClear (h : Lent s) (hplayer : s.player = .uninitClear) :
    Lent { s with
      file := { s.file with cachePid := false }
      cachearg := none
      fillStatus := -1
      player := .uninitStream } := by
  have hstage := h.stage
  simp only [Stage, hplayer] at hstage
  have haddress : ∀ a ∈ s.file.cacheData, s.cthread.address ≠ some a := by
    rcases hstage with ⟨-, hsuspended⟩ | ⟨-, hunlent⟩
    · intro a _ heq
      rw [h.parked hsuspended] at heq
      cases heq
    · exact fun a ha => (hunlent a ha).2
  constructor
  case noFault => exact h.noFault
  case parked => exact h.parked
  case cachearg => exact fun a ha => by cases ha
  case address => exact h.address
  case controls => exact h.controls
  case present => exact h.present
  case enabled => exact fun hset => by cases hset
  case stage => exact ⟨rfl, rfl, haddress⟩

/-- The stream of the cache is freed, if there is a cache. -/
theorem Lent.uninitStream (h : Lent s) (hplayer : s.player = .uninitStream)
    (hstep : s.playerStep = some t) : Lent t := by
  simp only [playerStep, hplayer] at hstep
  cases ha : s.file.cacheData with
  | none =>
    simp only [ha] at hstep
    cases hstep
    exact h.goTo fun _ => ha
  | some a =>
    obtain ⟨b, hb⟩ := Option.isSome_iff_exists.mp (h.present a ha)
    simp only [ha, hb] at hstep
    cases hstep
    exact h.freeStream hplayer ha hb

/-- The player goes on from a wait for the thread once it is suspended. -/
theorem Lent.waited (h : Lent s) (pc : PlayerPc)
    (hstage : s.suspended = true → ({ s with player := pc } : CacheSys).Stage)
    (hstep : (if s.suspended then some { s with player := pc } else none) = some t) : Lent t := by
  split_ifs at hstep with hsuspended
  cases hstep
  exact h.goTo (hstage hsuspended)

/-- A step of the player inside of one of its functions. -/
theorem Lent.playerStep (h : Lent s) (hstep : s.playerStep = some t) : Lent t := by
  have hstage := h.stage
  have hwhole := hstep
  unfold CacheSys.playerStep at hstep
  unfold Stage at hstage
  cases hplayer : s.player with
  -- here the player waits for a choice, which is no step of its own
  | idle | enableCopy | prefill | paused =>
    rw [hplayer] at hstep
    cases hstep
  | post cmd given =>
    rw [hplayer] at hstep
    exact Option.some.inj hstep ▸ h.post hplayer
  | send cmd given =>
    rw [hplayer] at hstep
    exact Option.some.inj hstep ▸ h.send hplayer
  -- in `cache_do_control` the block is the open stream's
  | wait cmd given =>
    simp only [hplayer] at hstage
    obtain ⟨a, b, ha, hb, -⟩ := h.data hstage
    simp only [hplayer, ha, hb] at hstep
    split_ifs at hstep
    cases hstep
    exact h.goTo hstage
  | collect cmd given =>
    rw [hplayer] at hstep
    exact Option.some.inj hstep ▸ h.collectStep
      (h.enabled_of_command (Or.inr (Or.inr (Or.inr hplayer))))
  -- the stages of `stream_enable_cache`, in order
  | enableStop a =>
    simp only [hplayer] at hstage hstep
    cases hstep
    exact h.congr h.noFault h.parked rfl rfl rfl h.present h.enabled
      ⟨hstage.1, hstage.2.1, hstage.2.2, rfl⟩
  | enableWait a =>
    simp only [hplayer] at hstage hstep
    exact h.waited (.enableArg a)
      (fun hs => ⟨hstage.1, hstage.2.1, hstage.2.2.1, hstage.2.2.2, hs⟩) hstep
  | enableArg a =>
    rw [hplayer] at hstep
    exact Option.some.inj hstep ▸ h.enableArg hplayer
  | enableGo =>
    simp only [hplayer] at hstage hstep
    cases hstep
    exact h.congr h.noFault h.parked rfl rfl rfl h.present h.enabled ⟨hstage.1, rfl, hstage.2.2⟩
  | enablePid =>
    simp only [hplayer] at hstage hstep
    cases hstep
    exact h.congr h.noFault h.parked rfl rfl rfl h.present (fun _ => hstage.1) ⟨rfl, hstage.2⟩
  | enableResume =>
    rw [hplayer] at hstep
    exact Option.some.inj hstep ▸ h.enableResume hplayer
  -- those of `cache_uninit`: only here does a block go back
  | uninit =>
    rw [hplayer] at hstep
    exact Option.some.inj hstep ▸ h.uninit hplayer
  | uninitWait =>
    simp only [hplayer] at hstage hstep
    exact h.waited .uninitClear (fun hs => Or.inl ⟨hstage.1, hs⟩) hstep
  | uninitClear =>
    rw [hplayer] at hstep
    exact Option.some.inj hstep ▸ h.uninitClear hplayer
  | uninitStream => exact h.uninitStream hplayer hwhole
  | uninitFree a =>
    rw [hplayer] at hstep
    exact Option.some.inj hstep ▸ h.freeCache hplayer
  -- those of `PauseAndGotoGUI`
  | pauseStop =>
    simp only [hplayer] at hstage hstep
    cases hstep
    exact h.congr h.noFault h.parked rfl rfl rfl h.present h.enabled ⟨hstage, rfl⟩
  | pauseWait =>
    simp only [hplayer] at hstage hstep
    exact h.waited .paused (fun hs => ⟨hstage.1, hstage.2, hs⟩) hstep
  | pauseGo =>
    simp only [hplayer] at hstage hstep
    cases hstep
    exact h.congr h.noFault h.parked rfl rfl rfl h.present h.enabled ⟨hstage.1, rfl, hstage.2.2⟩
  | pauseResume =>
    simp only [hplayer] at hstage hstep
    cases hstep
    exact h.congr h.noFault (fun hs => by cases hs) rfl rfl rfl h.present h.enabled hstage.1

end WiiMC.Cache
