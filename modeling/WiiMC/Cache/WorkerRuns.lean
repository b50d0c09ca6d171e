import WiiMC.Lib.Waiting
import WiiMC.Cache.Concurrency
import WiiMC.Cache.Lent

/-!
# Every run of the cache thread and the player

* `lent_of_reachable`: what is lent to the cache thread, in every state of a run.
* `cacheThread_safe`: no thread ever follows the address of a freed cache, and the thread is
  suspended wherever the player relies on it.
* `cacheThread_waits`: each wait for the suspension is over after a few steps of the thread.
-/

namespace WiiMC.Cache

open Transition CacheSys

variable {src : Source} {r : Rounding} {s t : CacheSys} {a : ℕ} {o : Chance}

/-! ## Every run -/

/-- Between two functions the player has a cache only of an enabled stream. -/
theorem Lent.bare (h : Lent s) (hplayer : s.player = .idle) (hpid : s.file.cachePid = false) :
    s.file.cacheData = none := by
  have hstage := h.stage
  simp only [Stage, hplayer] at hstage
  exact hstage hpid

/-- Opening a stream keeps the invariant. -/
theorem Lent.openStream (h : Lent s) (hplayer : s.player = .idle) (stream : Stream)
    (callback : Option Callback) : Lent { s with file := ⟨stream, callback, false, none⟩ } := by
  refine h.congr h.noFault h.parked rfl rfl rfl (fun a ha => by cases ha)
    (fun hset => by cases hset) ?_
  unfold Stage
  rw [hplayer]
  exact fun _ => rfl

/-- Setting up a cache keeps the invariant. -/
theorem Lent.enable (h : Lent s) (hplayer : s.player = .idle)
    {memory : Option (ℤ → UInt8)} {size sector seekLimit : ℤ}
    (hstep : s.enable a memory size sector seekLimit = some t) : Lent t := by
  unfold CacheSys.enable at hstep
  split_ifs at hstep with hused
  rw [not_or, Bool.not_eq_true, Bool.not_eq_true, Option.isSome_eq_false_iff,
    Option.isSome_eq_false_iff, Option.isNone_iff_eq_none, Option.isNone_iff_eq_none] at hused
  have hpid : s.file.cachePid = false := by
    by_contra hset
    rw [Bool.not_eq_false] at hset
    obtain ⟨a', -, ha', -⟩ := h.data hset
    rw [hused.2] at ha'
    cases ha'
  split at hstep
  · cases hstep
    refine h.congr h.noFault h.parked rfl rfl rfl h.present h.enabled ?_
    unfold Stage
    rw [hplayer]
    exact fun _ => hused.2
  · next vars _ =>
    cases hstep
    -- nobody has anything at a free address
    have hne : ∀ a', s.Whole a' → a' ≠ a := by
      intro a' ha' heq
      subst heq
      have := ha'.isSome
      rw [hused.1] at this
      cases this
    have hwhole : ∀ a', s.Whole a' →
        (s.store a (.new (enableRing vars s.file.stream.pos seekLimit))).Whole a' := by
      intro a' ha'
      obtain ⟨b, hb, hc⟩ := ha'
      exact ⟨b, by rwa [store_blocks_of_ne (hne a' ⟨b, hb, hc⟩)], hc⟩
    constructor
    case noFault => exact h.noFault
    case parked => exact h.parked
    case cachearg => exact fun a' ha' => hwhole a' (h.cachearg a' ha')
    case address => exact fun a' ha' => hwhole a' (h.address a' ha')
    case controls =>
      intro hcontrols a' ha' b hb
      change b ∈ (s.store a _).blocks a' at hb
      rw [store_blocks_of_ne (hne a' (h.address a' ha'))] at hb
      exact h.controls hcontrols a' ha' b hb
    case present =>
      rintro a' ⟨⟩
      change ((s.store a _).blocks a).isSome = true
      rw [store_blocks_self]
      rfl
    case enabled =>
      intro hset
      change s.file.cachePid = true at hset
      rw [hpid] at hset
      cases hset
    case stage =>
      exact ⟨hpid, rfl, fun hs => hne a (h.cachearg a hs) rfl, fun hs => hne a (h.address a hs) rfl⟩

/-- Copying the stream keeps the invariant. -/
theorem Lent.copyStream (h : Lent s) (hplayer : s.player = .enableCopy a) (ok : Bool) :
    Lent (s.copyStream a ok) := by
  have hstage := h.stage
  simp only [Stage, hplayer] at hstage
  obtain ⟨hpid, ha, hunlent⟩ := hstage
  obtain ⟨b, hb⟩ := Option.isSome_iff_exists.mp (h.present a ha)
  cases ok with
  -- no memory for the copy: the block is given back
  | false =>
    refine h.goTo ?_
    intro _ a' ha'
    change a' ∈ s.file.cacheData at ha'
    rw [ha] at ha'
    cases ha'
    exact hunlent
  -- the block is whole from here on
  | true =>
    simp only [CacheSys.copyStream, hb, if_true]
    have hwhole : ∀ a', s.Whole a' →
        (s.store a { b with copy := some (s.file.stream, s.file.callback) }).Whole a' :=
      fun a' ha' => whole_store rfl ha'
    have hne : ∀ a' ∈ s.cthread.address, a' ≠ a := by
      intro a' ha' heq
      subst heq
      exact hunlent.2 ha'
    constructor
    case noFault => exact h.noFault
    case parked => exact h.parked
    case cachearg => exact fun a' ha' => hwhole a' (h.cachearg a' ha')
    case address => exact fun a' ha' => hwhole a' (h.address a' ha')
    case controls =>
      intro hcontrols a' ha' b' hb'
      change b' ∈ (s.store a _).blocks a' at hb'
      rw [store_blocks_of_ne (hne a' ha')] at hb'
      exact h.controls hcontrols a' ha' b' hb'
    case present => exact fun a' ha' => isSome_store (h.present a' ha')
    case enabled => exact fun hset => (h.enabled hset).of_whole rfl rfl hwhole
    case stage => exact ⟨hpid, ha, _, store_blocks_self _ _ _, _, rfl⟩

/-- A call of `cache_do_control` keeps the invariant. -/
theorem Lent.beginControl (h : Lent s) (hplayer : s.player = .idle) (cmd : Ctrl)
    (given : CtrlArgs) : Lent (s.beginControl cmd given) := by
  have hstage := h.stage
  have htell : ∀ res arg, Lent (s.tell cmd res arg) := by
    intro res arg
    refine h.congr h.noFault h.parked rfl rfl rfl h.present h.enabled ?_
    unfold Stage at hstage ⊢
    simp only [hplayer, CacheSys.tell] at hstage ⊢
    exact hstage
  unfold CacheSys.beginControl
  cases hcallback : s.file.callback with
  | none => exact htell _ _
  | some callback =>
    simp only
    split_ifs with hpid hpassed
    · exact h.goTo hpid
    · obtain ⟨a, b, ha, hb, -⟩ := h.data hpid
      rw [touchData_of_blocks ha hb]
      split <;> exact htell _ _
    · refine h.congr h.noFault h.parked rfl rfl rfl h.present h.enabled ?_
      unfold Stage at hstage ⊢
      simp only [hplayer, CacheSys.tell] at hstage ⊢
      exact hstage

/-- A step of the whole keeps the invariant. -/
theorem Lent.cacheSysStep (h : Lent s) {act : CacheAct}
    (hstep : cacheSysStep src r s act = some t) : Lent t := by
  -- What begins here is a choice of the player; its own steps are those of `playerStep`.
  cases act with
  | openStream stream callback =>
    simp only [WiiMC.Cache.cacheSysStep, begins] at hstep
    split_ifs at hstep with hplayer
    cases hstep
    exact h.openStream hplayer stream callback
  | enable a memory size sector seekLimit =>
    simp only [WiiMC.Cache.cacheSysStep] at hstep
    split_ifs at hstep with hplayer
    exact h.enable hplayer hstep
  | malloc ok =>
    simp only [WiiMC.Cache.cacheSysStep] at hstep
    split at hstep
    · next a hplayer =>
      cases hstep
      exact h.copyStream hplayer ok
    · cases hstep
  -- interrupted while filling in front: the cache is given back at once
  | prefilled ok =>
    simp only [WiiMC.Cache.cacheSysStep] at hstep
    have hstage := h.stage
    split_ifs at hstep with hplayer hok
    · cases hstep
      simp only [Stage, hplayer] at hstage
      exact h.goTo hstage
    · cases hstep
      simp only [Stage, hplayer] at hstage
      refine h.goTo ?_
      intro hpid a ha
      change a ∈ s.file.cacheData at ha
      rw [hstage hpid] at ha
      cases ha
  | uninit =>
    simp only [WiiMC.Cache.cacheSysStep, begins] at hstep
    split_ifs at hstep with hplayer
    cases hstep
    refine h.goTo ?_
    intro hpid a ha
    change a ∈ s.file.cacheData at ha
    rw [h.bare hplayer hpid] at ha
    cases ha
  | pause =>
    simp only [WiiMC.Cache.cacheSysStep, begins] at hstep
    split_ifs at hstep with hplayer
    cases hstep
    exact h.goTo (h.bare hplayer)
  | gui resumes =>
    simp only [WiiMC.Cache.cacheSysStep] at hstep
    have hstage := h.stage
    split_ifs at hstep with hplayer hresumes
    · cases hstep
      simp only [Stage, hplayer] at hstage
      exact h.goTo hstage
    · cases hstep
      simp only [Stage, hplayer] at hstage
      exact h.goTo hstage.1
  | control cmd given =>
    simp only [WiiMC.Cache.cacheSysStep, begins] at hstep
    split_ifs at hstep with hplayer
    cases hstep
    exact h.beginControl hplayer cmd given
  | move pos eof =>
    simp only [WiiMC.Cache.cacheSysStep, begins] at hstep
    split_ifs at hstep with hpid hplayer
    cases hstep
    obtain ⟨a, b, ha, hb, -⟩ := h.data hpid
    rw [touchData_of_blocks ha hb]
    exact h.store hb rfl h.stage
  | uninitOther status =>
    cases hstep
    cases status with
    | false => exact h.forget
    | true => exact h.congr h.noFault h.parked rfl rfl rfl h.present h.enabled h.stage
  | player => exact h.playerStep hstep
  | cthread o => exact h.cthreadStep hstep

/-- The invariant holds in every state of a run. -/
theorem lent_of_reachable {ok : CacheSys → CacheAct → Prop}
    (hs : (cacheThread src r).Reachable ok s) : Lent s := by
  apply hs.invariant (I := Lent)
  -- in front of the first stream nothing is lent
  · intro s ⟨hblocks, hstop, hcachearg, hsuspended, hcthread, hpid, hdata, hplayer, hfault, hlog⟩
    constructor
    case noFault => exact hfault
    case parked =>
      intro hset
      rw [hsuspended] at hset
      cases hset
    case cachearg =>
      intro a ha
      rw [hcachearg] at ha
      cases ha
    case address =>
      intro a ha
      rw [hcthread] at ha
      cases ha
    case controls =>
      intro hcontrols
      rw [hcthread] at hcontrols
      cases hcontrols
    case present =>
      intro a ha
      rw [hdata] at ha
      cases ha
    case enabled =>
      intro hset
      rw [hpid] at hset
      cases hset
    case stage =>
      unfold Stage
      rw [hplayer]
      exact fun _ => hdata
  · exact fun s act t _ h _ hstep => h.cacheSysStep hstep

/-- The player relies on the thread being suspended. -/
def PlayerPc.relies : PlayerPc → Bool
  | .enableArg _ | .enableGo | .enablePid | .enableResume | .paused | .pauseGo | .pauseResume => true
  | _ => false

/-- The player waits for the thread to be suspended. -/
def PlayerPc.waits : PlayerPc → Bool
  | .enableWait _ | .uninitWait | .pauseWait => true
  | _ => false

/-- The thread is suspended where the player relies on that. -/
theorem Lent.suspended_of_relies (h : Lent s) (hrelies : s.player.relies = true) :
    s.suspended = true := by
  have hstage := h.stage
  unfold Stage at hstage
  cases hplayer : s.player <;> rw [hplayer] at hrelies hstage <;> try cases hrelies
  case enableArg a => exact hstage.2.2.2.2
  case enableGo => exact hstage.2.2
  case enablePid => exact hstage.2.2
  case enableResume => exact hstage.2.2
  case paused => exact hstage.2.2
  case pauseGo => exact hstage.2.2
  case pauseResume => exact hstage.2.2

/-- The thread has been stopped where the player waits for it. -/
theorem Lent.stop_of_waits (h : Lent s) (hwaits : s.player.waits = true) : s.stop = true := by
  have hstage := h.stage
  unfold Stage at hstage
  cases hplayer : s.player <;> rw [hplayer] at hwaits hstage <;> try cases hwaits
  case enableWait a => exact hstage.2.2.2
  case uninitWait => exact hstage.2
  case pauseWait => exact hstage.2

/-- Nothing is enabled yet. -/
def beforeCache : CacheSys where
  blocks _ := none
  stop := true
  cachearg := none
  fillStatus := 0
  suspended := false
  cthread := .suspend
  file := ⟨fileStream, none, false, none⟩
  player := .idle
  fault := false
  log := []

/-- A run begins before there is a cache. -/
theorem beforeCache_init (src : Source) (r : Rounding) : (cacheThread src r).init beforeCache :=
  ⟨fun _ => rfl, rfl, rfl, rfl, rfl, rfl, rfl, rfl, rfl, rfl⟩

/-- An uneventful step of the cache thread. -/
def quietly : CacheAct := .cthread ⟨⟨.bytes 65536, true⟩, false, ⟨0, 0, ⟨0, 0, []⟩⟩⟩

/-- A stream without commands is enabled, and its cache filled once. -/
def enableRun : List CacheAct :=
  [quietly, .enable 7 (some fun _ => 0) 1000 2048 0, .malloc true, .player, .player, .player,
    .player, .player, .player, quietly, quietly, quietly, .prefilled true]

/-- The cache is freed while the thread is in `cache_fill`. -/
def enableThenUninit : List CacheAct :=
  enableRun ++ [.uninit, .player, quietly, quietly, quietly, quietly, quietly, .player, .player,
    .player]

/-- Whatever the threads do, neither follows the address of a freed cache or calls a callback that
is not there; the thread is suspended wherever the player relies on it, as it does before it frees
the cache of an enabled stream; and the cache that is being freed has not been lent. -/
theorem cacheThread_safe {ok : CacheSys → CacheAct → Prop}
    (hs : (cacheThread src r).Reachable ok s) :
    s.fault = false ∧ (s.player.relies = true → s.suspended = true) ∧
      (s.player = .uninitClear → s.file.cachePid = true → s.suspended = true) ∧
      ∀ a, s.player = .uninitFree a → s.Unlent a := by
  have h := lent_of_reachable hs
  have hstage := h.stage
  refine ⟨h.noFault, h.suspended_of_relies, fun hplayer hpid => ?_, fun a hplayer => ?_⟩
  · simp only [Stage, hplayer, hpid, true_and, Bool.true_eq_false, false_and, or_false] at hstage
    exact hstage
  · simp only [Stage, hplayer] at hstage
    refine ⟨?_, hstage.2.2.2⟩
    rw [hstage.2.1]
    exact fun heq => by cases heq

theorem cacheThread_safe_uninit : ∃ s,
    (cacheThread shortSource exactRounding).exec beforeCache enableThenUninit = some s ∧
      s.player = .uninitFree 7 ∧ s.fault = false ∧ s.Unlent 7 := by
  obtain ⟨s, hexec, hplayer⟩ : ∃ s,
      (cacheThread shortSource exactRounding).exec beforeCache enableThenUninit = some s ∧
        s.player = .uninitFree 7 := ⟨_, rfl, rfl⟩
  have hs : (cacheThread shortSource exactRounding).Reachable (fun _ _ => True) s :=
    (System.Reachable.init (beforeCache_init _ _)).exec
      (System.OkAlong.of_forall (fun _ _ => trivial) _) hexec
  obtain ⟨hfault, -, -, hunlent⟩ := cacheThread_safe hs
  exact ⟨s, hexec, hplayer, hfault, hunlent 7 hplayer⟩

/-- The step of the cache thread. -/
def CacheAct.isCthread : CacheAct → Bool
  | .cthread _ => true
  | _ => false

/-- Where the player waits, only the cache thread goes on, and it comes nearer to its suspension. -/
theorem rank_of_waits (h : Lent s) {act : CacheAct} (hs : s.player.waits = true)
    (ht : t.player.waits = true) (hstep : cacheSysStep src r s act = some t) :
    t.rank + (if act.isCthread then 1 else 0) ≤ s.rank := by
  have hidle : s.player ≠ .idle := by
    intro heq
    rw [heq] at hs
    cases hs
  cases act with
  | cthread o =>
    exact (cthreadStep_moves h hstep).rank (h.stop_of_waits hs)
  | player =>
    -- the step that ends the wait
    simp only [cacheSysStep, playerStep] at hstep
    cases hplayer : s.player <;> rw [hplayer] at hs <;> try cases hs
    all_goals
      simp only [hplayer] at hstep
      split_ifs at hstep
      cases hstep
      cases ht
  | malloc ok =>
    simp only [cacheSysStep] at hstep
    split at hstep
    · next a heq =>
      rw [heq] at hs
      cases hs
    · cases hstep
  | prefilled ok =>
    simp only [cacheSysStep] at hstep
    split_ifs at hstep with heq
    all_goals
      rw [heq] at hs
      cases hs
  | gui resumes =>
    simp only [cacheSysStep] at hstep
    split_ifs at hstep with heq
    all_goals
      rw [heq] at hs
      cases hs
  | uninitOther status =>
    cases hstep
    cases status <;> exact le_rfl
  | _ => simp [cacheSysStep, begins, hidle] at hstep

/-- The waits of `stream_enable_cache`, `cache_uninit` and `PauseAndGotoGUI` for the suspension of
the cache thread are over after at most twelve of its steps. -/
theorem cacheThread_waits {ok : CacheSys → CacheAct → Prop}
    (hs : (cacheThread src r).Reachable ok s) {as : List CacheAct}
    (hwait : (cacheThread src r).During (fun s => s.player.waits = true) s as)
    (hexec : (cacheThread src r).exec s as = some t) : as.countP CacheAct.isCthread ≤ 12 := by
  have hboth := hwait.and (fun s a t _ _ h hstep =>
    h.cacheSysStep (show cacheSysStep src r s a = some t from hstep)) (lent_of_reachable hs)
  have hle := System.countP_add_le_rank (p := CacheAct.isCthread)
    (fun s a t hs ht hstep => rank_of_waits hs.2 hs.1 ht.1 hstep) hboth hexec
  have hrank : s.rank ≤ 12 := by
    unfold CacheSys.rank
    split_ifs
    · exact Nat.zero_le 12
    · cases s.cthread <;> simp [CthreadPc.rank]
  omega

theorem cacheThread_waits_uninit : ∃ s,
    (cacheThread shortSource exactRounding).exec beforeCache (enableRun ++ [.uninit, .player]) =
      some s ∧ [quietly, quietly].countP CacheAct.isCthread ≤ 12 := by
  obtain ⟨s, hexec, t, hwait, hrun⟩ : ∃ s,
      (cacheThread shortSource exactRounding).exec beforeCache (enableRun ++ [.uninit, .player]) =
        some s ∧ ∃ t, (cacheThread shortSource exactRounding).During
          (fun s => s.player.waits = true) s [quietly, quietly] ∧
        (cacheThread shortSource exactRounding).exec s [quietly, quietly] = some t := by
    refine ⟨_, rfl, _, ?_, rfl⟩
    refine ⟨rfl, fun t ht => ?_⟩
    cases ht
    refine ⟨rfl, fun t ht => ?_⟩
    cases ht
    exact rfl
  have hs : (cacheThread shortSource exactRounding).Reachable (fun _ _ => True) s :=
    (System.Reachable.init (beforeCache_init _ _)).exec
      (System.OkAlong.of_forall (fun _ _ => trivial) _) hexec
  exact ⟨s, hexec, cacheThread_waits hs hwait hrun⟩

end WiiMC.Cache
