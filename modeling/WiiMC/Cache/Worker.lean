import WiiMC.Cache.Halves

/-!
# The cache thread and the player

The life of a cache, from `stream/cache2.c`: the player's thread allocates it, lends it to the one
cache thread of the program and frees it (`stream_enable_cache`, `cache_uninit`), stops the thread
while the GUI is shown (`PauseAndGotoGUI` of `mplayer.c`), and has it execute commands
(`cache_do_control`). The cache thread fills the cache and answers the commands (`ThreadProc`,
`cache_execute_control`), and is suspended in between (`mplayercachethread`).

The threads share `stop_cache_thread`, `cachearg` and the cache itself without a lock, and each
access of a thread to one of them is a step here; what `cache_fill` does to the cache is taken from
`Cache.Halves`. Other streams, such as those of subtitle files, have no cache, but when one is freed
`cache_uninit` clears the one `cachearg` of the program. A cache has an address, which is used again
once it has been freed, and a thread that follows the address of a freed cache is recorded in
`fault`.

`getMESS` is left out: no code sets it. What `cache_read` and the seek of the stream do to a cache
is a step of any kind of the reader's position. The cache thread is assumed to have been created.
-/

namespace WiiMC.Cache

open Transition

/-! ## Commands -/

/-- `STREAM_CTRL_*`, and the command `-2` that ends a forked cache. -/
inductive Ctrl
  | reset | getTimeLength | seekToChapter | getCurrentChapter | getNumChapters | getCurrentTime
  | seekToTime | getSize | getAspectRatio | getNumAngles | getAngle | setAngle | getNumTitles
  | getLang | quit
  deriving DecidableEq, Repr

/-- `STREAM_OK`. -/
def streamOk : ℤ := 1

/-- `STREAM_UNSUPPORTED`. -/
def streamUnsupported : ℤ := -1

/-- `MP_NOPTS_VALUE`. -/
def noPts : ℚ := -2 ^ 63

/-- `struct stream_lang_req`. -/
structure LangReq where
  type : ℤ
  id : ℤ
  buf : List UInt8
  deriving DecidableEq, Repr

/-- `control_double_arg`, `control_uint_arg` and `control_lang_arg`; a command has one of them. -/
structure CtrlArgs where
  double : ℚ
  uint : ℕ
  lang : LangReq
  deriving DecidableEq, Repr

/-- The field that the argument of a command is in. -/
inductive CtrlField
  | double | uint | lang
  deriving DecidableEq, Repr

/-- The case labels of `cache_execute_control`. -/
def Ctrl.field : Ctrl → Option CtrlField
  | .seekToTime | .getCurrentTime | .getAspectRatio => some .double
  | .seekToChapter | .setAngle | .getNumChapters | .getCurrentChapter | .getNumAngles | .getAngle =>
      some .uint
  | .getLang => some .lang
  | _ => none

/-- `needs_flush` of `cache_execute_control`, and `pos_change` of `cache_do_control`. -/
def Ctrl.moves : Ctrl → Bool
  | .seekToTime | .seekToChapter | .setAngle => true
  | _ => false

/-- The commands that `cache_do_control` leaves to the cache thread. -/
def Ctrl.passedOn : Ctrl → Bool
  | .seekToTime | .seekToChapter | .setAngle | .getLang | .getNumChapters | .getCurrentChapter
  | .getAspectRatio | .getNumAngles | .getAngle | .quit => true
  | _ => false

/-- The arguments of the one field that is used. -/
def CtrlArgs.only (a : CtrlArgs) : CtrlField → CtrlArgs
  | .double => ⟨a.double, 0, ⟨0, 0, []⟩⟩
  | .uint => ⟨0, a.uint, ⟨0, 0, []⟩⟩
  | .lang => ⟨0, 0, a.lang⟩

/-- `a` with one field of `b`. -/
def CtrlArgs.withField (a b : CtrlArgs) : CtrlField → CtrlArgs
  | .double => { a with double := b.double }
  | .uint => { a with uint := b.uint }
  | .lang => { a with lang := b.lang }

/-- The `control` callback of a stream: its result, what it leaves in its argument, the stream. -/
abbrev Callback := Stream → Ctrl → CtrlArgs → ℤ × CtrlArgs × Stream

/-- What the callback is given: `cache_execute_control` loads a number only where the command takes
one, and passes what is in its own variable, `junk`, otherwise. -/
def Ctrl.input (cmd : Ctrl) (f : CtrlField) (stored junk : CtrlArgs) : CtrlArgs :=
  if cmd.moves ∨ f = .lang then stored.only f else junk.only f

/-! ## The state -/

/-- `cache_vars_t`: the ring, the stream that the cache owns, the command and its answer. -/
structure CacheBlock where
  vars : CacheVars
  /-- `stream`, with its `control` callback; `none` before it is allocated and once it is freed. -/
  copy : Option (Stream × Option Callback)
  /-- `control`, `none` for `-1`. -/
  control : Option Ctrl
  args : CtrlArgs
  controlRes : ℤ
  timeLength : ℚ
  timePos : ℚ

/-- `cache_init`, after which `memset` has cleared the rest. -/
def CacheBlock.new (vars : CacheVars) : CacheBlock :=
  ⟨vars, none, none, ⟨0, 0, ⟨0, 0, []⟩⟩, 0, 0, 0⟩

/-- The player's `stream_t`. -/
structure PlayerStream where
  stream : Stream
  callback : Option Callback
  /-- `cache_pid`. -/
  cachePid : Bool
  /-- `cache_data`. -/
  cacheData : Option ℕ

/-- Where the cache thread is. -/
inductive CthreadPc
  /-- Before `SuspendCacheThread`. -/
  | suspend
  /-- After it, before the test of `cachearg`. -/
  | resumed
  /-- Before `cachearg` is read for `ThreadProc`. -/
  | call
  /-- In `ThreadProc`, before `cache_fill`. -/
  | fill (arg : Option ℕ)
  /-- In `cache_fill`, before the stream is read. -/
  | fillRead (arg : ℕ) (plan : FillPlan)
  /-- Before `cache_execute_control`. -/
  | execute (arg : Option ℕ)
  /-- In it, before the timer. -/
  | times (arg : ℕ)
  /-- Before the test for a command. -/
  | test (arg : ℕ)
  /-- Before the switch. -/
  | serve (arg : ℕ)
  /-- Before the positions are reset after a command that moves the stream. -/
  | flush (arg : ℕ)
  /-- Before `control` is set to `-1`; `cache_execute_control` returns 0 if `quit`. -/
  | answer (arg : ℕ) (quit : Bool)
  /-- Before the test of `stop_cache_thread`. -/
  | stopTest (arg : ℕ)
  deriving DecidableEq

/-- Where the player's thread is. -/
inductive PlayerPc
  | idle
  /-- In `cache_do_control`, before the argument is stored. -/
  | post (cmd : Ctrl) (given : CtrlArgs)
  /-- Before the command is stored. -/
  | send (cmd : Ctrl) (given : CtrlArgs)
  /-- In the loop that waits for the answer. -/
  | wait (cmd : Ctrl) (given : CtrlArgs)
  /-- After the loop. -/
  | collect (cmd : Ctrl) (given : CtrlArgs)
  /-- In `stream_enable_cache`, before the stream is copied. -/
  | enableCopy (a : ℕ)
  /-- Before `stop_cache_thread = 1`. -/
  | enableStop (a : ℕ)
  | enableWait (a : ℕ)
  /-- Before `cachearg = s`. -/
  | enableArg (a : ℕ)
  /-- Before `stop_cache_thread = 0`. -/
  | enableGo
  /-- Before `cache_pid = 1`. -/
  | enablePid
  | enableResume
  | prefill
  /-- At the beginning of `cache_uninit`. -/
  | uninit
  | uninitWait
  /-- Before `cache_pid` and `cachearg` are cleared. -/
  | uninitClear
  /-- Before the stream of the cache is freed. -/
  | uninitStream
  /-- Before the cache is freed. -/
  | uninitFree (a : ℕ)
  /-- In `PauseAndGotoGUI`, before `stop_cache_thread = 1`. -/
  | pauseStop
  | pauseWait
  /-- Waiting for the GUI. -/
  | paused
  /-- Before `stop_cache_thread = 0`. -/
  | pauseGo
  | pauseResume
  deriving DecidableEq

/-- What has been said about a command. -/
inductive Exchange
  /-- The player stores a command with this argument, for a stream with this callback. -/
  | sent (callback : Option Callback) (cmd : Ctrl) (given : CtrlArgs)
  /-- The callback of a stream is called with a command and its argument, and what it answers. -/
  | served (callback : Callback) (cmd : Ctrl) (input : CtrlArgs) (before : Stream) (res : ℤ)
      (output : CtrlArgs) (after : Stream)
  /-- `cache_do_control` returns, with its argument and the position of the player's stream. -/
  | returned (cmd : Ctrl) (res : ℤ) (arg : CtrlArgs) (pos : ℤ)
  /-- `stream_control` returns without asking the cache thread. -/
  | told (cmd : Ctrl) (res : ℤ) (arg : CtrlArgs)

/-- Both threads, and what they share. -/
structure CacheSys where
  /-- The caches at their addresses. -/
  blocks : ℕ → Option CacheBlock
  /-- `stop_cache_thread`. -/
  stop : Bool
  cachearg : Option ℕ
  /-- `cache_fill_status`. -/
  fillStatus : ℚ
  /-- `CacheThreadSuspended`. -/
  suspended : Bool
  cthread : CthreadPc
  file : PlayerStream
  player : PlayerPc
  /-- Ghost state: a thread has used a cache that is not there. -/
  fault : Bool
  /-- Ghost state: the commands, the last one first. -/
  log : List Exchange

namespace CacheSys

/-- Store a cache. -/
def store (s : CacheSys) (a : ℕ) (b : CacheBlock) : CacheSys :=
  { s with blocks := Function.update s.blocks a (some b) }

/-- Follow an address to a cache and its stream. -/
def touch (s : CacheSys) (a : ℕ) (f : CacheBlock → Stream × Option Callback → CacheSys) :
    CacheSys :=
  match s.blocks a with
  | none => { s with fault := true }
  | some b =>
      match b.copy with
      | none => { s with fault := true }
      | some c => f b c

end CacheSys

/-! ## The cache thread -/

/-- What the device and the clock decide about a step of the cache thread. -/
structure Chance where
  oracle : Oracle
  /-- Whether a tenth of a second has passed since the times were asked for. -/
  due : Bool
  /-- What is in the uninitialised variables of `cache_execute_control`. -/
  junk : CtrlArgs

/-- The times that `cache_execute_control` keeps for `cache_do_control`. -/
def keepTimes (b : CacheBlock) (c : Stream) (callback : Callback) (junk : CtrlArgs) : CacheBlock :=
  let (lengthRes, length, c) := callback c .getTimeLength (junk.only .double)
  let (posRes, pos, c) := callback c .getCurrentTime (junk.only .double)
  { b with
    copy := some (c, some callback)
    timeLength := if lengthRes = streamOk then length.double else 0
    timePos := if posRes = streamOk then pos.double else noPts }

namespace CacheSys

variable (src : Source) (r : Rounding)

/-- `cache_fill` to the read of the stream. -/
def fillStep (s : CacheSys) (a : ℕ) (o : Chance) : CacheSys :=
  s.touch a fun b c =>
    let (cache, plan) := cacheFillBegin r ⟨b.vars, c.1, s.fillStatus⟩ o.oracle.seeks
    { s.store a { b with vars := cache.vars, copy := some (cache.stream, c.2) } with
      fillStatus := cache.fillStatus
      cthread := match plan with
        | none => .execute (some a)
        | some plan => .fillRead a plan }

/-- `cache_fill` from the read of the stream on. -/
def fillReadStep (s : CacheSys) (a : ℕ) (plan : FillPlan) (o : Chance) : CacheSys :=
  s.touch a fun b c =>
    let cache := cacheFillEnd src r ⟨b.vars, c.1, s.fillStatus⟩ plan o.oracle
    { s.store a { b with vars := cache.vars, copy := some (cache.stream, c.2) } with
      fillStatus := cache.fillStatus
      cthread := .execute (some a) }

/-- `cache_execute_control` to the timer: a stream without a callback, or the end of the cache. -/
def executeStep (s : CacheSys) (a : ℕ) : CacheSys :=
  s.touch a fun b c =>
    let quit := decide (b.control = some .quit)
    if quit = true ∨ c.2.isNone then
      { s.store a { b with timeLength := 0, timePos := noPts, controlRes := streamUnsupported } with
        cthread := .answer a quit }
    else { s with cthread := .times a }

/-- The times are asked for, if they are due. -/
def timesStep (s : CacheSys) (a : ℕ) (o : Chance) : CacheSys :=
  s.touch a fun b c =>
    if o.due then
      match c.2 with
      | some callback => { s.store a (keepTimes b c.1 callback o.junk) with cthread := .test a }
      | none => { s with fault := true }
    else { s with cthread := .test a }

/-- The switch of `cache_execute_control`. -/
def serveStep (s : CacheSys) (a : ℕ) (o : Chance) : CacheSys :=
  s.touch a fun b c =>
    match b.control with
    | none => { s.store a { b with controlRes := streamUnsupported } with cthread := .answer a false }
    | some cmd =>
        match cmd.field, c.2 with
        | some f, some callback =>
            let input := cmd.input f b.args o.junk
            let (res, output, stream) := callback c.1 cmd input
            { s.store a { b with
                  copy := some (stream, c.2), controlRes := res, args := b.args.withField output f } with
              cthread := if res = streamOk ∧ cmd.moves then .flush a else .answer a false
              log := .served callback cmd input c.1 res output stream :: s.log }
        | some _, none => { s with fault := true }
        | none, _ =>
            { s.store a { b with controlRes := streamUnsupported } with cthread := .answer a false }

/-- The cache starts again at the place to which a command has moved the stream. -/
def flushStep (s : CacheSys) (a : ℕ) : CacheSys :=
  s.touch a fun b c =>
    { s.store a { b with
          vars := cacheFlush { cachePosSetRead b.vars c.1.pos with eof := c.1.eof } } with
      cthread := .answer a false }

/-- One step of the cache thread. -/
def cthreadStep (s : CacheSys) (o : Chance) : Option CacheSys :=
  if s.suspended then none
  else match s.cthread with
  | .suspend => some { s with suspended := true, cthread := .resumed }
  | .resumed => some { s with cthread := if s.cachearg.isSome then .call else .suspend }
  | .call => some { s with cthread := .fill s.cachearg }
  | .fill none => some { s with fillStatus := -1, cthread := .execute none }
  | .fill (some a) => some (s.fillStep r a o)
  | .fillRead a plan => some (s.fillReadStep src r a plan o)
  | .execute none => some { s with cthread := .suspend }
  | .execute (some a) => some (s.executeStep a)
  | .times a => some (s.timesStep a o)
  | .test a =>
      some (s.touch a fun b _ =>
        { s with cthread := if b.control.isNone then .stopTest a else .serve a })
  | .serve a => some (s.serveStep a o)
  | .flush a => some (s.flushStep a)
  | .answer a quit =>
      some (s.touch a fun b _ =>
        { s.store a { b with control := none } with
          cthread := if quit then .suspend else .stopTest a })
  | .stopTest a => some { s with cthread := if s.stop then .suspend else .fill (some a) }

end CacheSys

/-! ## The player's thread -/

/-- Stores the argument of a command. -/
def storeArgs (cmd : Ctrl) (b : CacheBlock) (given : CtrlArgs) : CacheBlock :=
  match cmd with
  | .seekToTime => { b with args := { b.args with double := given.double } }
  | .seekToChapter | .setAngle => { b with args := { b.args with uint := given.uint } }
  | .getLang => { b with args := { b.args with lang := given.lang } }
  | _ => b

/-- What `cache_do_control` stores where its argument points, after a command that succeeded. -/
def loadArgs (cmd : Ctrl) (args given : CtrlArgs) : CtrlArgs :=
  match cmd with
  | .getTimeLength | .getCurrentTime | .getAspectRatio => { given with double := args.double }
  | .getNumChapters | .getCurrentChapter | .getNumAngles | .getAngle =>
      { given with uint := args.uint }
  | .getLang => { given with lang := args.lang }
  | _ => given

/-- What happens next. -/
inductive CacheAct
  /-- A stream is opened. -/
  | openStream (stream : Stream) (callback : Option Callback)
  /-- `stream_enable_cache`; `memory` is what `memalign` returns. -/
  | enable (a : ℕ) (memory : Option (ℤ → UInt8)) (size sector seekLimit : ℤ)
  /-- `malloc` returns to `stream_enable_cache`. -/
  | malloc (ok : Bool)
  /-- `stream_cache_prefill` returns, with a positive number if `ok`. -/
  | prefilled (ok : Bool)
  /-- `cache_uninit`. -/
  | uninit
  /-- `PauseAndGotoGUI`. -/
  | pause
  /-- The GUI gives the control back, to go on playing if `resumes`. -/
  | gui (resumes : Bool)
  /-- `stream_control`. -/
  | control (cmd : Ctrl) (given : CtrlArgs)
  /-- `cache_read` or a seek moves the reader. -/
  | move (pos : ℤ) (eof : Bool)
  /-- `cache_uninit` of another stream, which has no cache: its store to `cachearg`, or the one to
  `cache_fill_status`. Any thread may free a stream. -/
  | uninitOther (status : Bool)
  /-- Any other step of the player's thread. -/
  | player
  | cthread (o : Chance)

namespace CacheSys

/-- `stream_enable_cache` to `malloc`, for a stream without a cache, as its callers have it. -/
def enable (s : CacheSys) (a : ℕ) (memory : Option (ℤ → UInt8)) (size sector seekLimit : ℤ) :
    Option CacheSys :=
  if (s.blocks a).isSome ∨ s.file.cacheData.isSome then none
  else match cacheInit memory size sector with
  | none => some { s with fillStatus := -1 }
  | some vars =>
      some { s.store a (.new (enableRing vars s.file.stream.pos seekLimit)) with
        fillStatus := -1
        file := { s.file with cacheData := some a, stream := { s.file.stream with error := 0 } }
        player := .enableCopy a }

/-- The stream is copied into the cache. -/
def copyStream (s : CacheSys) (a : ℕ) (ok : Bool) : CacheSys :=
  if ok then
    match s.blocks a with
    | none => { s with fault := true }
    | some b =>
        { s.store a { b with copy := some (s.file.stream, s.file.callback) } with
          player := .enableStop a }
  else { s with player := .uninit }

/-- Follow `cache_data`. -/
def touchData (s : CacheSys) (f : ℕ → CacheBlock → CacheSys) : CacheSys :=
  match s.file.cacheData with
  | none => { s with fault := true }
  | some a =>
      match s.blocks a with
      | none => { s with fault := true }
      | some b => f a b

/-- `stream_control` returns. -/
def tell (s : CacheSys) (cmd : Ctrl) (res : ℤ) (arg : CtrlArgs) : CacheSys :=
  { s with log := .told cmd res arg :: s.log }

/-- `stream_control`, and `cache_do_control` to the command that is to be passed on. -/
def beginControl (s : CacheSys) (cmd : Ctrl) (given : CtrlArgs) : CacheSys :=
  match s.file.callback with
  | none => s.tell cmd streamUnsupported given
  | some callback =>
      if s.file.cachePid then
        if cmd.passedOn then { s with player := .post cmd given }
        else s.touchData fun _ b =>
          match cmd with
          | .getTimeLength =>
              s.tell cmd (if b.timeLength ≠ 0 then streamOk else streamUnsupported)
                { given with double := b.timeLength }
          | .getCurrentTime =>
              s.tell cmd (if b.timePos ≠ noPts then streamOk else streamUnsupported)
                { given with double := b.timePos }
          | _ => s.tell cmd streamUnsupported given
      else
        let (res, output, stream) := callback s.file.stream cmd given
        { s with file := { s.file with stream := stream } }.tell cmd res output

/-- The end of `cache_do_control`. -/
def collectStep (s : CacheSys) (cmd : Ctrl) (given : CtrlArgs) : CacheSys :=
  s.touchData fun _ b =>
    if b.controlRes ≠ streamOk then
      { s with
        player := .idle
        log := .returned cmd b.controlRes given s.file.stream.pos :: s.log }
    else
      let stream := if cmd.moves then
          { s.file.stream with pos := (cachePosGet b.vars).readFilepos, eof := b.vars.eof }
        else s.file.stream
      { s with
        file := { s.file with stream := stream }
        player := .idle
        log := .returned cmd b.controlRes (loadArgs cmd b.args given) stream.pos :: s.log }

/-- A step of the player's thread inside of one of its functions. -/
def playerStep (s : CacheSys) : Option CacheSys :=
  match s.player with
  | .post cmd given =>
      some (s.touchData fun a b =>
        { s.store a (storeArgs cmd b given) with player := .send cmd given })
  | .send cmd given =>
      some (s.touchData fun a b =>
        { s.store a { b with control := some cmd } with
          player := .wait cmd given
          log := .sent s.file.callback cmd given :: s.log })
  | .wait cmd given =>
      match s.file.cacheData with
      | none => some { s with fault := true }
      | some a =>
          match s.blocks a with
          | none => some { s with fault := true }
          | some b => if b.control.isNone then some { s with player := .collect cmd given } else none
  | .collect cmd given => some (s.collectStep cmd given)
  | .enableStop a => some { s with stop := true, player := .enableWait a }
  | .enableWait a => if s.suspended then some { s with player := .enableArg a } else none
  | .enableArg a => some { s with cachearg := some a, player := .enableGo }
  | .enableGo => some { s with stop := false, player := .enablePid }
  | .enablePid =>
      some { s with file := { s.file with cachePid := true }, player := .enableResume }
  | .enableResume => some { s with suspended := false, player := .prefill }
  | .uninit =>
      some (if s.file.cachePid then { s with stop := true, player := .uninitWait }
        else { s with player := .uninitClear })
  | .uninitWait => if s.suspended then some { s with player := .uninitClear } else none
  | .uninitClear =>
      some { s with
        file := { s.file with cachePid := false }
        cachearg := none
        fillStatus := -1
        player := .uninitStream }
  | .uninitStream =>
      match s.file.cacheData with
      | none => some { s with player := .idle }
      | some a =>
          match s.blocks a with
          | none => some { s with fault := true }
          | some b => some { s.store a { b with copy := none } with player := .uninitFree a }
  | .uninitFree a =>
      some { s with
        blocks := Function.update s.blocks a none
        file := { s.file with cacheData := none }
        player := .idle }
  | .pauseStop => some { s with stop := true, player := .pauseWait }
  | .pauseWait => if s.suspended then some { s with player := .paused } else none
  | .pauseGo => some { s with stop := false, player := .pauseResume }
  | .pauseResume => some { s with suspended := false, player := .idle }
  | .idle | .enableCopy _ | .prefill | .paused => none

/-- The player begins with a function. -/
def begins (s : CacheSys) (t : CacheSys) : Option CacheSys :=
  if s.player = .idle then some t else none

end CacheSys

open CacheSys

/-- One step of one of the threads. -/
def cacheSysStep (src : Source) (r : Rounding) (s : CacheSys) : CacheAct → Option CacheSys
  | .openStream stream callback => s.begins { s with file := ⟨stream, callback, false, none⟩ }
  | .enable a memory size sector seekLimit =>
      if s.player = .idle then s.enable a memory size sector seekLimit else none
  | .malloc ok =>
      match s.player with
      | .enableCopy a => some (s.copyStream a ok)
      | _ => none
  | .prefilled ok =>
      if s.player = .prefill then some { s with player := if ok then .idle else .uninit } else none
  | .uninit => s.begins { s with player := .uninit }
  | .pause => s.begins { s with player := .pauseStop }
  | .gui resumes =>
      if s.player = .paused then some { s with player := if resumes then .pauseGo else .idle }
      else none
  | .control cmd given => s.begins (s.beginControl cmd given)
  | .move pos eof =>
      if s.file.cachePid then
        s.begins (s.touchData fun a b =>
          s.store a { b with vars := { cachePosSetRead b.vars pos with eof := eof && b.vars.eof } })
      else none
  | .uninitOther status =>
      some (if status then { s with fillStatus := -1 } else { s with cachearg := none })
  | .player => s.playerStep
  | .cthread o => s.cthreadStep src r o

/-- The cache thread and the player's thread, from the start of the program on. -/
def cacheThread (src : Source) (r : Rounding) : System CacheSys CacheAct where
  init s := (∀ a, s.blocks a = none) ∧ s.stop = true ∧ s.cachearg = none ∧ s.suspended = false ∧
    s.cthread = .suspend ∧ s.file.cachePid = false ∧ s.file.cacheData = none ∧ s.player = .idle ∧
    s.fault = false ∧ s.log = []
  step := cacheSysStep src r

end WiiMC.Cache
