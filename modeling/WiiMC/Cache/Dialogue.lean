import WiiMC.Cache.WorkerRuns

/-!
# The commands of the player

A command that the player leaves to the cache thread is stored in the cache, and `cache_do_control`
waits until the thread has taken it away again.

* `Closed`: each command that has returned was answered once, by the callback of its own stream.
* `Talk`: what the player and the thread have said about the command under way.
* `cacheDoControl_answered`: between two calls, everything has been answered.
-/

namespace WiiMC.Cache

open Transition CacheSys

variable {src : Source} {r : Rounding} {s t : CacheSys} {a : ℕ} {o : Chance}

/-! ## What has been said -/

/-- The argument that a command is executed with is the one that the player has given, where the
command has one. -/
def Ctrl.Fits (cmd : Ctrl) (given input : CtrlArgs) : Prop :=
  ∀ f ∈ cmd.field, cmd.moves = true ∨ f = .lang → input = given.only f

/-- Every command has been answered by one call of the callback of its stream, and has returned what
that call has answered; after a command that moves the stream, the player is where it was left. -/
inductive Closed : List Exchange → Prop
  | nil : Closed []
  | told {cmd : Ctrl} {res : ℤ} {arg : CtrlArgs} {l : List Exchange} (h : Closed l) :
      Closed (.told cmd res arg :: l)
  | call {callback : Callback} {cmd : Ctrl} {given input output arg : CtrlArgs} {res pos : ℤ}
      {before after : Stream} {l : List Exchange} (h : Closed l)
      (hcall : callback before cmd input = (res, output, after)) (hfits : cmd.Fits given input)
      (hfails : res ≠ streamOk → arg = given)
      (harg : res = streamOk → arg = loadArgs cmd output given)
      (hpos : res = streamOk → cmd.moves = true → pos = after.pos) :
      Closed (.returned cmd res arg pos :: .served callback cmd input before res output after ::
        .sent (some callback) cmd given :: l)

/-- The thread is executing a command, if there is one. -/
def CthreadPc.working : CthreadPc → Bool
  | .serve _ | .flush _ | .answer _ _ => true
  | _ => false

/-- The thread has executed a command. -/
def CthreadPc.answering : CthreadPc → Bool
  | .flush _ | .answer _ _ => true
  | _ => false

/-- The command of the player has been stored, and is still to be executed. -/
def Asked (s : CacheSys) (b : CacheBlock) (cmd : Ctrl) (given : CtrlArgs) : Prop :=
  (∃ l, Closed l ∧ s.log = .sent s.file.callback cmd given :: l) ∧ b.control = some cmd ∧
    cmd.Fits given (b.args.only (cmd.field.getD .double)) ∧ s.cthread.answering = false

/-- The command has been executed, and the thread may have taken it away. -/
def Answered (s : CacheSys) (a : ℕ) (b : CacheBlock) (cmd : Ctrl) (given : CtrlArgs) : Prop :=
  ∃ l callback input before output after, Closed l ∧
    s.log = .served callback cmd input before b.controlRes output after ::
      .sent (some callback) cmd given :: l ∧
    callback before cmd input = (b.controlRes, output, after) ∧ cmd.Fits given input ∧
    (∀ f ∈ cmd.field, b.args.only f = output.only f) ∧
    (b.control = some cmd ∧ s.cthread = .flush a ∧ (∀ c ∈ b.copy, c.1 = after) ∨
      (b.controlRes = streamOk → cmd.moves = true → b.vars.readFilepos = after.pos) ∧
        (b.control = some cmd ∧ s.cthread = .answer a false ∨
          b.control = none ∧ s.cthread.working = false))

/-- There is no command. -/
def Silent (s : CacheSys) (b : CacheBlock) : Prop :=
  Closed s.log ∧ b.control = none ∧
    (s.file.cachePid = true → s.file.callback.isSome = true → s.cthread.working = false)

/-- What the player and the thread have said about the command under way. -/
def Said (s : CacheSys) (a : ℕ) (b : CacheBlock) : Prop :=
  match s.player with
  | .wait cmd given => Asked s b cmd given ∨ Answered s a b cmd given
  | .collect cmd given => Answered s a b cmd given ∧ b.control = none
  | .send cmd given => Silent s b ∧ cmd.Fits given (b.args.only (cmd.field.getD .double))
  | _ => Silent s b

/-- The command that the player is in. -/
def PlayerPc.command : PlayerPc → Option Ctrl
  | .post cmd _ | .send cmd _ | .wait cmd _ | .collect cmd _ => some cmd
  | _ => none

/-- What holds of the commands in every state. -/
structure Talk (s : CacheSys) : Prop where
  mine : s.file.cachePid = true → ∀ a ∈ s.cthread.address, s.file.cacheData = some a
  command : ∀ cmd ∈ s.player.command, s.file.callback.isSome = true ∧ s.file.cachePid = true ∧
    cmd.passedOn = true ∧ cmd ≠ .quit
  callback : ∀ a ∈ s.file.cacheData, ∀ b ∈ s.blocks a, ∀ c ∈ b.copy, c.2 = s.file.callback
  quit : s.file.cachePid = true → ∀ a, s.cthread ≠ .answer a true
  said : ∀ a ∈ s.file.cacheData, ∀ b ∈ s.blocks a, Said s a b
  others : ∀ a b, s.blocks a = some b → s.file.cacheData ≠ some a → b.control = none
  closed : s.file.cacheData = none → Closed s.log

/-- A command that is passed on and is not the end of the cache has its field. -/
theorem Ctrl.field_of_passedOn {cmd : Ctrl} (h : cmd.passedOn = true) (hquit : cmd ≠ .quit) :
    ∃ f, cmd.field = some f := by
  cases cmd <;> first | exact ⟨_, rfl⟩ | exact absurd rfl hquit | cases h

/-! ## Filling does not move the reader -/

/-- Seeking to the reader does not move it. -/
theorem readFilepos_seekToReader (c : CacheState) (seeks : Bool) :
    (seekToReader c seeks).vars.readFilepos = c.vars.readFilepos := by
  unfold seekToReader
  simp only
  split_ifs <;> rfl

/-- Planning a read does not move the reader. -/
theorem readFilepos_planFill (c : CacheState) (read : ℤ) :
    (planFill r c read).1.vars.readFilepos = c.vars.readFilepos := by
  unfold planFill
  split <;> rfl

/-- The first half of a fill does not move the reader. -/
@[simp]
theorem readFilepos_cacheFillBegin (c : CacheState) (seeks : Bool) :
    (cacheFillBegin r c seeks).1.vars.readFilepos = c.vars.readFilepos := by
  unfold cacheFillBegin
  cases hcheck : checkEof c with
  | none => rfl
  | some c' =>
    simp only
    rw [readFilepos_planFill, readFilepos_seekToReader]
    unfold checkEof at hcheck
    simp only at hcheck
    split_ifs at hcheck <;> cases hcheck <;> rfl

/-- Accounting for what was read does not move the reader. -/
theorem readFilepos_fillAccount (c : CacheVars) (stream : Stream) (status : ℚ) (len : ℕ) :
    (fillAccount r c stream status len).1.readFilepos = c.readFilepos := by
  unfold fillAccount
  simp only
  split_ifs <;> rfl

/-- The second half of a fill does not move the reader. -/
@[simp]
theorem readFilepos_cacheFillEnd (c : CacheState) (plan : FillPlan) (o : Oracle) :
    (cacheFillEnd src r c plan o).vars.readFilepos = c.vars.readFilepos := by
  simp only [cacheFillEnd, fillCommit, cachePosCommitFill, readFilepos_fillAccount, fillCopyHead,
    fillCopyTail]
  split_ifs <;> rfl

/-! ## The steps of the cache thread -/

/-- A step of the thread that says nothing about a command: what is said stays. -/
theorem Said.keep {b b' : CacheBlock} (h : Said s a b)
    (hplayer : t.player = s.player) (hfile : t.file = s.file) (hlog : t.log = s.log)
    (hcontrol : b'.control = b.control) (hres : b'.controlRes = b.controlRes)
    (hargs : b'.args = b.args) (hread : b'.vars.readFilepos = b.vars.readFilepos)
    (hs : s.cthread.answering = false) (hwork : t.cthread.answering = false)
    (hquiet : t.cthread.working = true → s.cthread.working = true) :
    Said t a b' := by
  -- What is said depends on the player, the log and the block's command, answer and arguments only;
  -- the thread may only have come to rest in between.
  have hsilent : Silent s b → Silent t b' := by
    rintro ⟨hclosed, hnone, hworking⟩
    refine ⟨by rwa [hlog], by rwa [hcontrol], fun hpid hcallback => ?_⟩
    rw [hfile] at hpid hcallback
    -- a thread that works now has worked before
    by_contra hset
    rw [Bool.not_eq_false] at hset
    have := hquiet hset
    rw [hworking hpid hcallback] at this
    cases this
  have hasked : ∀ {cmd given}, Asked s b cmd given → Asked t b' cmd given := by
    rintro cmd given ⟨hsent, hset, hfits, -⟩
    exact ⟨by rwa [hlog, hfile], by rwa [hcontrol], by rwa [hargs], hwork⟩
  -- The answer has landed: the two stages in which it has not are those of an answering thread.
  have hanswered : ∀ {cmd given}, Answered s a b cmd given → Answered t a b' cmd given := by
    rintro cmd given ⟨l, callback, input, before, output, after, hclosed, hserved, hcall, hfits, harg,
      hstate⟩
    refine ⟨l, callback, input, before, output, after, hclosed, by rwa [hlog, hres],
      by rwa [hres], hfits, by rwa [hargs], ?_⟩
    rcases hstate with ⟨-, hflush, -⟩ | ⟨hland, ⟨-, hanswer⟩ | ⟨hnone, hrest⟩⟩
    · rw [hflush] at hs
      cases hs
    · rw [hanswer] at hs
      cases hs
    · refine Or.inr ⟨by rwa [hres, hread], Or.inr ⟨by rwa [hcontrol], ?_⟩⟩
      by_contra hset
      rw [Bool.not_eq_false] at hset
      have := hquiet hset
      rw [hrest] at this
      cases this
  -- The player's own stage says which of the three holds.
  unfold Said at h ⊢
  rw [hplayer]
  cases hpc : s.player with
  | wait cmd given =>
    simp only [hpc] at h
    exact h.imp hasked hanswered
  | collect cmd given =>
    simp only [hpc] at h
    exact ⟨hanswered h.1, by rw [hcontrol]; exact h.2⟩
  | send cmd given =>
    simp only [hpc] at h
    exact ⟨hsilent h.1, by rw [hargs]; exact h.2⟩
  | _ =>
    simp only [hpc] at h
    exact hsilent h

/-- A block that a step of the thread leaves behind, where the step is not about its command. -/
def Leaves (b b' : CacheBlock) : Prop :=
  (b.control = none → b'.control = none) ∧
    ∀ c' ∈ b'.copy, ∃ c, b.copy = some c ∧ c'.2 = c.2

/-- The thread of an enabled stream has no other cache than that of the stream. -/
theorem Talk.mine_of_moves (h : Talk s) (hl : Lent s) (hm : CthreadMoves s t) :
    t.file.cachePid = true → ∀ a ∈ t.cthread.address, t.file.cacheData = some a := by
  rw [hm.file]
  intro hpid a ha
  rcases hm.address a ha with hs | hs
  · exact h.mine hpid a hs
  · exact hl.cachearg_mine hpid a hs

/-- What a step of the thread leaves to be shown. -/
theorem Talk.of_moves (h : Talk s) (hl : Lent s) (hm : CthreadMoves s t)
    (hquit : s.file.cachePid = true → ∀ a, t.cthread ≠ .answer a true)
    (hblocks : ∀ a b', t.blocks a = some b' → ∃ b, s.blocks a = some b ∧ Leaves b b')
    (hsaid : ∀ a ∈ s.file.cacheData, ∀ b ∈ t.blocks a, Said t a b)
    (hclosed : s.file.cacheData = none → Closed t.log) : Talk t where
  -- A move of the thread leaves the player and the stream's file alone.
  mine := h.mine_of_moves hl hm
  command := by
    rw [hm.player, hm.file]
    exact h.command
  callback := by
    rw [hm.file]
    intro a ha b' hb' c' hc'
    obtain ⟨b, hb, -, hcopy⟩ := hblocks a b' hb'
    obtain ⟨c, hc, hcallback⟩ := hcopy c' hc'
    rw [hcallback]
    exact h.callback a ha b hb c hc
  quit := by
    rw [hm.file]
    exact hquit
  said := by
    rw [hm.file]
    exact hsaid
  others := by
    rw [hm.file]
    intro a b' hb' ha
    obtain ⟨b, hb, hcontrol, -⟩ := hblocks a b' hb'
    exact hcontrol (h.others a b hb ha)
  closed := by
    rw [hm.file]
    exact hclosed

/-- Without a command nothing is to be said. -/
theorem said_of_command_none {b : CacheBlock} (hcommand : s.player.command = none) :
    Said s a b ↔ Silent s b := by
  unfold Said
  cases hplayer : s.player <;> rw [hplayer] at hcommand <;> cases hcommand

/-- A step of the thread while there is no command, and none appears. -/
theorem Talk.of_silent (h : Talk s) (hl : Lent s) (hm : CthreadMoves s t)
    (hcommand : s.player.command = none) (hlog : t.log = s.log)
    (hquit : s.file.cachePid = true → ∀ a, t.cthread ≠ .answer a true)
    (hblocks : ∀ a b', t.blocks a = some b' → ∃ b, s.blocks a = some b ∧ Leaves b b')
    (hworking : s.file.cachePid = true → s.file.callback.isSome = true →
      s.cthread.working = false → t.cthread.working = false) : Talk t := by
  refine h.of_moves hl hm hquit hblocks ?_ ?_
  · intro a ha b' hb'
    obtain ⟨b, hb, hcontrol, -⟩ := hblocks a b' hb'
    obtain ⟨hclosed, hnone, hrest⟩ := (said_of_command_none hcommand).mp (h.said a ha b hb)
    rw [said_of_command_none (by rw [hm.player]; exact hcommand)]
    refine ⟨by rwa [hlog], hcontrol hnone, ?_⟩
    rw [hm.file]
    exact fun hpid hcallback => hworking hpid hcallback (hrest hpid hcallback)
  · rw [hlog]
    exact h.closed

/-- A step of the thread that says nothing about a command. -/
theorem Talk.of_keep (h : Talk s) (hl : Lent s) (hm : CthreadMoves s t) (hlog : t.log = s.log)
    (hs : s.cthread.answering = false) (ht : t.cthread.answering = false)
    (hquiet : t.cthread.working = true → s.cthread.working = true)
    (hblocks : ∀ a b', t.blocks a = some b' → ∃ b, s.blocks a = some b ∧ Leaves b b' ∧
      b'.control = b.control ∧ b'.controlRes = b.controlRes ∧ b'.args = b.args ∧
      b'.vars.readFilepos = b.vars.readFilepos) : Talk t := by
  refine h.of_moves hl hm ?_ ?_ ?_ ?_
  · intro _ a heq
    rw [heq] at ht
    cases ht
  · intro a b' hb'
    obtain ⟨b, hb, hleaves, -⟩ := hblocks a b' hb'
    exact ⟨b, hb, hleaves⟩
  · intro a ha b' hb'
    obtain ⟨b, hb, -, hcontrol, hres, hargs, hread⟩ := hblocks a b' hb'
    exact (h.said a ha b hb).keep hm.player hm.file hlog hcontrol hres hargs hread hs ht hquiet
  · rw [hlog]
    exact h.closed

/-- The blocks after a cache has been stored. -/
theorem blocks_store {P : CacheBlock → CacheBlock → Prop} (hrefl : ∀ b, P b b)
    {b b' : CacheBlock} (hb : s.blocks a = some b) (h : P b b') (a₁ : ℕ) (b₁ : CacheBlock)
    (hb₁ : (s.store a b').blocks a₁ = some b₁) : ∃ b₀, s.blocks a₁ = some b₀ ∧ P b₀ b₁ := by
  by_cases ha : a₁ = a
  · subst ha
    rw [store_blocks_self] at hb₁
    cases hb₁
    exact ⟨b, hb, h⟩
  · rw [store_blocks_of_ne ha] at hb₁
    exact ⟨b₁, hb₁, hrefl b₁⟩

/-- A block is left alone by doing nothing. -/
theorem Leaves.refl (b : CacheBlock) : Leaves b b := ⟨id, fun c hc => ⟨c, hc, rfl⟩⟩

/-- A thread that is executing a command in the player's call has the one that was stored. -/
theorem Talk.waiting (h : Talk s) (hcommand : s.player.command.isSome = true)
    (hworking : s.cthread.working = true) (ha : s.cthread.address = some a) {b : CacheBlock}
    (hb : s.blocks a = some b) : s.file.cacheData = some a ∧ ∃ cmd given,
      s.player = .wait cmd given ∧ (Asked s b cmd given ∨ Answered s a b cmd given) := by
  obtain ⟨cmd, hcmd⟩ := Option.isSome_iff_exists.mp hcommand
  obtain ⟨hcallback, hpid, -, -⟩ := h.command cmd hcmd
  have hmine := h.mine hpid a ha
  have hsaid := h.said a hmine b hb
  have hloud : ¬ Silent s b := by
    rintro ⟨-, -, hrest⟩
    rw [hrest hpid hcallback] at hworking
    cases hworking
  refine ⟨hmine, ?_⟩
  unfold Said at hsaid
  cases hplayer : s.player <;> simp only [hplayer] at hsaid
  case wait cmd given => exact ⟨cmd, given, rfl, hsaid⟩
  case collect cmd given =>
    obtain ⟨⟨l, callback, input, before, output, after, -, -, -, -, -, hstate⟩, hnone⟩ := hsaid
    rcases hstate with ⟨hset, -⟩ | ⟨-, ⟨hset, -⟩ | ⟨-, hrest⟩⟩
    · rw [hnone] at hset
      cases hset
    · rw [hnone] at hset
      cases hset
    · rw [hrest] at hworking
      cases hworking
  case send cmd given => exact absurd hsaid.1 hloud
  all_goals exact absurd hsaid hloud

/-- A command that is there has been stored by the player, who waits for it. -/
theorem Talk.pending (h : Talk s) {b : CacheBlock} {cmd : Ctrl} (hb : s.blocks a = some b)
    (hcontrol : b.control = some cmd) : s.file.cacheData = some a ∧ ∃ given,
      s.player = .wait cmd given ∧ (Asked s b cmd given ∨ Answered s a b cmd given) := by
  -- Only the open stream's block can hold a command, and only while the player waits.
  have hmine : s.file.cacheData = some a := by
    by_contra hother
    rw [h.others a b hb hother] at hcontrol
    cases hcontrol
  have hsaid := h.said a hmine b hb
  have hset : ¬ Silent s b := by
    rintro ⟨-, hnone, -⟩
    rw [hnone] at hcontrol
    cases hcontrol
  refine ⟨hmine, ?_⟩
  unfold Said at hsaid
  cases hplayer : s.player <;> simp only [hplayer] at hsaid
  case wait cmd' given =>
    -- the command in the block is the one the player waits for
    have heq : cmd' = cmd := by
      rcases hsaid with ⟨-, hcmd, -⟩ | ⟨l, callback, input, before, output, after, -, -, -, -, -,
        ⟨hcmd, -⟩ | ⟨-, ⟨hcmd, -⟩ | ⟨hnone, -⟩⟩⟩
      · rw [hcmd] at hcontrol
        exact Option.some.inj hcontrol
      · rw [hcmd] at hcontrol
        exact Option.some.inj hcontrol
      · rw [hcmd] at hcontrol
        exact Option.some.inj hcontrol
      · rw [hnone] at hcontrol
        cases hcontrol
    subst heq
    exact ⟨given, rfl, hsaid⟩
  case collect cmd' given =>
    rw [hsaid.2] at hcontrol
    cases hcontrol
  case send cmd' given => exact absurd hsaid.1 hset
  all_goals exact absurd hsaid hset

/-- The end of a cache is not a command of the player. -/
theorem Talk.control_ne_quit (h : Talk s) {b : CacheBlock} (hb : s.blocks a = some b) :
    b.control ≠ some .quit := by
  intro hcontrol
  obtain ⟨-, given, hplayer, -⟩ := h.pending hb hcontrol
  exact (h.command .quit (by rw [hplayer]; rfl)).2.2.2 rfl

/-- Where a command is in the player's call, the player's own cache is the only one to be shown. -/
theorem Talk.of_wait (h : Talk s) (hl : Lent s) (hm : CthreadMoves s t)
    (hmine : s.file.cacheData = some a) {cmd : Ctrl} {given : CtrlArgs} {b b' : CacheBlock}
    (hplayer : s.player = .wait cmd given) (hb : s.blocks a = some b)
    (hblocks : t.blocks = (s.store a b').blocks)
    (hcopy : ∀ c' ∈ b'.copy, ∃ c, b.copy = some c ∧ c'.2 = c.2)
    (hquit : ∀ a, t.cthread ≠ .answer a true)
    (hsaid : Asked t b' cmd given ∨ Answered t a b' cmd given) : Talk t where
  -- Only the block of the open stream has been stored to, and the player waits on it throughout.
  mine := h.mine_of_moves hl hm
  command := by
    rw [hm.player, hm.file]
    exact h.command
  callback := by
    rw [hm.file]
    intro a₁ ha₁ b₁ hb₁ c₁ hc₁
    rw [hmine] at ha₁
    cases ha₁
    rw [hblocks, store_blocks_self] at hb₁
    cases hb₁
    obtain ⟨c, hc, heq⟩ := hcopy c₁ hc₁
    rw [heq]
    exact h.callback a hmine b hb c hc
  quit := fun _ => hquit
  said := by
    rw [hm.file]
    intro a₁ ha₁ b₁ hb₁
    rw [hmine] at ha₁
    cases ha₁
    rw [hblocks, store_blocks_self] at hb₁
    cases hb₁
    unfold Said
    rw [hm.player, hplayer]
    exact hsaid
  others := by
    rw [hm.file]
    intro a₁ b₁ hb₁ hother
    rw [hblocks, store_blocks_of_ne (fun heq => hother (by rw [heq]; exact hmine))] at hb₁
    exact h.others a₁ b₁ hb₁ hother
  closed := by
    rw [hm.file, hmine]
    exact fun hnone => by cases hnone

/-- An update of the ring and of the stream is not about a command. -/
theorem Leaves.ring {b : CacheBlock} {c : Stream × Option Callback} (hc : b.copy = some c)
    (vars : CacheVars) (stream : Stream) :
    Leaves b { b with vars := vars, copy := some (stream, c.2) } :=
  ⟨id, fun _ hc' => ⟨c, hc, by cases hc'; rfl⟩⟩

/-- A block whose control and copy are kept is left alone. -/
theorem Leaves.same {b b' : CacheBlock} (hcontrol : b.control = none → b'.control = none)
    (hcopy : b'.copy = b.copy) : Leaves b b' :=
  ⟨hcontrol, fun c' hc' => ⟨c', by rwa [← hcopy], rfl⟩⟩

/-- Where the thread looks for a command, none has been answered. -/
theorem not_answered {b : CacheBlock} {cmd : Ctrl} {given : CtrlArgs} (hpc : s.cthread = .serve a) :
    ¬ Answered s a b cmd given := by
  rintro ⟨l, callback, input, before, output, after, -, -, -, -, -, hstate⟩
  rw [hpc] at hstate
  rcases hstate with ⟨-, hflush, -⟩ | ⟨-, ⟨-, hanswer⟩ | ⟨-, hrest⟩⟩
  · cases hflush
  · cases hanswer
  · cases hrest

/-- A command meets the callback of the stream. -/
theorem Talk.serve (h : Talk s) (hl : Lent s) (hpc : s.cthread = .serve a)
    (hm : CthreadMoves s (s.serveStep a o)) : Talk (s.serveStep a o) := by
  have hs : s.cthread.address = some a := by rw [hpc]; rfl
  obtain ⟨b, hb, c, hc⟩ := hl.address a hs
  obtain ⟨callback, hcallback⟩ := Option.isSome_iff_exists.mp
    (hl.controls (by rw [hpc]; rfl) a hs b hb c hc)
  rw [Option.mem_def] at hb
  rw [serveStep, touch_of_blocks hb hc] at hm ⊢
  cases hcontrol : b.control with
  | none =>
    simp only [hcontrol] at hm ⊢
    have hcommand : s.player.command = none := by
      by_contra hsome
      obtain ⟨-, cmd, given, -, ⟨-, hset, -⟩ | hanswered⟩ :=
        h.waiting (Option.isSome_iff_ne_none.mpr hsome) (by rw [hpc]; rfl) hs hb
      · rw [hset] at hcontrol
        cases hcontrol
      · exact (not_answered hpc hanswered).elim
    refine h.of_silent hl hm hcommand rfl (fun _ a heq => by cases heq)
      (blocks_store Leaves.refl hb (.same (fun _ => rfl) rfl)) ?_
    intro _ _ hrest
    rw [hpc] at hrest
    cases hrest
  | some cmd =>
    simp only [hcontrol] at hm ⊢
    obtain ⟨hmine, given, hplayer, hsaid⟩ := h.pending hb hcontrol
    have hcmd := h.command cmd (by rw [hplayer]; rfl)
    obtain ⟨f, hf⟩ := cmd.field_of_passedOn hcmd.2.2.1 hcmd.2.2.2
    simp only [hf, hcallback] at hm ⊢
    refine h.of_wait hl hm hmine hplayer hb rfl (fun c' hc' => ⟨c, hc, by cases hc'; exact hcallback.symm⟩) ?_ ?_
    · intro a' heq
      split at heq <;> cases heq
    · -- the command is the one that was asked for
      rcases hsaid with ⟨⟨l, hclosed, hsent⟩, -, hfits, -⟩ | hanswered
      swap
      · exact (not_answered hpc hanswered).elim
      have hown : s.file.callback = some callback := by
        rw [← hcallback]
        exact (h.callback a hmine b hb c hc).symm
      rw [hown] at hsent
      rw [hf, Option.getD_some] at hfits
      right
      refine ⟨l, callback, _, _, _, _, hclosed, by rw [hsent], rfl, ?_, ?_, ?_⟩
      · intro f' hf' hown'
        rw [hf, Option.mem_some_iff] at hf'
        subst hf'
        have htaken : cmd.input f b.args o.junk = b.args.only f := by
          rw [Ctrl.input, if_pos hown']
        rw [htaken]
        exact hfits f hf hown'
      · intro f' hf'
        rw [hf, Option.mem_some_iff] at hf'
        subst hf'
        cases f <;> rfl
      · -- the positions are reset exactly after a success that has moved the stream
        simp only
        split_ifs with hmoves
        · left
          refine ⟨trivial, rfl, ?_⟩
          rintro c' ⟨⟩
          rfl
        · refine Or.inr ⟨fun hok hmove => absurd ⟨hok, hmove⟩ hmoves, Or.inl ⟨trivial, rfl⟩⟩

/-- The thread flushes its ring. -/
theorem Talk.flush (h : Talk s) (hl : Lent s) (hpc : s.cthread = .flush a)
    (hm : CthreadMoves s (s.flushStep a)) : Talk (s.flushStep a) := by
  have hs : s.cthread.address = some a := by rw [hpc]; rfl
  obtain ⟨b, hb, c, hc⟩ := hl.address a hs
  rw [Option.mem_def] at hb
  rw [flushStep, touch_of_blocks hb hc] at hm ⊢
  cases hcommand : s.player.command with
  -- without a command the thread flushes for itself
  | none =>
    refine h.of_silent hl hm hcommand rfl (fun _ a heq => by cases heq)
      (blocks_store Leaves.refl hb (.same id rfl)) ?_
    intro _ _ hrest
    rw [hpc] at hrest
    cases hrest
  | some cmd =>
    obtain ⟨hmine, cmd, given, hplayer, hsaid⟩ :=
      h.waiting (by rw [hcommand]; rfl) (by rw [hpc]; rfl) hs hb
    refine h.of_wait hl hm hmine hplayer hb rfl (fun c' hc' => ⟨c', hc', rfl⟩)
      (fun a heq => by cases heq) (Or.inr ?_)
    rcases hsaid with ⟨-, -, -, hidle⟩ | hanswered
    · rw [hpc] at hidle
      cases hidle
    · obtain ⟨l, callback, input, before, output, after, hclosed, hserved, hcall, hfits, hargs,
        hstate⟩ := hanswered
      rw [hpc] at hstate
      rcases hstate with ⟨hset, -, hafter⟩ | ⟨-, ⟨-, hanswer⟩ | ⟨-, hrest⟩⟩
      -- behind a success that has moved the stream the positions are those of the stream
      · refine ⟨l, callback, input, before, output, after, hclosed, hserved, hcall, hfits, hargs,
          Or.inr ⟨fun _ _ => ?_, Or.inl ⟨hset, rfl⟩⟩⟩
        rw [← hafter c hc]
        rfl
      · cases hanswer
      · cases hrest

/-- The thread takes the command away. -/
theorem Talk.answer (h : Talk s) (hl : Lent s) {quit : Bool} (hpc : s.cthread = .answer a quit)
    {b : CacheBlock} (hb : s.blocks a = some b)
    (hm : CthreadMoves s { s.store a { b with control := none } with
      cthread := if quit then .suspend else .stopTest a }) :
    Talk { s.store a { b with control := none } with
      cthread := if quit then .suspend else .stopTest a } := by
  have hs : s.cthread.address = some a := by rw [hpc]; rfl
  have hquit : ∀ a', (if quit then CthreadPc.suspend else .stopTest a) ≠ .answer a' true := by
    intro a' heq
    split at heq <;> cases heq
  cases hcommand : s.player.command with
  -- nobody waits
  | none =>
    refine h.of_silent hl hm hcommand rfl (fun _ => hquit)
      (blocks_store Leaves.refl hb (.same (fun _ => rfl) rfl)) ?_
    intro _ _ hrest
    rw [hpc] at hrest
    cases hrest
  | some cmd =>
    obtain ⟨hmine, cmd, given, hplayer, hsaid⟩ :=
      h.waiting (by rw [hcommand]; rfl) (by rw [hpc]; rfl) hs hb
    refine h.of_wait hl hm hmine hplayer hb rfl (fun c' hc' => ⟨c', hc', rfl⟩) hquit (Or.inr ?_)
    rcases hsaid with ⟨-, -, -, hidle⟩ | hanswered
    · rw [hpc] at hidle
      cases hidle
    · obtain ⟨l, callback, input, before, output, after, hclosed, hserved, hcall, hfits, hargs,
        hstate⟩ := hanswered
      rw [hpc] at hstate
      rcases hstate with ⟨-, hflush, -⟩ | ⟨hland, -⟩
      · cases hflush
      -- the player may collect from here on
      · refine ⟨l, callback, input, before, output, after, hclosed, hserved, hcall, hfits, hargs,
          Or.inr ⟨hland, Or.inr ⟨rfl, ?_⟩⟩⟩
        simp only
        split_ifs <;> rfl

/-- A step of the thread that stores nothing and says nothing about a command. -/
theorem Talk.of_goes (h : Talk s) (hl : Lent s) (hm : CthreadMoves s t) (hlog : t.log = s.log)
    (hblocks : t.blocks = s.blocks) (hs : s.cthread.answering = false)
    (ht : t.cthread.answering = false)
    (hquiet : t.cthread.working = true → s.cthread.working = true) : Talk t := by
  refine h.of_keep hl hm hlog hs ht hquiet fun a b hb => ?_
  rw [hblocks] at hb
  exact ⟨b, hb, .refl b, rfl, rfl, rfl, rfl⟩

/-- A step of the thread that stores the cache, and says nothing about a command. -/
theorem Talk.of_store (h : Talk s) (hl : Lent s) (hm : CthreadMoves s t) (hlog : t.log = s.log)
    {b b' : CacheBlock} (hb : s.blocks a = some b) (hblocks : t.blocks = (s.store a b').blocks)
    (hleaves : Leaves b b') (hcontrol : b'.control = b.control)
    (hres : b'.controlRes = b.controlRes) (hargs : b'.args = b.args)
    (hread : b'.vars.readFilepos = b.vars.readFilepos) (hs : s.cthread.answering = false)
    (ht : t.cthread.answering = false)
    (hquiet : t.cthread.working = true → s.cthread.working = true) : Talk t := by
  refine h.of_keep hl hm hlog hs ht hquiet ?_
  rw [hblocks]
  exact blocks_store (fun b => ⟨.refl b, rfl, rfl, rfl, rfl⟩) hb
    ⟨hleaves, hcontrol, hres, hargs, hread⟩

/-- `cache_fill` to the read of the stream. -/
theorem Talk.fill (h : Talk s) (hl : Lent s) (hpc : s.cthread = .fill (some a))
    (hm : CthreadMoves s (s.fillStep r a o)) : Talk (s.fillStep r a o) := by
  obtain ⟨b, c, hb, hc⟩ := hl.at_work (a := a) (by rw [hpc]; rfl)
  rw [fillStep, touch_of_blocks hb hc] at hm ⊢
  refine h.of_store hl hm rfl hb rfl (.ring hc _ _) rfl rfl rfl (readFilepos_cacheFillBegin _ _)
    (by rw [hpc]; rfl) ?_ ?_
  · simp only
    split <;> rfl
  · intro hset
    simp only at hset
    split at hset <;> cases hset

/-- `cache_fill` from the read of the stream on. -/
theorem Talk.fillRead (h : Talk s) (hl : Lent s) {plan : FillPlan}
    (hpc : s.cthread = .fillRead a plan) (hm : CthreadMoves s (s.fillReadStep src r a plan o)) :
    Talk (s.fillReadStep src r a plan o) := by
  obtain ⟨b, c, hb, hc⟩ := hl.at_work (a := a) (by rw [hpc]; rfl)
  rw [fillReadStep, touch_of_blocks hb hc] at hm ⊢
  exact h.of_store hl hm rfl hb rfl (.ring hc _ _) rfl rfl rfl (readFilepos_cacheFillEnd _ _ _)
    (by rw [hpc]; rfl) rfl fun hset => by cases hset

/-- The player sends no command to a stream without a callback. -/
theorem Talk.command_none (h : Talk s) (hs : s.cthread.address = some a) {b : CacheBlock}
    {c : Stream × Option Callback} (hb : s.blocks a = some b) (hc : b.copy = some c)
    (hnone : c.2 = none) : s.player.command = none := by
  by_contra hsome
  obtain ⟨cmd, hcmd⟩ := Option.ne_none_iff_exists'.mp hsome
  obtain ⟨hcallback, hpid, -⟩ := h.command cmd hcmd
  rw [← h.callback a (h.mine hpid a hs) b hb c hc, hnone] at hcallback
  cases hcallback

/-- The answer for a stream without a callback. -/
theorem Talk.execute (h : Talk s) (hl : Lent s) (hpc : s.cthread = .execute (some a))
    (hm : CthreadMoves s (s.executeStep a)) : Talk (s.executeStep a) := by
  have hs : s.cthread.address = some a := by rw [hpc]; rfl
  obtain ⟨b, c, hb, hc⟩ := hl.at_work hs
  rw [executeStep, touch_of_blocks hb hc] at hm ⊢
  simp only [h.control_ne_quit hb, decide_false, Bool.false_eq_true, false_or,
    Option.isNone_iff_eq_none] at hm ⊢
  by_cases hnone : c.2 = none
  · rw [if_pos hnone] at hm ⊢
    refine h.of_silent hl hm (h.command_none hs hb hc hnone) rfl (fun _ a' heq => by cases heq)
      (blocks_store Leaves.refl hb (.same id rfl)) ?_
    intro hpid hcallback
    rw [← h.callback a (h.mine hpid a hs) b hb c hc, hnone] at hcallback
    cases hcallback
  · rw [if_neg hnone] at hm ⊢
    exact h.of_goes hl hm rfl rfl (by rw [hpc]; rfl) rfl fun hset => by cases hset

/-- The times are asked for beside the commands. -/
theorem Talk.times (h : Talk s) (hl : Lent s) (hpc : s.cthread = .times a)
    (hm : CthreadMoves s (s.timesStep a o)) : Talk (s.timesStep a o) := by
  obtain ⟨b, c, callback, hb, hc, hcallback⟩ :=
    hl.called (a := a) (by rw [hpc]; rfl) (by rw [hpc]; rfl)
  rw [timesStep, touch_of_blocks hb hc] at hm ⊢
  split_ifs at hm ⊢ with hdue
  · simp only [hcallback] at hm ⊢
    refine h.of_store hl hm rfl hb rfl ⟨id, ?_⟩ rfl rfl rfl rfl (by rw [hpc]; rfl) rfl
      fun hset => by cases hset
    rintro c' ⟨⟩
    exact ⟨c, hc, hcallback.symm⟩
  · exact h.of_goes hl hm rfl rfl (by rw [hpc]; rfl) rfl fun hset => by cases hset

/-- Storing what is there is no store. -/
theorem store_blocks_of_blocks {b : CacheBlock} (hb : s.blocks a = some b) :
    (s.store a b).blocks = s.blocks := by
  rw [store, ← hb, Function.update_eq_self]

/-- The thread finds the command that the player has stored. -/
theorem Talk.test (h : Talk s) (hl : Lent s) (hpc : s.cthread = .test a)
    (hm : CthreadMoves s (s.touch a fun b _ =>
      { s with cthread := if b.control.isNone then .stopTest a else .serve a })) :
    Talk (s.touch a fun b _ =>
      { s with cthread := if b.control.isNone then .stopTest a else .serve a }) := by
  obtain ⟨b, c, hb, hc⟩ := hl.at_work (a := a) (by rw [hpc]; rfl)
  rw [touch_of_blocks hb hc] at hm ⊢
  cases hcontrol : b.control with
  | none =>
    simp only [hcontrol, Option.isNone_none, if_true] at hm ⊢
    exact h.of_goes hl hm rfl rfl (by rw [hpc]; rfl) rfl nofun
  | some cmd =>
    simp only [hcontrol, Option.isNone_some, Bool.false_eq_true, if_false] at hm ⊢
    obtain ⟨hmine, given, hplayer, hsaid⟩ := h.pending hb hcontrol
    refine h.of_wait hl hm hmine hplayer hb (store_blocks_of_blocks hb).symm
      (fun c' hc' => ⟨c', hc', rfl⟩) (fun _ => nofun) ?_
    rcases hsaid with ⟨hsent, hset, hfits, -⟩ | ⟨l, callback, input, before, output, after, -, -, -,
      -, -, hstate⟩
    · exact Or.inl ⟨hsent, hset, hfits, rfl⟩
    · rw [hpc, hcontrol] at hstate
      rcases hstate with ⟨-, hflush, -⟩ | ⟨-, ⟨-, hanswer⟩ | ⟨hnone, -⟩⟩
      · cases hflush
      · cases hanswer
      · cases hnone

/-- Wherever the thread is. -/
theorem Talk.cthreadStep (h : Talk s) (hl : Lent s) (hstep : s.cthreadStep src r o = some t) :
    Talk t := by
  have hm := cthreadStep_moves hl hstep
  unfold CacheSys.cthreadStep at hstep
  rw [if_neg (by rw [hm.awake]; exact Bool.false_ne_true)] at hstep
  cases hpc : s.cthread with
  -- the stages that touch no block
  | suspend | resumed | call | stopTest =>
    rw [hpc] at hstep
    cases hstep
    refine h.of_goes hl hm rfl rfl (by rw [hpc]; rfl) ?_ ?_
    · simp only
      try split_ifs
      all_goals rfl
    · simp only
      try split_ifs
      all_goals exact nofun
  -- the thread reads `cachearg` anew in `cache_fill` and `cache_execute_control`
  | fill arg =>
    rw [hpc] at hstep
    cases arg with
    | none =>
      cases hstep
      exact h.of_goes hl hm rfl rfl (by rw [hpc]; rfl) rfl nofun
    | some a =>
      cases hstep
      exact h.fill hl hpc hm
  | fillRead a plan =>
    rw [hpc] at hstep
    cases hstep
    exact h.fillRead hl hpc hm
  | execute arg =>
    rw [hpc] at hstep
    cases arg with
    | none =>
      cases hstep
      exact h.of_goes hl hm rfl rfl (by rw [hpc]; rfl) rfl nofun
    | some a =>
      cases hstep
      exact h.execute hl hpc hm
  | times a =>
    rw [hpc] at hstep
    cases hstep
    exact h.times hl hpc hm
  | test a =>
    rw [hpc] at hstep
    cases hstep
    exact h.test hl hpc hm
  | serve a =>
    rw [hpc] at hstep
    cases hstep
    exact h.serve hl hpc hm
  | flush a =>
    rw [hpc] at hstep
    cases hstep
    exact h.flush hl hpc hm
  -- `*s->control = -1` lets the player go
  | answer a quit =>
    obtain ⟨b, c, hb, hc⟩ := hl.at_work (a := a) (by rw [hpc]; rfl)
    rw [hpc] at hstep
    cases hstep
    rw [touch_of_blocks hb hc] at hm ⊢
    exact h.answer hl hpc hb hm

/-- Another stream is freed. -/
theorem Talk.uninitOther (h : Talk s) (cachearg : Option ℕ) (fillStatus : ℚ) :
    Talk { s with cachearg, fillStatus } where
  mine := h.mine
  command := h.command
  callback := h.callback
  quit := h.quit
  said := h.said
  others := h.others
  closed := h.closed

/-! ## The steps of the player -/

/-- Without a command the block of the stream is silent. -/
theorem Talk.silent (h : Talk s) (hcommand : s.player.command = none) {b : CacheBlock}
    (ha : s.file.cacheData = some a) (hb : s.blocks a = some b) : Silent s b :=
  (said_of_command_none hcommand).mp (h.said a ha b hb)

/-- Between two commands of a player that has no cache any more, or has none yet, all is said. -/
theorem Talk.closed_log (h : Talk s) (hl : Lent s) (hcommand : s.player.command = none) :
    Closed s.log := by
  cases ha : s.file.cacheData with
  | none => exact h.closed ha
  | some a =>
    obtain ⟨b, hb⟩ := Option.isSome_iff_exists.mp (hl.present a ha)
    exact (h.silent hcommand ha hb).1

/-- Where the player has no command, no cache has one. -/
theorem Talk.control_none (h : Talk s) (hcommand : s.player.command = none) {b : CacheBlock}
    (hb : s.blocks a = some b) : b.control = none := by
  by_cases ha : s.file.cacheData = some a
  · exact (h.silent hcommand ha hb).2.1
  · exact h.others a b hb ha

/-- A state in which the player has no command. -/
theorem Talk.of_commandless (hcommand : s.player.command = none) (hclosed : Closed s.log)
    (hmine : s.file.cachePid = true → ∀ a ∈ s.cthread.address, s.file.cacheData = some a)
    (hcallback : ∀ a ∈ s.file.cacheData, ∀ b ∈ s.blocks a, ∀ c ∈ b.copy, c.2 = s.file.callback)
    (hquit : s.file.cachePid = true → ∀ a, s.cthread ≠ .answer a true)
    (hworking : s.file.cachePid = true → s.file.callback.isSome = true → s.cthread.working = false)
    (hcontrol : ∀ a b, s.blocks a = some b → b.control = none) : Talk s where
  mine := hmine
  command cmd hcmd := by
    rw [hcommand] at hcmd
    cases hcmd
  callback := hcallback
  quit := hquit
  said a ha b hb := (said_of_command_none hcommand).mpr ⟨hclosed, hcontrol a b hb, hworking⟩
  others a b hb _ := hcontrol a b hb
  closed _ := hclosed

/-- The thread of an enabled stream is executing nothing between two commands. -/
theorem Talk.idle (h : Talk s) (hl : Lent s) (hcommand : s.player.command = none) :
    s.file.cachePid = true → s.file.callback.isSome = true → s.cthread.working = false := by
  intro hpid hcallback
  obtain ⟨a, b, ha, hb, -⟩ := hl.data hpid
  exact (h.silent hcommand ha hb).2.2 hpid hcallback

/-- A step of the player outside of its commands that leaves its stream and the caches alone. -/
theorem Talk.goTo (h : Talk s) (hl : Lent s) (hs : s.player.command = none)
    (ht : t.player.command = none) (hblocks : t.blocks = s.blocks) (hfile : t.file = s.file)
    (hcthread : t.cthread = s.cthread) (hlog : Closed s.log → Closed t.log) : Talk t := by
  refine .of_commandless ht (hlog (h.closed_log hl hs)) ?_ ?_ ?_ ?_ ?_
  · rw [hfile, hcthread]
    exact h.mine
  · rw [hfile, hblocks]
    exact h.callback
  · rw [hfile, hcthread]
    exact h.quit
  · rw [hfile, hcthread]
    exact h.idle hl hs
  · rw [hblocks]
    exact fun a b => h.control_none hs

/-- A cache is stored while the player has no command. -/
theorem Talk.store (h : Talk s) (hl : Lent s) (hs : s.player.command = none) {b' : CacheBlock}
    {pc : PlayerPc} (ht : pc.command = none) (hcontrol : b'.control = none)
    (hcallback : s.file.cacheData = some a → ∀ c ∈ b'.copy, c.2 = s.file.callback) :
    Talk { s.store a b' with player := pc } := by
  refine .of_commandless ht (h.closed_log hl hs) h.mine ?_ h.quit (h.idle hl hs) ?_
  · intro a₁ ha₁ b₁ hb₁
    change b₁ ∈ (s.store a b').blocks a₁ at hb₁
    by_cases ha : a₁ = a
    · subst ha
      rw [store_blocks_self] at hb₁
      cases hb₁
      exact hcallback ha₁
    · rw [store_blocks_of_ne ha] at hb₁
      exact h.callback a₁ ha₁ b₁ hb₁
  · intro a₁ b₁ hb₁
    change (s.store a b').blocks a₁ = some b₁ at hb₁
    by_cases ha : a₁ = a
    · subst ha
      rw [store_blocks_self] at hb₁
      cases hb₁
      exact hcontrol
    · rw [store_blocks_of_ne ha] at hb₁
      exact h.control_none hs hb₁

/-- The arguments that are stored fit the command. -/
theorem fits_storeArgs (cmd : Ctrl) (b : CacheBlock) (given : CtrlArgs) :
    cmd.Fits given ((storeArgs cmd b given).args.only (cmd.field.getD .double)) := by
  intro f hf hown
  cases cmd <;> cases hf <;>
    first
    | rfl
    | (rcases hown with hmoves | hlang
       · cases hmoves
       · cases hlang)

/-- `cache_do_control` stores the argument. -/
theorem Talk.post (h : Talk s) {cmd : Ctrl} {given : CtrlArgs} {b : CacheBlock}
    (hplayer : s.player = .post cmd given) (ha : s.file.cacheData = some a)
    (hb : s.blocks a = some b) :
    Talk { s.store a (storeArgs cmd b given) with player := .send cmd given } := by
  have hsaid := h.said a ha b hb
  simp only [Said, hplayer] at hsaid
  -- Storing the arguments leaves the command word alone, so the thread still sees none.
  have hargs : (storeArgs cmd b given).control = b.control := by cases cmd <;> rfl
  constructor
  case mine => exact h.mine
  case command => exact fun cmd' hcmd => h.command cmd' (by rw [hplayer]; exact hcmd)
  case callback =>
    intro a₁ ha₁ b₁ hb₁ c hc
    change s.file.cacheData = some a₁ at ha₁
    rw [ha] at ha₁
    cases ha₁
    change b₁ ∈ (s.store a _).blocks a at hb₁
    rw [store_blocks_self] at hb₁
    cases hb₁
    rw [storeArgs_copy] at hc
    exact h.callback a ha b hb c hc
  case quit => exact h.quit
  -- the player now holds what the block holds
  case said =>
    intro a₁ ha₁ b₁ hb₁
    change s.file.cacheData = some a₁ at ha₁
    rw [ha] at ha₁
    cases ha₁
    change b₁ ∈ (s.store a _).blocks a at hb₁
    rw [store_blocks_self] at hb₁
    cases hb₁
    exact ⟨⟨hsaid.1, hargs.trans hsaid.2.1, hsaid.2.2⟩, fits_storeArgs cmd b given⟩
  case others =>
    intro a₁ b₁ hb₁ hother
    change (s.store a _).blocks a₁ = some b₁ at hb₁
    rw [store_blocks_of_ne (fun heq => hother (by rw [heq]; exact ha))] at hb₁
    exact h.others a₁ b₁ hb₁ hother
  case closed =>
    intro hnone
    change s.file.cacheData = none at hnone
    rw [ha] at hnone
    cases hnone

/-- `cache_do_control` stores the command. -/
theorem Talk.send (h : Talk s) {cmd : Ctrl} {given : CtrlArgs} {b : CacheBlock}
    (hplayer : s.player = .send cmd given) (ha : s.file.cacheData = some a)
    (hb : s.blocks a = some b) :
    Talk { s.store a { b with control := some cmd } with
      player := .wait cmd given
      log := .sent s.file.callback cmd given :: s.log } := by
  have hsaid := h.said a ha b hb
  simp only [Said, hplayer] at hsaid
  obtain ⟨⟨hclosed, -, hrest⟩, hfits⟩ := hsaid
  obtain ⟨hcallback, hpid, -⟩ := h.command cmd (by rw [hplayer]; rfl)
  -- Nothing was outstanding, so the thread is not in the middle of an answer.
  have hidle : s.cthread.answering = false := by
    have := hrest hpid hcallback
    cases hpc : s.cthread <;> rw [hpc] at this <;> first | rfl | cases this
  constructor
  case mine => exact h.mine
  case command => exact fun cmd' hcmd => h.command cmd' (by rw [hplayer]; exact hcmd)
  case callback =>
    intro a₁ ha₁ b₁ hb₁ c hc
    change s.file.cacheData = some a₁ at ha₁
    rw [ha] at ha₁
    cases ha₁
    change b₁ ∈ (s.store a _).blocks a at hb₁
    rw [store_blocks_self] at hb₁
    cases hb₁
    exact h.callback a ha b hb c hc
  case quit => exact h.quit
  -- from here on the command is asked
  case said =>
    intro a₁ ha₁ b₁ hb₁
    change s.file.cacheData = some a₁ at ha₁
    rw [ha] at ha₁
    cases ha₁
    change b₁ ∈ (s.store a _).blocks a at hb₁
    rw [store_blocks_self] at hb₁
    cases hb₁
    exact Or.inl ⟨⟨s.log, hclosed, rfl⟩, rfl, hfits, hidle⟩
  case others =>
    intro a₁ b₁ hb₁ hother
    change (s.store a _).blocks a₁ = some b₁ at hb₁
    rw [store_blocks_of_ne (fun heq => hother (by rw [heq]; exact ha))] at hb₁
    exact h.others a₁ b₁ hb₁ hother
  case closed =>
    intro hnone
    change s.file.cacheData = none at hnone
    rw [ha] at hnone
    cases hnone

/-- `cache_do_control` comes out of its loop. -/
theorem Talk.wait (h : Talk s) {cmd : Ctrl} {given : CtrlArgs} {b : CacheBlock}
    (hplayer : s.player = .wait cmd given) (ha : s.file.cacheData = some a)
    (hb : s.blocks a = some b) (hnone : b.control = none) :
    Talk { s with player := .collect cmd given } where
  mine := h.mine
  command cmd' hcmd := h.command cmd' (by rw [hplayer]; exact hcmd)
  callback := h.callback
  quit := h.quit
  said a₁ ha₁ b₁ hb₁ := by
    change s.file.cacheData = some a₁ at ha₁
    rw [ha] at ha₁
    cases ha₁
    change s.blocks a = some b₁ at hb₁
    rw [hb] at hb₁
    cases hb₁
    have hsaid := h.said a ha b hb
    simp only [Said, hplayer] at hsaid
    rcases hsaid with ⟨-, hset, -⟩ | hanswered
    · rw [hset] at hnone
      cases hnone
    · exact ⟨hanswered, hnone⟩
  others := h.others
  closed := h.closed

/-- What is loaded depends on the field of the command only. -/
theorem loadArgs_congr {cmd : Ctrl} {f : CtrlField} (hf : cmd.field = some f)
    {args output : CtrlArgs} (heq : args.only f = output.only f) (given : CtrlArgs) :
    loadArgs cmd args given = loadArgs cmd output given := by
  cases cmd <;> cases hf <;> simp only [CtrlArgs.only, CtrlArgs.mk.injEq] at heq <;>
    simp only [loadArgs, heq]

/-- `cache_do_control` returns what the thread has left. -/
theorem Talk.collect (h : Talk s) (hl : Lent s) {cmd : Ctrl} {given : CtrlArgs}
    (hplayer : s.player = .collect cmd given) : Talk (s.collectStep cmd given) := by
  obtain ⟨hcallback, hpid, hpassed, hquit⟩ := h.command cmd (by rw [hplayer]; rfl)
  obtain ⟨f, hf⟩ := cmd.field_of_passedOn hpassed hquit
  obtain ⟨a, b, ha, hb, -⟩ := hl.data hpid
  have hsaid := h.said a ha b hb
  simp only [Said, hplayer] at hsaid
  obtain ⟨⟨l, callback, input, before, output, after, hclosed, hserved, hcall, hfits, hargs, hstate⟩,
    hnone⟩ := hsaid
  rw [hnone] at hstate
  -- Of the three stages of an answer only the last one has cleared the command.
  rcases hstate with ⟨hset, -⟩ | ⟨hland, ⟨hset, -⟩ | ⟨-, hrest⟩⟩
  · cases hset
  · cases hset
  have hcontrol : ∀ a b, s.blocks a = some b → b.control = none := by
    intro a₁ b₁ hb₁
    by_cases heq : a₁ = a
    · subst heq
      rw [hb] at hb₁
      cases hb₁
      exact hnone
    · refine h.others a₁ b₁ hb₁ (fun ha₁ => heq ?_)
      rw [ha] at ha₁
      exact (Option.some.inj ha₁).symm
  have hload := loadArgs_congr hf (hargs f hf) given
  rw [collectStep, touchData_of_blocks ha hb, hserved]
  -- a failure; a success that has moved the stream; any other success
  split_ifs with hfails hmoves
  · refine .of_commandless rfl ?_ h.mine h.callback h.quit (fun _ _ => hrest) hcontrol
    exact hclosed.call hcall hfits (fun _ => rfl) (fun hok => absurd hok hfails)
      (fun hok => absurd hok hfails)
  · rw [ne_eq, not_not] at hfails
    refine .of_commandless rfl ?_ h.mine h.callback h.quit (fun _ _ => hrest) hcontrol
    exact hclosed.call hcall hfits (fun hne => absurd hfails hne) (fun _ => hload)
      (fun hok _ => hland hok hmoves)
  · rw [ne_eq, not_not] at hfails
    refine .of_commandless rfl ?_ h.mine h.callback h.quit (fun _ _ => hrest) hcontrol
    exact hclosed.call hcall hfits (fun hne => absurd hfails hne) (fun _ => hload)
      (fun _ hmove => absurd hmove hmoves)

/-- The cache is switched on; the thread is parked. -/
theorem Talk.enablePid (h : Talk s) (hl : Lent s) (hplayer : s.player = .enablePid)
    (hstep : s.playerStep = some t) : Talk t := by
  have hstage := hl.stage
  simp only [Stage, hplayer] at hstage
  simp only [CacheSys.playerStep, hplayer] at hstep
  cases hstep
  have hcommand : s.player.command = none := by rw [hplayer]; rfl
  have hparked := hl.parked hstage.2.2
  refine .of_commandless rfl (h.closed_log hl hcommand) ?_ h.callback ?_ ?_
    (fun a b => h.control_none hcommand)
  · intro _ a ha
    change a ∈ s.cthread.address at ha
    rw [hparked] at ha
    cases ha
  · intro _ a heq
    change s.cthread = _ at heq
    rw [hparked] at heq
    cases heq
  · intro _ _
    change s.cthread.working = false
    rw [hparked]
    rfl

/-- The copy of the stream is freed. -/
theorem Talk.uninitStream (h : Talk s) (hl : Lent s) (hplayer : s.player = .uninitStream)
    (hstep : s.playerStep = some t) : Talk t := by
  have hcommand : s.player.command = none := by rw [hplayer]; rfl
  simp only [CacheSys.playerStep, hplayer] at hstep
  cases ha : s.file.cacheData with
  | none =>
    simp only [ha] at hstep
    cases hstep
    exact h.goTo hl hcommand rfl rfl rfl rfl id
  | some a =>
    obtain ⟨b, hb⟩ := Option.isSome_iff_exists.mp (hl.present a ha)
    simp only [ha, hb] at hstep
    cases hstep
    have hnone := h.control_none hcommand hb
    exact h.store hl hcommand rfl hnone (fun _ c hc => by cases hc)

/-- The data of the cache is freed. -/
theorem Talk.uninitFree (h : Talk s) (hl : Lent s) {a : ℕ} (hplayer : s.player = .uninitFree a)
    (hstep : s.playerStep = some t) : Talk t := by
  have hstage := hl.stage
  simp only [Stage, hplayer] at hstage
  have hcommand : s.player.command = none := by rw [hplayer]; rfl
  simp only [CacheSys.playerStep, hplayer] at hstep
  cases hstep
  have hfree : s.file.cachePid = true → False := by
    intro hset
    rw [hstage.1] at hset
    cases hset
  refine .of_commandless rfl (h.closed_log hl hcommand) (fun hset => (hfree hset).elim)
    (fun a ha => by cases ha) (fun hset => (hfree hset).elim) (fun hset => (hfree hset).elim) ?_
  intro a₁ b₁ hb₁
  change Function.update s.blocks a none a₁ = some b₁ at hb₁
  by_cases ha : a₁ = a
  · subst ha
    rw [Function.update_self] at hb₁
    cases hb₁
  · rw [Function.update_of_ne ha] at hb₁
    exact h.control_none hcommand hb₁

/-- A step of the player keeps the dialogue. -/
theorem Talk.playerStep (h : Talk s) (hl : Lent s) (hstep : s.playerStep = some t) : Talk t := by
  have horig := hstep
  unfold CacheSys.playerStep at hstep
  cases hplayer : s.player with
  | idle | enableCopy | prefill | paused =>
    rw [hplayer] at hstep
    cases hstep
  -- the three stores of `cache_do_control` go to the block of the open stream
  | post cmd given =>
    obtain ⟨a, b, ha, hb, -⟩ := hl.data (h.command cmd (by rw [hplayer]; rfl)).2.1
    simp only [hplayer, touchData_of_blocks ha hb] at hstep
    cases hstep
    exact h.post hplayer ha hb
  | send cmd given =>
    obtain ⟨a, b, ha, hb, -⟩ := hl.data (h.command cmd (by rw [hplayer]; rfl)).2.1
    simp only [hplayer, touchData_of_blocks ha hb] at hstep
    cases hstep
    exact h.send hplayer ha hb
  -- the wait ends with the store of `-1`, that is, with an answer
  | wait cmd given =>
    obtain ⟨a, b, ha, hb, -⟩ := hl.data (h.command cmd (by rw [hplayer]; rfl)).2.1
    simp only [hplayer, ha, hb] at hstep
    split_ifs at hstep with hnone
    cases hstep
    exact h.wait hplayer ha hb (Option.isNone_iff_eq_none.mp hnone)
  | collect cmd given =>
    simp only [hplayer] at hstep
    cases hstep
    exact h.collect hl hplayer
  -- the stages of opening, freeing and pausing send no command
  | enableWait | uninitWait | pauseWait =>
    simp only [hplayer] at hstep
    split_ifs at hstep
    cases hstep
    exact h.goTo hl (by rw [hplayer]; rfl) rfl rfl rfl rfl id
  | enableStop | enableArg | enableGo | enableResume | pauseStop | pauseGo | pauseResume =>
    simp only [hplayer] at hstep
    cases hstep
    exact h.goTo hl (by rw [hplayer]; rfl) rfl rfl rfl rfl id
  | enablePid => exact h.enablePid hl hplayer horig
  | uninit =>
    simp only [hplayer] at hstep
    cases hstep
    split_ifs
    · exact h.goTo hl (by rw [hplayer]; rfl) rfl rfl rfl rfl id
    · exact h.goTo hl (by rw [hplayer]; rfl) rfl rfl rfl rfl id
  -- the stream lets go of its block, so nothing is said any more
  | uninitClear =>
    simp only [hplayer] at hstep
    cases hstep
    have hcommand : s.player.command = none := by rw [hplayer]; rfl
    exact .of_commandless rfl (h.closed_log hl hcommand) (fun hset => by cases hset) h.callback
      (fun hset => by cases hset) (fun hset => by cases hset) (fun a b => h.control_none hcommand)
  | uninitStream => exact h.uninitStream hl hplayer horig
  | uninitFree a => exact h.uninitFree hl hplayer horig

/-- Setting up a cache keeps the dialogue. -/
theorem Talk.enable (h : Talk s) (hl : Lent s) (hplayer : s.player = .idle)
    {memory : Option (ℤ → UInt8)} {size sector seekLimit : ℤ}
    (hstep : s.enable a memory size sector seekLimit = some t) : Talk t := by
  have hcommand : s.player.command = none := by rw [hplayer]; rfl
  unfold CacheSys.enable at hstep
  split_ifs at hstep with hused
  -- A stream with a cache would not be given a second one.
  have hfree : s.file.cachePid = true → False := by
    intro hset
    obtain ⟨a', -, ha', -⟩ := hl.data hset
    rw [ha', Option.isSome_some] at hused
    exact hused (Or.inr rfl)
  split at hstep
  · cases hstep
    exact h.goTo hl hcommand hcommand rfl rfl rfl id
  · next vars _ =>
    cases hstep
    refine .of_commandless rfl (h.closed_log hl hcommand) (fun hset => (hfree hset).elim) ?_
      (fun hset => (hfree hset).elim) (fun hset => (hfree hset).elim) ?_
    · rintro a₁ ⟨⟩ b₁ hb₁ c hc
      change b₁ ∈ (s.store a _).blocks a at hb₁
      rw [store_blocks_self] at hb₁
      cases hb₁
      cases hc
    -- the new block holds no command
    · intro a₁ b₁ hb₁
      change (s.store a _).blocks a₁ = some b₁ at hb₁
      by_cases ha : a₁ = a
      · subst ha
        rw [store_blocks_self] at hb₁
        cases hb₁
        rfl
      · rw [store_blocks_of_ne ha] at hb₁
        exact h.control_none hcommand hb₁

/-- A call of `cache_do_control` keeps the dialogue. -/
theorem Talk.beginControl (h : Talk s) (hl : Lent s) (hplayer : s.player = .idle) {cmd : Ctrl}
    (hquit : cmd ≠ .quit) (given : CtrlArgs) : Talk (s.beginControl cmd given) := by
  have hcommand : s.player.command = none := by rw [hplayer]; rfl
  have htell : ∀ res arg, Talk (s.tell cmd res arg) := fun res arg =>
    h.goTo hl hcommand hcommand rfl rfl rfl .told
  unfold CacheSys.beginControl
  cases hcallback : s.file.callback with
  | none => exact htell _ _
  | some callback =>
    simp only
    -- passed on; answered from the cache's own times; without a cache
    split_ifs with hpid hpassed
    · constructor
      case mine => exact h.mine
      case command =>
        rintro cmd' ⟨⟩
        exact ⟨by rw [hcallback]; rfl, hpid, hpassed, hquit⟩
      case callback => exact h.callback
      case quit => exact h.quit
      case said =>
        intro a ha b hb
        exact h.silent hcommand ha hb
      case others => exact h.others
      case closed => exact h.closed
    · obtain ⟨a, b, ha, hb, -⟩ := hl.data hpid
      rw [touchData_of_blocks ha hb]
      split <;> exact htell _ _
    · exact .of_commandless hcommand (.told (h.closed_log hl hcommand))
        (fun hset => absurd hset hpid) h.callback (fun hset => absurd hset hpid)
        (fun hset => absurd hset hpid) (fun a b => h.control_none hcommand)

/-- No code sends `-2` to a cache that is served by a thread of the program. -/
def NoQuit (_ : CacheSys) : CacheAct → Prop
  | .control cmd _ => cmd ≠ .quit
  | _ => True

/-- A step of the whole keeps the dialogue. -/
theorem Talk.cacheSysStep (h : Talk s) (hl : Lent s) {act : CacheAct} (hok : NoQuit s act)
    (hstep : cacheSysStep src r s act = some t) : Talk t := by
  cases act with
  -- a new file has no cache yet, so nothing is said
  | openStream stream callback =>
    simp only [WiiMC.Cache.cacheSysStep, begins] at hstep
    split_ifs at hstep with hplayer
    cases hstep
    have hcommand : s.player.command = none := by rw [hplayer]; rfl
    exact .of_commandless hcommand (h.closed_log hl hcommand) (fun hset => by cases hset)
      (fun a ha => by cases ha) (fun hset => by cases hset) (fun hset => by cases hset)
      (fun a b => h.control_none hcommand)
  | enable a memory size sector seekLimit =>
    simp only [WiiMC.Cache.cacheSysStep] at hstep
    split_ifs at hstep with hplayer
    exact h.enable hl hplayer hstep
  | malloc ok =>
    simp only [WiiMC.Cache.cacheSysStep] at hstep
    split at hstep
    · next a hplayer =>
      cases hstep
      have hcommand : s.player.command = none := by rw [hplayer]; rfl
      have hstage := hl.stage
      simp only [Stage, hplayer] at hstage
      obtain ⟨b, hb⟩ := Option.isSome_iff_exists.mp (hl.present a hstage.2.1)
      cases ok with
      | false => exact h.goTo hl hcommand rfl rfl rfl rfl id
      | true =>
        simp only [copyStream, hb, if_true]
        have hnone := h.control_none hcommand hb
        exact h.store hl hcommand rfl hnone (by rintro - c ⟨⟩; rfl)
    · cases hstep
  -- filling in front, freeing, pausing: the player goes on without a command
  | prefilled ok =>
    simp only [WiiMC.Cache.cacheSysStep] at hstep
    split_ifs at hstep with hplayer hok
    all_goals
      cases hstep
      exact h.goTo hl (by rw [hplayer]; rfl) rfl rfl rfl rfl id
  | uninit | pause =>
    simp only [WiiMC.Cache.cacheSysStep, begins] at hstep
    split_ifs at hstep with hplayer
    cases hstep
    exact h.goTo hl (by rw [hplayer]; rfl) rfl rfl rfl rfl id
  | gui resumes =>
    simp only [WiiMC.Cache.cacheSysStep] at hstep
    split_ifs at hstep with hplayer hresumes
    all_goals
      cases hstep
      exact h.goTo hl (by rw [hplayer]; rfl) rfl rfl rfl rfl id
  | control cmd given =>
    simp only [WiiMC.Cache.cacheSysStep, begins] at hstep
    split_ifs at hstep with hplayer
    cases hstep
    exact h.beginControl hl hplayer hok given
  -- `stream_seek` and `stream_reset` store positions of the block, not its command
  | move pos eof =>
    simp only [WiiMC.Cache.cacheSysStep, begins] at hstep
    split_ifs at hstep with hpid hplayer
    cases hstep
    have hcommand : s.player.command = none := by rw [hplayer]; rfl
    obtain ⟨a, b, ha, hb, -⟩ := hl.data hpid
    rw [touchData_of_blocks ha hb]
    have hnone := h.control_none hcommand hb
    exact h.store hl hcommand hcommand hnone (fun ha => h.callback a ha b hb)
  -- another stream's `cache_uninit` touches `cachearg` and `cache_fill_status` only
  | uninitOther status =>
    cases hstep
    cases status with
    | false => exact h.uninitOther none s.fillStatus
    | true => exact h.uninitOther s.cachearg (-1)
  | player => exact h.playerStep hl hstep
  | cthread o => exact h.cthreadStep hl hstep

/-- The dialogue is kept in every run without the end of the program. -/
theorem talk_of_reachable (hs : (cacheThread src r).Reachable NoQuit s) : Talk s := by
  apply hs.invariant (I := Talk)
  · rintro s ⟨hblocks, -, -, -, hcthread, hpid, hdata, hplayer, -, hlog⟩
    refine .of_commandless (by rw [hplayer]; rfl) (by rw [hlog]; exact .nil) ?_ ?_ ?_ ?_ ?_
    · intro hset
      rw [hpid] at hset
      cases hset
    · intro a ha
      rw [hdata] at ha
      cases ha
    · intro hset
      rw [hpid] at hset
      cases hset
    · intro hset
      rw [hpid] at hset
      cases hset
    · intro a b hb
      rw [hblocks] at hb
      cases hb
  · exact fun s act t hs h hok hstep => h.cacheSysStep (lent_of_reachable hs) hok hstep

/-! ### A command -/

/-- The callback of a stream that can be moved to any chapter, two thousand bytes each. -/
def chapters : Callback := fun s cmd a =>
  if cmd = .seekToChapter then (streamOk, a, { s with pos := 2000 * a.uint })
  else (streamUnsupported, a, s)

/-- The stream is opened and enabled, and moved to the third chapter. -/
def chapterRun : List CacheAct :=
  .openStream fileStream chapters :: enableRun ++
    [.control .seekToChapter ⟨0, 3, ⟨0, 0, []⟩⟩, .player, .player, quietly, quietly, quietly, quietly,
      quietly, quietly, quietly, .player, .player]

theorem chapterRun_noQuit : ∀ act ∈ chapterRun, NoQuit beforeCache act := by
  intro act hact
  simp only [chapterRun, enableRun, quietly, List.cons_append, List.nil_append, List.mem_cons,
    List.not_mem_nil, or_false] at hact
  rcases hact with rfl | rfl | rfl | rfl | rfl | rfl | rfl | rfl | rfl | rfl | rfl | rfl | rfl | rfl |
    rfl | rfl | rfl | rfl | rfl | rfl | rfl | rfl | rfl | rfl | rfl | rfl <;>
    first | trivial | exact fun h => by cases h

/-- Whatever the threads do, each command that `cache_do_control` has returned from was answered by
exactly one call of the callback of its own stream, made for it after it was stored, and what was
returned, with the position after a command that moves the stream, is that call's. -/
theorem cacheDoControl_answered (hs : (cacheThread src r).Reachable NoQuit s)
    (hcommand : s.player.command = none) : Closed s.log :=
  (talk_of_reachable hs).closed_log (lent_of_reachable hs) hcommand

theorem cacheDoControl_answered_chapter : ∃ s,
    (cacheThread shortSource exactRounding).exec beforeCache chapterRun = some s ∧
      s.log.length = 3 ∧ Closed s.log := by
  obtain ⟨s, hexec, hplayer, hlog⟩ : ∃ s,
      (cacheThread shortSource exactRounding).exec beforeCache chapterRun = some s ∧
        s.player.command = none ∧ s.log.length = 3 := ⟨_, rfl, rfl, rfl⟩
  have hs : (cacheThread shortSource exactRounding).Reachable NoQuit s :=
    (System.Reachable.init (beforeCache_init _ _)).exec
      (System.OkAlong.of_forall (P := NoQuit beforeCache) chapterRun_noQuit _) hexec
  exact ⟨s, hexec, hlog, cacheDoControl_answered hs hplayer⟩

end WiiMC.Cache
