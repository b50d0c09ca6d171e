import WiiMC.Log.Card
import Mathlib.Data.List.FinRange

/-!
# The crash report

The exception handler of `debuglog.c` cuts what is waiting in the buffer, appends the whole report
behind it, and writes both to the crash file and to the reserve of the log. It formats by hand, with
calls that append a text, eight hexadecimal digits, or a decimal number.

* `Piece`: what one of these calls appends, and how long it is at most.
* `Machine`: what the report reads of the machine and of the program.
* `crashReport`: `crash_report`, as the calls that it makes.
* `width_report_le`: the longest report.
* `exceptionHandler`: `__wrap_c_default_exceptionhandler` on its first exception.
* `exceptionHandler_complete`: the report is never cut.
-/

namespace WiiMC.Log

open Bytes

/-! ## What the calls append -/

/-- One call of `crash_puts`, `crash_hex` or `crash_dec`. -/
inductive Piece
  | puts (s : List UInt8)
  | hex (v : UInt32)
  | dec (v : UInt32)

namespace Piece

/-- `crash_puts` with a constant of the program. -/
def txt (s : String) : Piece := .puts (ascii s)

/-- What the call hands to `buf_append`. -/
def bytes : Piece → List UInt8
  | .puts s => s
  | .hex v => hex8 v
  | .dec v => decimal v.toNat

/-- The most that it can be. -/
def width : Piece → ℕ
  | .puts s => s.length
  | .hex _ => 8
  | .dec _ => 10

/-- A call appends no more than its width. -/
theorem length_bytes_le (p : Piece) : p.bytes.length ≤ p.width := by
  cases p with
  | puts s => exact Nat.le_refl _
  | hex v => exact (length_hex8 v).le
  | dec v =>
    have hv : v.toNat < 10 ^ 10 := Nat.lt_of_lt_of_le v.toNat_lt (by decide)
    exact length_decimal_le (k := 10) (by decide) hv

end Piece

/-- The most that a list of calls can append. -/
def width (ps : List Piece) : ℕ := (ps.map Piece.width).sum

@[simp] theorem width_nil : width [] = 0 := rfl

@[simp] theorem width_cons (p : Piece) (ps : List Piece) :
    width (p :: ps) = p.width + width ps := rfl

/-- The widths of two lists of calls add up. -/
@[simp] theorem width_append (ps qs : List Piece) : width (ps ++ qs) = width ps + width qs := by
  rw [width, List.map_append, List.sum_append, width, width]

/-- A loop appends at most as often as it turns. -/
theorem width_flatMap_le {α : Type*} {f : α → List Piece} {k : ℕ} (hf : ∀ a, width (f a) ≤ k)
    (l : List α) : width (l.flatMap f) ≤ l.length * k := by
  induction l with
  | nil => exact Nat.zero_le _
  | cons a l ih =>
    rw [List.flatMap_cons, width_append, List.length_cons, Nat.succ_mul, Nat.add_comm]
    exact Nat.add_le_add ih (hf a)

/-- A list of calls appends no more than its width. -/
theorem length_flatten_le (ps : List Piece) :
    (ps.map Piece.bytes).flatten.length ≤ width ps := by
  induction ps with
  | nil => exact Nat.le_refl _
  | cons p ps ih =>
    rw [List.map_cons, List.flatten_cons, List.length_append]
    exact Nat.add_le_add p.length_bytes_le ih

/-! ## What the report reads -/

/-- The exceptions that `exception_name` has a name for. Their numbers are libogc's. -/
inductive Exception
  | sysReset | machCheck | dsi | isi | int | align | prg | fp | dec | sysCall | trace | perf | iabr
  | therm

/-- `exception_name`. -/
def exceptionName : Option Exception → String
  | some .sysReset => "system reset"
  | some .machCheck => "machine check"
  | some .dsi => "DSI (bad data address)"
  | some .isi => "ISI (bad instruction address)"
  | some .int => "external interrupt"
  | some .align => "alignment"
  | some .prg => "program (illegal instruction or trap)"
  | some .fp => "floating point unavailable"
  | some .dec => "decrementer"
  | some .sysCall => "system call"
  | some .trace => "trace"
  | some .perf => "performance monitor"
  | some .iabr => "instruction breakpoint"
  | some .therm => "thermal"
  | none => "unknown"

/-- `frame_context`. -/
structure Frame where
  nExcept : UInt32
  srr0 : UInt32
  srr1 : UInt32
  lr : UInt32
  cr : UInt32
  ctr : UInt32
  xer : UInt32
  msr : UInt32
  gpr : Fin 32 → UInt32

/-- `MAX_THREADS`. -/
def maxThreads : ℕ := 24

/-- `OOM_SITES`. -/
def oomSites : ℕ := 8

/-- `CRASH_STACK_WORDS`. -/
def crashStackWords : ℕ := 192

/-- `STACK_PAINT`. -/
def stackPaint : UInt32 := 0x57AC57AC

/-- `ThreadSlot`. A pointer is an address, 0 where there is none. -/
structure ThreadSlot where
  entry : UInt32
  stack : UInt32
  size : UInt32
  painted : UInt32
  guard : UInt32
  cntrl : UInt32
  state : UInt8

/-- An element of `sOom`. -/
structure OomSite where
  caller : UInt32
  size : UInt32
  count : UInt32

/-- `sOom`, `sOomSites` and `sOomTotal`. -/
structure OomTable where
  sites : List OomSite
  total : UInt32
  length_sites : sites.length ≤ oomSites

/-- What `note_oom` does to the site of a caller it knows. -/
def OomTable.again (caller size : UInt32) : List OomSite → List OomSite
  | [] => []
  | s :: sites =>
      if s.caller = caller then { s with count := s.count + 1, size := size } :: sites
      else s :: OomTable.again caller size sites

/-- A site that is noted again takes no new place. -/
theorem OomTable.length_again (caller size : UInt32) (sites : List OomSite) :
    (OomTable.again caller size sites).length = sites.length := by
  induction sites with
  | nil => rfl
  | cons s sites ih =>
    rw [OomTable.again]
    split
    · rfl
    · rw [List.length_cons, List.length_cons, ih]

/-- `note_oom`. -/
def OomTable.noteOom (caller size : UInt32) (t : OomTable) : OomTable :=
  if t.sites.any fun s => s.caller = caller then
    ⟨OomTable.again caller size t.sites, t.total + 1,
      (OomTable.length_again caller size t.sites).trans_le t.length_sites⟩
  else if h : t.sites.length < oomSites then
    ⟨t.sites ++ [⟨caller, size, 1⟩], t.total + 1, by rw [List.length_append]; exact h⟩
  else { t with total := t.total + 1 }

/-- The memory, by words, the variables of the program that the report reads, what the linker and
libogc's headers say, and the clock. -/
structure Machine where
  word : UInt32 → UInt32
  codeEnd : UInt32
  exceptionOf : UInt32 → Option Exception
  executing : UInt32
  uptime : UInt32
  sThreads : Fin maxThreads → ThreadSlot
  sOom : OomTable
  sLastMark : List UInt8
  length_sLastMark : sLastMark.length = 160

/-- `is_guard`. -/
def isGuard (t : ThreadSlot) (addr : UInt32) : Bool :=
  addr < (t.stack + 7 &&& ~~~7) + 8 ||
    t.guard != 0 && t.guard ≤ addr && addr < t.guard + 8

/-- `stack_unused`. -/
def stackUnused (m : Machine) (t : ThreadSlot) : UInt32 :=
  let untouched (i : ℕ) :=
    isGuard t (t.stack + UInt32.ofNat i * 4) || m.word (t.stack + UInt32.ofNat i * 4) == stackPaint
  UInt32.ofNat ((List.range (t.painted / 4).toNat).takeWhile untouched).length * 4

/-- `is_code`. -/
def isCode (m : Machine) (w : UInt32) : Bool :=
  0x80003100 ≤ w && w < m.codeEnd && w &&& 3 == 0

/-! ## The report -/

open Piece

/-- What kind of exception it was. -/
def reportException (m : Machine) (ctx : Frame) : List Piece :=
  [txt "\n=================== CRASH ===================\n", txt "exception ", dec ctx.nExcept,
    txt ", ", txt (exceptionName (m.exceptionOf ctx.nExcept))]

/-- The registers that say where it happened. -/
def reportFault (ctx : Frame) (dsisr dar : UInt32) : List Piece :=
  [txt "\nsrr0     ", hex ctx.srr0,
    txt "   <- the faulting instruction, feed to addr2line\nlr       ", hex ctx.lr,
    txt "   <- usually its caller\nsrr1     ", hex ctx.srr1, txt "   msr ", hex ctx.msr,
    txt "\ndsisr    ", hex dsisr, txt "   dar ", hex dar,
    txt "   <- for a DSI, the address that could not be accessed\nctr      ", hex ctx.ctr,
    txt "   cr ", hex ctx.cr, txt "   xer ", hex ctx.xer]

/-- The last mark. The report ends `sLastMark` with a NUL of its own first. -/
def reportMark (m : Machine) : List Piece :=
  let mark := (m.sLastMark.take 159).takeWhile (· ≠ 0)
  [txt "\nuptime   ", dec m.uptime, txt " ms\nlast     ",
    puts (if mark = [] then ascii "(no mark)\n" else mark)]

/-- The first slot of the table that belongs to the thread that was running. -/
def runningThread (m : Machine) : Option (Fin maxThreads) :=
  (List.finRange maxThreads).find? fun i =>
    (m.sThreads i).state != 0 && (m.sThreads i).cntrl == m.executing

/-- The thread that was running. Slot 0 is the main thread, which has no entry. -/
def reportThread (m : Machine) : List Piece :=
  txt "thread   " ::
    match runningThread m with
    | some i =>
        if i.val = 0 then [txt "#", dec (UInt32.ofNat i), txt " (main)", txt "\n"]
        else [txt "#", dec (UInt32.ofNat i), txt " entry ", hex (m.sThreads i).entry, txt "\n"]
    | none =>
        [txt "unknown (interrupt context, or not created through LWP_CreateThread)", txt "\n"]

/-- A general register, four to a line. -/
def reportRegister (ctx : Frame) (i : Fin 32) : List Piece :=
  [txt "r", dec (UInt32.ofNat i), txt (if i.val < 10 then "  " else " "), hex (ctx.gpr i),
    txt (if i.val &&& 3 = 3 then "\n" else "   ")]

/-- A place that has run out of memory. -/
def reportSite (s : OomSite) : List Piece :=
  [txt "  caller ", hex s.caller, txt "  size ", dec s.size, txt "  x", dec s.count, txt "\n"]

/-- What failed before the crash. -/
def reportOom (t : OomTable) : List Piece :=
  if t.total = 0 then []
  else
    [txt "OUT OF MEMORY before the crash: ", dec t.total, txt " failed allocations\n"] ++
      t.sites.flatMap reportSite

/-- The stack of one thread. -/
def reportStack (m : Machine) (i : Fin maxThreads) : List Piece :=
  let t := m.sThreads i
  if t.state = 0 ∨ t.state = 3 ∨ t.painted = 0 then []
  else
    [txt "  #", dec (UInt32.ofNat i), txt " entry ", hex t.entry, txt "  ",
      dec (t.size - stackUnused m t), txt "/", dec t.size,
      txt (if stackUnused m t = 0 then "  OVERFLOWED\n" else "\n")]

/-- A word of the stack that looks like a return address. -/
def reportWord (m : Machine) (sp : UInt32) (i : ℕ) : List Piece :=
  let w := m.word (sp + UInt32.ofNat i * 4)
  if isCode m w then [txt "  sp+", dec (UInt32.ofNat i * 4), txt "  ", hex w, txt "\n"] else []

/-- The words above the stack pointer, up to the end of the memory. -/
def reportCandidates (m : Machine) (sp : UInt32) : List Piece :=
  if 0x80000000 ≤ sp ∧ sp < 0x81800000 ∧ sp &&& 3 = 0 then
    ((List.range crashStackWords).takeWhile fun i => sp + UInt32.ofNat i * 4 < 0x81800000).flatMap
      (reportWord m sp)
  else
    [txt "  sp ", hex sp, txt " is not a MEM1 address: the stack pointer itself is corrupt\n"]

/-- The calls of `crash_report`. -/
def report (m : Machine) (ctx : Frame) (dsisr dar : UInt32) : List Piece :=
  reportException m ctx ++ reportFault ctx dsisr dar ++ reportMark m ++ reportThread m ++
    (List.finRange 32).flatMap (reportRegister ctx) ++ reportOom m.sOom ++ txt "stacks (used/size)\n" ::
    ((List.finRange maxThreads).flatMap (reportStack m) ++
    txt "call stack candidates (feed to addr2line)\n" ::
    (reportCandidates m (ctx.gpr 1) ++ [txt "=============================================\n"]))

/-- What `crash_report` appends. -/
def reportText (m : Machine) (ctx : Frame) (dsisr dar : UInt32) : List UInt8 :=
  ((report m ctx dsisr dar).map Piece.bytes).flatten

/-- `crash_report`. -/
def crashReport (m : Machine) (ctx : Frame) (dsisr dar : UInt32) (r : Ram) : Ram :=
  r.appendAll ((report m ctx dsisr dar).map Piece.bytes)

/-! ## How long it is -/

/-- The names of the exceptions are short. -/
theorem length_exceptionName_le (e : Option Exception) : (ascii (exceptionName e)).length ≤ 41 := by
  rcases e with _ | e
  · decide
  · cases e <;> decide

/-- The lines about the exception are short. -/
theorem width_reportException_le (m : Machine) (ctx : Frame) :
    width (reportException m ctx) ≤ 110 := by
  have hname := length_exceptionName_le (m.exceptionOf ctx.nExcept)
  have htitle : (ascii "\n=================== CRASH ===================\n").length = 47 := rfl
  have hlabel : (ascii "exception ").length = 10 := rfl
  have hcomma : (ascii ", ").length = 2 := rfl
  simp only [reportException, width_cons, width_nil, txt, Piece.width, htitle, hlabel, hcomma]
  omega

/-- The lines about the faulting address are short. -/
theorem width_reportFault_le (ctx : Frame) (dsisr dar : UInt32) :
    width (reportFault ctx dsisr dar) ≤ 290 := by
  simp only [reportFault, width_cons, width_nil, txt, Piece.width]
  decide +kernel

/-- The line with the last mark is short. -/
theorem width_reportMark_le (m : Machine) : width (reportMark m) ≤ 200 := by
  have hmark : ((m.sLastMark.take 159).takeWhile (· ≠ 0)).length ≤ 159 :=
    (List.takeWhile_prefix _).length_le.trans (List.length_take_le ..)
  unfold reportMark
  generalize (m.sLastMark.take 159).takeWhile (· ≠ 0) = mark at hmark
  have hlast : (if mark = [] then ascii "(no mark)\n" else mark).length ≤ 159 := by
    split
    · decide
    · exact hmark
  have hfront : (txt "\nuptime   ").width + 10 + (txt " ms\nlast     ").width = 33 := rfl
  simp only [width_cons, width_nil, Piece.width] at hfront ⊢
  omega

/-- The line about the thread is short. -/
theorem width_reportThread_le (m : Machine) : width (reportThread m) ≤ 100 := by
  unfold reportThread
  split
  · split <;> exact Nat.le_of_ble_eq_true rfl
  · exact Nat.le_of_ble_eq_true rfl

/-- The text for a register is short. -/
theorem width_reportRegister_le (ctx : Frame) (i : Fin 32) :
    width (reportRegister ctx i) ≤ 24 := by
  unfold reportRegister
  split <;> split <;> exact Nat.le_of_ble_eq_true rfl

/-- The line of a site is short. -/
theorem width_reportSite_le (s : OomSite) : width (reportSite s) ≤ 49 :=
  Nat.le_of_ble_eq_true rfl

/-- The lines about failed allocations are short. -/
theorem width_reportOom_le (t : OomTable) : width (reportOom t) ≤ 461 := by
  unfold reportOom
  split
  · exact Nat.zero_le _
  · have hsites := width_flatMap_le width_reportSite_le t.sites
    have hlen : t.sites.length * 49 ≤ 8 * 49 := Nat.mul_le_mul_right 49 t.length_sites
    have hhead : width [txt "OUT OF MEMORY before the crash: ", dec t.total,
        txt " failed allocations\n"] = 62 := rfl
    rw [width_append, hhead]
    omega

/-- The line about a stack is short. -/
theorem width_reportStack_le (m : Machine) (i : Fin maxThreads) :
    width (reportStack m i) ≤ 64 := by
  unfold reportStack
  simp only
  split
  · exact Nat.zero_le _
  · split <;> exact Nat.le_of_ble_eq_true rfl

/-- The text for a word of the stack is short. -/
theorem width_reportWord_le (m : Machine) (sp : UInt32) (i : ℕ) :
    width (reportWord m sp i) ≤ 26 := by
  unfold reportWord
  simp only
  split
  · exact Nat.le_of_ble_eq_true rfl
  · exact Nat.zero_le _

/-- The candidates for return addresses are few. -/
theorem width_reportCandidates_le (m : Machine) (sp : UInt32) :
    width (reportCandidates m sp) ≤ 4992 := by
  unfold reportCandidates
  split
  · have hwords : ((List.range crashStackWords).takeWhile
        fun i => sp + UInt32.ofNat i * 4 < 0x81800000).length ≤ crashStackWords :=
      (List.takeWhile_prefix _).length_le.trans List.length_range.le
    exact (width_flatMap_le (width_reportWord_le m sp) _).trans (Nat.mul_le_mul_right 26 hwords)
  · exact Nat.le_of_ble_eq_true rfl

/-- The longest report: what it can say without the loops, and the loops at their most. -/
theorem width_report_le (m : Machine) (ctx : Frame) (dsisr dar : UInt32) :
    width (report m ctx dsisr dar) ≤ 8700 := by
  have hexception := width_reportException_le m ctx
  have hfault := width_reportFault_le ctx dsisr dar
  have hmark := width_reportMark_le m
  have hthread := width_reportThread_le m
  have hregisters := width_flatMap_le (width_reportRegister_le ctx) (List.finRange 32)
  have hoom := width_reportOom_le m.sOom
  have hstacks := width_flatMap_le (width_reportStack_le m) (List.finRange maxThreads)
  have hwords := width_reportCandidates_le m (ctx.gpr 1)
  have htitle : (txt "stacks (used/size)\n").width = 19 := rfl
  have hcall : (txt "call stack candidates (feed to addr2line)\n").width = 42 := rfl
  have hline : (txt "=============================================\n").width = 46 := rfl
  rw [List.length_finRange] at hregisters hstacks
  have hthreads : maxThreads * 64 = 1536 := rfl
  simp only [report, width_append, width_cons, width_nil, htitle, hcall, hline]
  omega

/-! ## The handler -/

/-- `__wrap_c_default_exceptionhandler` up to the writes, on the first exception. -/
def exceptionReport (m : Machine) (ctx : Frame) (dsisr dar : UInt32) (r : Ram) : Ram :=
  crashReport m ctx dsisr dar { r with sCrashMode := true }.crashTrimBuffer

/-- What the handler writes: to the crash file, where that was opened at boot (`fd`), and to the
log. -/
def exceptionWrites (fd : Bool) (f : Fopen) (r : Ram) (c : Card) : List UInt8 × List Write :=
  if c.sCardReady then
    (if fd then r.text else [], (c.writeCard f r.text r.sDropped true).2)
  else ([], [])

/-- The room that the report needs and has. -/
theorem report_fits (m : Machine) (ctx : Frame) (dsisr dar : UInt32) (r : Ram) :
    r.crashTrimBuffer.sLen + (reportText m ctx dsisr dar).length ≤ logCrashReserve := by
  have htrim := r.sLen_crashTrimBuffer_le
  have htext := (length_flatten_le (report m ctx dsisr dar)).trans (width_report_le m ctx dsisr dar)
  rw [Ram.length_kCut] at htrim
  rw [reportText]
  unfold logCrashKeep at htrim
  unfold logCrashReserve
  omega

/-- The handler trims the buffer that it found. -/
theorem text_crashTrimBuffer_crash (r : Ram) :
    ({ r with sCrashMode := true } : Ram).crashTrimBuffer.text = r.crashTrimBuffer.text := by
  unfold Ram.crashTrimBuffer
  split <;> rfl

/-- The report has some text. -/
theorem reportText_ne_nil (m : Machine) (ctx : Frame) (dsisr dar : UInt32) :
    reportText m ctx dsisr dar ≠ [] :=
  List.cons_ne_nil 10 _

/-- A crash write that finds the reserve empty stores everything that has room there. -/
theorem writeCard_crash {f : Fopen} {c : Card} {data : List UInt8} (hupdate : f.update = true)
    (hmode : c.sAppendMode = false) (hfirst : c.sCrashOffset = 0) (hne : data ≠ [])
    (hfit : data.length ≤ logCrashReserve) (dropped : UInt32) :
    (c.writeCard f data dropped true).2 = [.put logBodySize data] := by
  have hroom : ¬logBodySize + data.length > logFileSize := by
    unfold logBodySize logFileSize logCrashReserve at *
    omega
  have hopen : c.openLog f = (c, true) := by
    unfold Card.openLog
    rw [hmode, hupdate]
    rfl
  simp only [Card.writeCard, hopen, hmode, Card.writeCrash, hfirst, if_true, if_neg hroom]
  simp [hne]

/-- Whatever was waiting, and whatever the machine looks like: the whole report is appended,
nothing is counted as dropped, and what there is then fits the reserve, so that the crash file and
the log both get all of it. -/
theorem exceptionReport_complete (m : Machine) (ctx : Frame) (dsisr dar : UInt32) (r : Ram) :
    (exceptionReport m ctx dsisr dar r).sDropped = r.sDropped ∧
    (exceptionReport m ctx dsisr dar r).sLen ≤ logCrashReserve ∧
    (r.sInit = true →
      (exceptionReport m ctx dsisr dar r).text =
        r.crashTrimBuffer.text ++ reportText m ctx dsisr dar ∧
      ∀ fd f c, c.sCardReady = true → c.sAppendMode = false → f.update = true →
        c.sCrashOffset = 0 →
        exceptionWrites fd f (exceptionReport m ctx dsisr dar r) c =
          (if fd then r.crashTrimBuffer.text ++ reportText m ctx dsisr dar else [],
            [.put logBodySize (r.crashTrimBuffer.text ++ reportText m ctx dsisr dar)])) := by
  let r' : Ram := { r with sCrashMode := true }
  have hfits := report_fits m ctx dsisr dar r'
  by_cases hinit : r.sInit = true
  · have hinit' : r'.crashTrimBuffer.sInit = true := (Ram.sInit_crashTrimBuffer r').trans hinit
    have hcrash : r'.crashTrimBuffer.sCrashMode = true := Ram.sCrashMode_crashTrimBuffer r'
    -- The trimmed buffer leaves room for the whole report.
    have hroom : r'.crashTrimBuffer.sLen + (reportText m ctx dsisr dar).length ≤ logBufSize :=
      hfits.trans (by decide)
    obtain ⟨htext, hdropped⟩ := Ram.appendAll_spec hinit' hcrash _ hroom
    have htext' : (exceptionReport m ctx dsisr dar r).text =
        r.crashTrimBuffer.text ++ reportText m ctx dsisr dar := by
      rw [← text_crashTrimBuffer_crash r]
      exact htext
    -- What is trimmed to goes with the report into the reserve.
    have hlen : (exceptionReport m ctx dsisr dar r).sLen ≤ logCrashReserve := by
      rw [← Ram.length_text, htext', List.length_append, ← text_crashTrimBuffer_crash r,
        Ram.length_text]
      exact hfits
    refine ⟨hdropped.trans (Ram.sDropped_crashTrimBuffer r'), hlen, fun _ => ⟨htext', ?_⟩⟩
    intro fd f c hready hmode hupdate hfirst
    have hne : (exceptionReport m ctx dsisr dar r).text ≠ [] := by
      rw [htext']
      exact List.append_ne_nil_of_right_ne_nil _ (reportText_ne_nil m ctx dsisr dar)
    rw [exceptionWrites, if_pos hready, writeCard_crash hupdate hmode hfirst hne
      (by rw [Ram.length_text]; exact hlen), htext']
  · -- Before `DebugLogInit` there is nothing to trim, and no log.
    have hidle : exceptionReport m ctx dsisr dar r = r'.crashTrimBuffer :=
      Ram.appendAll_of_not_init (by rw [Ram.sInit_crashTrimBuffer]; exact Bool.not_eq_true _ ▸ hinit) _
    rw [hidle]
    refine ⟨Ram.sDropped_crashTrimBuffer r', ?_, fun h => absurd h hinit⟩
    omega

/-- A machine on which every thread is the one that was running, and every word is code. -/
def sampleMachine : Machine where
  word _ := 0x80004000
  codeEnd := 0x80900000
  exceptionOf _ := some .prg
  executing := 0x80a00000
  uptime := 0xFFFFFFFF
  sThreads _ := ⟨0x80004000, 0x80b00000, 16384, 16384, 0, 0x80a00000, 2⟩
  sOom := OomTable.noteOom 0x80004000 4096 ⟨[], 0, Nat.zero_le _⟩
  sLastMark := List.replicate 160 65
  length_sLastMark := List.length_replicate

theorem exceptionReport_complete_full :
    (exceptionReport sampleMachine ⟨6, 0, 0, 0, 0, 0, 0, 0, fun _ => 0x80b00000⟩ 0 0
      (filled 32768 0 (by decide))).text =
    (filled 32768 0 (by decide)).crashTrimBuffer.text ++
      reportText sampleMachine ⟨6, 0, 0, 0, 0, 0, 0, 0, fun _ => 0x80b00000⟩ 0 0 :=
  ((exceptionReport_complete sampleMachine ⟨6, 0, 0, 0, 0, 0, 0, 0, fun _ => 0x80b00000⟩ 0 0
    (filled 32768 0 (by decide))).2.2 rfl).1

end WiiMC.Log
