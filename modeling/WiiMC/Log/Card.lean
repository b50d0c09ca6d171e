import WiiMC.Log.Buffer
import WiiMC.Lib.Transition

/-!
# The card side of the debug log

`/wiimc.log` is created once at its full size and never grows. Flushes fill the body; when the next
one has no room there, it goes on behind the boot header. The tail of the file is kept for the
crash report.

* `Card.writeCard`: `write_card`, with the bytes that it writes and where.
* `debugLogFlush`: `DebugLogFlush`.
* `debugLogAttachCard`: `DebugLogAttachCard`, from the moment the file is there.
* `card`: flushes and crash writes, in any order, after the card was attached.
* `OffsetsOk`: where the next flush and the next crash write begin.
* `writes_kept_iff`: the layout is kept along a run if and only if every flush that wraps has room
  for the line that says so.
-/

namespace WiiMC.Log

open Bytes Transition

/-- `kDropped`. -/
def kDropped : List UInt8 := ascii "\n[log buffer overran; lines lost]\n"

/-- `kEnd`. -/
def kEnd : List UInt8 := ascii "\n<<<<<<<< end of log >>>>>>>>\n"

/-- `kWrapped`. -/
def kWrapped : List UInt8 := ascii "\n[log wrapped; continued after the boot header]\n"

theorem length_kDropped : kDropped.length = 34 := rfl
theorem length_kEnd : kEnd.length = 30 := rfl

/-- Bytes that reach the file, either from an offset on or at its end. The `fwrite`s behind one
`fseek` are one write. -/
inductive Write
  | put (offset : ℕ) (bytes : List UInt8)
  | add (bytes : List UInt8)
  deriving DecidableEq

/-- A write that stays between two offsets. -/
def Write.Within (lo hi : ℕ) : Write → Prop
  | .put offset bytes => lo ≤ offset ∧ offset + bytes.length ≤ hi
  | .add _ => False

/-- Whether the log can be opened `"r+b"`, and whether it can be opened `"ab"`. -/
structure Fopen where
  update : Bool
  append : Bool

/-- The variables of the card side. -/
structure Card where
  sCardReady : Bool
  sAppendMode : Bool
  sOffset : ℕ
  sHeaderEnd : ℕ
  sCrashOffset : ℕ
  deriving DecidableEq

namespace Card

/-- The two calls of `fopen` with which `write_card` begins. -/
def openLog (f : Fopen) (c : Card) : Card × Bool :=
  if c.sAppendMode then (c, f.append)
  else if f.update then (c, true)
  else ({ c with sAppendMode := true }, f.append)

/-- What a crash write stores begins where the last one has ended, and is cut at the end of the
file. -/
def writeCrash (data : List UInt8) (c : Card) : Card × List Write :=
  let offset := if c.sCrashOffset = 0 then logBodySize else c.sCrashOffset
  let data := if offset + data.length > logFileSize then data.take (logFileSize - offset) else data
  ({ c with sCrashOffset := offset + data.length }, if data = [] then [] else [.put offset data])

/-- The test before a flush, in which the sizes count the NULs. -/
def Wraps (len : ℕ) (c : Card) : Prop :=
  c.sOffset + len + (kDropped.length + 1) + (kEnd.length + 1) > logBodySize

/-- Whether a write wraps is decided by the offset. -/
instance (len : ℕ) (c : Card) : Decidable (c.Wraps len) := inferInstanceAs (Decidable (_ > _))

/-- The line that `write_card` adds after lines were lost. -/
def note (dropped : UInt32) : List UInt8 := if dropped = 0 then [] else kDropped

/-- What a flush stores in the body. `kEnd` is not counted: the next flush overwrites it. -/
def writeBody (data : List UInt8) (dropped : UInt32) (c : Card) : Card × List Write :=
  let wrapped := if c.Wraps data.length then [.put c.sOffset kWrapped] else []
  let offset := if c.Wraps data.length then c.sHeaderEnd else c.sOffset
  ({ c with sOffset := offset + data.length + (note dropped).length },
    wrapped ++ [.put offset (data ++ note dropped ++ kEnd)])

/-- What is stored when the file could not be preallocated. -/
def writeAppend (data : List UInt8) (dropped : UInt32) (c : Card) : Card × List Write :=
  ({ c with sOffset := c.sOffset + data.length + (note dropped).length },
    [.add (data ++ note dropped)])

/-- `write_card`. -/
def writeCard (f : Fopen) (data : List UInt8) (dropped : UInt32) (crash : Bool) (c : Card) :
    Card × List Write :=
  let (c, opened) := c.openLog f
  if !opened then (if crash then c else { c with sCardReady := false }, [])
  else if c.sAppendMode then c.writeAppend data dropped
  else if crash then c.writeCrash data
  else c.writeBody data dropped

end Card

/-- What is left of the buffer once it was swapped out. -/
def Ram.cleared (r : Ram) : Ram := { r with sLen := 0, sDropped := 0, sLen_le := Nat.zero_le _ }

/-- `DebugLogFlush`. -/
def debugLogFlush (f : Fopen) (r : Ram) (c : Card) : Ram × Card × List Write :=
  if !c.sCardReady || r.sCrashMode then (r, c, [])
  else if r.sLen ≠ 0 ∨ r.sDropped ≠ 0 then (r.cleared, c.writeCard f r.text r.sDropped false)
  else (r.cleared, c, [])

/-- `%08x`. -/
def hex8 (v : UInt32) : List UInt8 :=
  (List.range 8).map fun i =>
    (ascii "0123456789abcdef").getD (v.toNat / 16 ^ (7 - i) % 16) 0

/-- A printed word has eight digits. -/
theorem length_hex8 (v : UInt32) : (hex8 v).length = 8 := by
  rw [hex8, List.length_map, List.length_range]

/-- The header of the file, for a build, the arena that is left and the end of the code. -/
def bootHeader (buildId : List UInt8) (appendMode : Bool) (arena1Lo arena1Hi codeEnd : UInt32) :
    List UInt8 :=
  ascii "=== WiiMC-GCN-Online debug log ===\n" ++
  ascii "build   " ++ buildId ++ ascii " (ELF: deployed/wiimc-" ++ buildId ++ ascii ".elf)\n" ++
  ascii "file    sd1:/wiimc.log, " ++ decimal (logFileSize / 1024) ++ ascii " KB: " ++
  decimal (logBodySize / 1024) ++ ascii " KB body that wraps, last " ++
  decimal (logCrashReserve / 1024) ++ ascii " KB reserved for the crash report" ++
  (if appendMode then ascii " -- FALLBACK: preallocation failed, appending" else []) ++
  ascii "\narena1  " ++ hex8 arena1Lo ++ ascii "-" ++ hex8 arena1Hi ++
  ascii "\ncode    " ++ hex8 0x80003100 ++ ascii "-" ++ hex8 codeEnd ++
  ascii " (stack words in this range are return addresses)\n" ++
  ascii "resolve powerpc-eabi-addr2line -f -C -e wiimc.elf <address>\n\n"

/-- `DebugLogAttachCard` behind the creation of the file, where `padded` is whether it has got its
full size. The first flush holds everything since boot. -/
def debugLogAttachCard (padded : Bool) (header : Bool → List UInt8) (f g : Fopen) (r : Ram) :
    Ram × Card × List Write :=
  let fresh : Card := ⟨true, !padded, 0, 0, 0⟩
  let first := fresh.writeCard f (header fresh.sAppendMode) 0 false
  let second := debugLogFlush g r first.1
  (second.1, { second.2.1 with sHeaderEnd := second.2.1.sOffset }, first.2 ++ second.2.2)

/-! ## Runs -/

/-- What happens to the card once it is attached. -/
inductive Event
  | flush (f : Fopen) (r : Ram)
  | crash (f : Fopen) (data : List UInt8) (dropped : UInt32)

/-- The card behind an event, and what the event has written. -/
def Event.run (c : Card) : Event → Card × List Write
  | .flush f r => (debugLogFlush f r c).2
  | .crash f data dropped => c.writeCard f data dropped true

/-- Flushes and crash writes, in any order. -/
def card : System Card Event where
  init c := ∃ padded buildId lo hi codeEnd f g r, buildId.length ≤ 64 ∧
    (debugLogAttachCard padded (fun a => bootHeader buildId a lo hi codeEnd) f g r).2.1 = c
  step c e := some (e.run c).1

/-- The writes of an event stay where they belong. -/
def Event.Kept (c : Card) : Event → Prop
  | .flush f r => ∀ w ∈ (debugLogFlush f r c).2.2, w.Within c.sHeaderEnd logBodySize
  | .crash f data dropped =>
      ∀ w ∈ (c.writeCard f data dropped true).2, w.Within logBodySize logFileSize

/-- A flush that wraps has room for `kWrapped` behind the last one. -/
def Event.Roomy (c : Card) : Event → Prop
  | .flush _ r =>
      c.sCardReady = true → r.sCrashMode = false → (r.sLen ≠ 0 ∨ r.sDropped ≠ 0) →
        c.Wraps r.sLen → c.sOffset + kWrapped.length ≤ logBodySize
  | .crash .. => True

/-- The end of the boot header, at most: the header itself and the first flush behind it. -/
def headerMax : ℕ := 511 + logBufSize + 34

/-- Where writes begin. Behind every flush there is room for `kEnd`, but not for more. -/
structure OffsetsOk (c : Card) : Prop where
  headerEnd_le : c.sHeaderEnd ≤ headerMax
  headerEnd_le_offset : c.sHeaderEnd ≤ c.sOffset
  offset_le : c.sOffset + 32 ≤ logBodySize
  crashOffset : c.sCrashOffset = 0 ∨ logBodySize ≤ c.sCrashOffset ∧ c.sCrashOffset ≤ logFileSize

namespace Card

/-- The note about dropped bytes is short. -/
theorem length_note_le (dropped : UInt32) : (note dropped).length ≤ 34 := by
  unfold note
  split
  · exact Nat.zero_le _
  · exact Nat.le_refl _

/-- Only the two calls of `fopen` change the mode. -/
theorem sAppendMode_writeCard (f : Fopen) (data : List UInt8) (dropped : UInt32) (crash : Bool)
    (c : Card) :
    (c.writeCard f data dropped crash).1.sAppendMode = (c.openLog f).1.sAppendMode := by
  unfold writeCard
  split
  rename_i d opened hopen
  cases opened <;> cases crash <;> cases hmode : d.sAppendMode <;>
    simp [hopen, hmode, writeAppend, writeCrash, writeBody]

/-- A log that is opened for update was not in append mode. -/
theorem openLog_of_update {f : Fopen} {c : Card} (h : (c.openLog f).1.sAppendMode = false) :
    c.sAppendMode = false ∧ c.openLog f = (c, true) := by
  unfold openLog at h ⊢
  cases hmode : c.sAppendMode <;> cases hupdate : f.update <;> simp_all

/-- A card that is in preallocated mode behind a write has opened its file for an update. -/
theorem writeCard_of_update {f : Fopen} {data : List UInt8} {dropped : UInt32} {crash : Bool}
    {c : Card} (h : (c.writeCard f data dropped crash).1.sAppendMode = false) :
    c.sAppendMode = false ∧ c.writeCard f data dropped crash =
      if crash then c.writeCrash data else c.writeBody data dropped := by
  rw [sAppendMode_writeCard] at h
  obtain ⟨hmode, hopen⟩ := openLog_of_update h
  refine ⟨hmode, ?_⟩
  simp [writeCard, hopen, hmode]

/-- Writing the body keeps the offsets. -/
theorem writeBody_ok {c : Card} (hc : OffsetsOk c) {data : List UInt8}
    (hdata : data.length ≤ logBufSize) (dropped : UInt32) :
    OffsetsOk (c.writeBody data dropped).1 := by
  have hnote := length_note_le dropped
  have hhead := hc.headerEnd_le
  have hoffset := hc.headerEnd_le_offset
  refine ⟨hhead, ?_, ?_, hc.crashOffset⟩
  · simp only [writeBody]
    split <;> omega
  · simp only [writeBody]
    split
    · unfold headerMax logBodySize logFileSize logCrashReserve logBufSize at *
      omega
    · rename_i hwraps
      rw [Wraps, length_kDropped, length_kEnd] at hwraps
      omega

/-- The data, the note and `kEnd` have room in the body, so that what a flush writes stays there
if and only if `kWrapped` does. -/
theorem writeBody_within_iff {c : Card} (hc : OffsetsOk c) {data : List UInt8}
    (hdata : data.length ≤ logBufSize) (dropped : UInt32) :
    (∀ w ∈ (c.writeBody data dropped).2, w.Within c.sHeaderEnd logBodySize) ↔
      (c.Wraps data.length → c.sOffset + kWrapped.length ≤ logBodySize) := by
  have hnote := length_note_le dropped
  have hhead := hc.headerEnd_le
  have hoffset := hc.headerEnd_le_offset
  have hlen : (data ++ note dropped ++ kEnd).length = data.length + (note dropped).length + 30 := by
    rw [List.length_append, List.length_append, length_kEnd]
  by_cases hwraps : c.Wraps data.length
  · have hroom : c.sHeaderEnd + (data.length + (note dropped).length + 30) ≤ logBodySize := by
      unfold headerMax logBodySize logFileSize logCrashReserve logBufSize at *
      omega
    simp only [writeBody, if_pos hwraps, List.cons_append, List.nil_append, List.forall_mem_cons,
      Write.Within, hlen]
    refine ⟨fun h _ => h.1.2, fun h => ⟨⟨hoffset, h hwraps⟩, ⟨Nat.le_refl _, hroom⟩, ?_⟩⟩
    exact List.forall_mem_nil _
  · have hroom : c.sOffset + (data.length + (note dropped).length + 30) ≤ logBodySize := by
      rw [Wraps, length_kDropped, length_kEnd] at hwraps
      omega
    simp only [writeBody, if_neg hwraps, List.nil_append, List.forall_mem_cons, Write.Within, hlen]
    exact ⟨fun _ h => absurd h hwraps, fun _ => ⟨⟨hoffset, hroom⟩, List.forall_mem_nil _⟩⟩

/-- A crash write begins in the reserve. -/
theorem crashStart {c : Card} (hc : OffsetsOk c) :
    logBodySize ≤ (if c.sCrashOffset = 0 then logBodySize else c.sCrashOffset) ∧
      (if c.sCrashOffset = 0 then logBodySize else c.sCrashOffset) ≤ logFileSize := by
  have hcrash := hc.crashOffset
  have hsize : logBodySize ≤ logFileSize := by decide
  split <;> omega

/-- Writing the report keeps the offsets. -/
theorem writeCrash_ok {c : Card} (hc : OffsetsOk c) (data : List UInt8) :
    OffsetsOk (c.writeCrash data).1 := by
  refine ⟨hc.headerEnd_le, hc.headerEnd_le_offset, hc.offset_le, Or.inr ?_⟩
  obtain ⟨hlo, hhi⟩ := crashStart hc
  simp only [writeCrash]
  generalize (if c.sCrashOffset = 0 then logBodySize else c.sCrashOffset) = offset at hlo hhi
  split
  · rw [List.length_take]
    omega
  · omega

/-- The report stays in its reserve. -/
theorem writeCrash_within {c : Card} (hc : OffsetsOk c) (data : List UInt8) :
    ∀ w ∈ (c.writeCrash data).2, w.Within logBodySize logFileSize := by
  obtain ⟨hlo, hhi⟩ := crashStart hc
  intro w hw
  simp only [writeCrash] at hw
  generalize (if c.sCrashOffset = 0 then logBodySize else c.sCrashOffset) = offset at hw hlo hhi
  by_cases hlong : offset + data.length > logFileSize
  · rw [if_pos hlong] at hw
    split at hw
    · exact absurd hw (List.not_mem_nil)
    · obtain rfl := List.mem_singleton.mp hw
      refine ⟨hlo, ?_⟩
      rw [List.length_take]
      omega
  · rw [if_neg hlong] at hw
    split at hw
    · exact absurd hw (List.not_mem_nil)
    · obtain rfl := List.mem_singleton.mp hw
      exact ⟨hlo, by omega⟩

end Card

/-- A flush does nothing, or it writes what is waiting. -/
theorem debugLogFlush_cases (f : Fopen) (r : Ram) (c : Card) :
    ((debugLogFlush f r c).2 = (c, []) ∧
      ¬(c.sCardReady = true ∧ r.sCrashMode = false ∧ (r.sLen ≠ 0 ∨ r.sDropped ≠ 0))) ∨
    ((debugLogFlush f r c).2 = c.writeCard f r.text r.sDropped false ∧
      c.sCardReady = true ∧ r.sCrashMode = false ∧ (r.sLen ≠ 0 ∨ r.sDropped ≠ 0)) := by
  unfold debugLogFlush
  by_cases hgo : (!c.sCardReady || r.sCrashMode) = true
  · left
    rw [if_pos hgo]
    refine ⟨rfl, ?_⟩
    rintro ⟨hready, hcrash, -⟩
    simp [hready, hcrash] at hgo
  · rw [if_neg hgo]
    rw [Bool.not_eq_true, Bool.or_eq_false_iff, Bool.not_eq_false'] at hgo
    by_cases hany : r.sLen ≠ 0 ∨ r.sDropped ≠ 0
    · exact Or.inr ⟨by rw [if_pos hany], hgo.1, hgo.2, hany⟩
    · exact Or.inl ⟨by rw [if_neg hany], fun h => hany h.2.2⟩

/-- A flush keeps the offsets. -/
theorem debugLogFlush_ok {f : Fopen} {r : Ram} {c : Card} (hc : OffsetsOk c)
    (hmode : (debugLogFlush f r c).2.1.sAppendMode = false) :
    c.sAppendMode = false ∧ OffsetsOk (debugLogFlush f r c).2.1 := by
  obtain ⟨hrun, -⟩ | ⟨hrun, -⟩ := debugLogFlush_cases f r c
  · rw [hrun] at hmode ⊢
    exact ⟨hmode, hc⟩
  · rw [hrun] at hmode ⊢
    obtain ⟨hold, heq⟩ := Card.writeCard_of_update hmode
    rw [heq]
    exact ⟨hold, Card.writeBody_ok hc (by rw [Ram.length_text]; exact r.sLen_le) _⟩

/-- What a flush writes stays in the body, behind the boot header, if and only if it has room for
the line about the wrap. -/
theorem debugLogFlush_within_iff {f : Fopen} {r : Ram} {c : Card} (hc : OffsetsOk c)
    (hmode : (debugLogFlush f r c).2.1.sAppendMode = false) :
    (∀ w ∈ (debugLogFlush f r c).2.2, w.Within c.sHeaderEnd logBodySize) ↔
      (Event.flush f r).Roomy c := by
  obtain ⟨hrun, hidle⟩ | ⟨hrun, hready, hcrash, hany⟩ := debugLogFlush_cases f r c
  · rw [hrun]
    refine ⟨fun _ hready hcrash hany => absurd ⟨hready, hcrash, hany⟩ hidle, fun _ => ?_⟩
    exact List.forall_mem_nil _
  · rw [hrun] at hmode ⊢
    rw [(Card.writeCard_of_update hmode).2]
    have hlen : r.text.length ≤ logBufSize := by
      rw [Ram.length_text]
      exact r.sLen_le
    have hiff := Card.writeBody_within_iff hc hlen r.sDropped
    rw [Ram.length_text] at hiff
    exact hiff.trans ⟨fun h _ _ _ => h, fun h => h hready hcrash hany⟩

/-- What one event does to the offsets, and when it keeps the layout. -/
theorem Event.run_spec {c : Card} (hc : OffsetsOk c) (e : Event)
    (hmode : (e.run c).1.sAppendMode = false) :
    c.sAppendMode = false ∧ OffsetsOk (e.run c).1 ∧ (e.Kept c ↔ e.Roomy c) := by
  cases e with
  | flush f r =>
    obtain ⟨hold, hok⟩ := debugLogFlush_ok hc hmode
    exact ⟨hold, hok, debugLogFlush_within_iff hc hmode⟩
  | crash f data dropped =>
    obtain ⟨hold, heq⟩ := Card.writeCard_of_update hmode
    refine ⟨hold, ?_, ?_⟩
    · show OffsetsOk (c.writeCard f data dropped true).1
      rw [heq]
      exact Card.writeCrash_ok hc data
    · show (∀ w ∈ (c.writeCard f data dropped true).2, _) ↔ True
      rw [heq]
      exact iff_true_intro (Card.writeCrash_within hc data)

/-- Nothing takes a card out of append mode. -/
theorem sAppendMode_run {c : Card} {e : Event} (h : (e.run c).1.sAppendMode = false) :
    c.sAppendMode = false := by
  cases e with
  | flush f r =>
    obtain ⟨hrun, -⟩ | ⟨hrun, -⟩ := debugLogFlush_cases f r c
    · rwa [Event.run, hrun] at h
    · rw [Event.run, hrun] at h
      exact (Card.writeCard_of_update h).1
  | crash f data dropped => exact (Card.writeCard_of_update h).1

/-- A run that ends in preallocated mode has stayed in it. -/
theorem sAppendMode_exec {evs : List Event} {c d : Card} (hrun : card.exec c evs = some d)
    (hmode : d.sAppendMode = false) : c.sAppendMode = false := by
  induction evs generalizing c with
  | nil =>
    cases hrun
    exact hmode
  | cons e evs ih => exact sAppendMode_run (ih (hrun : card.exec (e.run c).1 evs = some d))

/-- Along a run in preallocated mode the layout is kept exactly where every wrap has room. -/
theorem okAlong_kept_iff {evs : List Event} {c d : Card} (hc : OffsetsOk c)
    (hrun : card.exec c evs = some d) (hmode : d.sAppendMode = false) :
    card.OkAlong (fun c e => e.Kept c) c evs ↔ card.OkAlong (fun c e => e.Roomy c) c evs := by
  induction evs generalizing c with
  | nil => exact Iff.rfl
  | cons e evs ih =>
    have hrest : card.exec (e.run c).1 evs = some d := hrun
    obtain ⟨-, hok, hiff⟩ := Event.run_spec hc e (sAppendMode_exec hrest hmode)
    have hnext := ih hok hrest
    refine and_congr hiff ?_
    -- A card has exactly one state behind an event.
    exact ⟨fun h t ht => Option.some.inj ht ▸ hnext.mp (h _ rfl),
      fun h t ht => Option.some.inj ht ▸ hnext.mpr (h _ rfl)⟩

/-! ## The boot -/

/-- The header fits the 512 bytes that `DebugLogAttachCard` has for it. -/
theorem length_bootHeader_le {buildId : List UInt8} (hid : buildId.length ≤ 64)
    (appendMode : Bool) (lo hi codeEnd : UInt32) :
    (bootHeader buildId appendMode lo hi codeEnd).length ≤ 511 := by
  have h1 : (ascii "=== WiiMC-GCN-Online debug log ===\n").length = 35 := rfl
  have h2 : (ascii "build   ").length = 8 := rfl
  have h3 : (ascii " (ELF: deployed/wiimc-").length = 22 := rfl
  have h4 : (ascii ".elf)\n").length = 6 := rfl
  have h5 : (ascii "file    sd1:/wiimc.log, ").length = 24 := rfl
  have h6 : (decimal (logFileSize / 1024)).length = 3 := rfl
  have h7 : (ascii " KB: ").length = 5 := rfl
  have h8 : (decimal (logBodySize / 1024)).length = 3 := rfl
  have h9 : (ascii " KB body that wraps, last ").length = 26 := rfl
  have h10 : (decimal (logCrashReserve / 1024)).length = 2 := rfl
  have h11 : (ascii " KB reserved for the crash report").length = 33 := rfl
  have h12 : (if appendMode then ascii " -- FALLBACK: preallocation failed, appending"
      else []).length ≤ 45 := by cases appendMode <;> decide
  have h13 : (ascii "\narena1  ").length = 9 := rfl
  have h14 : (ascii "-").length = 1 := rfl
  have h15 : (ascii "\ncode    ").length = 9 := rfl
  have h16 : (ascii " (stack words in this range are return addresses)\n").length = 50 := rfl
  have h17 : (ascii "resolve powerpc-eabi-addr2line -f -C -e wiimc.elf <address>\n\n").length = 61 :=
    rfl
  unfold bootHeader
  simp only [List.length_append, length_hex8]
  omega

/-- A flush that does not wrap goes on where the last one has ended. -/
theorem Card.writeBody_of_not_wraps {c : Card} {data : List UInt8} (h : ¬c.Wraps data.length)
    (dropped : UInt32) :
    c.writeBody data dropped =
      ({ c with sOffset := c.sOffset + data.length + (note dropped).length },
        [.put c.sOffset (data ++ note dropped ++ kEnd)]) := by
  simp only [Card.writeBody, if_neg h, List.nil_append]

/-- Far from the end of the body no flush wraps. -/
theorem Card.not_wraps {c : Card} {len : ℕ} (hlen : len ≤ logBufSize)
    (hoffset : c.sOffset ≤ headerMax) : ¬c.Wraps len := by
  rw [Card.Wraps, length_kDropped, length_kEnd]
  unfold headerMax logBodySize logFileSize logCrashReserve logBufSize at *
  omega

/-- What the two writes of a boot leave: an offset within the header's bound. -/
theorem sOffset_debugLogFlush_le {f : Fopen} {r : Ram} {c : Card} (hoffset : c.sOffset ≤ 511)
    (hmode : (debugLogFlush f r c).2.1.sAppendMode = false) :
    (debugLogFlush f r c).2.1.sOffset ≤ headerMax := by
  obtain ⟨hrun, -⟩ | ⟨hrun, -⟩ := debugLogFlush_cases f r c
  · rw [hrun]
    show c.sOffset ≤ headerMax
    unfold headerMax
    omega
  · have hlen : r.text.length ≤ logBufSize := by
      rw [Ram.length_text]
      exact r.sLen_le
    have hfar : ¬c.Wraps r.text.length := Card.not_wraps hlen (by unfold headerMax; omega)
    have hnote := Card.length_note_le r.sDropped
    rw [hrun] at hmode ⊢
    rw [(Card.writeCard_of_update hmode).2, if_neg Bool.false_ne_true,
      Card.writeBody_of_not_wraps hfar]
    show c.sOffset + r.text.length + (Card.note r.sDropped).length ≤ headerMax
    unfold headerMax
    omega

/-- A card that was attached in preallocated mode: where writes begin, and what was written. -/
theorem debugLogAttachCard_ok {padded : Bool} {header : Bool → List UInt8} {f g : Fopen} {r : Ram}
    (hheader : ∀ a, (header a).length ≤ 511)
    (hmode : (debugLogAttachCard padded header f g r).2.1.sAppendMode = false) :
    OffsetsOk (debugLogAttachCard padded header f g r).2.1 ∧
      ∀ w ∈ (debugLogAttachCard padded header f g r).2.2, w.Within 0 logBodySize := by
  let fresh : Card := ⟨true, !padded, 0, 0, 0⟩
  have hfresh : OffsetsOk fresh := by
    refine ⟨Nat.zero_le _, Nat.le_refl _, ?_, Or.inl rfl⟩
    show 0 + 32 ≤ logBodySize
    decide
  let first := fresh.writeCard f (header fresh.sAppendMode) 0 false
  have hflush : (debugLogFlush g r first.1).2.1.sAppendMode = false := hmode
  have hfirst : first.1.sAppendMode = false := sAppendMode_run (e := .flush g r) hflush
  have hlen := hheader fresh.sAppendMode
  have hsmall : (header fresh.sAppendMode).length ≤ logBufSize := by
    unfold logBufSize
    omega
  have heq : first = ({ fresh with sOffset := 0 + (header fresh.sAppendMode).length + 0 },
      [.put 0 (header fresh.sAppendMode ++ [] ++ kEnd)]) :=
    (Card.writeCard_of_update hfirst).2.trans
      (Card.writeBody_of_not_wraps (Card.not_wraps hsmall (Nat.zero_le _)) 0)
  -- The header is written at the front, and the flush right behind it: neither can wrap.
  have hok : OffsetsOk first.1 := by
    show OffsetsOk (fresh.writeCard f (header fresh.sAppendMode) 0 false).1
    rw [(Card.writeCard_of_update hfirst).2]
    exact Card.writeBody_ok hfresh hsmall 0
  have hoffset : first.1.sOffset ≤ 511 := by
    rw [heq]
    show 0 + (header fresh.sAppendMode).length + 0 ≤ 511
    omega
  have hend : first.1.sHeaderEnd = 0 := by rw [heq]
  have hlast := sOffset_debugLogFlush_le hoffset hflush
  have hsecond := (debugLogFlush_ok hok hflush).2
  constructor
  · exact ⟨hlast, Nat.le_refl _, hsecond.offset_le, hsecond.crashOffset⟩
  · intro w hw
    obtain hw | hw := List.mem_append.mp hw
    · have hw' : w ∈ first.2 := hw
      rw [heq] at hw'
      obtain rfl := List.mem_singleton.mp hw'
      refine ⟨Nat.le_refl _, ?_⟩
      rw [List.append_nil, List.length_append, length_kEnd]
      unfold logBodySize logFileSize logCrashReserve
      omega
    · have hroomy : (Event.flush g r).Roomy first.1 := by
        intro _ _ _ hwraps
        exact absurd hwraps (Card.not_wraps r.sLen_le (by unfold headerMax; omega))
      have hwithin := (debugLogFlush_within_iff hok hflush).mpr hroomy w hw
      rwa [hend] at hwithin

/-- From the boot on, everything a flush writes stays in the body and behind the boot header, and
everything a crash writes in the reserve, if and only if no flush wraps where the last one has left
less than the length of `kWrapped`. -/
theorem writes_kept_iff {buildId : List UInt8} (hid : buildId.length ≤ 64)
    {lo hi codeEnd : UInt32} {padded : Bool} {f g : Fopen} {r r' : Ram} {c d : Card}
    {ws : List Write} {evs : List Event}
    (hattach : debugLogAttachCard padded (fun a => bootHeader buildId a lo hi codeEnd) f g r =
      (r', c, ws))
    (hrun : card.exec c evs = some d) (hmode : d.sAppendMode = false) :
    ((∀ w ∈ ws, w.Within 0 logBodySize) ∧ card.OkAlong (fun c e => e.Kept c) c evs) ↔
      card.OkAlong (fun c e => e.Roomy c) c evs := by
  have hboot : (debugLogAttachCard padded (fun a => bootHeader buildId a lo hi codeEnd) f g
      r).2.1.sAppendMode = false := by
    rw [hattach]
    exact sAppendMode_exec hrun hmode
  have hboot := debugLogAttachCard_ok (fun a => length_bootHeader_le hid a lo hi codeEnd) hboot
  rw [hattach] at hboot
  rw [← okAlong_kept_iff hboot.1 hrun hmode]
  exact ⟨fun h => h.2, fun h => ⟨hboot.2, h⟩⟩

/-- The offsets of every card that has stayed in preallocated mode. -/
theorem offsetsOk_of_reachable {c : Card} (hc : card.Reachable (fun _ _ => True) c)
    (hmode : c.sAppendMode = false) : OffsetsOk c := by
  refine hc.invariant (I := fun c => c.sAppendMode = false → OffsetsOk c) ?_ ?_ hmode
  · rintro c ⟨padded, buildId, lo, hi, codeEnd, f, g, r, hid, rfl⟩ hmode
    exact (debugLogAttachCard_ok (fun a => length_bootHeader_le hid a lo hi codeEnd) hmode).1
  · intro c e d _ ih _ hstep hmode
    obtain rfl := Option.some.inj hstep
    have hold := sAppendMode_run hmode
    exact (Event.run_spec (ih hold) e hmode).2.1

/-! ## A body that is filled to its end -/

/-- A buffer in which `n` bytes are waiting. -/
def filled (n : ℕ) (dropped : UInt32) (hn : n ≤ logBufSize) : Ram :=
  ⟨true, false, List.replicate logBufSize 10, n, dropped, List.length_replicate, hn⟩

/-- A flush that does not wrap, on a card that works. -/
theorem step_filled {n : ℕ} {dropped : UInt32} (hn : n ≤ logBufSize) {offset headerEnd crash : ℕ}
    (hpos : n ≠ 0) (hfit : offset + n + 66 ≤ logBodySize) :
    card.step ⟨true, false, offset, headerEnd, crash⟩ (.flush ⟨true, true⟩ (filled n dropped hn)) =
      some ⟨true, false, offset + n + (Card.note dropped).length, headerEnd, crash⟩ := by
  have hlen : (filled n dropped hn).text.length = n := Ram.length_text _
  have hwraps : ¬(⟨true, false, offset, headerEnd, crash⟩ : Card).Wraps
      (filled n dropped hn).text.length := by
    rw [hlen, Card.Wraps, length_kDropped, length_kEnd]
    show ¬offset + n + (34 + 1) + (30 + 1) > logBodySize
    omega
  have hwrite : (⟨true, false, offset, headerEnd, crash⟩ : Card).writeCard ⟨true, true⟩
      (filled n dropped hn).text (filled n dropped hn).sDropped false = _ :=
    Card.writeBody_of_not_wraps hwraps dropped
  rw [hlen] at hwrite
  have hgo : (filled n dropped hn).sLen ≠ 0 ∨ (filled n dropped hn).sDropped ≠ 0 := Or.inl hpos
  show some (debugLogFlush _ _ _).2.1 = _
  unfold debugLogFlush
  rw [if_neg (by rw [filled]; exact Bool.false_ne_true), if_pos hgo, hwrite]

/-- Seven full buffers, then one that fills the body to its last byte and says that lines were
lost. -/
def fillBody : List Event :=
  List.replicate 7 (.flush ⟨true, true⟩ (filled 32768 0 (by decide))) ++
    [.flush ⟨true, true⟩ (filled 7766 1 (by decide))]

/-- The card of a boot at which nothing was waiting. -/
def booted : Card := ⟨true, false, 360, 360, 0⟩

/-- That boot. -/
def sampleBoot : Ram × Card × List Write :=
  debugLogAttachCard true
    (fun a => bootHeader (ascii "20260101-000000") a 0x80a00000 0x81700000 0x80900000)
    ⟨true, true⟩ ⟨true, true⟩ (filled 0 0 (by decide))

/-- What the sample boot gives. -/
theorem sampleBoot_eq : sampleBoot = (sampleBoot.1, booted, sampleBoot.2.2) := by
  have hcard : sampleBoot.2.1 = booted := by decide +kernel
  rw [← hcard]

/-- The body is filled to its end. -/
theorem exec_fillBody : card.exec booted fillBody = some ⟨true, false, 237536, 360, 0⟩ := by
  simp (disch := decide) only [fillBody, booted, List.replicate, List.cons_append, List.nil_append,
    System.exec, step_filled, Option.bind_some]
  rfl

/-- A flush for which the body has no room left. -/
def overfill : Event := .flush ⟨true, true⟩ (filled 100 0 (by decide))

/-- Behind such a body `kWrapped` runs into the reserve. -/
theorem not_kept_fillBody :
    ∃ d, sampleBoot = (sampleBoot.1, booted, sampleBoot.2.2) ∧
      card.exec booted (fillBody ++ [overfill]) = some d ∧ d.sAppendMode = false ∧
      ¬card.OkAlong (fun c e => e.Kept c) booted (fillBody ++ [overfill]) := by
  refine ⟨(overfill.run ⟨true, false, 237536, 360, 0⟩).1, sampleBoot_eq, ?_, rfl, fun h => ?_⟩
  · rw [System.exec_append, exec_fillBody]
    rfl
  · have hok : OffsetsOk ⟨true, false, 237536, 360, 0⟩ :=
      ⟨by decide, by decide, by decide, Or.inl rfl⟩
    have hkept : overfill.Kept ⟨true, false, 237536, 360, 0⟩ := (h.of_append exec_fillBody).1
    have hroomy := (Event.run_spec hok overfill rfl).2.2.mp hkept
    exact absurd (hroomy rfl rfl (Or.inl (by decide)) (by decide)) (by decide)

theorem writes_kept_iff_fillBody :
    ((∀ w ∈ sampleBoot.2.2, w.Within 0 logBodySize) ∧
        card.OkAlong (fun c e => e.Kept c) booted fillBody) ↔
      card.OkAlong (fun c e => e.Roomy c) booted fillBody :=
  writes_kept_iff (by decide) sampleBoot_eq exec_fillBody rfl

end WiiMC.Log
