import WiiMC.Lib.BigEndian
import WiiMC.Lib.Bytes
import WiiMC.Lib.Files
import WiiMC.Lib.Transition
import Mathlib.Data.Int.Notation

/-!
# The TLS seed

`gc_tls.c`: before the first session of a boot, `prepare` reads the seed of the card, derives the
next one from it and puts that one in its place: it writes a temporary file, removes the seed and
renames the file, or copies the next seed where that fails. Each operation on the card is a step,
and power may fail before each of them and during a write. What mbedTLS does is a parameter.

* `seedBytes`: the source of entropy that the generator is given.
* `step`: the operations of `prepare`, calls of it, and power cuts.
* `Keeps`, `Fresh`: the steps that do not cost the seed, and a seed that differs from the last one.
* `inv_of_reachable`: what holds at each stage of `prepare`.
* `lost_step`: a seed that has been lost does not come back.
* `prepare_rotates`: the seed over any number of boots.
-/

namespace WiiMC.Tls

open Files Transition

/-- The bytes of `entropy_state`. -/
abbrev Seed := { c : List UInt8 // c.length = 64 }

/-- `entropy_state`, and what `gettime` returns from now on. -/
structure Entropy where
  state : Seed
  times : List ℕ

/-- What mbedTLS does: `mbedtls_sha512`, the bytes that a generator returns after it has been seeded
from a source of entropy with a personalization, and what the parser of certificates returns. -/
structure Mbedtls where
  sha512 : List UInt8 → Option Seed
  ctrDrbg : (ℕ → Entropy → Option (List UInt8 × Entropy)) → List UInt8 → Entropy → Option Seed
  crtParse : List UInt8 → ℤ

/-- `seed_bytes`: the state is hashed with the time for each 64 bytes, and is what is given out. -/
def seedBytes (sha512 : List UInt8 → Option Seed) (len : ℕ) (e : Entropy) :
    Option (List UInt8 × Entropy) :=
  if len = 0 then some ([], e)
  else do
    let n := if len < 64 then len else 64
    let state ← sha512 (e.state.1 ++ BigEndian.encode 8 (e.times.headD 0))
    let (out, e) ← seedBytes sha512 (len - n) ⟨state, e.times.tail⟩
    return (state.1.take n ++ out, e)
termination_by len
decreasing_by split_ifs <;> omega

/-- The source gives out as many bytes as it is asked for. -/
theorem length_seedBytes {sha512 : List UInt8 → Option Seed} {len : ℕ} {e e' : Entropy}
    {out : List UInt8} (h : seedBytes sha512 len e = some (out, e')) : out.length = len := by
  induction len using Nat.strong_induction_on generalizing e out with
  | _ len ih =>
      rw [seedBytes] at h
      split_ifs at h with hlen hshort
      · cases h
        exact hlen.symm
      all_goals
        obtain ⟨state, -, h⟩ := Option.bind_eq_some_iff.mp h
        obtain ⟨⟨rest, e''⟩, hrest, h⟩ := Option.bind_eq_some_iff.mp h
        cases h
        have := ih _ (by omega) hrest
        rw [List.length_append, List.length_take, state.2]
        omega

/-- `personalization`. -/
def personalization : List UInt8 := Bytes.ascii "WiiMC-GCN-Online"

/-- The 64 bytes that `prepare` draws from the generator, seeded from the seed of the card. -/
def Mbedtls.generate (tls : Mbedtls) (used : Seed) (times : List ℕ) : Option Seed :=
  tls.ctrDrbg (seedBytes tls.sha512) personalization ⟨used, times⟩

/-- The files that `prepare` uses: `tls-seed.bin`, `tls-seed.tmp` and `ca.pem`. -/
inductive Name
  | seed | temp | ca
  deriving DecidableEq

/-- The seed that is used, and the next one. -/
structure Roll where
  used : Seed
  next : Seed

/-- Where `prepare` stands: the operation that comes next. -/
inductive Stage
  | idle
  | readSeed
  | generate (used : Seed)
  | removeTemp (r : Roll)
  | createTemp (r : Roll)
  | writeTemp (r : Roll)
  | closeTemp (r : Roll) (written : Bool)
  | dropTemp
  | removeSeed (r : Roll)
  | renameTemp (r : Roll)
  | createSeed (r : Roll)
  | writeSeed (r : Roll)
  | closeSeed (r : Roll) (written : Bool)
  | removeCopied (r : Roll) (written : Bool)
  | openCa (r : Roll)
  | sizeCa (r : Roll) (pem : List UInt8)
  | readCa (r : Roll) (pem : List UInt8)
  | parseCa (r : Roll) (pem : List UInt8)

/-- The console with its card. -/
structure Console where
  card : Card Name
  stage : Stage
  ready : Bool
  /-- The seed that the generator of the sessions was given. -/
  used : Option Seed
  /-- The text of the last error. -/
  error : Option String

/-- What an operation meets with: whether it succeeds, how many bytes get to the card where a write
does not, and what `gettime` returns. -/
structure Answer where
  ok : Bool
  bytes : ℕ
  times : List ℕ

inductive Event
  /-- A session is opened, and `prepare` is called. -/
  | call
  /-- The next operation of `prepare`. -/
  | op (a : Answer)
  /-- Power fails; of a write that was going on, `bytes` bytes have got to the card. -/
  | power (bytes : ℕ)

/-- What `prepare` reads from the seed file. -/
def seedOn (card : Card Name) : Option Seed :=
  (card .seed).bind fun c => if h : 64 ≤ c.length then some ⟨c.take 64, by simp [h]⟩ else none

namespace Console

/-- `prepare` returns an error. -/
def fail (s : Console) (error : String) : Console := { s with stage := .idle, error := some error }

def goto (s : Console) (stage : Stage) : Console := { s with stage }

/-- `remove`, as far as it succeeds. -/
def removeIf (s : Console) (ok : Bool) (n : Name) : Console :=
  if ok then { s with card := s.card.remove n } else s

/-- `fopen(path, "wb")`. -/
def create (s : Console) (n : Name) : Console := { s with card := s.card.put n [] }

/-- What a write leaves in a file. -/
def write (s : Console) (a : Answer) (n : Name) (data : Seed) : Console :=
  { s with card := s.card.put n (if a.ok then data else data.1.take a.bytes) }

end Console

/-- The next operation of `prepare`. -/
def prepareOp (tls : Mbedtls) (a : Answer) (s : Console) : Option Console :=
  match s.stage with
  | .idle => none
  | .readSeed =>
      match seedOn s.card with
      | none => some (s.fail "Missing TLS seed: run tools/prepare-sd.ps1")
      | some used =>
          if a.ok then some (s.goto (.generate used))
          else some (s.fail "Missing TLS seed: run tools/prepare-sd.ps1")
  | .generate used =>
      match tls.generate used a.times with
      | none => some (s.fail "TLS random generator failed")
      | some next => some (s.goto (.removeTemp ⟨used, next⟩))
  | .removeTemp r => some ((s.removeIf a.ok .temp).goto (.createTemp r))
  | .createTemp r =>
      if a.ok then some ((s.create .temp).goto (.writeTemp r)) else some (s.goto .dropTemp)
  | .writeTemp r => some ((s.write a .temp r.next).goto (.closeTemp r a.ok))
  | .closeTemp r written => some (s.goto (if written && a.ok then .removeSeed r else .dropTemp))
  | .dropTemp => some ((s.removeIf a.ok .temp).fail "Cannot update TLS seed on SD card")
  | .removeSeed r =>
      if a.ok && (s.card .seed).isSome then some ((s.removeIf true .seed).goto (.renameTemp r))
      else some (s.goto (.createSeed r))
  | .renameTemp r =>
      if a.ok && s.card.canRename .temp .seed then
        some { s with card := s.card.rename .temp .seed, stage := .openCa r }
      else some (s.goto (.createSeed r))
  | .createSeed r =>
      if a.ok then some ((s.create .seed).goto (.writeSeed r))
      else some (s.goto (.removeCopied r false))
  | .writeSeed r => some ((s.write a .seed r.next).goto (.closeSeed r a.ok))
  | .closeSeed r written => some (s.goto (.removeCopied r (written && a.ok)))
  | .removeCopied r written =>
      if written then some ((s.removeIf a.ok .temp).goto (.openCa r))
      else some ((s.removeIf a.ok .temp).fail "Cannot save TLS seed")
  | .openCa r =>
      match s.card .ca with
      | none => some (s.fail "Missing apps/wiimc/ca.pem")
      | some pem =>
          if a.ok then some (s.goto (.sizeCa r pem)) else some (s.fail "Missing apps/wiimc/ca.pem")
  | .sizeCa r pem =>
      if a.ok ∧ 1 ≤ pem.length ∧ pem.length ≤ 512 * 1024 then some (s.goto (.readCa r pem))
      else some (s.fail "Invalid CA bundle size")
  | .readCa r pem =>
      if a.ok then some (s.goto (.parseCa r pem)) else some (s.fail "Cannot read CA bundle")
  | .parseCa r pem =>
      if tls.crtParse (pem ++ [0]) < 0 then some (s.fail "Invalid CA bundle")
      else some { s with stage := .idle, ready := true, used := some r.used }

/-- What is on the card when power fails. -/
def torn (bytes : ℕ) (s : Console) : Card Name :=
  match s.stage with
  | .writeTemp r => s.card.put .temp (r.next.1.take bytes)
  | .writeSeed r => s.card.put .seed (r.next.1.take bytes)
  | _ => s.card

/-- The effect of an event. -/
def step (tls : Mbedtls) (s : Console) : Event → Option Console
  | .call =>
      match s.stage with
      | .idle => if s.ready then some s else some (s.goto .readSeed)
      | _ => none
  | .op a => prepareOp tls a s
  | .power bytes =>
      some { card := torn bytes s, stage := .idle, ready := false, used := none, error := none }

/-- A console whose card has been prepared. -/
def system (tls : Mbedtls) : System Console Event where
  init s := ∃ card, (seedOn card).isSome ∧ s = ⟨card, .idle, false, none, none⟩
  step := step tls

/-! ## The stages -/

/-- Power does not fail where the seed has been removed or is being copied; and where it has been
removed and not replaced by the renaming, it is copied. -/
def Keeps (s : Console) : Event → Prop
  | .call => True
  | .op a =>
      match s.stage with
      | .createSeed _ => a.ok = true ∨ (s.card .seed).isSome = true
      | .writeSeed _ => a.ok = true ∨ 64 ≤ a.bytes
      | _ => True
  | .power bytes =>
      match s.stage with
      | .renameTemp _ => False
      | .createSeed _ => (s.card .seed).isSome = true
      | .writeSeed _ => 64 ≤ bytes
      | _ => True

/-- The generator does not return the seed that it was given. -/
def Fresh (tls : Mbedtls) (s : Console) : Event → Prop
  | .op a =>
      match s.stage with
      | .generate used => tls.generate used a.times ≠ some used
      | _ => True
  | _ => True

/-- Whether a step keeps the seed is decided by the stage and the card. -/
instance (s : Console) : DecidablePred (Keeps s) := fun e => by
  unfold Keeps
  cases e <;> dsimp only <;> (try split) <;> infer_instance

/-- Whether a step makes another seed is decided by the stage. -/
instance (tls : Mbedtls) (s : Console) : DecidablePred (Fresh tls s) := fun e => by
  unfold Fresh
  cases e <;> dsimp only <;> (try split) <;> infer_instance

/-- The next seed is another one, derived from the one that is used. -/
structure Derived (tls : Mbedtls) (r : Roll) : Prop where
  generated : ∃ times, tls.generate r.used times = some r.next
  ne : r.next ≠ r.used

/-- What holds of the card at a stage. -/
def Standing (tls : Mbedtls) (card : Card Name) : Stage → Prop
  | .idle | .readSeed | .generate _ | .dropTemp => (seedOn card).isSome = true
  | .removeTemp r | .createTemp r | .writeTemp r => (seedOn card).isSome = true ∧ Derived tls r
  | .closeTemp r written =>
      (seedOn card).isSome = true ∧ Derived tls r ∧
        (written = true → card .temp = some r.next.1)
  | .removeSeed r =>
      (seedOn card).isSome = true ∧ Derived tls r ∧ card .temp = some r.next.1
  | .renameTemp r => card .seed = none ∧ Derived tls r ∧ card .temp = some r.next.1
  | .createSeed r => ((seedOn card).isSome = true ∨ card .seed = none) ∧ Derived tls r
  | .writeSeed r => Derived tls r
  | .closeSeed r written | .removeCopied r written =>
      (seedOn card).isSome = true ∧ Derived tls r ∧
        (written = true → card .seed = some r.next.1)
  | .openCa r | .sizeCa r _ | .readCa r _ | .parseCa r _ =>
      Derived tls r ∧ card .seed = some r.next.1

/-- The seed has been replaced by one that is derived from it. -/
def Rotated (tls : Mbedtls) (s : Console) : Prop :=
  ∃ r : Roll, s.used = some r.used ∧ Derived tls r ∧ s.card .seed = some r.next.1

structure Inv (tls : Mbedtls) (s : Console) : Prop where
  standing : Standing tls s.card s.stage
  ready : s.ready = true → s.stage = .idle ∧ Rotated tls s

variable {tls : Mbedtls} {s t : Console} {a : Answer} {card card' : Card Name} {r : Roll}

/-- The seed that is read depends on the seed file only. -/
theorem seedOn_congr (h : card' .seed = card .seed) : seedOn card' = seedOn card := by
  rw [seedOn, seedOn, h]

/-- A seed that has been written is read. -/
theorem seedOn_of_eq {x : Seed} (h : card .seed = some x.1) : seedOn card = some x := by
  have hlen : 64 ≤ x.1.length := Nat.le_of_eq x.2.symm
  rw [seedOn, h, Option.bind_some, dif_pos hlen]
  exact congrArg some (Subtype.ext (List.take_of_length_le (Nat.le_of_eq x.2)))

/-- Without the file no seed is read. -/
theorem seedOn_of_none (h : card .seed = none) : seedOn card = none := by
  rw [seedOn, h, Option.bind_none]

/-- A part of a seed is not read. -/
theorem seedOn_of_take {x : Seed} {n : ℕ} (hn : n < 64) (h : card .seed = some (x.1.take n)) :
    seedOn card = none := by
  rw [seedOn, h, Option.bind_some, dif_neg]
  rw [List.length_take]
  omega

/-- A seed of which 64 bytes have been written is read. -/
theorem isSome_seedOn_put {x : Seed} {n : ℕ} {b : Bool} (h : b = true ∨ 64 ≤ n) :
    (seedOn (card.put .seed (if b = true then x.1 else x.1.take n))).isSome = true := by
  have hwhole : (if b = true then x.1 else x.1.take n) = x.1 := by
    split_ifs with hb
    · rfl
    · have hn := h.resolve_left hb
      exact List.take_of_length_le (by rwa [x.2])
  rw [hwhole, seedOn_of_eq (card.put_self x.1 .seed)]
  rfl

/-- The temporary file does not matter to the seed. -/
theorem seedOn_put_temp (data : List UInt8) : seedOn (card.put .temp data) = seedOn card :=
  seedOn_congr (card.put_of_ne data (by decide))

/-- Removing the temporary file leaves the seed alone. -/
theorem removeIf_seed (s : Console) (ok : Bool) :
    (s.removeIf ok .temp).card .seed = s.card .seed := by
  cases ok
  · rfl
  · exact s.card.remove_of_ne (show Name.seed ≠ .temp by decide)

/-- A write that succeeds leaves the data in the file. -/
theorem write_self (hok : a.ok = true) (n : Name) (x : Seed) :
    (s.write a n x).card n = some x.1 := by
  rw [Console.write, if_pos hok]
  exact Card.put_self ..

/-- A console that is not ready needs what holds at its stage. -/
theorem inv_of_standing (h : Standing tls t.card t.stage) (hready : t.ready = false) :
    Inv tls t where
  standing := h
  ready htrue := absurd (hready.symm.trans htrue) nofun

/-- Removing a file does not make a session ready. -/
theorem removeIf_ready (s : Console) (ok : Bool) (n : Name) : (s.removeIf ok n).ready = s.ready := by
  cases ok <;> rfl

/-! ### One operation -/

/-- Behind an operation of `prepare` the card is as the next stage needs it, and the first session
is as ready as it was. -/
structure Advances (tls : Mbedtls) (s t : Console) : Prop where
  standing : Standing tls t.card t.stage
  ready : t.ready = s.ready

/-- Reading the seed. -/
theorem advances_readSeed (hs : s.stage = .readSeed) (hst : (seedOn s.card).isSome = true)
    (hop : prepareOp tls a s = some t) : Advances tls s t := by
  obtain ⟨x, hx⟩ := Option.isSome_iff_exists.mp hst
  simp only [prepareOp, hs, hx] at hop
  split_ifs at hop <;> cases hop
  · exact ⟨hst, rfl⟩
  · exact ⟨hst, rfl⟩

/-- Deriving the next seed. -/
theorem advances_generate {x : Seed} (hs : s.stage = .generate x)
    (hst : (seedOn s.card).isSome = true) (hfresh : Fresh tls s (.op a))
    (hop : prepareOp tls a s = some t) : Advances tls s t := by
  simp only [Fresh, hs] at hfresh
  cases hgen : tls.generate x a.times with
  | none =>
      simp only [prepareOp, hs, hgen, Option.some.injEq] at hop
      subst hop
      exact ⟨hst, rfl⟩
  | some next =>
      simp only [prepareOp, hs, hgen, Option.some.injEq] at hop
      subst hop
      have hne : next ≠ x := fun heq => hfresh (hgen.trans (congrArg some heq))
      exact ⟨⟨hst, ⟨_, hgen⟩, hne⟩, rfl⟩

/-- Removing, creating and writing the temporary file. -/
theorem advances_temp
    (hs : s.stage = .removeTemp r ∨ s.stage = .createTemp r ∨ s.stage = .writeTemp r)
    (hst : (seedOn s.card).isSome = true ∧ Derived tls r) (hop : prepareOp tls a s = some t) :
    Advances tls s t := by
  rcases hs with hs | hs | hs
  · simp only [prepareOp, hs, Option.some.injEq] at hop
    subst hop
    refine ⟨⟨?_, hst.2⟩, removeIf_ready ..⟩
    rw [Console.goto, seedOn_congr (removeIf_seed ..)]
    exact hst.1
  · simp only [prepareOp, hs] at hop
    split_ifs at hop <;> cases hop
    · refine ⟨⟨?_, hst.2⟩, rfl⟩
      rw [Console.goto, Console.create, seedOn_put_temp]
      exact hst.1
    · exact ⟨hst.1, rfl⟩
  · simp only [prepareOp, hs, Option.some.injEq] at hop
    subst hop
    refine ⟨⟨?_, hst.2, fun hok => write_self (s := s) hok .temp r.next⟩, rfl⟩
    rw [Console.goto, Console.write, seedOn_put_temp]
    exact hst.1

/-- Closing the temporary file. -/
theorem advances_closeTemp {written : Bool} (hs : s.stage = .closeTemp r written)
    (hst : (seedOn s.card).isSome = true ∧ Derived tls r ∧
      (written = true → s.card .temp = some r.next.1))
    (hop : prepareOp tls a s = some t) : Advances tls s t := by
  simp only [prepareOp, hs] at hop
  split_ifs at hop with hwritten <;> cases hop
  · exact ⟨⟨hst.1, hst.2.1, hst.2.2 (Bool.and_eq_true_iff.mp hwritten).1⟩, rfl⟩
  · exact ⟨hst.1, rfl⟩

/-- Giving up, because of the temporary file. -/
theorem advances_dropTemp (hs : s.stage = .dropTemp) (hst : (seedOn s.card).isSome = true)
    (hop : prepareOp tls a s = some t) : Advances tls s t := by
  simp only [prepareOp, hs, Option.some.injEq] at hop
  subst hop
  refine ⟨?_, removeIf_ready ..⟩
  show (seedOn _).isSome = true
  rw [Console.fail, seedOn_congr (removeIf_seed ..)]
  exact hst

/-- Removing the seed. -/
theorem advances_removeSeed (hs : s.stage = .removeSeed r)
    (hst : (seedOn s.card).isSome = true ∧ Derived tls r ∧ s.card .temp = some r.next.1)
    (hop : prepareOp tls a s = some t) : Advances tls s t := by
  simp only [prepareOp, hs] at hop
  split_ifs at hop <;> cases hop
  · refine ⟨⟨s.card.remove_self .seed, hst.2.1, ?_⟩, rfl⟩
    exact (s.card.remove_of_ne (show Name.temp ≠ .seed by decide)).trans hst.2.2
  · exact ⟨⟨.inl hst.1, hst.2.1⟩, rfl⟩

/-- Renaming the temporary file. -/
theorem advances_renameTemp (hs : s.stage = .renameTemp r)
    (hst : s.card .seed = none ∧ Derived tls r ∧ s.card .temp = some r.next.1)
    (hop : prepareOp tls a s = some t) : Advances tls s t := by
  simp only [prepareOp, hs] at hop
  split_ifs at hop <;> cases hop
  · refine ⟨⟨hst.2.1, ?_⟩, rfl⟩
    exact (s.card.rename_new (show Name.seed ≠ .temp by decide)).trans hst.2.2
  · exact ⟨⟨.inr hst.1, hst.2.1⟩, rfl⟩

/-- Creating the seed anew. Where that fails, the old one has to be there still. -/
theorem advances_createSeed (hs : s.stage = .createSeed r)
    (hst : ((seedOn s.card).isSome = true ∨ s.card .seed = none) ∧ Derived tls r)
    (hkeeps : Keeps s (.op a)) (hop : prepareOp tls a s = some t) : Advances tls s t := by
  simp only [Keeps, hs] at hkeeps
  simp only [prepareOp, hs] at hop
  split_ifs at hop with hok <;> cases hop
  · exact ⟨hst.2, rfl⟩
  · have hsome := hkeeps.resolve_left hok
    refine ⟨⟨hst.1.resolve_right fun hnone => ?_, hst.2, nofun⟩, rfl⟩
    rw [hnone] at hsome
    cases hsome

/-- Copying the next seed, and closing the copy. -/
theorem advances_writeSeed (hs : s.stage = .writeSeed r) (hst : Derived tls r)
    (hkeeps : Keeps s (.op a)) (hop : prepareOp tls a s = some t) : Advances tls s t := by
  simp only [Keeps, hs] at hkeeps
  simp only [prepareOp, hs, Option.some.injEq] at hop
  subst hop
  exact ⟨⟨isSome_seedOn_put hkeeps, hst, fun hok => write_self (s := s) hok .seed r.next⟩, rfl⟩

/-- The end of the copying. -/
theorem advances_copied {written : Bool}
    (hs : s.stage = .closeSeed r written ∨ s.stage = .removeCopied r written)
    (hst : (seedOn s.card).isSome = true ∧ Derived tls r ∧
      (written = true → s.card .seed = some r.next.1))
    (hop : prepareOp tls a s = some t) : Advances tls s t := by
  rcases hs with hs | hs
  · simp only [prepareOp, hs, Option.some.injEq] at hop
    subst hop
    exact ⟨⟨hst.1, hst.2.1, fun hboth => hst.2.2 (Bool.and_eq_true_iff.mp hboth).1⟩, rfl⟩
  · simp only [prepareOp, hs] at hop
    split_ifs at hop with hwritten <;> cases hop
    · refine ⟨⟨hst.2.1, ?_⟩, removeIf_ready ..⟩
      exact (removeIf_seed ..).trans (hst.2.2 hwritten)
    · refine ⟨?_, removeIf_ready ..⟩
      show (seedOn _).isSome = true
      rw [Console.fail, seedOn_congr (removeIf_seed ..)]
      exact hst.1

/-- Loading the certificates, which leaves the seed replaced whatever is wrong with them. -/
theorem advances_ca (pem : List UInt8)
    (hs : s.stage = .openCa r ∨ s.stage = .sizeCa r pem ∨ s.stage = .readCa r pem)
    (hst : Derived tls r ∧ s.card .seed = some r.next.1) (hop : prepareOp tls a s = some t) :
    Advances tls s t := by
  have hsome : (seedOn s.card).isSome = true := by
    rw [seedOn_of_eq hst.2]
    rfl
  rcases hs with hs | hs | hs
  · cases hca : s.card .ca with
    | none =>
        simp only [prepareOp, hs, hca, Option.some.injEq] at hop
        subst hop
        exact ⟨hsome, rfl⟩
    | some pem =>
        simp only [prepareOp, hs, hca] at hop
        split_ifs at hop <;> cases hop
        · exact ⟨hst, rfl⟩
        · exact ⟨hsome, rfl⟩
  all_goals
    simp only [prepareOp, hs] at hop
    split_ifs at hop <;> cases hop
    · exact ⟨hst, rfl⟩
    · exact ⟨hsome, rfl⟩

/-- The certificates are parsed: the first session is ready, or it is not to be had. -/
theorem inv_parseCa {pem : List UInt8} (hs : s.stage = .parseCa r pem) (hready : s.ready = false)
    (hst : Derived tls r ∧ s.card .seed = some r.next.1) (hop : prepareOp tls a s = some t) :
    Inv tls t := by
  have hsome : (seedOn s.card).isSome = true := by
    rw [seedOn_of_eq hst.2]
    rfl
  simp only [prepareOp, hs] at hop
  split_ifs at hop <;> cases hop
  · exact inv_of_standing hsome hready
  · exact ⟨hsome, fun _ => ⟨rfl, r, rfl, hst⟩⟩

/-- The operations of `prepare` keep what holds at its stages. -/
theorem inv_op (h : Inv tls s) (hkeeps : Keeps s (.op a)) (hfresh : Fresh tls s (.op a))
    (hop : prepareOp tls a s = some t) : Inv tls t := by
  obtain ⟨hst, hready⟩ := h
  -- while `prepare` is running, it has not succeeded yet
  have hnot : s.stage ≠ .idle → s.ready = false := by
    intro hne
    by_contra htrue
    exact hne (hready (eq_true_of_ne_false htrue)).1
  have hdone : s.stage ≠ .idle → Advances tls s t → Inv tls t :=
    fun hne hadv => inv_of_standing hadv.standing (hadv.ready.trans (hnot hne))
  cases hs : s.stage with
  | idle =>
      rw [prepareOp, hs] at hop
      cases hop
  | readSeed =>
      rw [hs] at hst
      exact hdone (by simp [hs]) (advances_readSeed hs hst hop)
  | generate x =>
      rw [hs] at hst
      exact hdone (by simp [hs]) (advances_generate hs hst hfresh hop)
  | removeTemp r =>
      rw [hs] at hst
      exact hdone (by simp [hs]) (advances_temp (.inl hs) hst hop)
  | createTemp r =>
      rw [hs] at hst
      exact hdone (by simp [hs]) (advances_temp (.inr (.inl hs)) hst hop)
  | writeTemp r =>
      rw [hs] at hst
      exact hdone (by simp [hs]) (advances_temp (.inr (.inr hs)) hst hop)
  | closeTemp r written =>
      rw [hs] at hst
      exact hdone (by simp [hs]) (advances_closeTemp hs hst hop)
  | dropTemp =>
      rw [hs] at hst
      exact hdone (by simp [hs]) (advances_dropTemp hs hst hop)
  | removeSeed r =>
      rw [hs] at hst
      exact hdone (by simp [hs]) (advances_removeSeed hs hst hop)
  | renameTemp r =>
      rw [hs] at hst
      exact hdone (by simp [hs]) (advances_renameTemp hs hst hop)
  | createSeed r =>
      rw [hs] at hst
      exact hdone (by simp [hs]) (advances_createSeed hs hst hkeeps hop)
  | writeSeed r =>
      rw [hs] at hst
      exact hdone (by simp [hs]) (advances_writeSeed hs hst hkeeps hop)
  | closeSeed r written =>
      rw [hs] at hst
      exact hdone (by simp [hs]) (advances_copied (.inl hs) hst hop)
  | removeCopied r written =>
      rw [hs] at hst
      exact hdone (by simp [hs]) (advances_copied (.inr hs) hst hop)
  | openCa r =>
      rw [hs] at hst
      exact hdone (by simp [hs]) (advances_ca [] (.inl hs) hst hop)
  | sizeCa r pem =>
      rw [hs] at hst
      exact hdone (by simp [hs]) (advances_ca pem (.inr (.inl hs)) hst hop)
  | readCa r pem =>
      rw [hs] at hst
      exact hdone (by simp [hs]) (advances_ca pem (.inr (.inr hs)) hst hop)
  | parseCa r pem =>
      rw [hs] at hst
      exact inv_parseCa hs (hnot (by simp [hs])) hst hop

/-- Behind a power cut the console starts again. -/
theorem inv_power {bytes : ℕ} (h : Inv tls s) (hkeeps : Keeps s (.power bytes)) :
    (seedOn (torn bytes s)).isSome = true := by
  obtain ⟨card, stage, ready, used, error⟩ := s
  obtain ⟨hst, -⟩ := h
  cases stage with
  | idle | readSeed | generate | dropTemp => exact hst
  | removeTemp | createTemp | closeTemp | removeSeed | closeSeed | removeCopied => exact hst.1
  | writeTemp r =>
      rw [torn, seedOn_put_temp]
      exact hst.1
  | renameTemp => cases hkeeps
  | createSeed r =>
      have hsome : (card .seed).isSome = true := hkeeps
      refine hst.1.resolve_right fun hnone => absurd hsome ?_
      rw [show card .seed = none from hnone]
      nofun
  | writeSeed r => exact isSome_seedOn_put (b := false) (.inr hkeeps)
  | openCa r | sizeCa r | readCa r | parseCa r =>
      rw [torn, seedOn_of_eq hst.2]
      rfl

/-! ## The runs -/

/-- A good step keeps the invariant. -/
theorem inv_step {e : Event} (h : Inv tls s) (hkeeps : Keeps s e) (hfresh : Fresh tls s e)
    (hstep : step tls s e = some t) : Inv tls t := by
  cases e with
  | op a => exact inv_op h hkeeps hfresh hstep
  | power bytes =>
      cases hstep
      exact inv_of_standing (inv_power h hkeeps) rfl
  | call =>
      obtain ⟨card, stage, ready, used, error⟩ := s
      cases stage with
      | idle =>
          simp only [step] at hstep
          split_ifs at hstep with hready
          · cases hstep
            exact h
          · cases hstep
            exact inv_of_standing h.standing (eq_false_of_ne_true hready)
      | _ => cases hstep

/-- The steps that keep the seed, and go on to another one. -/
def Good (tls : Mbedtls) (s : Console) (e : Event) : Prop := Keeps s e ∧ Fresh tls s e

/-- Whether a step is good is decided by the state. -/
instance (tls : Mbedtls) (s : Console) : DecidablePred (Good tls s) := fun e =>
  inferInstanceAs (Decidable (Keeps s e ∧ Fresh tls s e))

/-- The invariant holds in every state of a good run. -/
theorem inv_of_reachable (hs : (system tls).Reachable (Good tls) s) : Inv tls s := by
  refine hs.invariant ?_ ?_
  · rintro s ⟨card, hsome, rfl⟩
    exact inv_of_standing hsome rfl
  · rintro s e t - h ⟨hkeeps, hfresh⟩ hstep
    exact inv_step h hkeeps hfresh hstep

/-- The seed has been lost, or is not going to be written. -/
structure Lost (s : Console) : Prop where
  none : seedOn s.card = none
  ready : s.ready = false
  stage : match s.stage with
    | .idle | .readSeed => True
    | .closeSeed _ written | .removeCopied _ written => written = false
    | _ => False

/-- A step that does not keep the seed loses it. -/
theorem lost_of_not_keeps {e : Event} (h : Inv tls s) (hbad : ¬ Keeps s e)
    (hstep : step tls s e = some t) : Lost t := by
  obtain ⟨card, stage, ready, used, error⟩ := s
  obtain ⟨hst, hready⟩ := h
  -- Between the stages of a call the generator is not ready.
  have hnot : stage ≠ .idle → ready = false := fun hne => by
    by_contra htrue
    exact hne (hready (eq_true_of_ne_false htrue)).1
  cases e with
  | call => exact absurd trivial hbad
  -- power fails where the card has no whole seed
  | power bytes =>
      cases hstep
      cases stage with
      | renameTemp r => exact ⟨seedOn_of_none hst.1, rfl, trivial⟩
      | createSeed r =>
          have hnone : card .seed = none := Option.not_isSome_iff_eq_none.mp hbad
          exact ⟨seedOn_of_none hnone, rfl, trivial⟩
      | writeSeed r =>
          exact ⟨seedOn_of_take (Nat.lt_of_not_le hbad) (card.put_self (r.next.1.take bytes) .seed),
            rfl, trivial⟩
      | _ => exact absurd trivial hbad
  -- an operation fails there
  | op a =>
      cases stage with
      | createSeed r =>
          obtain ⟨hok, hsome⟩ := not_or.mp hbad
          have hnone : card .seed = none := Option.not_isSome_iff_eq_none.mp hsome
          simp only [step, prepareOp, if_neg hok] at hstep
          cases hstep
          exact ⟨seedOn_of_none hnone, hnot nofun, rfl⟩
      | writeSeed r =>
          obtain ⟨hok, hbytes⟩ := not_or.mp hbad
          cases hstep
          refine ⟨seedOn_of_take (x := r.next) (Nat.lt_of_not_le hbytes) ?_, hnot nofun, eq_false_of_ne_true hok⟩
          rw [Console.goto, Console.write, if_neg hok]
          exact card.put_self (r.next.1.take a.bytes) .seed
      | _ => exact absurd trivial hbad

/-- A seed that has been lost does not come back. -/
theorem lost_step {e : Event} (h : Lost s) (hstep : step tls s e = some t) : Lost t := by
  obtain ⟨card, stage, ready, used, error⟩ := s
  obtain ⟨hnone, rfl, hstage⟩ := h
  -- With no seed to read the call only closes and removes what it has, and fails.
  cases stage with
  | idle =>
      cases e with
      | call =>
          cases hstep
          exact ⟨hnone, rfl, trivial⟩
      | op a => cases hstep
      | power bytes =>
          cases hstep
          exact ⟨hnone, rfl, trivial⟩
  | readSeed =>
      cases e with
      | call => cases hstep
      | op a =>
          simp only [step, prepareOp, hnone] at hstep
          cases hstep
          exact ⟨hnone, rfl, trivial⟩
      | power bytes =>
          cases hstep
          exact ⟨hnone, rfl, trivial⟩
  | closeSeed r written =>
      obtain rfl : written = false := hstage
      cases e with
      | call => cases hstep
      | op a =>
          cases hstep
          exact ⟨hnone, rfl, rfl⟩
      | power bytes =>
          cases hstep
          exact ⟨hnone, rfl, trivial⟩
  | removeCopied r written =>
      obtain rfl : written = false := hstage
      cases e with
      | call => cases hstep
      | op a =>
          cases hstep
          refine ⟨?_, removeIf_ready .., trivial⟩
          rw [Console.fail, seedOn_congr (removeIf_seed ..)]
          exact hnone
      | power bytes =>
          cases hstep
          exact ⟨hnone, rfl, trivial⟩
  | _ => cases hstage

/-- A seed that has been lost stays lost. -/
theorem lost_exec {es : List Event} (h : Lost s) (hexec : (system tls).exec s es = some t) :
    Lost t := by
  induction es generalizing s with
  | nil =>
      cases hexec
      exact h
  | cons e es ih =>
      obtain ⟨u, hu, hexec⟩ := Option.bind_eq_some_iff.mp hexec
      exact ih (lost_step h hu) hexec

/-- Where `prepare` is not running the seed can be read, and behind a success of `prepare` it is
another one than the seed that was used, and derived from it; after a step that does not keep the
seed, no boot has one again. -/
theorem prepare_rotates (tls : Mbedtls) (hs : (system tls).Reachable (Good tls) s) :
    (s.stage = .idle → (seedOn s.card).isSome = true) ∧
    (s.ready = true → ∃ r : Roll, s.used = some r.used ∧ s.card .seed = some r.next.1 ∧
      r.next ≠ r.used ∧ ∃ times, tls.generate r.used times = some r.next) ∧
    ∀ e t, step tls s e = some t → ¬ Keeps s e → ∀ es u, (system tls).exec t es = some u →
      seedOn u.card = none ∧ u.ready = false := by
  have h := inv_of_reachable hs
  refine ⟨fun hidle => ?_, fun hready => ?_, fun e t hstep hbad es u hexec => ?_⟩
  · have hst := h.standing
    rwa [hidle] at hst
  · obtain ⟨-, r, hused, hderived, hcard⟩ := h.ready hready
    exact ⟨r, hused, hcard, hderived.ne, hderived.generated⟩
  · have hlost := lost_exec (lost_of_not_keeps h hbad hstep) hexec
    exact ⟨hlost.none, hlost.ready⟩

/-- A library for trying out: its digest is the beginning of the input, with the first byte counted
up, and its generator returns the state behind the first 48 bytes of entropy. -/
def counting : Mbedtls where
  sha512 input :=
    if h : 64 ≤ input.length then some ⟨(input.take 64).modifyHead (· + 1), by simp [h]⟩ else none
  ctrDrbg entropy _ e := (entropy 48 e).map fun p => p.2.state
  crtParse _ := 0

/-- A card with a seed and a certificate. -/
def freshCard : Card Name
  | .seed => some (List.replicate 64 0)
  | .temp => none
  | .ca => some [45]

def done : Event := .op ⟨true, 64, []⟩

def failed (bytes : ℕ) : Event := .op ⟨false, bytes, []⟩

/-- A boot in which nothing fails; one in which power fails in the middle of the temporary file; and
one in which the seed cannot be removed and is written over. -/
def sampleEvents : List Event :=
  .call :: List.replicate 12 done ++ [.power 0] ++
    .call :: List.replicate 4 done ++ [.power 30] ++
    .call :: List.replicate 6 done ++ failed 0 :: List.replicate 8 done

theorem prepare_rotates_sample :
    ∃ s, (system counting).exec ⟨freshCard, .idle, false, none, none⟩ sampleEvents = some s ∧
      s.ready = true ∧
      (s.stage = .idle → (seedOn s.card).isSome = true) ∧
      (s.ready = true → ∃ r : Roll, s.used = some r.used ∧ s.card .seed = some r.next.1 ∧
        r.next ≠ r.used ∧ ∃ times, counting.generate r.used times = some r.next) ∧
      ∀ e t, step counting s e = some t → ¬ Keeps s e → ∀ es u,
        (system counting).exec t es = some u → seedOn u.card = none ∧ u.ready = false := by
  have hok : (system counting).OkAlong (Good counting)
      ⟨freshCard, .idle, false, none, none⟩ sampleEvents := by decide +kernel
  have hready : ((system counting).exec ⟨freshCard, .idle, false, none, none⟩ sampleEvents).map
      Console.ready = some true := by decide +kernel
  obtain ⟨s, hexec, hs⟩ := Option.map_eq_some_iff.mp hready
  have hfresh : (system counting).Reachable (Good counting)
      ⟨freshCard, .idle, false, none, none⟩ := .init ⟨_, by decide +kernel, rfl⟩
  exact ⟨s, hexec, hs, prepare_rotates counting (hfresh.exec hok hexec)⟩

/-- Power fails between `remove` and `rename`: the next seed stays in the temporary file, and the
next boot does not look at it. -/
def cutEvents : List Event :=
  .call :: List.replicate 7 done ++ [.power 0, .call, done]

/-- Neither the renaming nor the copy succeeds: the old seed is removed, and the temporary file as
well. -/
def failedEvents : List Event :=
  .call :: List.replicate 7 done ++ [failed 0, failed 0, done]

theorem prepare_loses :
    (((system counting).exec ⟨freshCard, .idle, false, none, none⟩ cutEvents).map fun s =>
      (seedOn s.card, (s.card .temp).isSome, s.error)) =
      some (none, true, some "Missing TLS seed: run tools/prepare-sd.ps1") ∧
    (((system counting).exec ⟨freshCard, .idle, false, none, none⟩ failedEvents).map fun s =>
      (seedOn s.card, (s.card .temp).isSome, s.error)) =
      some (none, false, some "Cannot save TLS seed") := by
  decide +kernel

end WiiMC.Tls
