import WiiMC.Stream.Buffer

/-!
# A file that is read from a position

What the functions of the buffered stream are for: the bytes behind a stream, a position in them,
and the answers that a user of the stream may expect.

* `remaining`: the bytes from a position on.
* `Answers`: the answer to a request, and where it leaves the position. An answer is exact unless
  the reader has been interrupted; an interrupted one holds a part of what was asked for.
* `line`: the bytes up to a terminator, with it.
-/

namespace WiiMC.Stream

open Cache (Source)

/-- A file that is being read. -/
structure Handle where
  pos : ℤ
  /-- Whether the end of the file has been met. -/
  eof : Bool
  /-- Whether a wait for the file has been given up. -/
  interrupted : Bool
  deriving DecidableEq

/-- The bytes from `pos` on. -/
def remaining (src : Source) (pos : ℤ) : List UInt8 :=
  Ring.slice src.byte pos (src.size - pos).toNat

/-- The bytes up to the first `term`, with it; all of them if there is none. -/
def line (term : UInt8) : List UInt8 → List UInt8
  | [] => []
  | b :: bs => if b = term then [b] else b :: line term bs

/-- The answer goes on from `v` to `v'`. The end is not met before the end of the file, and a wait
once given up remains so. -/
structure Goes (src : Source) (v v' : Handle) : Prop where
  interrupted : v.interrupted = true → v'.interrupted = true
  pos_nonneg : 0 ≤ v'.pos
  eof_true : v'.eof = true → src.size ≤ v'.pos ∨ v'.interrupted = true

/-- `mem` are the next bytes, all of `want` unless there was an interruption. -/
structure Delivers (v v' : Handle) (want mem : List UInt8) : Prop where
  initial : mem <+: want
  pos_eq : v'.pos = v.pos + mem.length
  complete : v'.interrupted = false → mem = want

/-- The position is moved to `pos`; that may fail at the end of the file. -/
structure Moves (src : Source) (v' : Handle) (pos ret : ℤ) : Prop where
  bool : ret = 1 ∨ ret = 0
  there : ret = 1 → v'.pos = pos
  fails : ret = 0 → src.size ≤ pos ∨ v'.interrupted = true

/-- The string read up to a terminator, with room for `room` bytes. -/
structure ReadsLine (src : Source) (term : UInt8) (room : ℕ) (v v' : Handle) (mem : List UInt8) :
    Prop where
  initial : mem <+: (line term (remaining src v.pos)).take room
  complete : v'.interrupted = false → mem = (line term (remaining src v.pos)).take room
  /-- The line has been read, or cut off: then what is left of it is passed over or not. -/
  pos_eq : v'.interrupted = false → v'.pos = v.pos + mem.length ∨
    v'.pos = v.pos + (line term (remaining src v.pos)).length

/-- The next byte, or `-256` where there is none. -/
def ReadsChar (src : Source) (prompt : Bool) (v v' : Handle) (c : ℤ) : Prop :=
  (∃ b, (remaining src v.pos).head? = some b ∧ c = b.toNat ∧ v'.pos = v.pos + 1 ∧
    v'.eof = false) ∨
  (c = -256 ∧ v'.pos = v.pos ∧ (src.size ≤ v.pos ∨ v'.interrupted = true) ∧
    (prompt = true → v'.eof = true))

/-- Where `prompt` is set, a request that meets the end of the file says so at once. -/
def Answers (src : Source) (prompt : Bool) (v v' : Handle) : (q : Request) → q.Answer → Prop
  | .read total, (ret, mem) =>
      Delivers v v' ((remaining src v.pos).take total.toNat) mem ∧
        ret = (if total > 0 then (mem.length : ℤ) else total) ∧
        (total ≤ 0 → v' = v) ∧
        (0 < total → v'.eof = true → mem.length < total) ∧
        (0 < total → prompt = true → mem.length < total → v'.eof = true)
  | .readChar, c => ReadsChar src prompt v v' c
  | .readUntil max term, answer =>
      if max < 1 then answer = none ∧ v' = v
      else ∃ mem, ReadsLine src term (max - 1).toNat v v' mem ∧
        (prompt = true → remaining src v.pos = [] → v'.eof = true) ∧
        answer = if v'.eof = true ∧ mem = [] then none else some mem
  | .skip len, ret =>
      Moves src v' (if len < 0 then max 0 (v.pos + len) else v.pos + len) ret
  | .seek pos, ret => Moves src v' (max 0 pos) ret
  | .tell, pos => pos = v.pos ∧ v' = v
  | .eof, eof => eof = v.eof ∧ v' = v

/-- A file that answers the requests of a user. -/
def file (src : Source) (prompt : Bool) (q : Request) (v : Handle) (answer : q.Answer)
    (v' : Handle) : Prop :=
  Goes src v v' ∧ Answers src prompt v v' q answer

/-! ## The bytes from a position on -/

variable {src : Source} {pos : ℤ}

theorem remaining_eq_nil_iff : remaining src pos = [] ↔ src.size ≤ pos := by
  rw [← List.length_eq_zero_iff, remaining, Ring.length_slice]
  omega

/-- The next bytes, and the ones behind them. -/
theorem remaining_eq_append {n : ℕ} (h : n = 0 ∨ pos + n ≤ src.size) :
    remaining src pos = Ring.slice src.byte pos n ++ remaining src (pos + n) := by
  rcases h with rfl | h
  · simp
  · have hlen : (src.size - pos).toNat = n + (src.size - (pos + n)).toNat := by omega
    rw [remaining, hlen, Ring.slice_add]
    rfl

variable {term : UInt8} {as bs : List UInt8}

theorem line_eq_self (h : term ∉ as) : line term as = as := by
  induction as with
  | nil => rfl
  | cons a as ih =>
    rw [List.mem_cons, not_or] at h
    rw [line, if_neg (Ne.symm h.1), ih h.2]

/-- Without a terminator in the first part the line goes on in the second one. -/
theorem line_append (h : term ∉ as) : line term (as ++ bs) = as ++ line term bs := by
  induction as with
  | nil => rfl
  | cons a as ih =>
    rw [List.mem_cons, not_or] at h
    rw [List.cons_append, line, if_neg (Ne.symm h.1), ih h.2, List.cons_append]

/-- The terminator ends the line. -/
theorem line_append_cons (h : term ∉ as) : line term (as ++ term :: bs) = as ++ [term] := by
  rw [line_append h, line, if_pos rfl]

end WiiMC.Stream
