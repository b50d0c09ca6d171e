import WiiMC.Lib.Bytes
import WiiMC.Http.Transport

/-!
# Reading bytes and lines of a response

`raw_read` and `line` of `http_client.c`. The refill buffer and the connection behind it are one
sequence of bytes that are still to be read (`GcHttp.pending`); how it is cut into reads does
not show.

* `rawRead_cases`: everything `raw_read` can do.
* `line_ok`: a line that has arrived is read as a whole.
* `line_cut`: a line that the end of the connection cuts fails.
-/

namespace WiiMC.Http

open Bytes

/-- The state of a request, `gc_http`. -/
structure GcHttp (κ : Type) where
  conn : Option (GcConnection κ)
  url : List UInt8
  error : String
  location : List UInt8
  contentType : List UInt8
  icyName : List UInt8
  status : ℤ
  chunked : Bool
  eof : Bool
  failed : Bool
  icyInterval : ℤ
  length : ℤ
  remaining : ℤ
  rangeStart : ℤ
  rangeEnd : ℤ
  total : ℤ
  chunkLeft : ℤ
  /-- The part of the buffer between `begin` and `end`. -/
  buffer : List UInt8
  chunkCrlf : Bool
  deriving DecidableEq

variable {κ : Type}

/-- `fail`: the caller returns -1. -/
def GcHttp.fail (h : GcHttp κ) (msg : String) : GcHttp κ := { h with error := msg, failed := true }

/-- `raw_read`: the bytes read, none of them at the end of the connection; `none` is -1. -/
def rawRead (h : GcHttp κ) (len : ℕ) : Option (List UInt8) × GcHttp κ :=
  match h.buffer with
  | [] =>
      match h.conn with
      -- no caller reads without a connection
      | none => (none, h)
      | some c =>
          match gcNetRead c 4096 with
          | (.error cancelled, c) =>
              (none, { h with conn := some c }.fail
                (if cancelled then "Cancelled" else "Network read failed or timed out"))
          | (.ok [], c) => (some [], { h with conn := some c })
          | (.ok (b :: bs), c) =>
              (some ((b :: bs).take len),
                { h with conn := some c, buffer := (b :: bs).drop len })
  | b :: bs => (some ((b :: bs).take len), { h with buffer := (b :: bs).drop len })

/-- The loop of `line`, with the room that is left and the bytes read, the latest first. -/
def lineLoop : ℕ → List UInt8 → GcHttp κ → Option (List UInt8) × GcHttp κ
  | 0, _, h => (none, h.fail "HTTP line is too long")
  | room + 1, dst, h =>
      match rawRead h 1 with
      | (some [c], h) =>
          if c = 10 then
            match dst with
            | 13 :: dst => (some dst.reverse, h)
            | _ => (none, h.fail "Invalid HTTP line ending")
          else if c = 0 then (none, h.fail "Invalid HTTP header byte")
          else lineLoop room (c :: dst) h
      | (_, h) => (none, h.fail "Truncated HTTP line")

/-- `line`: the line without its ending, whose length is one less than what `line` returns;
`none` is -1. -/
def line (h : GcHttp κ) (cap : ℕ) : Option (List UInt8) × GcHttp κ := lineLoop (cap - 1) [] h

/-- `integer`. -/
def integer (s : List UInt8) : Option ℤ :=
  if isDigit (s.headD 0) then
    match scanInt s with
    | some (n, []) => if n < 2 ^ 63 then some n else none
    | _ => none
  else none

/-! ## What is still to be read -/

/-- The bytes still to be read. -/
def GcHttp.pending (h : GcHttp κ) : List UInt8 :=
  h.buffer ++ (h.conn.map fun c => arriving c.input).getD []

/-- The server closes the connection after them; no error ends it. -/
def GcHttp.closes (h : GcHttp κ) : Bool := h.conn.any fun c => endsClosed c.input

/-- `h'` is `h` after some bytes have been read, and `rest` is still to be read. -/
def ReadOn (h h' : GcHttp κ) (rest : List UInt8) : Prop :=
  ∃ c input buffer, h.conn = some c ∧
    h' = { h with conn := some { c with input := input }, buffer := buffer } ∧
    buffer ++ arriving input = rest ∧ endsClosed input = h.closes

section Specs

variable {h h' h'' : GcHttp κ} {rest rest' : List UInt8}

/-- What is pending is what is left. -/
theorem ReadOn.pending_eq (hr : ReadOn h h' rest) : h'.pending = rest := by
  obtain ⟨c, input, buffer, -, rfl, hrest, -⟩ := hr
  exact hrest

/-- Reading on does not close the connection. -/
theorem ReadOn.closes_eq (hr : ReadOn h h' rest) : h'.closes = h.closes := by
  obtain ⟨c, input, buffer, -, rfl, -, hcloses⟩ := hr
  exact hcloses

/-- Reading on keeps the connection. -/
theorem ReadOn.isSome (hr : ReadOn h h' rest) : h'.conn.isSome = true := by
  obtain ⟨c, input, buffer, -, rfl, -, -⟩ := hr
  rfl

/-- Nothing has been read. -/
theorem ReadOn.refl (hconn : h.conn.isSome = true) : ReadOn h h h.pending := by
  obtain ⟨c, hc⟩ := Option.isSome_iff_exists.mp hconn
  refine ⟨c, c.input, h.buffer, hc, ?_, ?_, ?_⟩
  · cases h
    simp only at hc
    rw [hc]
  · rw [GcHttp.pending, hc]
    rfl
  · rw [GcHttp.closes, hc]
    rfl

/-- Reading on twice is reading on. -/
theorem ReadOn.trans (h₁ : ReadOn h h' rest) (h₂ : ReadOn h' h'' rest') : ReadOn h h'' rest' := by
  have hcloses := h₁.closes_eq
  obtain ⟨c, input, buffer, hc, rfl, -, -⟩ := h₁
  obtain ⟨c', input', buffer', hc', rfl, hrest', hcloses'⟩ := h₂
  cases hc'
  exact ⟨c, input', buffer', hc, rfl, hrest', hcloses'.trans hcloses⟩

/-- A read of at least one byte: the end, an error, or some of the next bytes. -/
theorem rawRead_cases (hconn : h.conn.isSome = true) {len : ℕ} (hlen : len ≠ 0) :
    (h.pending = [] ∧ h.closes = true ∧ ∃ h', rawRead h len = (some [], h') ∧ ReadOn h h' []) ∨
    (h.pending = [] ∧ h.closes = false ∧ ∃ h', rawRead h len = (none, h') ∧ h'.failed = true) ∨
    ∃ bs rest h', bs ≠ [] ∧ bs.length ≤ len ∧ h.pending = bs ++ rest ∧
      rawRead h len = (some bs, h') ∧ ReadOn h h' rest := by
  obtain ⟨c, hc⟩ := Option.isSome_iff_exists.mp hconn
  have hpending : h.pending = h.buffer ++ arriving c.input := by
    rw [GcHttp.pending, hc]
    rfl
  have hcloses : h.closes = endsClosed c.input := by
    rw [GcHttp.closes, hc]
    rfl
  have htake : ∀ {b : UInt8} {bs : List UInt8}, (b :: bs).take len ≠ [] := by
    intro b bs
    obtain ⟨n, rfl⟩ := Nat.exists_eq_succ_of_ne_zero hlen
    simp
  -- What is buffered comes first; the connection is asked only when nothing is.
  cases hbuf : h.buffer with
  | cons b bs =>
      refine Or.inr (Or.inr ⟨(b :: bs).take len, (b :: bs).drop len ++ arriving c.input, _, htake,
        List.length_take_le _ _, ?_, by rw [rawRead, hbuf], c, c.input, (b :: bs).drop len, hc, ?_,
        rfl, hcloses.symm⟩)
      · rw [hpending, hbuf, ← List.append_assoc, List.take_append_drop]
      · rw [← hc]
  | nil =>
      rw [hbuf, List.nil_append] at hpending
      rcases gcNetRead_cases c (show (4096 : ℕ) ≠ 0 by decide) with
        ⟨hnil, hclosed, hread⟩ | ⟨hnil, hclosed, cancelled, rest, hread⟩ |
        ⟨bs, rest, hne, hbs, hclosed, hread⟩
      · refine Or.inl ⟨hpending.trans hnil, hcloses.trans hclosed, { h with conn := some c }, ?_,
          c, c.input, [], hc, ?_, hnil, hcloses.symm⟩
        · rw [rawRead, hbuf]
          simp only [hc, hread]
        · rw [← hbuf]
      · refine Or.inr (Or.inl ⟨hpending.trans hnil, hcloses.trans hclosed,
          GcHttp.fail { h with conn := some { c with input := rest } }
            (if cancelled then "Cancelled" else "Network read failed or timed out"), ?_, rfl⟩)
        rw [rawRead, hbuf]
        simp only [hc, hread]
      · obtain ⟨b, bs, rfl⟩ := List.exists_cons_of_ne_nil hne
        refine Or.inr (Or.inr ⟨(b :: bs).take len, (b :: bs).drop len ++ arriving rest,
          { h with conn := some { c with input := rest }, buffer := (b :: bs).drop len }, htake,
          List.length_take_le _ _, ?_, ?_, c, rest, (b :: bs).drop len, hc, rfl, rfl,
          hclosed.trans hcloses.symm⟩)
        · rw [hpending, hbs, ← List.append_assoc, List.take_append_drop]
        · rw [rawRead, hbuf]
          simp only [hc, hread]

/-! ## What reading leaves alone -/

/-- What reading leaves alone: the connection but for its input, the interval that the head has
told, and the effective URL. -/
def GcHttp.fixed (h : GcHttp κ) : Option (GcConnection κ) × ℤ × List UInt8 :=
  (h.conn.map GcConnection.quiet, h.icyInterval, h.url)

/-- A read leaves the answer as it is. -/
theorem rawRead_fixed (h : GcHttp κ) (len : ℕ) :
    (rawRead h len).2.fixed = h.fixed := by
  unfold rawRead
  cases h.buffer with
  | cons b bs => rfl
  | nil =>
      cases hconn : h.conn with
      | none => rfl
      | some c =>
          have hc := gcNetRead_quiet c 4096
          rcases hnet : gcNetRead c 4096 with ⟨r, c'⟩
          rw [hnet] at hc
          rcases r with cancelled | _ | ⟨b, bs⟩ <;>
            simp only [hnet, GcHttp.fail, GcHttp.fixed, hconn, Option.map_some] <;> rw [← hc]

/-- Reading a line leaves the answer as it is. -/
theorem lineLoop_fixed (room : ℕ) (dst : List UInt8) (h : GcHttp κ) :
    (lineLoop room dst h).2.fixed = h.fixed := by
  induction room generalizing dst h with
  | zero => rfl
  | succ room ih =>
      have hraw := rawRead_fixed h 1
      rw [lineLoop]
      rcases hread : rawRead h 1 with ⟨_ | _ | ⟨c, _ | ⟨c', bs⟩⟩, h'⟩ <;> rw [hread] at hraw <;>
        simp only
      · exact hraw
      · exact hraw
      · split_ifs
        · split <;> exact hraw
        · exact hraw
        · exact (ih (c :: dst) h').trans hraw
      · exact hraw

/-- Reading a line sends nothing. -/
theorem lineLoop_quiet (room : ℕ) (dst : List UInt8) (h : GcHttp κ) :
    (lineLoop room dst h).2.conn.map GcConnection.quiet = h.conn.map GcConnection.quiet :=
  congrArg Prod.fst (lineLoop_fixed room dst h)

/-- A read that does not fail changes nothing but what is still to be read. -/
theorem rawRead_keeps {len : ℕ} {bs : List UInt8} (hread : rawRead h len = (some bs, h')) :
    ∃ c buffer, h' = { h with conn := c, buffer := buffer } := by
  unfold rawRead at hread
  cases hbuf : h.buffer with
  | cons b bs' =>
      simp only [hbuf, Prod.mk.injEq] at hread
      exact ⟨h.conn, _, hread.2.symm⟩
  | nil =>
      cases hconn : h.conn with
      | none => simp [hbuf, hconn] at hread
      | some c =>
          rcases hnet : gcNetRead c 4096 with ⟨cancelled | _ | ⟨b, bs'⟩, c'⟩ <;>
            simp only [hbuf, hconn, hnet, Prod.mk.injEq, reduceCtorEq, false_and] at hread
          · exact ⟨some c', h.buffer, hbuf ▸ hread.2.symm⟩
          · exact ⟨some c', _, hread.2.symm⟩

/-- Reading a line changes the connection and the buffer only. -/
theorem lineLoop_keeps {room : ℕ} {dst s : List UInt8}
    (hline : lineLoop room dst h = (some s, h')) :
    ∃ c buffer, h' = { h with conn := c, buffer := buffer } := by
  induction room generalizing dst h with
  | zero => simp [lineLoop] at hline
  | succ room ih =>
      rw [lineLoop] at hline
      rcases hread : rawRead h 1 with ⟨_ | _ | ⟨c, _ | ⟨c', bs⟩⟩, h₁⟩ <;> rw [hread] at hline <;>
        simp only [Prod.mk.injEq, reduceCtorEq, false_and] at hline
      obtain ⟨cn, buffer, rfl⟩ := rawRead_keeps hread
      split_ifs at hline
      · split at hline
        · simp only [Prod.mk.injEq] at hline
          exact ⟨cn, buffer, hline.2.symm⟩
        · simp at hline
      · simp at hline
      · obtain ⟨cn', buffer', rfl⟩ := ih hline
        exact ⟨cn', buffer', rfl⟩

/-- A line that cannot be read is remembered as a failure. -/
theorem lineLoop_failed {room : ℕ} {dst : List UInt8} (hline : lineLoop room dst h = (none, h')) :
    h'.failed = true := by
  induction room generalizing dst h with
  | zero =>
      cases hline
      rfl
  | succ room ih =>
      rw [lineLoop] at hline
      rcases hread : rawRead h 1 with ⟨_ | _ | ⟨c, _ | ⟨c', bs⟩⟩, h₁⟩ <;> rw [hread] at hline <;>
        simp only at hline
      · cases hline
        rfl
      · cases hline
        rfl
      · split_ifs at hline
        · split at hline <;> cases hline
          rfl
        · cases hline
          rfl
        · exact ih hline
      · cases hline
        rfl

/-! ## Lines -/

/-- There are no more lines than bytes in them. -/
theorem length_le_lines (lines : List (List UInt8)) :
    lines.length ≤ (lines.map fun s => s.length + 1).sum := by
  induction lines with
  | nil => exact Nat.le_refl 0
  | cons s lines ih =>
      rw [List.map_cons, List.sum_cons, List.length_cons]
      omega

/-- The bytes that a line may hold. -/
def LineBytes (s : List UInt8) : Prop := ∀ c ∈ s, c ≠ 0 ∧ c ≠ 10

/-- The empty line has the bytes of a line. -/
theorem lineBytes_nil : LineBytes [] := nofun

/-- A text without a zero byte and a line feed has the bytes of a line. -/
theorem LineBytes.of_all {s : List UInt8} (hall : s.all (fun c => c != 0 && c != 10) = true) :
    LineBytes s := by
  intro c hc
  simpa using List.all_eq_true.mp hall c hc

/-- A line that has arrived is read as a whole, if it and its ending fit. -/
theorem lineLoop_ok {content : List UInt8} {room : ℕ} (dst : List UInt8)
    (hconn : h.conn.isSome = true) (hbytes : LineBytes content) (hroom : content.length + 2 ≤ room)
    (hpending : h.pending = content ++ 13 :: 10 :: rest) :
    ∃ h', lineLoop room dst h = (some (dst.reverse ++ content), h') ∧ ReadOn h h' rest := by
  -- one byte of the pending ones is read by each round
  have hbyte : ∀ {h : GcHttp κ} {c : UInt8} {rest : List UInt8}, h.conn.isSome = true →
      h.pending = c :: rest → ∃ h', rawRead h 1 = (some [c], h') ∧ ReadOn h h' rest := by
    intro h c rest hconn hpending
    rcases rawRead_cases hconn Nat.one_ne_zero with
      ⟨hnil, -⟩ | ⟨hnil, -⟩ | ⟨bs, rest', h', hne, hlen, hbs, hread, hon⟩
    · rw [hpending] at hnil
      cases hnil
    · rw [hpending] at hnil
      cases hnil
    · obtain ⟨b, bs, rfl⟩ := List.exists_cons_of_ne_nil hne
      cases List.length_eq_zero_iff.mp (by simpa using hlen)
      rw [hpending, List.singleton_append, List.cons.injEq] at hbs
      obtain ⟨rfl, rfl⟩ := hbs
      exact ⟨h', hread, hon⟩
  have h13 : ¬ (13 : UInt8) = 10 ∧ ¬ (13 : UInt8) = 0 := by decide
  induction content generalizing room dst h with
  | nil =>
      obtain ⟨room, rfl⟩ := Nat.exists_eq_add_of_le hroom
      obtain ⟨h₁, hread₁, hon₁⟩ := hbyte hconn hpending
      obtain ⟨h₂, hread₂, hon₂⟩ := hbyte hon₁.isSome hon₁.pending_eq
      refine ⟨h₂, ?_, hon₁.trans hon₂⟩
      rw [show [].length + 2 + room = room + 1 + 1 by simp; omega, lineLoop, hread₁]
      simp only [h13, if_false, lineLoop, hread₂, if_true, List.append_nil]
  | cons c content ih =>
      obtain ⟨room, rfl⟩ := Nat.exists_eq_add_of_le hroom
      obtain ⟨h₁, hread, hon⟩ := hbyte hconn hpending
      obtain ⟨h0, h10⟩ := hbytes c List.mem_cons_self
      obtain ⟨h', hline, hon'⟩ := ih (c :: dst) hon.isSome
        (fun b hb => hbytes b (List.mem_cons_of_mem c hb))
        (show content.length + 2 ≤ content.length + 2 + room by omega) hon.pending_eq
      refine ⟨h', ?_, hon.trans hon'⟩
      rw [show (c :: content).length + 2 + room = content.length + 2 + room + 1 by simp; omega,
        lineLoop, hread]
      simp only [if_neg h10, if_neg h0, hline, List.reverse_cons, List.append_assoc,
        List.singleton_append]

/-- Where nothing is to be read there is no line. -/
theorem lineLoop_nil {room : ℕ} (dst : List UInt8) (hconn : h.conn.isSome = true)
    (hpending : h.pending = []) : ∃ h', lineLoop room dst h = (none, h') ∧ h'.failed = true := by
  cases room with
  | zero => exact ⟨_, rfl, rfl⟩
  | succ room =>
      rcases rawRead_cases hconn Nat.one_ne_zero with
        ⟨-, -, h', hread, -⟩ | ⟨-, -, h', hread, -⟩ | ⟨bs, rest', h', hne, -, hbs, -⟩
      · exact ⟨_, by rw [lineLoop, hread], rfl⟩
      · exact ⟨_, by rw [lineLoop, hread], rfl⟩
      · rw [hpending] at hbs
        exact absurd (List.append_eq_nil_iff.mp hbs.symm).1 hne

/-- A line that the end of the connection cuts fails. -/
theorem lineLoop_cut {content : List UInt8} {room : ℕ} (dst : List UInt8)
    (hconn : h.conn.isSome = true) (hbytes : LineBytes content)
    (hcut : h.pending <+: content ++ [13, 10]) (hne : h.pending ≠ content ++ [13, 10]) :
    ∃ h', lineLoop room dst h = (none, h') ∧ h'.failed = true := by
  have h13 : ¬ (13 : UInt8) = 10 ∧ ¬ (13 : UInt8) = 0 := by decide
  induction room generalizing content dst h with
  | zero => exact ⟨_, rfl, rfl⟩
  | succ room ih =>
      rcases rawRead_cases hconn Nat.one_ne_zero with
        ⟨-, -, h', hread, -⟩ | ⟨-, -, h', hread, -⟩ |
        ⟨bs, rest', h', hne', hlen, hbs, hread, hon⟩
      · exact ⟨_, by rw [lineLoop, hread], rfl⟩
      · exact ⟨_, by rw [lineLoop, hread], rfl⟩
      · obtain ⟨b, bs, rfl⟩ := List.exists_cons_of_ne_nil hne'
        cases List.length_eq_zero_iff.mp (by simpa using hlen)
        rw [hbs, List.singleton_append] at hcut hne
        rw [lineLoop, hread]
        cases content with
        | cons c content =>
            rw [List.cons_append] at hcut
            obtain ⟨rfl, htail⟩ := List.cons_prefix_cons.mp hcut
            obtain ⟨h0, h10⟩ := hbytes b List.mem_cons_self
            simp only [if_neg h10, if_neg h0]
            refine ih (b :: dst) hon.isSome
              (show LineBytes content from fun c hc => hbytes c (List.mem_cons_of_mem b hc)) ?_ ?_
            · rw [hon.pending_eq]
              exact htail
            · rw [hon.pending_eq]
              intro heq
              exact hne (by rw [heq, List.cons_append])
        | nil =>
            -- the cut is behind the 13
            rw [List.nil_append] at hcut hne
            obtain ⟨rfl, htail⟩ := List.cons_prefix_cons.mp hcut
            have hnil : rest' = [] := by
              rcases List.prefix_cons_iff.mp htail with hnil | ⟨t, rfl, ht⟩
              · exact hnil
              · exact absurd (by rw [List.prefix_nil.mp ht]) hne
            simp only [h13]
            exact lineLoop_nil _ hon.isSome (hon.pending_eq.trans hnil)

/-- A line that has arrived is read as a whole, if it fits. -/
theorem line_ok (content rest : List UInt8) (cap : ℕ) (hconn : h.conn.isSome = true)
    (hbytes : LineBytes content) (hcap : content.length + 2 < cap)
    (hpending : h.pending = content ++ 13 :: 10 :: rest) :
    ∃ h', line h cap = (some content, h') ∧ ReadOn h h' rest :=
  lineLoop_ok [] hconn hbytes (by omega) hpending

/-- A line that the end of the connection cuts fails. -/
theorem line_cut (content : List UInt8) (cap : ℕ) (hconn : h.conn.isSome = true)
    (hbytes : LineBytes content) (hcut : h.pending <+: content ++ [13, 10])
    (hne : h.pending ≠ content ++ [13, 10]) :
    ∃ h', line h cap = (none, h') ∧ h'.failed = true :=
  lineLoop_cut [] hconn hbytes hcut hne

end Specs

end WiiMC.Http
