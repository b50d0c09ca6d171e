import WiiMC.Http.ChunkLine

/-!
# What a server sends

The body that the bytes of any server make up, well formed or not, under the framing that the head
of its response has announced.

* `Chunked`: the data of the chunks, up to the end or to the first fault.
* `Sends`: the body that is still to come, and whether it comes as a whole.
* `gcHttpRead_sends`: a call returns some of its next bytes, the end or the error.
* `Sends.of_header`: what the client reads beyond the grammar.
-/

namespace WiiMC.Http

open Bytes

variable {κ : Type} {h h' : GcHttp κ} {q rest body : List UInt8} {whole : Bool} {len : ℤ}

/-! ## Chunks -/

/-- Which lines stand for the size of a chunk, with the size and what comes behind the line. -/
abbrev SizeRule := List UInt8 → ℕ → List UInt8 → Prop

/-- The lines that the client takes. -/
def Taken : SizeRule := fun q v rest => HeaderAt q v rest ∨ PrefixedAt q v rest

/-- The trailers come next, with the empty line behind them, as far as the client reads them. -/
def TrailersAt (q : List UInt8) : Prop :=
  ∃ trailers rest, (∀ t ∈ trailers, t ≠ [] ∧ LineBytes t ∧ t.length ≤ 253) ∧
    (trailers.map fun t => t.length + 1).sum + 1 ≤ 16384 ∧ q = trailerWire trailers ++ rest

/-- A place in a chunked body: in front of a size, or where some bytes of a chunk are left. -/
inductive Place
  | size
  | data (left : ℕ)

/-- The data that come from a place on, and whether the last chunk and the trailers come behind
them. -/
inductive Chunked (rule : SizeRule) : Place → List UInt8 → List UInt8 → Bool → Prop
  | byte {n : ℕ} {b : UInt8} {q body : List UInt8} {whole : Bool} :
      Chunked rule (.data n) q body whole →
      Chunked rule (.data (n + 1)) (b :: q) (b :: body) whole
  | cut {n : ℕ} : Chunked rule (.data (n + 1)) [] [] false
  | boundary {q body : List UInt8} {whole : Bool} :
      Chunked rule .size q body whole → Chunked rule (.data 0) (13 :: 10 :: q) body whole
  | noBoundary {q : List UInt8} :
      (∀ rest, q ≠ 13 :: 10 :: rest) → Chunked rule (.data 0) q [] false
  | chunk {n : ℕ} {q rest body : List UInt8} {whole : Bool} :
      rule q (n + 1) rest → Chunked rule (.data (n + 1)) rest body whole →
      Chunked rule .size q body whole
  | last {q rest : List UInt8} : rule q 0 rest → TrailersAt rest → Chunked rule .size q [] true
  | noTrailers {q rest : List UInt8} :
      rule q 0 rest → ¬TrailersAt rest → Chunked rule .size q [] false
  | noSize {q : List UInt8} : (∀ v rest, ¬rule q v rest) → Chunked rule .size q [] false

theorem HeaderAt.length_lt {v : ℕ} (hline : HeaderAt q v rest) : rest.length < q.length := by
  obtain ⟨s, rfl, -, -⟩ := hline
  simp only [List.length_append, List.length_cons]
  omega

theorem PrefixedAt.length_lt {v : ℕ} (hline : PrefixedAt q v rest) : rest.length < q.length := by
  obtain ⟨x, s, rfl, -⟩ := hline
  simp only [List.length_append, List.length_cons]
  omega

theorem Taken.length_lt {v : ℕ} (hline : Taken q v rest) : rest.length < q.length :=
  hline.elim HeaderAt.length_lt PrefixedAt.length_lt

/-- Whatever comes makes up some data. -/
theorem exists_chunked {rule : SizeRule}
    (hrule : ∀ {q v rest}, rule q v rest → rest.length < q.length) (n : ℕ) (place : Place)
    (q : List UInt8) (hn : q.length ≤ n) : ∃ body whole, Chunked rule place q body whole := by
  -- The induction is on the bytes left; each piece takes at least one.
  induction n generalizing place q with
  | zero =>
      obtain rfl : q = [] := List.eq_nil_of_length_eq_zero (Nat.le_zero.mp hn)
      match place with
      | .size => exact ⟨[], false, .noSize fun v rest h => absurd (hrule h) (Nat.not_lt_zero _)⟩
      | .data 0 => exact ⟨[], false, .noBoundary fun rest => List.cons_ne_nil _ _ |>.symm⟩
      | .data (m + 1) => exact ⟨[], false, .cut⟩
  | succ n ih =>
      match place with
      | .size =>
          by_cases hline : ∃ v rest, rule q v rest
          swap
          · exact ⟨[], false, .noSize fun v rest h => hline ⟨v, rest, h⟩⟩
          obtain ⟨_ | v, rest, hline⟩ := hline
          · by_cases htrailers : TrailersAt rest
            · exact ⟨[], true, .last hline htrailers⟩
            · exact ⟨[], false, .noTrailers hline htrailers⟩
          · have hlt := hrule hline
            obtain ⟨body, whole, hbody⟩ := ih (.data (v + 1)) rest (by omega)
            exact ⟨body, whole, .chunk hline hbody⟩
      | .data 0 =>
          by_cases hcrlf : ∃ rest, q = 13 :: 10 :: rest
          · obtain ⟨rest, rfl⟩ := hcrlf
            rw [List.length_cons, List.length_cons] at hn
            obtain ⟨body, whole, hbody⟩ := ih .size rest (by omega)
            exact ⟨body, whole, .boundary hbody⟩
          · exact ⟨[], false, .noBoundary fun rest h => hcrlf ⟨rest, h⟩⟩
      | .data (m + 1) =>
          cases q with
          | nil => exact ⟨[], false, .cut⟩
          | cons b q =>
              obtain ⟨body, whole, hbody⟩ := ih (.data m) q (Nat.le_of_succ_le_succ hn)
              exact ⟨b :: body, whole, .byte hbody⟩

/-- Some bytes of a chunk are taken off. -/
theorem Chunked.drop {rule : SizeRule} {n : ℕ} {bs : List UInt8} (hle : bs.length ≤ n)
    (hbody : Chunked rule (.data n) (bs ++ rest) body whole) :
    ∃ body', body = bs ++ body' ∧ Chunked rule (.data (n - bs.length)) rest body' whole := by
  induction bs generalizing n body with
  | nil => exact ⟨body, rfl, hbody⟩
  | cons b bs ih =>
      rw [List.length_cons] at hle
      obtain ⟨n, rfl⟩ := Nat.exists_eq_succ_of_ne_zero (show n ≠ 0 by omega)
      cases hbody with
      | byte hbody =>
          obtain ⟨body', rfl, hbody⟩ := ih (Nat.le_of_succ_le_succ hle) hbody
          refine ⟨body', rfl, ?_⟩
          rwa [List.length_cons, Nat.succ_sub_succ]

/-! ## The parts of a chunked body that the client reads -/

/-- The trailers are read up to the empty line, or the read fails. -/
theorem trailerLoop_cases (fuel total : ℕ) (hconn : h.conn.isSome = true) :
    (∃ h' trailers rest, trailerLoop fuel total h = (some [], { h' with eof := true }) ∧
      ReadOn h h' rest ∧ (∀ t ∈ trailers, t ≠ [] ∧ LineBytes t ∧ t.length ≤ 253) ∧
      total + ((trailers.map fun t => t.length + 1).sum + 1) ≤ 16384 ∧
      h.pending = trailerWire trailers ++ rest) ∨
    ∃ h', trailerLoop fuel total h = (none, h') := by
  induction fuel generalizing total h with
  | zero => exact .inr ⟨_, rfl⟩
  | succ fuel ih =>
      rw [trailerLoop]
      rcases hline : line h 256 with ⟨_ | text, h₁⟩
      · exact .inr ⟨_, rfl⟩
      obtain ⟨rest, hpending, hon, hbytes, hlen⟩ := line_some hconn hline
      simp only
      by_cases hbig : total + (text.length + 1) > 16384
      · rw [if_pos hbig]
        exact .inr ⟨_, rfl⟩
      rw [if_neg hbig]
      -- the empty line ends the trailers
      by_cases hnil : text = []
      · subst hnil
        rw [if_pos rfl]
        refine .inl ⟨h₁, [], rest, rfl, hon, fun t ht => (by cases ht), ?_, hpending⟩
        rw [List.length_nil] at hbig
        simpa using Nat.not_lt.mp hbig
      rw [if_neg hnil]
      rcases ih (total + (text.length + 1)) hon.isSome with
        ⟨h', trailers, rest', hloop, hon', htrailers, hsum, hpending'⟩ | hnone
      · refine .inl ⟨h', text :: trailers, rest', hloop, hon.trans hon',
          List.forall_mem_cons.mpr ⟨⟨hnil, hbytes, by omega⟩, htrailers⟩, ?_, ?_⟩
        · rw [List.map_cons, List.sum_cons]
          omega
        · rw [hpending, ← hon.pending_eq, hpending']
          simp [trailerWire]
      · exact .inr hnone

/-- Behind the last chunk comes the end, or the read fails. -/
theorem trailerLoop_at (hconn : h.conn.isSome = true) :
    (TrailersAt h.pending → ∃ h' rest, ReadOn h h' rest ∧
      trailerLoop 16385 0 h = (some [], { h' with eof := true })) ∧
    (¬TrailersAt h.pending → ∃ h', trailerLoop 16385 0 h = (none, h')) := by
  constructor
  · rintro ⟨trailers, rest, htrailers, hsum, hpending⟩
    have hcount := length_le_lines trailers
    obtain ⟨h', hloop, hon⟩ := trailerLoop_ok 16385 0 hconn (fun t ht => (htrailers t ht).1)
      (fun t ht => (htrailers t ht).2.1) (fun t ht => (htrailers t ht).2.2) (by omega) (by omega)
      hpending
    exact ⟨h', rest, hon, hloop⟩
  · intro hno
    rcases trailerLoop_cases 16385 0 hconn with ⟨h', trailers, rest, -, -, htrailers, hsum, hpending⟩ |
      hnone
    · exact absurd ⟨trailers, rest, htrailers, by omega, hpending⟩ hno
    · exact hnone

/-- Where no line ending is, the read fails. -/
theorem chunkBoundary_none (hconn : h.conn.isSome = true) (hcrlf : h.chunkCrlf = true)
    (hno : ∀ rest, h.pending ≠ 13 :: 10 :: rest) : ∃ h', chunkBoundary h = (false, h') := by
  rw [chunkBoundary, if_pos hcrlf]
  rcases hline : line h 256 with ⟨_ | _ | ⟨b, bs⟩, h₁⟩
  · exact ⟨_, rfl⟩
  · obtain ⟨rest, hpending, -⟩ := line_some hconn hline
    exact absurd hpending (hno rest)
  · exact ⟨_, rfl⟩

/-- A size is taken if a line for it comes next, and otherwise the read fails. -/
theorem chunkSize_at (hconn : h.conn.isSome = true) :
    (∀ v rest, Taken h.pending v rest → ∃ h', ReadOn h h' rest ∧ chunkSize h = (some v, h')) ∧
    ((∀ v rest, ¬Taken h.pending v rest) → ∃ h', chunkSize h = (none, h')) := by
  refine ⟨fun v rest hline => ?_, fun hno => ?_⟩
  · rcases hline with ⟨s, hpending, rfl, hlt⟩ | ⟨x, s, hpending, hx, hlen, rfl, hlt⟩
    · obtain ⟨h', hsize, hon⟩ := chunkSize_ok s rest hconn hlt hpending
      exact ⟨h', hon, hsize⟩
    · obtain ⟨h', hsize, hon⟩ := chunkSize_prefixed s rest hconn hx hlen hlt hpending
      exact ⟨h', hon, hsize⟩
  · rcases hsize : chunkSize h with ⟨_ | v, h'⟩
    · exact ⟨h', rfl⟩
    · obtain ⟨rest, -, hline⟩ := chunkSize_some hconn hsize
      exact absurd hline (hno v rest)

/-! ## The body of a response -/

/-- The body can be read on. -/
structure Reading (h : GcHttp κ) : Prop where
  conn : h.conn.isSome = true
  failed : h.failed = false
  eof : h.eof = false

/-- Where a chunked body is read on. -/
def GcHttp.At (h : GcHttp κ) : Place → Prop
  | .size => h.chunkLeft = 0 ∧ h.chunkCrlf = false
  | .data n => h.chunkLeft = n ∧ h.chunkCrlf = true

/-- The body that is still to come: it ends where the framing says so, and is whole, or where the
connection or the framing does not go on. -/
inductive Sends (rule : SizeRule) (h : GcHttp κ) : List UInt8 → Bool → Prop
  | ended : h.failed = false → h.eof = true → Sends rule h [] true
  | counted {n : ℕ} : Reading h → h.chunked = false → h.remaining = n →
      Sends rule h (h.pending.take n) (decide (n ≤ h.pending.length))
  | closing : Reading h → h.chunked = false → h.remaining < 0 → Sends rule h h.pending h.closes
  | chunked {place : Place} {body : List UInt8} {whole : Bool} :
      Reading h → h.chunked = true → h.At place → Chunked rule place h.pending body whole →
      Sends rule h body whole

/-- What one call may do: return some of the next bytes, or 0 at the end of a whole body, or -1
where it is broken. -/
def Gives (rule : SizeRule) (body : List UInt8) (whole : Bool) (len : ℤ)
    (r : Option (List UInt8) × GcHttp κ) : Prop :=
  (∃ bs rest, bs ≠ [] ∧ (bs.length : ℤ) ≤ len ∧ body = bs ++ rest ∧ r.1 = some bs ∧
    Sends rule r.2 rest whole) ∨
  (body = [] ∧ whole = true ∧ r.1 = some []) ∨ (body = [] ∧ whole = false ∧ r.1 = none)

theorem Reading.on (hr : Reading h) (hon : ReadOn h h' rest) : Reading h' := by
  have hconn := hon.isSome
  obtain ⟨c, input, buffer, -, rfl, -, -⟩ := hon
  exact ⟨hconn, hr.failed, hr.eof⟩

/-- Up to the close of the connection. -/
theorem closing_gives (rule : SizeRule) (hr : Reading h) (hchunked : h.chunked = false)
    (hremaining : h.remaining < 0) (hlen : 0 < len) :
    Gives rule h.pending h.closes len (readBody h len) := by
  rcases readBody_cases hr.conn hlen with
    ⟨hnil, hcloses, ⟨-, h', hread, -⟩ | ⟨hdeclared, -⟩⟩ | ⟨hnil, hcloses, h', hread, -⟩ |
    ⟨bs, rest, h', hne, hle, hbs, hread, hon⟩
  · exact .inr (.inl ⟨hnil, hcloses, by rw [hread]⟩)
  · rw [hchunked] at hdeclared
    rcases hdeclared with hc | hpos
    · cases hc
    · omega
  · exact .inr (.inr ⟨hnil, hcloses, by rw [hread]⟩)
  · have hreading := hr.on hon
    have hpending := hon.pending_eq
    have hcloses := hon.closes_eq
    have hcount : h'.count bs.length = h' ∧ h'.chunked = false ∧ h'.remaining < 0 := by
      obtain ⟨c, input, buffer, -, rfl, -, -⟩ := hon
      refine ⟨?_, hchunked, hremaining⟩
      rw [GcHttp.count, if_neg (by simp [hchunked]), if_neg (by simpa using hremaining)]
    refine .inl ⟨bs, rest, hne, hle, hbs, by rw [hread], ?_⟩
    rw [hread, hcount.1, ← hpending, ← hcloses]
    exact .closing hreading hcount.2.1 hcount.2.2

/-- Up to the length that was announced. -/
theorem counted_gives (rule : SizeRule) {n : ℕ} (hr : Reading h) (hchunked : h.chunked = false)
    (hremaining : h.remaining = n) (hlen : 0 < len) :
    Gives rule (h.pending.take n) (decide (n ≤ h.pending.length)) len
      (if h.remaining = 0 then (some [], { h with eof := true })
       else readBody h (min len h.remaining)) := by
  by_cases hzero : h.remaining = 0
  · obtain rfl : n = 0 := by omega
    rw [if_pos hzero]
    exact .inr (.inl ⟨List.take_zero, decide_eq_true (Nat.zero_le _), rfl⟩)
  rw [if_neg hzero]
  -- a connection that is cut holds less than what was announced
  have hcut : h.pending = [] →
      h.pending.take n = [] ∧ decide (n ≤ h.pending.length) = false := fun hnil => by
    rw [hnil]
    exact ⟨List.take_nil, decide_eq_false (by rw [List.length_nil]; omega)⟩
  rcases readBody_cases hr.conn (show 0 < min len h.remaining by omega) with
    ⟨hnil, -, ⟨hopen, -⟩ | ⟨-, h', hread, -⟩⟩ | ⟨hnil, -, h', hread, -⟩ |
    ⟨bs, rest, h', hne, hle, hbs, hread, hon⟩
  · omega
  · exact .inr (.inr ⟨(hcut hnil).1, (hcut hnil).2, by rw [hread]⟩)
  · exact .inr (.inr ⟨(hcut hnil).1, (hcut hnil).2, by rw [hread]⟩)
  · have hlength : bs.length ≤ n := by omega
    have hpending := hon.pending_eq
    have hreading := hr.on hon
    refine .inl ⟨bs, rest.take (n - bs.length), hne, by omega, ?_, by rw [hread], ?_⟩
    · rw [hbs, List.take_append, List.take_of_length_le hlength]
    have hwhole : decide (n ≤ h.pending.length) = decide (n - bs.length ≤ rest.length) := by
      rw [hbs, List.length_append]
      exact decide_eq_decide.mpr (by omega)
    have hcount : h'.count bs.length = { h' with remaining := h.remaining - bs.length } := by
      obtain ⟨c, input, buffer, -, rfl, -, -⟩ := hon
      rw [GcHttp.count, if_neg (by simp [hchunked]), if_pos (by simp only; omega)]
    have hkept : h'.chunked = false := by
      obtain ⟨c, input, buffer, -, rfl, -, -⟩ := hon
      exact hchunked
    rw [hread, hcount, hwhole, ← hpending]
    exact .counted (h := { h' with remaining := h.remaining - bs.length })
      ⟨hreading.conn, hreading.failed, hreading.eof⟩ hkept (by simp only; omega)

/-- In a chunk. -/
theorem data_gives {rule : SizeRule} {n : ℕ} (hr : Reading h) (hchunked : h.chunked = true)
    (hat : h.At (.data (n + 1))) (hbody : Chunked rule (.data (n + 1)) h.pending body whole)
    (hlen : 0 < len) : Gives rule body whole len (readBody h (min len h.chunkLeft)) := by
  obtain ⟨hleft, hcrlf⟩ := hat
  -- Where nothing is pending the chunk is cut.
  have hcut : h.pending = [] → body = [] ∧ whole = false := fun hnil => by
    rw [hnil] at hbody
    cases hbody
    exact ⟨rfl, rfl⟩
  rcases readBody_cases hr.conn (show 0 < min len h.chunkLeft by omega) with
    ⟨hnil, -, ⟨hopen, -⟩ | ⟨-, h', hread, -⟩⟩ | ⟨hnil, -, h', hread, -⟩ |
    ⟨bs, rest, h', hne, hle, hbs, hread, hon⟩
  · rw [hchunked] at hopen
    cases hopen.1
  · exact .inr (.inr ⟨(hcut hnil).1, (hcut hnil).2, by rw [hread]⟩)
  · exact .inr (.inr ⟨(hcut hnil).1, (hcut hnil).2, by rw [hread]⟩)
  · have hlength : bs.length ≤ n + 1 := by omega
    rw [hbs] at hbody
    obtain ⟨body', hbody', hrest⟩ := hbody.drop hlength
    have hpending := hon.pending_eq
    have hreading := hr.on hon
    refine .inl ⟨bs, body', hne, by omega, hbody', by rw [hread], ?_⟩
    -- what is read is counted off the chunk
    have hcount : h'.count bs.length = { h' with chunkLeft := h.chunkLeft - bs.length } := by
      obtain ⟨c, input, buffer, -, rfl, -, -⟩ := hon
      rw [GcHttp.count, if_pos hchunked]
    have hkept : h'.chunked = true ∧ h'.chunkCrlf = true := by
      obtain ⟨c, input, buffer, -, rfl, -, -⟩ := hon
      exact ⟨hchunked, hcrlf⟩
    have hat' : GcHttp.At { h' with chunkLeft := h.chunkLeft - bs.length }
        (.data (n + 1 - bs.length)) := by
      refine ⟨?_, hkept.2⟩
      simp only
      omega
    rw [← hpending] at hrest
    rw [hread, hcount]
    exact .chunked (h := { h' with chunkLeft := h.chunkLeft - bs.length })
      ⟨hreading.conn, hreading.failed, hreading.eof⟩ hkept.1 hat' hrest

/-- In front of a size. -/
theorem size_gives (hr : Reading h) (hchunked : h.chunked = true) (hbody : Chunked Taken .size q body whole)
    (hon : ReadOn h h' q) (hboundary : chunkBoundary h = (true, h')) (hlen : 0 < len) :
    Gives Taken body whole len (nextChunk h len) := by
  obtain ⟨htaken, hnot⟩ := chunkSize_at hon.isSome
  have hreading := hr.on hon
  have hkept : h'.chunked = true := by
    obtain ⟨c, input, buffer, -, rfl, -, -⟩ := hon
    exact hchunked
  rw [hon.pending_eq] at htaken hnot
  unfold nextChunk
  rw [hboundary]
  simp only
  -- A chunk, the last chunk with or without its trailers, or no size line.
  cases hbody with
  | chunk hline hbody =>
      obtain ⟨h₂, hon₂, hsize⟩ := htaken _ _ hline
      have hreading₂ := hreading.on hon₂
      have hkept₂ : h₂.chunked = true := by
        obtain ⟨c, input, buffer, -, rfl, -, -⟩ := hon₂
        exact hkept
      rw [hsize]
      rw [← hon₂.pending_eq] at hbody
      exact data_gives (h := { h₂ with chunkLeft := _ + 1, chunkCrlf := true })
        ⟨hreading₂.conn, hreading₂.failed, hreading₂.eof⟩ hkept₂ ⟨Nat.cast_succ _ |>.symm, rfl⟩ hbody
        hlen
  | last hline htrailers =>
      obtain ⟨h₂, hon₂, hsize⟩ := htaken _ _ hline
      rw [← hon₂.pending_eq] at htrailers
      obtain ⟨h₃, rest', hon₃, hloop⟩ := (trailerLoop_at
        (h := { h₂ with chunkLeft := 0, chunkCrlf := true }) hon₂.isSome).1 htrailers
      rw [hsize]
      simp only [hloop]
      exact .inr (.inl ⟨rfl, rfl, rfl⟩)
  | noTrailers hline htrailers =>
      obtain ⟨h₂, hon₂, hsize⟩ := htaken _ _ hline
      rw [← hon₂.pending_eq] at htrailers
      obtain ⟨h₃, hloop⟩ := (trailerLoop_at
        (h := { h₂ with chunkLeft := 0, chunkCrlf := true }) hon₂.isSome).2 htrailers
      rw [hsize]
      simp only [hloop]
      exact .inr (.inr ⟨rfl, rfl, rfl⟩)
  | noSize hno =>
      obtain ⟨h₂, hsize⟩ := hnot hno
      rw [hsize]
      exact .inr (.inr ⟨rfl, rfl, rfl⟩)

/-- One call of `gc_http_read`, whatever the server sends. -/
theorem gcHttpRead_sends (hs : Sends Taken h body whole) (hlen : 0 < len) :
    Gives Taken body whole len (gcHttpRead h len) := by
  have hpos : ¬len ≤ 0 := by omega
  -- The cases are the framings of `Sends`; a chunked body may stand in two places.
  cases hs with
  | ended hfailed heof =>
      refine .inr (.inl ⟨rfl, rfl, ?_⟩)
      simp only [gcHttpRead, hfailed, heof, Bool.false_eq_true, if_false, true_or, if_true]
  | counted hr hchunked hremaining =>
      have hgives := counted_gives Taken hr hchunked hremaining hlen
      have hdeclared : 0 ≤ h.remaining := by omega
      simpa only [gcHttpRead, hr.failed, hr.eof, hchunked, hpos, hdeclared, Bool.false_eq_true,
        or_self, if_false, if_true] using hgives
  | closing hr hchunked hremaining =>
      have hgives := closing_gives Taken hr hchunked hremaining hlen
      have hneg : ¬0 ≤ h.remaining := by omega
      simpa only [gcHttpRead, hr.failed, hr.eof, hchunked, hpos, hneg, Bool.false_eq_true, or_self,
        if_false] using hgives
  | @chunked place _ _ hr hchunked hat hbody =>
      have hread : gcHttpRead h len =
          if h.chunkLeft = 0 then nextChunk h len else readBody h (min len h.chunkLeft) := by
        simp only [gcHttpRead, hr.failed, hr.eof, hchunked, hpos, Bool.false_eq_true, or_self,
          if_false, if_true]
      rw [hread]
      cases place with
      | size =>
          have hboundary : chunkBoundary h = (true, h) := by
            rw [chunkBoundary, if_neg (by rw [hat.2]; decide)]
          rw [if_pos hat.1]
          exact size_gives hr hchunked hbody (.refl hr.conn) hboundary hlen
      | data n =>
        cases n with
        | zero =>
          have hleft : h.chunkLeft = 0 := hat.1
          rw [if_pos hleft]
          generalize hpending : h.pending = q at hbody
          cases hbody with
          | boundary hbody =>
              obtain ⟨h₁, hboundary, hon⟩ := chunkBoundary_ok hr.conn
                (hpending.trans (by rw [if_pos hat.2]; rfl))
              exact size_gives hr hchunked hbody hon hboundary hlen
          | noBoundary hno =>
              obtain ⟨h₁, hboundary⟩ := chunkBoundary_none hr.conn hat.2
                (fun rest => hpending ▸ hno rest)
              refine .inr (.inr ⟨rfl, rfl, ?_⟩)
              rw [nextChunk, hboundary]
        | succ n =>
          have hleft : h.chunkLeft = (n : ℤ) + 1 := hat.1.trans (Nat.cast_succ n)
          rw [if_neg (by omega)]
          exact data_gives hr hchunked hat hbody hlen

/-! ## What the client reads beyond the grammar -/

/-- A body of the grammar, up to its end or its first fault, is also what the client reads, and
nothing else if it is whole. -/
theorem Chunked.of_header {place : Place} (hbody : Chunked HeaderAt place q body whole) :
    ∃ more whole', Chunked Taken place q (body ++ more) whole' ∧
      (whole = true → more = [] ∧ whole' = true) := by
  induction hbody with
  | @byte n b q body whole _ ih =>
      obtain ⟨more, whole', hmore, hend⟩ := ih
      exact ⟨more, whole', .byte hmore, hend⟩
  | cut => exact ⟨[], false, .cut, nofun⟩
  | boundary _ ih =>
      obtain ⟨more, whole', hmore, hend⟩ := ih
      exact ⟨more, whole', .boundary hmore, hend⟩
  | noBoundary hno => exact ⟨[], false, .noBoundary hno, nofun⟩
  | chunk hline _ ih =>
      obtain ⟨more, whole', hmore, hend⟩ := ih
      exact ⟨more, whole', .chunk (.inl hline) hmore, hend⟩
  | last hline htrailers => exact ⟨[], true, .last (.inl hline) htrailers, fun _ => ⟨rfl, rfl⟩⟩
  | noTrailers hline htrailers => exact ⟨[], false, .noTrailers (.inl hline) htrailers, nofun⟩
  | @noSize q hno =>
      -- here a line with a prefix may come
      obtain ⟨more, whole', hmore⟩ := exists_chunked Taken.length_lt q.length .size q le_rfl
      exact ⟨more, whole', hmore, nofun⟩

theorem Sends.of_header (hs : Sends HeaderAt h body whole) :
    ∃ more whole', Sends Taken h (body ++ more) whole' ∧
      (whole = true → more = [] ∧ whole' = true) := by
  cases hs with
  | ended hfailed heof => exact ⟨[], true, .ended hfailed heof, fun _ => ⟨rfl, rfl⟩⟩
  | counted hr hchunked hremaining =>
      refine ⟨[], _, ?_, fun hwhole => ⟨rfl, hwhole⟩⟩
      rw [List.append_nil]
      exact .counted hr hchunked hremaining
  | closing hr hchunked hremaining =>
      refine ⟨[], _, ?_, fun hwhole => ⟨rfl, hwhole⟩⟩
      rw [List.append_nil]
      exact .closing hr hchunked hremaining
  | chunked hr hchunked hat hbody =>
      obtain ⟨more, whole', hmore, hend⟩ := hbody.of_header
      exact ⟨more, whole', .chunked hr hchunked hat hmore, hend⟩

end WiiMC.Http
