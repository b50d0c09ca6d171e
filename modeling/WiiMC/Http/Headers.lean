import WiiMC.Http.Reader

/-!
# The head of a response

`headers` of `http_client.c`: the status line and the fields, with the limits the client sets.

* `headerField`: what one field does to the request.
* `headers`: the whole head.
* `headers_framing`: after an accepted head exactly one framing of the body is chosen.
-/

namespace WiiMC.Http

open Bytes

variable {κ : Type}

/-- What follows the literal `p` of a format. -/
def literal (p s : List UInt8) : Option (List UInt8) :=
  if p.isPrefixOf s then some (s.drop p.length) else none

/-- `sscanf(buf, "HTTP/1.%*d %d", &status)`, else `sscanf(buf, "ICY %d", &status)`. -/
def scanStatus (buf : List UInt8) : Option ℤ :=
  match (literal (ascii "HTTP/1.") buf).bind scanInt with
  | some (_, rest) =>
      match scanInt rest with
      | some (n, _) => some (clamp32 n)
      | none => none
  | none =>
      match (literal (ascii "ICY") buf).bind scanInt with
      | some (n, _) => some (clamp32 n)
      | none => none

/-- `sscanf(v, "bytes %lld-%lld/%lld%c", ...)` that finds three numbers and nothing behind them. -/
def scanRange (v : List UInt8) : Option (ℤ × ℤ × ℤ) :=
  match (literal (ascii "bytes") v).bind scanInt with
  | some (a, 45 :: rest) =>
      match scanInt rest with
      | some (b, 47 :: rest) =>
          match scanInt rest with
          | some (total, []) => some (clamp64 a, clamp64 b, clamp64 total)
          | _ => none
      | _ => none
  | _ => none

/-- A blank at the start or the end of a field's value. -/
def isBlank (c : UInt8) : Bool := c == 32 || c == 9

/-- The fields that `headers` looks at. -/
inductive Field
  | contentLength | transferEncoding | contentEncoding | location | contentType | icyName
  | icyMetaint | contentRange | other
  deriving DecidableEq

/-- The chain of `strcasecmp`. -/
def fieldOf (name : List UInt8) : Field :=
  if eqNoCase name (ascii "Content-Length") then .contentLength
  else if eqNoCase name (ascii "Transfer-Encoding") then .transferEncoding
  else if eqNoCase name (ascii "Content-Encoding") then .contentEncoding
  else if eqNoCase name (ascii "Location") then .location
  else if eqNoCase name (ascii "Content-Type") then .contentType
  else if eqNoCase name (ascii "icy-name") then .icyName
  else if eqNoCase name (ascii "icy-metaint") then .icyMetaint
  else if eqNoCase name (ascii "Content-Range") then .contentRange
  else .other

/-- One field of the head. -/
def headerField (h : GcHttp κ) (name v : List UInt8) : Bool × GcHttp κ :=
  match fieldOf name with
  | .contentLength =>
      match integer v with
      | none => (false, h.fail "Invalid Content-Length")
      | some length =>
          if 0 ≤ h.length ∧ h.length ≠ length then (false, h.fail "Invalid Content-Length")
          else (true, { h with length := length })
  | .transferEncoding =>
      if eqNoCase v (ascii "chunked") then (true, { h with chunked := true })
      else (false, h.fail "Unsupported Transfer-Encoding")
  | .contentEncoding =>
      if eqNoCase v (ascii "identity") then (true, h)
      else (false, h.fail "Compressed HTTP bodies are unsupported")
  | .location =>
      if v.length ≥ 2304 then (false, h.fail "Redirect URL is too long")
      else (true, { h with location := v })
  | .contentType => (true, { h with contentType := v.take 127 })
  | .icyName => (true, { h with icyName := v.take 127 })
  | .icyMetaint =>
      match integer v with
      | none => (false, h.fail "Invalid ICY interval")
      | some interval =>
          if interval < 1 ∨ 2 ^ 31 - 1 < interval then (false, h.fail "Invalid ICY interval")
          else (true, { h with icyInterval := interval })
  | .contentRange =>
      match scanRange v with
      | none => (false, h.fail "Invalid Content-Range")
      | some (a, b, total) =>
          if a < 0 ∨ b < a ∨ total ≤ b then (false, h.fail "Invalid Content-Range")
          else (true, { h with rangeStart := a, rangeEnd := b, total := total })
  | .other => (true, h)

/-- The loop over the fields, with the bytes read so far. Every field has at least one, so `fuel`
rounds are more than enough. -/
def headerLoop : ℕ → ℕ → GcHttp κ → Bool × GcHttp κ
  | 0, _, h => (false, h.fail "Invalid or oversized HTTP headers")
  | fuel + 1, bytes, h =>
      match line h 4096 with
      | (none, h) => (false, h)
      | (some [], h) =>
          if h.chunked ∧ 0 ≤ h.length then (false, h.fail "Ambiguous HTTP body framing")
          else (true, { h with remaining := h.length })
      | (some (c :: buf), h) =>
          let bytes := bytes + ((c :: buf).length + 1)
          match splitAt? 58 (c :: buf) with
          | none => (false, h.fail "Invalid or oversized HTTP headers")
          | some (name, v) =>
              if bytes > 16384 then (false, h.fail "Invalid or oversized HTTP headers")
              else match headerField h name (trimEnd isBlank (v.dropWhile isBlank)) with
                | (false, h) => (false, h)
                | (true, h) => headerLoop fuel bytes h

/-- `headers`; `false` is -1. -/
def headers (h : GcHttp κ) (net : Net κ) : Bool × GcHttp κ × Net κ :=
  match net.alloc with
  | (false, net) => (false, h.fail "Out of memory", net)
  | (true, net) =>
      match line h 4096 with
      | (none, h) => (false, h, net)
      | (some buf, h) =>
          match scanStatus buf with
          | none => (false, h.fail "Invalid HTTP status line", net)
          | some status =>
              match headerLoop 16385 0 { h with status := status } with
              | (ok, h) => (ok, h, net)

/-! ## What a head does -/

section Specs

variable {h h' : GcHttp κ} {net net' : Net κ}

/-- A field does not look at the connection, nor at the buffer. -/
theorem headerField_withConn (h : GcHttp κ) (c : Option (GcConnection κ)) (buffer name v : List UInt8) :
    headerField { h with conn := c, buffer := buffer } name v =
      ((headerField h name v).1,
        { (headerField h name v).2 with conn := c, buffer := buffer }) := by
  -- No field looks at the connection.
  unfold headerField
  cases fieldOf name with
  | contentLength =>
      cases integer v with
      | none => rfl
      | some length =>
          simp only
          by_cases hsame : 0 ≤ h.length ∧ h.length ≠ length
          · rw [if_pos hsame, if_pos hsame]
            rfl
          · rw [if_neg hsame, if_neg hsame]
  | transferEncoding | contentEncoding =>
      simp only
      split <;> rfl
  | location =>
      by_cases hlong : v.length ≥ 2304
      · simp only [if_pos hlong]
        rfl
      · simp only [if_neg hlong]
  | contentType | icyName | other => rfl
  | icyMetaint =>
      cases integer v with
      | none => rfl
      | some interval =>
          by_cases hrange : interval < 1 ∨ 2 ^ 31 - 1 < interval
          · simp only [if_pos hrange]
            rfl
          · simp only [if_neg hrange]
  | contentRange =>
      rcases scanRange v with _ | ⟨a, b, total⟩
      · rfl
      · by_cases hrange : a < 0 ∨ b < a ∨ total ≤ b
        · simp only [if_pos hrange]
          rfl
        · simp only [if_neg hrange]

theorem headerField_conn (h : GcHttp κ) (name v : List UInt8) :
    (headerField h name v).2.conn = h.conn :=
  congrArg (fun r => r.2.conn) (headerField_withConn h h.conn h.buffer name v)

/-- The fields of a request that a head leaves alone. -/
def SameProgress (h h' : GcHttp κ) : Prop :=
  h'.failed = h.failed ∧ h'.eof = h.eof ∧ h'.chunkLeft = h.chunkLeft ∧
    h'.chunkCrlf = h.chunkCrlf ∧ h'.url = h.url

/-- The range of a response, if it told one, is one of 64-bit numbers. -/
def RangeOk (h : GcHttp κ) : Prop :=
  (h.rangeStart = -1 ∧ h.rangeEnd = -1 ∧ h.total = -1) ∨
    (0 ≤ h.rangeStart ∧ h.rangeStart ≤ h.rangeEnd ∧ h.rangeEnd < h.total ∧ h.total < 2 ^ 63)

/-- The numbers of a range are scanned as 64-bit ones. -/
theorem scanRange_lt {v : List UInt8} {a b total : ℤ} (hscan : scanRange v = some (a, b, total)) :
    total < 2 ^ 63 := by
  unfold scanRange at hscan
  split at hscan
  · split at hscan
    · split at hscan
      · cases hscan
        unfold clamp64
        omega
      · cases hscan
    · cases hscan
  · cases hscan

/-- Everything a field can do: it is refused, or told to the request. -/
theorem headerField_cases (h : GcHttp κ) (name v : List UInt8) :
    (∃ msg, headerField h name v = (false, h.fail msg)) ∨
    ∃ location contentType icyName icyInterval length chunked rangeStart rangeEnd total,
      headerField h name v = (true, { h with
        location := location
        contentType := contentType
        icyName := icyName
        icyInterval := icyInterval
        length := length
        chunked := chunked
        rangeStart := rangeStart
        rangeEnd := rangeEnd
        total := total }) ∧
      ((rangeStart = h.rangeStart ∧ rangeEnd = h.rangeEnd ∧ total = h.total) ∨
        (0 ≤ rangeStart ∧ rangeStart ≤ rangeEnd ∧ rangeEnd < total ∧ total < 2 ^ 63)) := by
  have hsame : (h.rangeStart = h.rangeStart ∧ h.rangeEnd = h.rangeEnd ∧ h.total = h.total) ∨
      (0 ≤ h.rangeStart ∧ h.rangeStart ≤ h.rangeEnd ∧ h.rangeEnd < h.total ∧ h.total < 2 ^ 63) :=
    Or.inl ⟨rfl, rfl, rfl⟩
  -- The range is stored by one kind of field only, and only if it is in order.
  unfold headerField
  cases fieldOf name with
  | contentLength =>
      cases integer v with
      | none => exact Or.inl ⟨_, rfl⟩
      | some length =>
          simp only
          split
          · exact Or.inl ⟨_, rfl⟩
          · exact Or.inr ⟨_, _, _, _, _, _, _, _, _, rfl, hsame⟩
  | transferEncoding | contentEncoding =>
      simp only
      split
      · exact Or.inr ⟨_, _, _, _, _, _, _, _, _, rfl, hsame⟩
      · exact Or.inl ⟨_, rfl⟩
  | location =>
      by_cases hlong : v.length ≥ 2304
      · exact Or.inl ⟨_, if_pos hlong⟩
      · exact Or.inr ⟨_, _, _, _, _, _, _, _, _, if_neg hlong, hsame⟩
  | contentType | icyName | other => exact Or.inr ⟨_, _, _, _, _, _, _, _, _, rfl, hsame⟩
  | icyMetaint =>
      cases integer v with
      | none => exact Or.inl ⟨_, rfl⟩
      | some interval =>
          simp only
          by_cases hbad : interval < 1 ∨ 2 ^ 31 - 1 < interval
          · exact Or.inl ⟨_, if_pos hbad⟩
          · exact Or.inr ⟨_, _, _, _, _, _, _, _, _, if_neg hbad, hsame⟩
  | contentRange =>
      cases hscan : scanRange v with
      | none => exact Or.inl ⟨_, rfl⟩
      | some r =>
          obtain ⟨a, b, total⟩ := r
          simp only
          by_cases hbad : a < 0 ∨ b < a ∨ total ≤ b
          · exact Or.inl ⟨_, if_pos hbad⟩
          · have htotal := scanRange_lt hscan
            exact Or.inr ⟨_, _, _, _, _, _, a, b, total, if_neg hbad, Or.inr (by omega)⟩

/-- An accepted field. -/
theorem headerField_progress {name v : List UInt8} (hfield : headerField h name v = (true, h')) :
    SameProgress h h' := by
  rcases headerField_cases h name v with
    ⟨msg, hfail⟩ | ⟨_, _, _, _, _, _, _, _, _, htold, -⟩
  · rw [hfail] at hfield
    cases hfield
  · rw [htold] at hfield
    cases hfield
    exact ⟨rfl, rfl, rfl, rfl, rfl⟩

theorem headerLoop_quiet (fuel bytes : ℕ) (h : GcHttp κ) :
    (headerLoop fuel bytes h).2.conn.map GcConnection.quiet =
      h.conn.map GcConnection.quiet := by
  induction fuel generalizing bytes h with
  | zero => rfl
  | succ fuel ih =>
      have hline := lineLoop_quiet (4096 - 1) [] h
      rw [headerLoop]
      rcases hread : line h 4096 with ⟨_ | _ | ⟨c, buf⟩, h₁⟩ <;> rw [← line, hread] at hline <;>
        simp only
      · exact hline
      · split_ifs <;> exact hline
      · rcases splitAt? 58 (c :: buf) with _ | ⟨name, v⟩
        · exact hline
        · simp only
          split_ifs
          · exact hline
          · have hconn := headerField_conn h₁ name (trimEnd isBlank (v.dropWhile isBlank))
            rcases hfield : headerField h₁ name (trimEnd isBlank (v.dropWhile isBlank)) with
              ⟨_ | _, h₂⟩ <;> rw [hfield] at hconn <;> simp only
            · rw [hconn]
              exact hline
            · rw [ih, hconn]
              exact hline

/-- Reading a head sends nothing and opens nothing. -/
theorem headers_quiet (h : GcHttp κ) (net : Net κ) :
    (headers h net).2.1.conn.map GcConnection.quiet = h.conn.map GcConnection.quiet := by
  unfold headers
  rcases net.alloc with ⟨_ | _, net'⟩ <;> simp only
  · rfl
  · have hline := lineLoop_quiet (4096 - 1) [] h
    rcases hread : line h 4096 with ⟨_ | buf, h₁⟩ <;> rw [← line, hread] at hline <;> simp only
    · exact hline
    · rcases scanStatus buf with _ | status
      · exact hline
      · exact (headerLoop_quiet _ _ _).trans hline

theorem SameProgress.trans {h'' : GcHttp κ} (h₁ : SameProgress h h') (h₂ : SameProgress h' h'') :
    SameProgress h h'' :=
  ⟨h₂.1.trans h₁.1, h₂.2.1.trans h₁.2.1, h₂.2.2.1.trans h₁.2.2.1,
    h₂.2.2.2.1.trans h₁.2.2.2.1, h₂.2.2.2.2.trans h₁.2.2.2.2⟩

theorem line_progress {cap : ℕ} {s : List UInt8} (hline : line h cap = (some s, h')) :
    SameProgress h h' := by
  obtain ⟨c, buffer, rfl⟩ := lineLoop_keeps hline
  exact ⟨rfl, rfl, rfl, rfl, rfl⟩

theorem headerLoop_framing {fuel bytes : ℕ} (hloop : headerLoop fuel bytes h = (true, h')) :
    SameProgress h h' ∧ h'.remaining = h'.length ∧ ¬ (h'.chunked = true ∧ 0 ≤ h'.length) := by
  induction fuel generalizing bytes h with
  | zero => simp [headerLoop] at hloop
  | succ fuel ih =>
      rw [headerLoop] at hloop
      rcases hread : line h 4096 with ⟨_ | _ | ⟨c, buf⟩, h₁⟩ <;> rw [hread] at hloop <;>
        simp only at hloop
      · simp at hloop
      · split_ifs at hloop with hboth <;> cases hloop
        exact ⟨(line_progress hread).trans ⟨rfl, rfl, rfl, rfl, rfl⟩, rfl, hboth⟩
      · rcases hsplit : splitAt? 58 (c :: buf) with _ | ⟨name, v⟩ <;> rw [hsplit] at hloop <;>
          simp only at hloop
        · simp at hloop
        · split_ifs at hloop
          · simp at hloop
          · rcases hfield : headerField h₁ name (trimEnd isBlank (v.dropWhile isBlank)) with
              ⟨_ | _, h₂⟩ <;> rw [hfield] at hloop <;> simp only at hloop
            · simp at hloop
            · obtain ⟨hprogress, hframing⟩ := ih hloop
              exact ⟨((line_progress hread).trans (headerField_progress hfield)).trans hprogress,
                hframing⟩

/-- After an accepted head the body is chunked or has a length, not both, and nothing of it has
been read. -/
theorem headers_framing (hheaders : headers h net = (true, h', net')) :
    SameProgress h h' ∧ h'.remaining = h'.length ∧ ¬ (h'.chunked = true ∧ 0 ≤ h'.length) := by
  unfold headers at hheaders
  rcases halloc : net.alloc with ⟨_ | _, net₁⟩ <;> rw [halloc] at hheaders <;>
    simp only at hheaders
  · simp at hheaders
  · rcases hread : line h 4096 with ⟨_ | buf, h₁⟩ <;> rw [hread] at hheaders <;>
      simp only at hheaders
    · simp at hheaders
    · rcases hstatus : scanStatus buf with _ | status <;> rw [hstatus] at hheaders <;>
        simp only at hheaders
      · simp at hheaders
      · rcases hloop : headerLoop 16385 0 { h₁ with status := status } with ⟨_ | _, h₂⟩ <;>
          rw [hloop] at hheaders <;> simp only [Prod.mk.injEq, Bool.false_eq_true, false_and,
            true_and] at hheaders
        obtain ⟨rfl, -⟩ := hheaders
        obtain ⟨hprogress, hframing⟩ := headerLoop_framing hloop
        exact ⟨(line_progress hread).trans
          (SameProgress.trans ⟨rfl, rfl, rfl, rfl, rfl⟩ hprogress), hframing⟩

end Specs

/-! ## The head that a server sends -/

/-- A head within the client's limits. -/
structure Head where
  statusLine : List UInt8
  fields : List (List UInt8)
  status_bytes : LineBytes statusLine
  status_fits : statusLine.length ≤ 4093
  field_ne : ∀ f ∈ fields, f ≠ []
  field_bytes : ∀ f ∈ fields, LineBytes f
  field_fits : ∀ f ∈ fields, f.length ≤ 4093
  fits : (fields.map fun f => f.length + 1).sum ≤ 16384

def Head.wire (head : Head) : List UInt8 :=
  head.statusLine ++ [13, 10] ++ (head.fields.flatMap (fun f => f ++ [13, 10]) ++ [13, 10])

/-- The fields of a head, one after the other. -/
def headerFields : GcHttp κ → List (List UInt8) → Bool × GcHttp κ
  | h, [] => (true, h)
  | h, f :: fields =>
      match splitAt? 58 f with
      | none => (false, h)
      | some (name, v) =>
          match headerField h name (trimEnd isBlank (v.dropWhile isBlank)) with
          | (false, h) => (false, h)
          | (true, h) => headerFields h fields

section Accepts

variable {h h' : GcHttp κ} {net : Net κ} {rest : List UInt8}

theorem headerFields_withConn (h : GcHttp κ) (c : Option (GcConnection κ)) (buffer : List UInt8)
    (fields : List (List UInt8)) :
    headerFields { h with conn := c, buffer := buffer } fields =
      ((headerFields h fields).1,
        { (headerFields h fields).2 with conn := c, buffer := buffer }) := by
  induction fields generalizing h with
  | nil => rfl
  | cons f fields ih =>
      rw [headerFields, headerFields]
      rcases splitAt? 58 f with _ | ⟨name, v⟩
      · rfl
      · simp only [headerField_withConn]
        rcases headerField h name (trimEnd isBlank (v.dropWhile isBlank)) with ⟨_ | _, h₁⟩
        · rfl
        · exact ih h₁

theorem headerLoop_ok {fields : List (List UInt8)} (fuel bytes : ℕ)
    (hconn : h.conn.isSome = true) (hne : ∀ f ∈ fields, f ≠ [])
    (hbytes : ∀ f ∈ fields, LineBytes f) (hfits : ∀ f ∈ fields, f.length ≤ 4093)
    (htotal : bytes + (fields.map fun f => f.length + 1).sum ≤ 16384)
    (hfuel : fields.length < fuel)
    (hpending : h.pending = fields.flatMap (fun f => f ++ [13, 10]) ++ [13, 10] ++ rest)
    (hfields : headerFields h fields = (true, h'))
    (hframing : ¬ (h'.chunked = true ∧ 0 ≤ h'.length)) :
    ∃ c input buffer, h.conn = some c ∧ buffer ++ arriving input = rest ∧
      endsClosed input = h.closes ∧ headerLoop fuel bytes h =
        (true, { h' with
          remaining := h'.length, conn := some { c with input := input }, buffer := buffer }) := by
  -- One round reads one field; the empty line ends the loop.
  induction fields generalizing fuel bytes h h' with
  | nil =>
      obtain ⟨fuel, rfl⟩ := Nat.exists_eq_succ_of_ne_zero (by omega : fuel ≠ 0)
      cases hfields
      obtain ⟨h₁, hline, c, input, buffer, hc, rfl, hrest, hcloses⟩ :=
        line_ok [] rest 4096 hconn (by simp [LineBytes]) (by decide) hpending
      refine ⟨c, input, buffer, hc, hrest, hcloses, ?_⟩
      simp only [headerLoop, hline]
      rw [if_neg hframing]
  | cons f fields ih =>
      obtain ⟨fuel, rfl⟩ := Nat.exists_eq_succ_of_ne_zero (by omega : fuel ≠ 0)
      have hmem : f ∈ f :: fields := List.mem_cons_self
      have hsub : ∀ u ∈ fields, u ∈ f :: fields := fun u hu => List.mem_cons_of_mem f hu
      obtain ⟨b, f', rfl⟩ := List.exists_cons_of_ne_nil (hne f hmem)
      simp only [List.map_cons, List.sum_cons, List.length_cons] at htotal hfuel
      obtain ⟨h₁, hline, hon⟩ := line_ok (b :: f')
        (fields.flatMap (fun f => f ++ [13, 10]) ++ [13, 10] ++ rest) 4096 hconn
        (hbytes _ hmem) (by have := hfits _ hmem; omega) (by rw [hpending]; simp)
      have hpending₁ := hon.pending_eq
      have hsome := hon.isSome
      obtain ⟨c, input, buffer, hc, rfl, -, hcloses⟩ := hon
      rw [headerFields] at hfields
      rcases hsplit : splitAt? 58 (b :: f') with _ | ⟨name, v⟩ <;> rw [hsplit] at hfields <;>
        simp only at hfields
      · simp at hfields
      · rcases hfield : headerField h name (trimEnd isBlank (v.dropWhile isBlank)) with
          ⟨_ | _, h₂⟩ <;> rw [hfield] at hfields <;> simp only at hfields
        · simp at hfields
        · -- the field is read from the connection as it has moved on
          obtain ⟨c', input', buffer', hc', hrest, hcloses', hloop⟩ :=
            ih fuel (bytes + (f'.length + 1 + 1))
            (h := { h₂ with conn := some { c with input := input }, buffer := buffer })
            rfl (fun u hu => hne u (hsub u hu)) (fun u hu => hbytes u (hsub u hu))
            (fun u hu => hfits u (hsub u hu)) (by omega) (by omega) hpending₁
            (show headerFields _ fields =
                (true, { h' with conn := some { c with input := input }, buffer := buffer }) by
              rw [headerFields_withConn, hfields]) hframing
          cases hc'
          refine ⟨c, input', buffer', hc, hrest, hcloses'.trans hcloses, ?_⟩
          simp only [headerLoop, hline, hsplit, List.length_cons]
          rw [if_neg (by omega), headerField_withConn, hfield]
          exact hloop

/-- A head within the limits is read up to its end, however it is cut into pieces, and does what
its fields say. -/
theorem headers_ok (head : Head) {status : ℤ} (hconn : h.conn.isSome = true)
    (hallocs : net.allocs = []) (hpending : h.pending = head.wire ++ rest)
    (hstatus : scanStatus head.statusLine = some status)
    (hfields : headerFields { h with status := status } head.fields = (true, h'))
    (hframing : ¬ (h'.chunked = true ∧ 0 ≤ h'.length)) :
    ∃ c input buffer, h.conn = some c ∧ buffer ++ arriving input = rest ∧
      endsClosed input = h.closes ∧ headers h net =
        (true, { h' with
          remaining := h'.length, conn := some { c with input := input }, buffer := buffer },
          net) := by
  obtain ⟨h₁, hline, hon⟩ := line_ok head.statusLine
    (head.fields.flatMap (fun f => f ++ [13, 10]) ++ [13, 10] ++ rest) 4096 hconn
    head.status_bytes (by have := head.status_fits; omega) (by rw [hpending, Head.wire]; simp)
  have hpending₁ := hon.pending_eq
  obtain ⟨c, input, buffer, hc, heq, -, hcloses⟩ := hon
  have hlen := length_le_lines head.fields
  -- The fields say the same on the connection as it has moved on.
  have hread : headerFields { h₁ with status := status } head.fields =
      (true, { h' with conn := some { c with input := input }, buffer := buffer }) := by
    have hwith := headerFields_withConn { h with status := status }
      (some { c with input := input }) buffer head.fields
    rw [hfields] at hwith
    rw [heq]
    exact hwith
  obtain ⟨c', input', buffer', hc', hrest, hcloses', hloop⟩ := headerLoop_ok 16385 0
    (h := { h₁ with status := status }) (by rw [heq]; rfl) head.field_ne
    head.field_bytes head.field_fits (by have := head.fits; omega) (by have := head.fits; omega)
    hpending₁ hread hframing
  rw [heq] at hc' hcloses'
  cases hc'
  refine ⟨c, input', buffer', hc, hrest, hcloses'.trans hcloses, ?_⟩
  simp only [headers, Net.alloc, hallocs, hline, hstatus, hloop]

end Accepts

example : scanStatus (ascii "HTTP/1.1 206 Partial Content") = some 206 := by decide +kernel

example : scanStatus (ascii "ICY 200 OK") = some 200 := by decide +kernel

example : scanRange (ascii "bytes 7-9/10") = some (7, 9, 10) := by decide +kernel

end WiiMC.Http
