import WiiMC.Lib.Wire
import WiiMC.Http.Reader

/-!
# Decoding a response's body

`gc_http_read` of `http_client.c` under its three framings: chunks, a `Content-Length`, or the
close of the connection.

* `Framing`: what a server may send, with the limits the client sets.
* `Delivering`: the invariant, what of the body is still to be returned and whether all of it
  arrives.
* `gcHttpRead_step`: one call returns some of the next bytes, or the end, or fails.
* `gcHttpRead_decodes`: any sequence of calls returns the body and then 0, or, if the connection
  is cut, a prefix of it and then -1.
-/

namespace WiiMC.Http

open Bytes Wire

variable {κ : Type}

/-- The loop over the trailers in `gc_http_read`. Every round adds to `total`, so `fuel` rounds
are more than enough. -/
def trailerLoop : ℕ → ℕ → GcHttp κ → Option (List UInt8) × GcHttp κ
  | 0, _, h => (none, h.fail "Invalid HTTP trailers")
  | fuel + 1, total, h =>
      match line h 256 with
      | (none, h) => (none, h.fail "Invalid HTTP trailers")
      | (some text, h) =>
          if total + (text.length + 1) > 16384 then (none, h.fail "Invalid HTTP trailers")
          else if text = [] then (some [], { h with eof := true })
          else trailerLoop fuel (total + (text.length + 1)) h

/-- The line between the data of a chunk and the next chunk. -/
def chunkBoundary (h : GcHttp κ) : Bool × GcHttp κ :=
  if h.chunkCrlf then
    match line h 256 with
    | (some [], h) => (true, h)
    | (_, h) => (false, h.fail "Invalid chunk boundary")
  else (true, h)

/-- The line with the size of a chunk. -/
def chunkSize (h : GcHttp κ) : Option ℕ × GcHttp κ :=
  match line h 256 with
  | (none, h) => (none, h)
  | (some text, h) =>
      if isXDigit (text.headD 0) then
        match scanHex text with
        | (size, rest) =>
            if size < 2 ^ 63 ∧ rest.headD 59 = 59 then (some size, h)
            else (none, h.fail "Invalid chunk size")
      else (none, h.fail "Invalid chunk size")

/-- Count `n` bytes of the body. -/
def GcHttp.count (h : GcHttp κ) (n : ℕ) : GcHttp κ :=
  if h.chunked then { h with chunkLeft := h.chunkLeft - n }
  else if 0 ≤ h.remaining then { h with remaining := h.remaining - n }
  else h

/-- The last part of `gc_http_read`: bytes of the body, of which at least `len` are left. -/
def readBody (h : GcHttp κ) (len : ℤ) : Option (List UInt8) × GcHttp κ :=
  match rawRead h len.toNat with
  | (none, h) => (none, h)
  | (some [], h) =>
      if h.chunked ∨ 0 < h.remaining then (none, h.fail "Truncated HTTP body")
      else (some [], { h with eof := true })
  | (some (b :: bs), h) => (some (b :: bs), h.count (b :: bs).length)

/-- The part of `gc_http_read` between two chunks. -/
def nextChunk (h : GcHttp κ) (len : ℤ) : Option (List UInt8) × GcHttp κ :=
  match chunkBoundary h with
  | (false, h) => (none, h)
  | (true, h) =>
      match chunkSize h with
      | (none, h) => (none, h)
      | (some 0, h) => trailerLoop 16385 0 { h with chunkLeft := 0, chunkCrlf := true }
      | (some (n + 1), h) =>
          readBody { h with chunkLeft := n + 1, chunkCrlf := true } (min len (n + 1))

/-- `gc_http_read`: the bytes returned; `none` is -1. -/
def gcHttpRead (h : GcHttp κ) (len : ℤ) : Option (List UInt8) × GcHttp κ :=
  if h.failed then (none, h)
  else if h.eof ∨ len ≤ 0 then (some [], h)
  else if h.chunked then
    if h.chunkLeft = 0 then nextChunk h len else readBody h (min len h.chunkLeft)
  else if 0 ≤ h.remaining then
    if h.remaining = 0 then (some [], { h with eof := true })
    else readBody h (min len h.remaining)
  else readBody h len

/-- The results of a sequence of calls of `gc_http_read`. -/
def reads : GcHttp κ → List ℤ → List (Option (List UInt8))
  | _, [] => []
  | h, len :: lens => (gcHttpRead h len).1 :: reads (gcHttpRead h len).2 lens

/-! ## What reading leaves alone -/

section Quiet

variable {h h' : GcHttp κ}

/-- Reading a line leaves the answer as it is. -/
theorem line_fixed (h : GcHttp κ) (cap : ℕ) : (line h cap).2.fixed = h.fixed := lineLoop_fixed _ _ h

/-- Reading the trailer leaves the answer as it is. -/
theorem trailerLoop_fixed (fuel total : ℕ) (h : GcHttp κ) :
    (trailerLoop fuel total h).2.fixed = h.fixed := by
  induction fuel generalizing total h with
  | zero => rfl
  | succ fuel ih =>
      have hline := line_fixed h 256
      rw [trailerLoop]
      rcases hread : line h 256 with ⟨_ | text, h₁⟩ <;> rw [hread] at hline <;> simp only
      · exact hline
      · split_ifs
        · exact hline
        · exact hline
        · exact (ih _ h₁).trans hline

/-- Reading the end of a chunk leaves the answer as it is. -/
theorem chunkBoundary_fixed (h : GcHttp κ) : (chunkBoundary h).2.fixed = h.fixed := by
  have hline := line_fixed h 256
  unfold chunkBoundary
  by_cases hcrlf : h.chunkCrlf = true
  · rw [if_pos hcrlf]
    rcases hread : line h 256 with ⟨_ | _ | ⟨b, bs⟩, h₁⟩ <;> rw [hread] at hline <;> exact hline
  · rw [if_neg hcrlf]

/-- Reading the size of a chunk leaves the answer as it is. -/
theorem chunkSize_fixed (h : GcHttp κ) : (chunkSize h).2.fixed = h.fixed := by
  have hline := line_fixed h 256
  unfold chunkSize
  rcases hread : line h 256 with ⟨_ | text, h₁⟩ <;> rw [hread] at hline <;> simp only
  · exact hline
  · by_cases hdigit : isXDigit (text.headD 0) = true
    · rw [if_pos hdigit]
      rcases scanHex text with ⟨size, rest⟩
      simp only
      split_ifs <;> exact hline
    · rw [if_neg hdigit]
      exact hline

/-- Reading some of the body leaves the answer as it is. -/
theorem readBody_fixed (h : GcHttp κ) (len : ℤ) :
    (readBody h len).2.fixed = h.fixed := by
  have hraw := rawRead_fixed h len.toNat
  unfold readBody
  rcases hread : rawRead h len.toNat with ⟨_ | _ | ⟨b, bs⟩, h₁⟩ <;> rw [hread] at hraw <;>
    simp only
  · exact hraw
  · split_ifs <;> exact hraw
  · unfold GcHttp.count
    split_ifs <;> exact hraw

/-- Going on to the next chunk leaves the answer as it is. -/
theorem nextChunk_fixed (h : GcHttp κ) (len : ℤ) :
    (nextChunk h len).2.fixed = h.fixed := by
  have hboundary := chunkBoundary_fixed h
  unfold nextChunk
  rcases hb : chunkBoundary h with ⟨_ | _, h₁⟩ <;> rw [hb] at hboundary <;> simp only
  · exact hboundary
  · have hsize := chunkSize_fixed h₁
    rcases hs : chunkSize h₁ with ⟨_ | _ | n, h₂⟩ <;> rw [hs] at hsize <;> simp only
    · exact hsize.trans hboundary
    · exact (trailerLoop_fixed _ _ _).trans (hsize.trans hboundary)
    · exact (readBody_fixed _ _).trans (hsize.trans hboundary)

/-- A call of `gc_http_read` leaves the answer as it is. -/
theorem gcHttpRead_fixed (h : GcHttp κ) (len : ℤ) :
    (gcHttpRead h len).2.fixed = h.fixed := by
  unfold gcHttpRead
  split_ifs
  · rfl
  · rfl
  · exact nextChunk_fixed h len
  · exact readBody_fixed h _
  · rfl
  · exact readBody_fixed h _
  · exact readBody_fixed h _

/-- A read leaves the connection open, and sends nothing there. -/
theorem gcHttpRead_quiet (h : GcHttp κ) (len : ℤ) :
    (gcHttpRead h len).2.conn.map GcConnection.quiet = h.conn.map GcConnection.quiet :=
  congrArg Prod.fst (gcHttpRead_fixed h len)

/-- A call of `gc_http_read` leaves the URL of the answer as it is. -/
theorem gcHttpRead_url (h : GcHttp κ) (len : ℤ) : (gcHttpRead h len).2.url = h.url :=
  congrArg (fun fixed => fixed.2.2) (gcHttpRead_fixed h len)

/-- Nothing more comes from a request that has failed or met the end of its body. -/
def Spent (h : GcHttp κ) : Prop := h.failed = true ∨ h.eof = true

/-- A body that is spent gives nothing more. -/
theorem Spent.gcHttpRead (hspent : Spent h) (len : ℤ) :
    gcHttpRead h len = (none, h) ∨ gcHttpRead h len = (some [], h) := by
  by_cases hfailed : h.failed = true
  · exact Or.inl (by rw [Http.gcHttpRead, if_pos hfailed])
  · refine Or.inr ?_
    rw [Http.gcHttpRead, if_neg hfailed, if_pos (Or.inl (hspent.resolve_left hfailed))]

/-- A read that fails is remembered. -/
theorem rawRead_failed {len : ℕ} (hconn : h.conn.isSome = true)
    (hread : rawRead h len = (none, h')) : h'.failed = true := by
  obtain ⟨c, hc⟩ := Option.isSome_iff_exists.mp hconn
  unfold rawRead at hread
  cases hbuf : h.buffer with
  | cons b bs => simp [hbuf] at hread
  | nil =>
      rcases hnet : gcNetRead c 4096 with ⟨cancelled | _ | ⟨b, bs⟩, c'⟩ <;>
        simp only [hbuf, hc, hnet, Prod.mk.injEq, reduceCtorEq, false_and, true_and] at hread
      rw [← hread]
      rfl

/-- A read of the body that gives nothing leaves it spent. -/
theorem readBody_spent {len : ℤ} (hconn : h.conn.isSome = true)
    (hr : (readBody h len).1 = none ∨ (readBody h len).1 = some []) :
    Spent (readBody h len).2 := by
  unfold readBody at hr ⊢
  rcases hraw : rawRead h len.toNat with ⟨_ | _ | ⟨b, bs⟩, h₁⟩ <;> rw [hraw] at hr <;>
    simp only at hr ⊢
  · exact Or.inl (rawRead_failed hconn hraw)
  · split_ifs
    · exact Or.inl rfl
    · exact Or.inr rfl
  · simp at hr

/-- Behind the trailer the body is spent. -/
theorem trailerLoop_spent (fuel total : ℕ) (h : GcHttp κ) : Spent (trailerLoop fuel total h).2 := by
  induction fuel generalizing total h with
  | zero => exact Or.inl rfl
  | succ fuel ih =>
      rw [trailerLoop]
      rcases line h 256 with ⟨_ | text, h₁⟩ <;> simp only
      · exact Or.inl rfl
      · split_ifs
        · exact Or.inl rfl
        · exact Or.inr rfl
        · exact ih _ h₁

/-- A chunk that does not end where it should is remembered as a failure. -/
theorem chunkBoundary_failed (hboundary : chunkBoundary h = (false, h')) : h'.failed = true := by
  unfold chunkBoundary at hboundary
  split_ifs at hboundary
  · rcases hread : line h 256 with ⟨_ | _ | ⟨b, bs⟩, h₁⟩ <;> rw [hread] at hboundary <;>
      cases hboundary <;> rfl
  · cases hboundary

/-- A size that cannot be read is remembered as a failure. -/
theorem chunkSize_failed (hsize : chunkSize h = (none, h')) : h'.failed = true := by
  unfold chunkSize at hsize
  rcases hread : line h 256 with ⟨_ | text, h₁⟩ <;> rw [hread] at hsize <;> simp only at hsize
  · cases hsize
    exact lineLoop_failed hread
  · by_cases hdigit : isXDigit (text.headD 0) = true
    · rw [if_pos hdigit] at hsize
      split at hsize <;> cases hsize
      rfl
    · rw [if_neg hdigit] at hsize
      cases hsize
      rfl

/-- Where the next chunk gives nothing, the body is spent. -/
theorem nextChunk_spent {len : ℤ} (hconn : h.conn.isSome = true)
    (hr : (nextChunk h len).1 = none ∨ (nextChunk h len).1 = some []) :
    Spent (nextChunk h len).2 := by
  have hboundary := chunkBoundary_fixed h
  unfold nextChunk at hr ⊢
  rcases hb : chunkBoundary h with ⟨_ | _, h₁⟩ <;> rw [hb] at hboundary hr <;> simp only at hr ⊢
  · exact Or.inl (chunkBoundary_failed hb)
  · have hsize := chunkSize_fixed h₁
    rcases hs : chunkSize h₁ with ⟨_ | _ | n, h₂⟩ <;> rw [hs] at hsize hr <;> simp only at hr ⊢
    · exact Or.inl (chunkSize_failed hs)
    · exact trailerLoop_spent _ _ _
    · refine readBody_spent ?_ hr
      have hsome := congrArg (fun x => x.1.isSome) (hsize.trans hboundary)
      simp only [GcHttp.fixed, Option.isSome_map] at hsome
      exact hsome.trans hconn

/-- A read that returns nothing leaves a request that returns nothing more. -/
theorem gcHttpRead_spent {len : ℤ} (hconn : h.conn.isSome = true) (hlen : 0 < len)
    (hr : (gcHttpRead h len).1 = none ∨ (gcHttpRead h len).1 = some []) :
    Spent (gcHttpRead h len).2 := by
  unfold gcHttpRead at hr ⊢
  split_ifs at hr ⊢ with hfailed hend
  · exact Or.inl hfailed
  · exact Or.inr (hend.resolve_right (not_le.mpr hlen))
  · exact nextChunk_spent hconn hr
  · exact readBody_spent hconn hr
  · exact Or.inr rfl
  · exact readBody_spent hconn hr
  · exact readBody_spent hconn hr

end Quiet

/-! ## What a server may send -/

/-- The line with a chunk's size, of which the client takes at most 253 bytes. -/
structure SizeLine where
  /-- The size in hexadecimal digits. -/
  digits : List UInt8
  /-- The extensions of the chunk, with the semicolon that starts them. -/
  ext : List UInt8
  digits_ne : digits ≠ []
  digits_hex : ∀ c ∈ digits, isXDigit c = true
  ext_start : ext.headD 59 = 59
  ext_bytes : LineBytes ext
  fits : digits.length + ext.length ≤ 253

def SizeLine.text (s : SizeLine) : List UInt8 := s.digits ++ s.ext

def SizeLine.size (s : SizeLine) : ℕ := valOf 16 s.digits

/-- A chunk with data. -/
structure Chunk where
  sizeLine : SizeLine
  data : List UInt8
  data_ne : data ≠ []
  size_eq : sizeLine.size = data.length
  size_lt : data.length < 2 ^ 63

def Chunk.wire (c : Chunk) : List UInt8 :=
  c.sizeLine.text ++ [13, 10] ++ (c.data ++ [13, 10])

/-- The last chunk and the trailers. -/
structure LastChunk where
  sizeLine : SizeLine
  size_eq : sizeLine.size = 0
  trailers : List (List UInt8)
  trailer_ne : ∀ t ∈ trailers, t ≠ []
  trailer_bytes : ∀ t ∈ trailers, LineBytes t
  trailer_fits : ∀ t ∈ trailers, t.length ≤ 253
  fits : (trailers.map fun t => t.length + 1).sum + 1 ≤ 16384

/-- The trailers and the empty line that ends them. -/
def trailerWire (trailers : List (List UInt8)) : List UInt8 :=
  trailers.flatMap (fun t => t ++ [13, 10]) ++ [13, 10]

def LastChunk.wire (l : LastChunk) : List UInt8 :=
  l.sizeLine.text ++ [13, 10] ++ trailerWire l.trailers

/-- A body as a server may send it. -/
inductive Framing
  | chunked (chunks : List Chunk) (last : LastChunk)
  | contentLength (body : List UInt8)
  | closeDelimited (body : List UInt8)

def Framing.body : Framing → List UInt8
  | .chunked chunks _ => chunks.flatMap Chunk.data
  | .contentLength body => body
  | .closeDelimited body => body

def Framing.wire : Framing → List UInt8
  | .chunked chunks last => chunks.flatMap Chunk.wire ++ last.wire
  | .contentLength body => body
  | .closeDelimited body => body

/-! ## Lines of a chunked body -/

section Lines

variable {h h' : GcHttp κ} {rest : List UInt8}

/-- A line with a size has the bytes of a line. -/
theorem SizeLine.bytes (s : SizeLine) : LineBytes s.text := by
  intro c hc
  rcases List.mem_append.mp hc with hc | hc
  · have hx := s.digits_hex c hc
    refine ⟨?_, ?_⟩ <;> rintro rfl <;> exact absurd hx (by decide)
  · exact s.ext_bytes c hc

/-- A line with a size fits into the buffer. -/
theorem SizeLine.length_le (s : SizeLine) : s.text.length ≤ 253 := by
  rw [SizeLine.text, List.length_append]
  exact s.fits

/-- The client reads the size that the server wrote. -/
theorem SizeLine.scanHex_text (s : SizeLine) : scanHex s.text = (s.size, s.ext) := by
  refine scanHex_append s.digits_hex fun c hc => ?_
  have hstart := s.ext_start
  cases hext : s.ext with
  | nil => simp [hext] at hc
  | cons e ext =>
      rw [hext] at hc hstart
      simp only [List.head?_cons, Option.mem_def, Option.some.injEq] at hc
      simp only [List.headD_cons] at hstart
      subst hc
      subst hstart
      exact ⟨by decide, by decide⟩

/-- The size of a chunk that has arrived is read. -/
theorem chunkSize_ok (s : SizeLine) (rest : List UInt8) (hconn : h.conn.isSome = true) (hlt : s.size < 2 ^ 63)
    (hpending : h.pending = s.text ++ 13 :: 10 :: rest) :
    ∃ h', chunkSize h = (some s.size, h') ∧ ReadOn h h' rest := by
  obtain ⟨h', hline, hon⟩ := line_ok s.text rest 256 hconn s.bytes
    (by have := s.length_le; omega) hpending
  refine ⟨h', ?_, hon⟩
  have hhead : isXDigit (s.text.headD 0) = true := by
    obtain ⟨c, ds, hds⟩ := List.exists_cons_of_ne_nil s.digits_ne
    have hc := s.digits_hex c (by rw [hds]; exact List.mem_cons_self)
    rw [SizeLine.text, hds]
    exact hc
  simp only [chunkSize, hline, hhead, if_true, s.scanHex_text, s.ext_start, hlt, and_self]

/-- A size that is cut short is a failure. -/
theorem chunkSize_cut (s : SizeLine) (hconn : h.conn.isSome = true)
    (hcut : h.pending <+: s.text ++ [13, 10]) (hne : h.pending ≠ s.text ++ [13, 10]) :
    ∃ h', chunkSize h = (none, h') ∧ h'.failed = true := by
  obtain ⟨h', hline, hfailed⟩ := line_cut s.text 256 hconn s.bytes hcut hne
  exact ⟨h', by simp only [chunkSize, hline], hfailed⟩

/-- The end of a chunk that has arrived is read. -/
theorem chunkBoundary_ok (hconn : h.conn.isSome = true)
    (hpending : h.pending = (if h.chunkCrlf then [13, 10] else []) ++ rest) :
    ∃ h', chunkBoundary h = (true, h') ∧ ReadOn h h' rest := by
  by_cases hcrlf : h.chunkCrlf = true
  · rw [if_pos hcrlf] at hpending
    obtain ⟨h', hline, hon⟩ := line_ok [] rest 256 hconn (by simp [LineBytes])
      (by decide) hpending
    exact ⟨h', by simp only [chunkBoundary, hcrlf, if_true, hline], hon⟩
  · rw [if_neg hcrlf, List.nil_append] at hpending
    refine ⟨h, by rw [chunkBoundary, if_neg hcrlf], ?_⟩
    rw [← hpending]
    exact .refl hconn

/-- An end of a chunk that is cut short is a failure. -/
theorem chunkBoundary_cut (hconn : h.conn.isSome = true)
    (hcut : h.pending <+: if h.chunkCrlf then [13, 10] else [])
    (hne : h.pending ≠ if h.chunkCrlf then [13, 10] else []) :
    ∃ h', chunkBoundary h = (false, h') ∧ h'.failed = true := by
  by_cases hcrlf : h.chunkCrlf = true
  · rw [if_pos hcrlf] at hcut hne
    obtain ⟨h', hline, hfailed⟩ := line_cut [] 256 hconn (by simp [LineBytes]) hcut hne
    exact ⟨h'.fail "Invalid chunk boundary", by simp only [chunkBoundary, hcrlf, if_true, hline],
      rfl⟩
  · rw [if_neg hcrlf] at hcut hne
    exact absurd (List.prefix_nil.mp hcut) hne

/-- The trailers are read up to the empty line. -/
theorem trailerLoop_ok {trailers : List (List UInt8)} (fuel total : ℕ)
    (hconn : h.conn.isSome = true) (hne : ∀ t ∈ trailers, t ≠ [])
    (hbytes : ∀ t ∈ trailers, LineBytes t) (hfits : ∀ t ∈ trailers, t.length ≤ 253)
    (htotal : total + ((trailers.map fun t => t.length + 1).sum + 1) ≤ 16384)
    (hfuel : trailers.length < fuel) (hpending : h.pending = trailerWire trailers ++ rest) :
    ∃ h', trailerLoop fuel total h = (some [], { h' with eof := true }) ∧ ReadOn h h' rest := by
  -- One round for each trailer, and one for the empty line.
  induction trailers generalizing fuel total h with
  | nil =>
      obtain ⟨fuel, rfl⟩ := Nat.exists_eq_succ_of_ne_zero (by omega : fuel ≠ 0)
      obtain ⟨h', hline, hon⟩ := line_ok [] rest 256 hconn (by simp [LineBytes])
        (by decide) hpending
      refine ⟨h', ?_, hon⟩
      simp only [trailerLoop, hline, List.length_nil]
      rw [if_neg (by simp at htotal; omega), if_pos trivial]
  | cons t trailers ih =>
      obtain ⟨fuel, rfl⟩ := Nat.exists_eq_succ_of_ne_zero (by omega : fuel ≠ 0)
      have hmem : t ∈ t :: trailers := List.mem_cons_self
      have hsub : ∀ u ∈ trailers, u ∈ t :: trailers := fun u hu => List.mem_cons_of_mem t hu
      simp only [List.map_cons, List.sum_cons, List.length_cons] at htotal hfuel
      have hwire : trailerWire (t :: trailers) = t ++ ([13, 10] ++ trailerWire trailers) := by
        simp [trailerWire]
      rw [hwire, List.append_assoc] at hpending
      obtain ⟨h₁, hline, hon⟩ := line_ok t (trailerWire trailers ++ rest) 256 hconn (hbytes t hmem)
        (by have := hfits t hmem; omega) hpending
      obtain ⟨h', hloop, hon'⟩ := ih fuel (total + (t.length + 1)) hon.isSome
        (fun u hu => hne u (hsub u hu)) (fun u hu => hbytes u (hsub u hu))
        (fun u hu => hfits u (hsub u hu)) (by omega) (by omega)
        hon.pending_eq
      refine ⟨h', ?_, hon.trans hon'⟩
      simp only [trailerLoop, hline]
      rw [if_neg (by omega), if_neg (hne t hmem), hloop]

/-- Trailers that the end of the connection cuts fail. -/
theorem trailerLoop_cut {trailers : List (List UInt8)} (fuel total : ℕ)
    (hconn : h.conn.isSome = true) (hne : ∀ t ∈ trailers, t ≠ [])
    (hbytes : ∀ t ∈ trailers, LineBytes t) (hfits : ∀ t ∈ trailers, t.length ≤ 253)
    (hcut : h.pending <+: trailerWire trailers) (hne' : h.pending ≠ trailerWire trailers) :
    ∃ h', trailerLoop fuel total h = (none, h') ∧ h'.failed = true := by
  induction fuel generalizing trailers total h with
  | zero => exact ⟨_, rfl, rfl⟩
  | succ fuel ih =>
      cases trailers with
      | nil =>
          obtain ⟨h', hline, -⟩ := line_cut [] 256 hconn (by simp [LineBytes]) hcut hne'
          exact ⟨h'.fail "Invalid HTTP trailers", by simp only [trailerLoop, hline], rfl⟩
      | cons t trailers =>
          have hmem : t ∈ t :: trailers := List.mem_cons_self
          have hsub : ∀ u ∈ trailers, u ∈ t :: trailers := fun u hu => List.mem_cons_of_mem t hu
          have hwire : trailerWire (t :: trailers) = (t ++ [13, 10]) ++ trailerWire trailers := by
            rw [trailerWire, List.flatMap_cons, List.append_assoc]
            rfl
          rw [hwire] at hcut hne'
          -- the cut is behind this trailer, or inside it
          rcases Arrives.split (Or.inr hcut) with ⟨q, hq, -⟩ | ⟨hp, hpne⟩
          · obtain ⟨h₁, hline, hon⟩ := line_ok t q 256 hconn
              (hbytes t hmem) (by have := hfits t hmem; omega) (by rw [hq]; simp)
            simp only [trailerLoop, hline]
            split_ifs with hbig hnil
            · exact ⟨_, rfl, rfl⟩
            · exact absurd hnil (hne t hmem)
            · rw [hq] at hcut hne'
              refine ih _ hon.isSome (show ∀ u ∈ trailers, u ≠ [] from fun u hu => hne u (hsub u hu))
                (fun u hu => hbytes u (hsub u hu)) (fun u hu => hfits u (hsub u hu)) ?_ ?_
              · rw [hon.pending_eq]
                exact (List.prefix_append_right_inj _).mp hcut
              · rw [hon.pending_eq]
                exact fun heq => hne' (by rw [heq])
          · obtain ⟨h', hline, -⟩ := line_cut t 256 hconn (hbytes t hmem) hp hpne
            exact ⟨h'.fail "Invalid HTTP trailers", by simp only [trailerLoop, hline], rfl⟩

end Lines

/-! ## One call -/

section Step

variable {h h' : GcHttp κ} {body : List UInt8} {whole : Bool} {len : ℤ}

/-- What of a chunked body is still to come, in the middle of a chunk with `d` left of its data. -/
def chunkedWire (h : GcHttp κ) (d : List UInt8) (chunks : List Chunk) (last : LastChunk) :
    List UInt8 :=
  d ++ ((if h.chunkCrlf then [13, 10] else []) ++ (Framing.chunked chunks last).wire)

/-- The invariant of a sequence of reads: `body` is still to be returned, and `whole` says
whether all of it arrives. -/
inductive Delivering (h : GcHttp κ) : List UInt8 → Bool → Prop
  | chunked (d : List UInt8) (chunks : List Chunk) (last : LastChunk) (whole : Bool) :
      h.conn.isSome = true → h.failed = false → h.eof = false → h.chunked = true →
      h.chunkLeft = d.length → (h.chunkCrlf = false → d = []) →
      Arrives h.pending (chunkedWire h d chunks last) →
      (whole = true ↔ chunkedWire h d chunks last <+: h.pending) →
      Delivering h (d ++ chunks.flatMap Chunk.data) whole
  | contentLength (body : List UInt8) (whole : Bool) :
      h.conn.isSome = true → h.failed = false → h.eof = false → h.chunked = false →
      h.remaining = body.length → Arrives h.pending body → (whole = true ↔ body <+: h.pending) →
      Delivering h body whole
  | closeDelimited (body : List UInt8) (whole : Bool) :
      h.conn.isSome = true → h.failed = false → h.eof = false → h.chunked = false →
      h.remaining < 0 → h.pending <+: body → (whole = true → h.pending = body) →
      whole = h.closes → Delivering h body whole
  | ended : h.failed = false → h.eof = true → Delivering h [] true
  | failed (body : List UInt8) : h.failed = true → Delivering h body false

/-- What one call may do: return some of the next bytes, or 0 at the end of a whole body, or -1
where it is cut. -/
def Step (body : List UInt8) (whole : Bool) (len : ℤ)
    (r : Option (List UInt8) × GcHttp κ) : Prop :=
  (∃ bs body', bs ≠ [] ∧ (bs.length : ℤ) ≤ len ∧ body = bs ++ body' ∧ r.1 = some bs ∧
    Delivering r.2 body' whole) ∨
  (whole = true ∧ body = [] ∧ r.1 = some [] ∧ Delivering r.2 [] true) ∨
  (whole = false ∧ r.1 = none ∧ r.2.failed = true)

/-- A failure is a step of a body that does not arrive whole. -/
theorem Step.fail {r : Option (List UInt8) × GcHttp κ} (hwhole : whole ≠ true)
    (h : ∃ h', r = (none, h') ∧ h'.failed = true) : Step body whole len r := by
  obtain ⟨h', rfl, hfailed⟩ := h
  exact Or.inr (Or.inr ⟨Bool.eq_false_iff.mpr hwhole, rfl, hfailed⟩)

/-- The last part of `gc_http_read`: the end, an error, or some of the next bytes. -/
theorem readBody_cases (hconn : h.conn.isSome = true) (hlen : 0 < len) :
    (h.pending = [] ∧ h.closes = true ∧
      ((h.chunked = false ∧ h.remaining ≤ 0) ∧
        (∃ h', readBody h len = (some [], { h' with eof := true }) ∧ ReadOn h h' []) ∨
      (h.chunked = true ∨ 0 < h.remaining) ∧
        ∃ h', readBody h len = (none, h') ∧ h'.failed = true)) ∨
    (h.pending = [] ∧ h.closes = false ∧ ∃ h', readBody h len = (none, h') ∧ h'.failed = true) ∨
    ∃ bs rest h', bs ≠ [] ∧ (bs.length : ℤ) ≤ len ∧ h.pending = bs ++ rest ∧
      readBody h len = (some bs, h'.count bs.length) ∧ ReadOn h h' rest := by
  rcases rawRead_cases hconn (show len.toNat ≠ 0 by omega) with
    ⟨hnil, hcloses, h', hread, hon⟩ | ⟨hnil, hcloses, h', hread, hfailed⟩ |
    ⟨bs, rest, h', hne, hle, hbs, hread, hon⟩
  · refine Or.inl ⟨hnil, hcloses, ?_⟩
    have hsame : h'.chunked = h.chunked ∧ h'.remaining = h.remaining := by
      obtain ⟨c, input, buffer, -, rfl, -, -⟩ := hon
      exact ⟨rfl, rfl⟩
    by_cases hdeclared : h'.chunked = true ∨ 0 < h'.remaining
    · exact Or.inr ⟨by rwa [hsame.1, hsame.2] at hdeclared, h'.fail "Truncated HTTP body",
        by simp only [readBody, hread, if_pos hdeclared], rfl⟩
    · refine Or.inl ⟨?_, h', by simp only [readBody, hread, if_neg hdeclared], hon⟩
      rw [hsame.1, hsame.2] at hdeclared
      exact ⟨by simpa using fun hc => hdeclared (Or.inl hc),
        not_lt.mp fun hr => hdeclared (Or.inr hr)⟩
  · exact Or.inr (Or.inl ⟨hnil, hcloses, h', by simp only [readBody, hread], hfailed⟩)
  · obtain ⟨b, bs, rfl⟩ := List.exists_cons_of_ne_nil hne
    exact Or.inr (Or.inr ⟨b :: bs, rest, h', hne, by omega, hbs,
      by simp only [readBody, hread], hon⟩)

/-- A close-delimited body. -/
theorem closeDelimited_step (hconn : h.conn.isSome = true) (hfailed : h.failed = false)
    (heof : h.eof = false) (hchunked : h.chunked = false) (hremaining : h.remaining < 0)
    (hpre : h.pending <+: body) (hwhole : whole = true → h.pending = body)
    (hcloses : whole = h.closes) (hlen : 0 < len) : Step body whole len (readBody h len) := by
  rcases readBody_cases hconn hlen with
    ⟨hnil, hclosed, ⟨-, h', hread, hon⟩ | ⟨hdeclared, -⟩⟩ | ⟨hnil, hclosed, hfail⟩ |
    ⟨bs, rest, h', hne, hle, hbs, hread, hon⟩
  · have hw : whole = true := hcloses.trans hclosed
    refine Or.inr (Or.inl ⟨hw, (hwhole hw).symm.trans hnil, by rw [hread], ?_⟩)
    obtain ⟨c, input, buffer, -, rfl, -, -⟩ := hon
    rw [hread]
    exact .ended hfailed rfl
  · rcases hdeclared with hc | hr
    · rw [hchunked] at hc
      cases hc
    · omega
  · exact Step.fail (by rw [hcloses, hclosed]; decide) hfail
  -- what has been read is a part of the body
  · obtain ⟨body', rfl⟩ : ∃ body', body = bs ++ body' := by
      obtain ⟨t, ht⟩ := hpre
      exact ⟨rest ++ t, by rw [← ht, hbs, List.append_assoc]⟩
    refine Or.inl ⟨bs, body', hne, hle, rfl, by rw [hread], ?_⟩
    have hpending := hon.pending_eq
    have hcl := hon.closes_eq
    have hsome := hon.isSome
    obtain ⟨c, input, buffer, -, rfl, -, -⟩ := hon
    have hcount : ∀ n, GcHttp.count { h with
        conn := some { c with input := input }, buffer := buffer } n =
        { h with conn := some { c with input := input }, buffer := buffer } := by
      intro n
      rw [GcHttp.count, if_neg (by simp [hchunked]), if_neg (by simp only; omega)]
    rw [hread, hcount]
    rw [hbs] at hpre hwhole
    refine .closeDelimited body' whole hsome hfailed heof hchunked hremaining ?_ ?_
      (hcloses.trans hcl.symm)
    · rw [hpending]
      exact (List.prefix_append_right_inj _).mp hpre
    · intro hw
      rw [hpending]
      exact List.append_cancel_left (hwhole hw)

/-- A body with a `Content-Length`. -/
theorem contentLength_step (hconn : h.conn.isSome = true) (hfailed : h.failed = false)
    (heof : h.eof = false) (hchunked : h.chunked = false) (hremaining : h.remaining = body.length)
    (harrives : Arrives h.pending body) (hwhole : whole = true ↔ body <+: h.pending)
    (hlen : 0 < len) : Step body whole len
      (if h.remaining = 0 then (some [], { h with eof := true })
       else readBody h (min len h.remaining)) := by
  by_cases h0 : h.remaining = 0
  · rw [if_pos h0]
    obtain rfl : body = [] := List.length_eq_zero_iff.mp (by omega)
    exact Or.inr (Or.inl ⟨hwhole.mpr List.nil_prefix, rfl, rfl, .ended hfailed rfl⟩)
  · rw [if_neg h0]
    -- a cut connection holds less than what is declared
    have hcut : h.pending = [] → whole ≠ true := by
      intro hnil hw
      have := (hwhole.mp hw).length_le
      rw [hnil, List.length_nil] at this
      omega
    rcases readBody_cases hconn (show 0 < min len h.remaining by omega) with
      ⟨hnil, -, ⟨hopen, -⟩ | ⟨-, hfail⟩⟩ | ⟨hnil, -, hfail⟩ | ⟨bs, rest, h', hne, hle, hbs, hread, hon⟩
    · omega
    · exact Step.fail (hcut hnil) hfail
    · exact Step.fail (hcut hnil) hfail
    · obtain ⟨body', rfl⟩ :=
        (hbs ▸ harrives).exists_append (List.prefix_refl body) (by omega)
      refine Or.inl ⟨bs, body', hne, by omega, rfl, by rw [hread], ?_⟩
      have hpending := hon.pending_eq
      have hsome := hon.isSome
      obtain ⟨c, input, buffer, -, rfl, -, -⟩ := hon
      rw [hbs, arrives_append_left] at harrives
      rw [hbs, List.prefix_append_right_inj] at hwhole
      rw [hread, GcHttp.count, if_neg (by simp [hchunked]), if_pos (by simp only; omega)]
      rw [List.length_append] at hremaining
      refine .contentLength body' whole hsome hfailed heof hchunked (by simp only; omega) ?_ ?_
      · change Arrives (GcHttp.pending { h with conn := _, buffer := buffer }) body'
        rw [hpending]
        exact harrives
      · change _ ↔ body' <+: (GcHttp.pending { h with conn := _, buffer := buffer })
        rw [hpending]
        exact hwhole

/-- The data of a chunk. -/
theorem chunkData_step {d : List UInt8} {chunks : List Chunk} {last : LastChunk}
    (hconn : h.conn.isSome = true) (hfailed : h.failed = false) (heof : h.eof = false)
    (hchunked : h.chunked = true) (hcrlf : h.chunkCrlf = true) (hleft : h.chunkLeft = d.length)
    (hd : d ≠ []) (harrives : Arrives h.pending (chunkedWire h d chunks last))
    (hwhole : whole = true ↔ chunkedWire h d chunks last <+: h.pending) (hlen : 0 < len) :
    Step (d ++ chunks.flatMap Chunk.data) whole len (readBody h (min len h.chunkLeft)) := by
  have hpos : 0 < d.length := List.length_pos_iff.mpr hd
  -- An end inside a chunk is no end of the body.
  have hcut : h.pending = [] → whole ≠ true := by
    intro hnil hw
    have := (hwhole.mp hw).length_le
    rw [hnil, chunkedWire, List.length_append, List.length_nil] at this
    omega
  rcases readBody_cases hconn (show 0 < min len h.chunkLeft by omega) with
    ⟨hnil, -, ⟨hopen, -⟩ | ⟨-, hfail⟩⟩ | ⟨hnil, -, hfail⟩ | ⟨bs, rest, h', hne, hle, hbs, hread, hon⟩
  · rw [hchunked] at hopen
    exact absurd hopen.1 (by decide)
  · exact Step.fail (hcut hnil) hfail
  · exact Step.fail (hcut hnil) hfail
  -- the bytes are the chunk's own
  · obtain ⟨d', rfl⟩ := (hbs ▸ harrives).exists_append (List.prefix_append d _) (by omega)
    refine Or.inl ⟨bs, d' ++ chunks.flatMap Chunk.data, hne, by omega, by rw [List.append_assoc],
      by rw [hread], ?_⟩
    have hpending := hon.pending_eq
    have hsome := hon.isSome
    obtain ⟨c, input, buffer, -, rfl, -, -⟩ := hon
    rw [hbs, chunkedWire, List.append_assoc, arrives_append_left] at harrives
    rw [hbs, chunkedWire, List.append_assoc, List.prefix_append_right_inj] at hwhole
    rw [List.length_append] at hleft
    rw [hread, GcHttp.count, if_pos hchunked]
    refine .chunked d' chunks last whole hsome hfailed heof hchunked (by simp only; omega)
      (fun hc => absurd hcrlf (by simp only at hc; rw [hc]; decide)) ?_ ?_
    · change Arrives (GcHttp.pending { h with conn := _, buffer := buffer }) _
      rw [hpending]
      exact harrives
    · change _ ↔ _ <+: (GcHttp.pending { h with conn := _, buffer := buffer })
      rw [hpending]
      exact hwhole

/-- The last chunk: its size line and the trailers, or the cut inside them. -/
theorem lastChunk_step {last : LastChunk} {q : List UInt8} (hconn : h.conn.isSome = true)
    (hfailed : h.failed = false) (hpending : h.pending = q) (harrives : Arrives q last.wire)
    (hwhole : whole = true ↔ last.wire <+: q) (hb : chunkBoundary h' = (true, h)) :
    Step [] whole len (nextChunk h' len) := by
  rcases harrives.split with ⟨q', rfl, harrives'⟩ | ⟨hp, hne⟩
  · obtain ⟨h₂, hsize, hon⟩ := chunkSize_ok last.sizeLine q' hconn
      (by rw [last.size_eq]; decide) (by rw [hpending]; simp)
    rw [last.size_eq] at hsize
    rw [LastChunk.wire, List.prefix_append_right_inj] at hwhole
    have hpending₂ := hon.pending_eq
    have hsome := hon.isSome
    obtain ⟨c, input, buffer, -, rfl, -, -⟩ := hon
    -- the trailers are there, or are cut
    by_cases hw : trailerWire last.trailers <+: q'
    · obtain ⟨rest, rfl⟩ := hw
      have hlen := length_le_lines last.trailers
      have hfits := last.fits
      obtain ⟨h₃, hloop, hon₃⟩ := trailerLoop_ok (h := { h with
          conn := some { c with input := input }, buffer := buffer, chunkLeft := 0,
          chunkCrlf := true }) 16385 0 hsome last.trailer_ne last.trailer_bytes
        last.trailer_fits (by omega) (by omega) hpending₂
      obtain ⟨c', input', buffer', -, rfl, -, -⟩ := hon₃
      refine Or.inr (Or.inl ⟨hwhole.mpr (List.prefix_append _ _), rfl, ?_, ?_⟩)
      · simp only [nextChunk, hb, hsize, hloop]
      · simp only [nextChunk, hb, hsize, hloop]
        exact .ended hfailed rfl
    · have hp : q' <+: trailerWire last.trailers := harrives'.resolve_left hw
      obtain ⟨h₃, hloop, hfail⟩ := trailerLoop_cut (h := { h with
          conn := some { c with input := input }, buffer := buffer, chunkLeft := 0,
          chunkCrlf := true }) 16385 0 hsome last.trailer_ne last.trailer_bytes last.trailer_fits
        (hpending₂ ▸ hp) (by
          change GcHttp.pending { h with conn := _, buffer := buffer } ≠ _
          rw [hpending₂]
          rintro rfl
          exact hw (List.prefix_refl _))
      exact Step.fail (fun h => hw (hwhole.mp h))
        ⟨h₃, by simp only [nextChunk, hb, hsize, hloop], hfail⟩
  · obtain ⟨h₂, hsize, hfail⟩ := chunkSize_cut last.sizeLine hconn (hpending ▸ hp) (hpending ▸ hne)
    exact Step.fail (fun h => not_prefix_of_cut hp hne _ (hwhole.mp h))
      ⟨h₂, by simp only [nextChunk, hb, hsize], hfail⟩

/-- A chunk with data: its size line and the start of its data, or the cut inside them. -/
theorem chunk_step {chunk : Chunk} {chunks : List Chunk} {last : LastChunk} {q : List UInt8}
    (hconn : h.conn.isSome = true) (hfailed : h.failed = false) (heof : h.eof = false)
    (hchunked : h.chunked = true) (hpending : h.pending = q)
    (harrives : Arrives q (Framing.chunked (chunk :: chunks) last).wire)
    (hwhole : whole = true ↔ (Framing.chunked (chunk :: chunks) last).wire <+: q)
    (hb : chunkBoundary h' = (true, h)) (hlen : 0 < len) :
    Step ((chunk :: chunks).flatMap Chunk.data) whole len (nextChunk h' len) := by
  -- A chunk is its size line, its bytes and a line end in front of the rest.
  have hwire : (Framing.chunked (chunk :: chunks) last).wire =
      (chunk.sizeLine.text ++ [13, 10]) ++
        (chunk.data ++ ([13, 10] ++ (Framing.chunked chunks last).wire)) := by
    simp [Framing.wire, Chunk.wire]
  rw [hwire] at harrives hwhole
  rcases harrives.split with ⟨q', rfl, harrives'⟩ | ⟨hp, hne⟩
  · obtain ⟨h₂, hsize, hon⟩ := chunkSize_ok chunk.sizeLine q' hconn
      (by rw [chunk.size_eq]; exact chunk.size_lt) (by rw [hpending]; simp)
    have hpos : 0 < chunk.data.length := List.length_pos_iff.mpr chunk.data_ne
    obtain ⟨n, hn⟩ := Nat.exists_eq_succ_of_ne_zero (by omega : chunk.data.length ≠ 0)
    rw [chunk.size_eq, hn] at hsize
    rw [List.prefix_append_right_inj] at hwhole
    have hpending₂ := hon.pending_eq
    have hsome := hon.isSome
    obtain ⟨c, input, buffer, -, rfl, -, -⟩ := hon
    rw [← hpending₂] at harrives' hwhole
    have hstep := chunkData_step (h := { h with
        conn := some { c with input := input }, buffer := buffer, chunkLeft := (n : ℤ) + 1,
        chunkCrlf := true })
      hsome hfailed heof hchunked rfl (by simp only [hn]; omega) chunk.data_ne harrives' hwhole hlen
    rw [List.flatMap_cons]
    simpa only [nextChunk, hb, hsize] using hstep
  · obtain ⟨h₂, hsize, hfail⟩ := chunkSize_cut chunk.sizeLine hconn (hpending ▸ hp) (hpending ▸ hne)
    exact Step.fail (fun h => not_prefix_of_cut hp hne _ (hwhole.mp h))
      ⟨h₂, by simp only [nextChunk, hb, hsize], hfail⟩

/-- One call of `gc_http_read`, under any framing. -/
theorem gcHttpRead_step (hd : Delivering h body whole) (hlen : 0 < len) :
    Step body whole len (gcHttpRead h len) := by
  have hpos : ¬ len ≤ 0 := by omega
  -- The cases are the framings, in every place a delivery can stand.
  cases hd with
  | ended hfailed heof =>
      refine Or.inr (Or.inl ⟨rfl, rfl, ?_, ?_⟩) <;>
        simp only [gcHttpRead, hfailed, heof, true_or, if_true, Bool.false_eq_true, if_false]
      exact .ended hfailed heof
  | failed _ hfailed =>
      refine Or.inr (Or.inr ⟨rfl, ?_, ?_⟩) <;> simp only [gcHttpRead, hfailed, if_true]
  | closeDelimited _ _ hconn hfailed heof hchunked hremaining hpre hall hcloses =>
      have hstep := closeDelimited_step hconn hfailed heof hchunked hremaining hpre hall hcloses hlen
      have hneg : ¬ 0 ≤ h.remaining := by omega
      simpa only [gcHttpRead, hfailed, heof, hchunked, hpos, hneg, Bool.false_eq_true, or_self,
        if_false] using hstep
  | contentLength _ _ hconn hfailed heof hchunked hremaining harrives hwhole =>
      have hstep := contentLength_step hconn hfailed heof hchunked hremaining harrives hwhole hlen
      have hdeclared : 0 ≤ h.remaining := by omega
      simpa only [gcHttpRead, hfailed, heof, hchunked, hpos, hdeclared, Bool.false_eq_true, or_self,
        if_false, if_true] using hstep
  | chunked d chunks last _ hconn hfailed heof hchunked hleft hcrlf harrives hwhole =>
      by_cases hzero : h.chunkLeft = 0
      -- a new chunk begins, behind the line end of the last one
      · obtain rfl : d = [] := List.length_eq_zero_iff.mp (by omega)
        have hread : gcHttpRead h len = nextChunk h len := by
          simp only [gcHttpRead, hfailed, heof, hchunked, hpos, hzero, Bool.false_eq_true, or_self,
            if_false, if_true]
        rw [hread]
        rw [chunkedWire, List.nil_append] at harrives hwhole
        rcases harrives.split with ⟨q, hq, harrives'⟩ | ⟨hp, hne⟩
        · obtain ⟨h₁, hb, hon⟩ := chunkBoundary_ok hconn hq
          rw [hq, List.prefix_append_right_inj] at hwhole
          have hpending := hon.pending_eq
          have hsome := hon.isSome
          obtain ⟨c, input, buffer, -, rfl, -, -⟩ := hon
          cases chunks with
          | nil => exact lastChunk_step hsome hfailed hpending harrives' hwhole hb
          | cons chunk chunks =>
              exact chunk_step hsome hfailed heof hchunked hpending harrives' hwhole hb hlen
        · obtain ⟨h₁, hb, hfail⟩ := chunkBoundary_cut hconn hp hne
          exact Step.fail (fun hw => not_prefix_of_cut hp hne _ (hwhole.mp hw))
            ⟨h₁, by simp only [nextChunk, hb], hfail⟩
      -- inside a chunk
      · have hd : d ≠ [] := by
          rintro rfl
          exact hzero (by simpa using hleft)
        have hcrlf' : h.chunkCrlf = true := by
          by_contra hc
          exact hd (hcrlf (Bool.eq_false_iff.mpr hc))
        have hstep := chunkData_step hconn hfailed heof hchunked hcrlf' hleft hd harrives hwhole hlen
        simpa only [gcHttpRead, hfailed, heof, hchunked, hpos, hzero, Bool.false_eq_true, or_self,
          if_false, if_true] using hstep

end Step

/-! ## Any sequence of calls -/

section Run

variable {h : GcHttp κ} {body : List UInt8} {whole : Bool}

/-- The results are non-empty pieces of `body` from its start, and `last` from then on. -/
def Delivers (body : List UInt8) (last : Option (List UInt8))
    (results : List (Option (List UInt8))) : Prop :=
  ∃ pieces n, results = List.map some pieces ++ List.replicate n last ∧ [] ∉ pieces ∧
    pieces.length ≤ body.length ∧ pieces.flatten <+: body ∧
    (n ≠ 0 → last = some [] → pieces.flatten = body)

/-- Behind a failure every call fails. -/
theorem reads_of_failed (hfailed : h.failed = true) (lens : List ℤ) :
    reads h lens = List.replicate lens.length none := by
  induction lens with
  | nil => rfl
  | cons len lens ih =>
      rw [reads, List.length_cons, List.replicate_succ]
      simp only [gcHttpRead, hfailed, if_true, ih]

/-- A sequence of calls, from any state that keeps the invariant. -/
theorem reads_delivers (hd : Delivering h body whole) {lens : List ℤ} (hlens : ∀ len ∈ lens, 0 < len) :
    Delivers body (if whole then some [] else none) (reads h lens) := by
  -- One read after the other, from what the last one has left.
  induction lens generalizing h body with
  | nil => exact ⟨[], 0, rfl, by simp, by simp, List.nil_prefix, fun h => absurd rfl h⟩
  | cons len lens ih =>
      have htail : ∀ len ∈ lens, 0 < len := fun l hl => hlens l (List.mem_cons_of_mem len hl)
      rcases gcHttpRead_step hd (hlens len List.mem_cons_self) with
        ⟨bs, body', hne, -, rfl, hresult, hd'⟩ | ⟨rfl, rfl, hresult, hd'⟩ | ⟨rfl, hresult, hfailed⟩
      · obtain ⟨pieces, n, hreads, hnil, hlen, hpre, hall⟩ := ih hd' htail
        refine ⟨bs :: pieces, n, ?_, ?_, ?_, ?_, ?_⟩
        · rw [reads, hresult, hreads]
          rfl
        · simp only [List.mem_cons, not_or]
          exact ⟨fun h => hne h.symm, hnil⟩
        · have := List.length_pos_iff.mpr hne
          rw [List.length_cons, List.length_append]
          omega
        · rw [List.flatten_cons]
          exact (List.prefix_append_right_inj bs).mpr hpre
        · intro hn hlast
          rw [List.flatten_cons, hall hn hlast]
      · obtain ⟨pieces, n, hreads, hnil, hlen, -, -⟩ := ih hd' htail
        obtain rfl : pieces = [] := List.length_eq_zero_iff.mp (by simpa using hlen)
        refine ⟨[], n + 1, ?_, by simp, by simp, List.nil_prefix, fun _ _ => rfl⟩
        rw [reads, hresult, hreads]
        rfl
      · refine ⟨[], lens.length + 1, ?_, by simp, by simp, List.nil_prefix,
          fun _ h => by simp at h⟩
        rw [reads, hresult, reads_of_failed hfailed]
        rfl

/-- `h` is about to read a body with the framing `f`. -/
structure Starts (h : GcHttp κ) (f : Framing) : Prop where
  conn : h.conn.isSome = true
  failed : h.failed = false
  eof : h.eof = false
  chunkLeft : h.chunkLeft = 0
  chunkCrlf : h.chunkCrlf = false
  framing : match f with
    | .chunked _ _ => h.chunked = true
    | .contentLength body => h.chunked = false ∧ h.remaining = body.length
    | .closeDelimited _ => h.chunked = false ∧ h.remaining < 0

/-- All of the body arrives; behind a declared end there may be more. -/
def ArrivesWhole (f : Framing) (h : GcHttp κ) : Prop :=
  match f with
  | .closeDelimited body => h.pending = body ∧ h.closes = true
  | f => f.wire <+: h.pending

/-- The connection ends before the declared end; a close-delimited body has none, but an error
can end it. -/
def ArrivesCut (f : Framing) (h : GcHttp κ) : Prop :=
  match f with
  | .closeDelimited body => h.pending <+: body ∧ h.closes = false
  | f => h.pending <+: f.wire ∧ h.pending ≠ f.wire

/-- A body that arrives whole is delivered from its start on. -/
theorem Starts.delivering_whole {f : Framing} (hs : Starts h f) (hw : ArrivesWhole f h) :
    Delivering h f.body true := by
  obtain ⟨hconn, hfailed, heof, hleft, hcrlf, hframing⟩ := hs
  cases f with
  | chunked chunks last =>
      have hwire : chunkedWire h [] chunks last = (Framing.chunked chunks last).wire := by
        simp [chunkedWire, hcrlf]
      exact .chunked [] chunks last true hconn hfailed heof hframing hleft (fun _ => rfl)
        (hwire ▸ Or.inl hw) ⟨fun _ => hwire ▸ hw, fun _ => rfl⟩
  | contentLength body =>
      exact .contentLength body true hconn hfailed heof hframing.1 hframing.2 (Or.inl hw)
        ⟨fun _ => hw, fun _ => rfl⟩
  | closeDelimited body =>
      exact .closeDelimited body true hconn hfailed heof hframing.1 hframing.2
        (hw.1 ▸ List.prefix_refl _) (fun _ => hw.1) hw.2.symm

/-- A body that is cut is delivered as far as it arrives. -/
theorem Starts.delivering_cut {f : Framing} (hs : Starts h f) (hc : ArrivesCut f h) :
    Delivering h f.body false := by
  obtain ⟨hconn, hfailed, heof, hleft, hcrlf, hframing⟩ := hs
  have hnot : ∀ {w : List UInt8}, h.pending <+: w → h.pending ≠ w → ¬ w <+: h.pending := by
    intro w hp hne hw
    exact hne (hp.eq_of_length (Nat.le_antisymm hp.length_le hw.length_le))
  cases f with
  | chunked chunks last =>
      have hwire : chunkedWire h [] chunks last = (Framing.chunked chunks last).wire := by
        simp [chunkedWire, hcrlf]
      exact .chunked [] chunks last false hconn hfailed heof hframing hleft (fun _ => rfl)
        (hwire ▸ Or.inr hc.1) ⟨nofun, fun h => absurd (hwire ▸ h) (hnot hc.1 hc.2)⟩
  | contentLength body =>
      exact .contentLength body false hconn hfailed heof hframing.1 hframing.2 (Or.inr hc.1)
        ⟨nofun, fun h => absurd h (hnot hc.1 hc.2)⟩
  | closeDelimited body =>
      exact .closeDelimited body false hconn hfailed heof hframing.1 hframing.2 hc.1
        (fun h => by cases h) hc.2.symm

/-- However the socket cuts the bytes into pieces and however many are asked for each time, the
pieces that `gc_http_read` returns make up the body, and then it returns 0 for ever; if the
connection ends early they make up a prefix of it, and then it returns -1 for ever. -/
theorem gcHttpRead_decodes {f : Framing} (hs : Starts h f) {lens : List ℤ}
    (hlens : ∀ len ∈ lens, 0 < len) :
    (ArrivesWhole f h → Delivers f.body (some []) (reads h lens)) ∧
    (ArrivesCut f h → Delivers f.body none (reads h lens)) :=
  ⟨fun hw => reads_delivers (hs.delivering_whole hw) hlens,
    fun hc => reads_delivers (hs.delivering_cut hc) hlens⟩

end Run

section Sample

/-- A request whose response comes in the given pieces. -/
def received (input : List Event) (chunked : Bool) (remaining : ℤ) : GcHttp Unit where
  conn := some
    { host := [], port := 80, tls := false, cancel := none, cancelOpaque := 0, input := input,
      sends := [], sent := [] }
  url := []
  error := ""
  location := []
  contentType := []
  icyName := []
  status := 200
  chunked := chunked
  eof := false
  failed := false
  icyInterval := 0
  length := remaining
  remaining := remaining
  rangeStart := -1
  rangeEnd := -1
  total := -1
  chunkLeft := 0
  buffer := []
  chunkCrlf := false

/-- A size line without an extension ends behind its digits. -/
theorem ext_start_nil : ([] : List UInt8).headD 59 = 59 := rfl

/-- A chunk of three bytes, `3;x`. -/
def threeBytes : Chunk where
  sizeLine :=
    { digits := [51], ext := [59, 120], digits_ne := by decide, digits_hex := by simp [isXDigit, isDigit],
      ext_start := by decide, ext_bytes := by simp [LineBytes], fits := by decide }
  data := [97, 98, 99]
  data_ne := by decide
  size_eq := by decide
  size_lt := by decide

/-- The last chunk, with one trailer. -/
def lastChunk : LastChunk where
  sizeLine :=
    { digits := [48], ext := [], digits_ne := by decide, digits_hex := by simp [isXDigit, isDigit],
      ext_start := ext_start_nil, ext_bytes := lineBytes_nil, fits := by decide }
  size_eq := by decide
  trailers := [[88, 58, 121]]
  trailer_ne := by simp
  trailer_bytes := by simp [LineBytes]
  trailer_fits := by simp
  fits := by decide

/-- The pieces cut the size line, the data and the boundary between two chunks. -/
def threeBytesInput : List Event :=
  [.data 51 [59], .data 120 [13, 10, 97], .data 98 [99, 13], .data 10 [48, 13, 10, 88],
    .data 58 [121, 13, 10, 13], .data 10 []]

theorem gcHttpRead_decodes_threeBytes :
    (received threeBytesInput true (-1)).pending = (Framing.chunked [threeBytes] lastChunk).wire ∧
    Delivers [97, 98, 99] (some [])
      (reads (received threeBytesInput true (-1)) [2, 2, 1, 5, 1]) := by
  have hpending : (received threeBytesInput true (-1)).pending =
      (Framing.chunked [threeBytes] lastChunk).wire := by decide
  refine ⟨hpending, (gcHttpRead_decodes (f := .chunked [threeBytes] lastChunk)
    ⟨rfl, rfl, rfl, rfl, rfl, rfl⟩ (by decide)).1 ?_⟩
  show (Framing.chunked [threeBytes] lastChunk).wire <+: _
  exact hpending ▸ List.prefix_refl _

example : reads (received threeBytesInput true (-1)) [2, 2, 1, 5, 1] =
    [some [97], some [98, 99], some [], some [], some []] := by decide

-- cut inside the trailers
example : reads (received (threeBytesInput.take 4) true (-1)) [2, 2, 1, 5] =
    [some [97], some [98, 99], none, none] := by decide

end Sample

end WiiMC.Http
