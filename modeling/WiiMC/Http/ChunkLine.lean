import Mathlib.Data.List.TakeWhile
import WiiMC.Http.Body

/-!
# The line with the size of a chunk

What `gc_http_read` takes for the size of a chunk, at the place where a chunk starts.

* `HeaderAt`: a line of hexadecimal digits with optional extensions is to be read next.
* `PrefixedAt`: such a line, with `0x` in front of the digits. The conversion skips this prefix.
* `takes_iff`: these are the lines that the client takes.
* `chunkHeader_iff`: the client takes the lines of the grammar, with their values, and fails for
  ever at everything else but the lines with a prefix.
-/

namespace WiiMC.Http

open Bytes

variable {κ : Type} {h h' : GcHttp κ} {q rest : List UInt8} {v : ℕ} {len : ℤ}

/-- A chunk starts in front of `q`. -/
structure ChunkStart (h : GcHttp κ) (q : List UInt8) : Prop where
  conn : h.conn.isSome = true
  failed : h.failed = false
  eof : h.eof = false
  chunked : h.chunked = true
  chunkLeft : h.chunkLeft = 0
  pending : h.pending = (if h.chunkCrlf then [13, 10] else []) ++ q

/-- A line with the size `v` of a chunk comes next, and `rest` behind it. -/
def HeaderAt (q : List UInt8) (v : ℕ) (rest : List UInt8) : Prop :=
  ∃ s : SizeLine, q = s.text ++ 13 :: 10 :: rest ∧ s.size = v ∧ v < 2 ^ 63

/-- Such a line comes next, but the digits have the prefix `0x` or `0X`. -/
def PrefixedAt (q : List UInt8) (v : ℕ) (rest : List UInt8) : Prop :=
  ∃ (x : UInt8) (s : SizeLine), q = 48 :: x :: s.text ++ 13 :: 10 :: rest ∧ toLower x = 120 ∧
    s.text.length ≤ 251 ∧ s.size = v ∧ v < 2 ^ 63

/-- `gc_http_read` takes `v` for the size of the chunk; `h'` is the state behind the line. -/
def Takes (h : GcHttp κ) (v : ℕ) (h' : GcHttp κ) : Prop :=
  ∃ h₁, chunkBoundary h = (true, h₁) ∧ chunkSize h₁ = (some v, h')

/-- `gc_http_read` behind the line with the size `v`. -/
def afterSize (h : GcHttp κ) (len : ℤ) (v : ℕ) : Option (List UInt8) × GcHttp κ :=
  if v = 0 then trailerLoop 16385 0 { h with chunkLeft := 0, chunkCrlf := true }
  else readBody { h with chunkLeft := v, chunkCrlf := true } (min len v)

/-! ## Lines that are read -/

/-- A line that is read ends with the first line feed. -/
theorem lineLoop_some {room : ℕ} {dst s : List UInt8} (hconn : h.conn.isSome = true)
    (hline : lineLoop room dst h = (some s, h')) :
    ∃ t rest, h.pending = t ++ 10 :: rest ∧ ReadOn h h' rest ∧ dst.reverse ++ t = s ++ [13] ∧
      LineBytes t ∧ t.length < room := by
  induction room generalizing dst h with
  | zero => cases hline
  | succ room ih =>
      rw [lineLoop] at hline
      rcases rawRead_cases hconn Nat.one_ne_zero with
        ⟨-, -, h₁, hread, -⟩ | ⟨-, -, h₁, hread, -⟩ | ⟨bs, rest, h₁, hne, hlen, hbs, hread, hon⟩
      · rw [hread] at hline
        cases hline
      · rw [hread] at hline
        cases hline
      obtain ⟨c, bs, rfl⟩ := List.exists_cons_of_ne_nil hne
      obtain rfl : bs = [] := List.length_eq_zero_iff.mp (by simpa using hlen)
      rw [hread] at hline
      simp only at hline
      -- a line ends with a line feed behind a carriage return
      by_cases hfeed : c = 10
      · rw [if_pos hfeed] at hline
        subst hfeed
        split at hline
        · cases hline
          exact ⟨[], rest, hbs, hon, by rw [List.append_nil, List.reverse_cons], lineBytes_nil,
            Nat.succ_pos room⟩
        · cases hline
      rw [if_neg hfeed] at hline
      by_cases hzero : c = 0
      · rw [if_pos hzero] at hline
        cases hline
      rw [if_neg hzero] at hline
      obtain ⟨t, rest', hpending, hon', hdst, hbytes, hroom⟩ := ih hon.isSome hline
      refine ⟨c :: t, rest', ?_, hon.trans hon', ?_, ?_, Nat.succ_lt_succ hroom⟩
      · rw [hbs, ← hon.pending_eq, hpending]
        rfl
      · rw [← hdst, List.reverse_cons, List.append_assoc]
        rfl
      · exact List.forall_mem_cons.mpr ⟨⟨hzero, hfeed⟩, hbytes⟩

/-- A line that is read stands in front of its ending. -/
theorem line_some {cap : ℕ} {s : List UInt8} (hconn : h.conn.isSome = true)
    (hline : line h cap = (some s, h')) :
    ∃ rest, h.pending = s ++ 13 :: 10 :: rest ∧ ReadOn h h' rest ∧ LineBytes s ∧
      s.length + 2 < cap := by
  obtain ⟨t, rest, hpending, hon, ht, hbytes, hroom⟩ := lineLoop_some hconn hline
  rw [List.reverse_nil, List.nil_append] at ht
  subst ht
  rw [List.length_append, List.length_singleton] at hroom
  refine ⟨rest, ?_, hon, fun c hc => hbytes c (List.mem_append_left _ hc), by omega⟩
  rw [hpending, List.append_assoc]
  rfl

/-! ## Numbers -/

theorem toLower_eq_x {x : UInt8} (hx : toLower x = 120) : isXDigit x = false ∧ x ≠ 59 := by
  refine ⟨?_, ?_⟩
  · by_contra hdigit
    exact toLower_ne_x (Bool.not_eq_false _ ▸ hdigit) hx
  · rintro rfl
    exact absurd hx (by decide)

/-- The conversion reads the digits, or those behind a prefix. -/
theorem scanHex_cases (s : List UInt8) :
    (∃ x t, s = 48 :: x :: t ∧ toLower x = 120 ∧ isXDigit (t.headD 0) = true ∧
      scanHex s = (valOf 16 (t.takeWhile isXDigit), t.dropWhile isXDigit)) ∨
    scanHex s = (valOf 16 (s.takeWhile isXDigit), s.dropWhile isXDigit) := by
  fun_cases scanHex s with
  | case1 x d t hx =>
      rw [Bool.and_eq_true, beq_iff_eq] at hx
      exact .inl ⟨x, d :: t, rfl, hx.1, hx.2, rfl⟩
  | case2 x d t hx => exact .inr rfl
  | case3 s hno => exact .inr rfl

/-- The digits at the start of a line and what follows, as the grammar has them. -/
theorem exists_sizeLine {s : List UInt8} (hdigit : isXDigit (s.headD 0) = true)
    (hext : (s.dropWhile isXDigit).headD 59 = 59) (hbytes : LineBytes s)
    (hlen : s.length ≤ 253) :
    ∃ l : SizeLine, l.text = s ∧ l.size = valOf 16 (s.takeWhile isXDigit) := by
  have hne : s.takeWhile isXDigit ≠ [] := by
    cases s with
    | nil => cases hdigit
    | cons c s =>
        rw [List.takeWhile_cons_of_pos (show isXDigit c = true from hdigit)]
        exact List.cons_ne_nil c _
  refine ⟨⟨s.takeWhile isXDigit, s.dropWhile isXDigit, hne,
    List.all_eq_true.mp List.all_takeWhile, hext,
    fun c hc => hbytes c ((List.dropWhile_suffix _).subset hc), ?_⟩,
    List.takeWhile_append_dropWhile, rfl⟩
  rw [← List.length_append, List.takeWhile_append_dropWhile]
  exact hlen

/-- A line without a prefix does not have the prefix. -/
theorem SizeLine.text_ne (s : SizeLine) {x : UInt8} (hx : toLower x = 120) (t : List UInt8) :
    s.text ≠ 48 :: x :: t := by
  obtain ⟨hdigit, hsemi⟩ := toLower_eq_x hx
  obtain ⟨c, ds, hds⟩ := List.exists_cons_of_ne_nil s.digits_ne
  intro heq
  rw [SizeLine.text, hds, List.cons_append, List.cons.injEq] at heq
  cases ds with
  | nil =>
      -- the extensions would start with the `x`
      have hstart := s.ext_start
      rw [List.nil_append] at heq
      rw [heq.2] at hstart
      exact hsemi hstart
  | cons d ds =>
      have hd := s.digits_hex d (by rw [hds]; exact List.mem_cons_of_mem _ List.mem_cons_self)
      rw [List.cons_append, List.cons.injEq] at heq
      rw [heq.2.1, hdigit] at hd
      cases hd

/-- The digits and the extensions of a line. -/
theorem SizeLine.split (s : SizeLine) :
    s.text.takeWhile isXDigit = s.digits ∧ s.text.dropWhile isXDigit = s.ext := by
  have hhead : ∀ c ∈ s.ext.head?, isXDigit c = false := by
    intro c hc
    have hstart := s.ext_start
    rw [List.headD_eq_head?_getD, hc] at hstart
    rw [show c = 59 from hstart]
    rfl
  obtain ⟨htake, hdrop⟩ := takeWhile_append_head hhead s.digits
  rw [SizeLine.text, htake, hdrop, List.takeWhile_eq_self_iff.mpr s.digits_hex,
    List.dropWhile_eq_nil_iff.mpr s.digits_hex]
  exact ⟨rfl, rfl⟩

theorem SizeLine.prefixed_bytes (s : SizeLine) {x : UInt8} (hx : toLower x = 120) :
    LineBytes (48 :: x :: s.text) := by
  have hxbyte : x ≠ 0 ∧ x ≠ 10 := by
    refine ⟨?_, ?_⟩ <;> rintro rfl <;> exact absurd hx (by decide)
  exact List.forall_mem_cons.mpr ⟨by decide, List.forall_mem_cons.mpr ⟨hxbyte, s.bytes⟩⟩

/-- Behind a prefix the conversion reads the digits. -/
theorem SizeLine.scanHex_prefixed (s : SizeLine) {x : UInt8} (hx : toLower x = 120) :
    scanHex (48 :: x :: s.text) = (s.size, s.ext) := by
  obtain ⟨d, ds, hds⟩ := List.exists_cons_of_ne_nil s.digits_ne
  have hd : isXDigit d = true := s.digits_hex d (by rw [hds]; exact List.mem_cons_self)
  have htext : s.text = d :: (ds ++ s.ext) := by
    rw [SizeLine.text, hds, List.cons_append]
  have hbegins : (toLower x == 120 && isXDigit d) = true := by
    rw [hd, beq_iff_eq.mpr hx, Bool.and_self]
  rw [htext, scanHex, if_pos hbegins, ← htext, s.split.1, s.split.2]
  rfl

/-! ## Sizes that are taken -/

/-- A size is read from the digits of a line, or from those behind a prefix. -/
theorem chunkSize_some (hconn : h.conn.isSome = true) (hsize : chunkSize h = (some v, h')) :
    ∃ rest, ReadOn h h' rest ∧ (HeaderAt h.pending v rest ∨ PrefixedAt h.pending v rest) := by
  unfold chunkSize at hsize
  rcases hline : line h 256 with ⟨_ | text, h₁⟩
  · rw [hline] at hsize
    cases hsize
  rw [hline] at hsize
  simp only at hsize
  obtain ⟨rest, hpending, hon, hbytes, hlen⟩ := line_some hconn hline
  by_cases hdigit : isXDigit (text.headD 0) = true
  · rw [if_pos hdigit] at hsize
    by_cases hok : (scanHex text).1 < 2 ^ 63 ∧ (scanHex text).2.headD 59 = 59
    · rw [if_pos hok] at hsize
      cases hsize
      obtain ⟨hlt, hext⟩ := hok
      refine ⟨rest, hon, ?_⟩
      -- `strtoull` skips `0x` in front of the digits
      rcases scanHex_cases text with ⟨x, t, rfl, hx, ht, hscan⟩ | hscan
      · rw [hscan] at hlt hext ⊢
        rw [List.length_cons, List.length_cons] at hlen
        obtain ⟨s, rfl, hs⟩ := exists_sizeLine ht hext
          (fun c hc => hbytes c (List.mem_cons_of_mem _ (List.mem_cons_of_mem _ hc)))
          (by omega)
        exact .inr ⟨x, s, hpending, hx, by omega, hs, hlt⟩
      · rw [hscan] at hlt hext ⊢
        obtain ⟨s, rfl, hs⟩ := exists_sizeLine hdigit hext hbytes (by omega)
        exact .inl ⟨s, hpending, hs, hlt⟩
    · rw [if_neg hok] at hsize
      cases hsize
  · rw [if_neg hdigit] at hsize
    cases hsize

/-- A line with a prefix is taken. -/
theorem chunkSize_prefixed (s : SizeLine) (rest : List UInt8) (hconn : h.conn.isSome = true)
    {x : UInt8} (hx : toLower x = 120) (hlen : s.text.length ≤ 251) (hlt : s.size < 2 ^ 63)
    (hpending : h.pending = 48 :: x :: s.text ++ 13 :: 10 :: rest) :
    ∃ h', chunkSize h = (some s.size, h') ∧ ReadOn h h' rest := by
  obtain ⟨h', hline, hon⟩ := line_ok (48 :: x :: s.text) rest 256 hconn (s.prefixed_bytes hx)
    (by rw [List.length_cons, List.length_cons]; omega) hpending
  refine ⟨h', ?_, hon⟩
  have hhead : isXDigit ((48 :: x :: s.text).headD 0) = true := rfl
  simp only [chunkSize, hline, hhead, if_true, s.scanHex_prefixed hx, s.ext_start, hlt, and_self]

/-- The client takes the lines of the grammar, and those with a prefix. -/
theorem takes_iff (hstart : ChunkStart h q) (v : ℕ) (rest : List UInt8) :
    (∃ h', Takes h v h' ∧ ReadOn h h' rest) ↔ HeaderAt q v rest ∨ PrefixedAt q v rest := by
  obtain ⟨h₁, hboundary, hon₁⟩ := chunkBoundary_ok hstart.conn hstart.pending
  refine ⟨?_, ?_⟩
  · rintro ⟨h', ⟨h₁', hb, hsize⟩, hon⟩
    obtain rfl : h₁ = h₁' := (Prod.mk.inj (hboundary.symm.trans hb)).2
    obtain ⟨rest', hon', hline⟩ := chunkSize_some hon₁.isSome hsize
    rw [← hon'.pending_eq, hon.pending_eq, hon₁.pending_eq] at hline
    exact hline
  · rintro (⟨s, rfl, rfl, hlt⟩ | ⟨x, s, rfl, hx, hlen, rfl, hlt⟩)
    · obtain ⟨h', hsize, hon'⟩ := chunkSize_ok s rest hon₁.isSome hlt hon₁.pending_eq
      exact ⟨h', ⟨h₁, hboundary, hsize⟩, hon₁.trans hon'⟩
    · obtain ⟨h', hsize, hon'⟩ := chunkSize_prefixed s rest hon₁.isSome hx hlen hlt hon₁.pending_eq
      exact ⟨h', ⟨h₁, hboundary, hsize⟩, hon₁.trans hon'⟩

/-- A line with a prefix is none of the grammar. -/
theorem PrefixedAt.not_header (hbegins : PrefixedAt q v rest) (v' : ℕ) (rest' : List UInt8) :
    ¬ HeaderAt q v' rest' := by
  obtain ⟨x, s, rfl, hx, -, -, -⟩ := hbegins
  rintro ⟨s', heq, -, -⟩
  have hfeed : ∀ {t : List UInt8}, LineBytes t → 10 ∉ t ++ [13] := fun ht hmem => by
    rcases List.mem_append.mp hmem with hmem | hmem
    · exact (ht 10 hmem).2 rfl
    · exact absurd hmem (by decide)
  -- both lines end with the first line feed
  have hsplit := splitAt?_append (hfeed (s.prefixed_bytes hx)) rest
  have hsplit' := splitAt?_append (hfeed s'.bytes) rest'
  have hassoc : ∀ t r : List UInt8, t ++ [13] ++ 10 :: r = t ++ 13 :: 10 :: r := fun t r => by
    rw [List.append_assoc]
    rfl
  rw [hassoc, heq, ← hassoc, hsplit'] at hsplit
  have htext := (Prod.mk.inj (Option.some.inj hsplit)).1
  exact s'.text_ne hx s.text (List.append_cancel_right htext)

theorem gcHttpRead_chunkStart (hstart : ChunkStart h q) (hlen : 0 < len) :
    gcHttpRead h len = nextChunk h len := by
  simp only [gcHttpRead, hstart.failed, hstart.eof, hstart.chunked, hstart.chunkLeft,
    not_le.mpr hlen, Bool.false_eq_true, or_self, if_false, if_true]

/-- A size that is taken is the one that is used. -/
theorem gcHttpRead_of_takes (hstart : ChunkStart h q) (hlen : 0 < len) (htakes : Takes h v h') :
    gcHttpRead h len = afterSize h' len v := by
  obtain ⟨h₁, hboundary, hsize⟩ := htakes
  rw [gcHttpRead_chunkStart hstart hlen, nextChunk, hboundary]
  simp only [hsize]
  cases v with
  | zero => rfl
  | succ n => rfl

/-- Where no size is taken, this read and all later ones fail. -/
theorem reads_of_not_takes (hstart : ChunkStart h q) (hlen : 0 < len)
    (hno : ∀ v h', ¬ Takes h v h') (lens : List ℤ) :
    reads h (len :: lens) = List.replicate (lens.length + 1) none := by
  obtain ⟨h₁, hboundary, -⟩ := chunkBoundary_ok hstart.conn hstart.pending
  rcases hsize : chunkSize h₁ with ⟨_ | v, h₂⟩
  · have hread : gcHttpRead h len = (none, h₂) := by
      rw [gcHttpRead_chunkStart hstart hlen, nextChunk, hboundary]
      simp only [hsize]
    rw [reads, hread, reads_of_failed (chunkSize_failed hsize), List.replicate_succ]
  · exact absurd ⟨h₁, hboundary, hsize⟩ (hno v h₂)

/-- The lines of the grammar are taken, with their values, and all other lines make this read and
all later ones fail, exactly if no line with a prefix comes next. -/
theorem chunkHeader_iff (hstart : ChunkStart h q) (hlen : 0 < len) :
    ((∀ v rest, (∃ h', Takes h v h' ∧ ReadOn h h' rest) ↔ HeaderAt q v rest) ∧
      (∀ v rest, HeaderAt q v rest →
        ∃ h', ReadOn h h' rest ∧ gcHttpRead h len = afterSize h' len v) ∧
      ((∀ v rest, ¬ HeaderAt q v rest) →
        ∀ lens, reads h (len :: lens) = List.replicate (lens.length + 1) none)) ↔
      ∀ v rest, ¬ PrefixedAt q v rest := by
  refine ⟨fun ⟨hiff, _, _⟩ v rest hbegins => ?_, fun hno => ⟨fun v rest => ?_, fun v rest hline => ?_,
    fun hnone lens => ?_⟩⟩
  · exact hbegins.not_header v rest ((hiff v rest).mp ((takes_iff hstart v rest).mpr (.inr hbegins)))
  · rw [takes_iff hstart, or_iff_left (hno v rest)]
  · obtain ⟨h', htakes, hon⟩ := (takes_iff hstart v rest).mpr (.inl hline)
    exact ⟨h', hon, gcHttpRead_of_takes hstart hlen htakes⟩
  · refine reads_of_not_takes hstart hlen (fun v h' htakes => ?_) lens
    obtain ⟨h₁, hboundary, hsize⟩ := htakes
    obtain ⟨h₁', hboundary', hon₁⟩ := chunkBoundary_ok hstart.conn hstart.pending
    obtain rfl : h₁' = h₁ := (Prod.mk.inj (hboundary'.symm.trans hboundary)).2
    obtain ⟨rest, -, hline⟩ := chunkSize_some hon₁.isSome hsize
    rw [hon₁.pending_eq] at hline
    exact hline.elim (hnone v rest) (hno v rest)

section Sample

theorem chunkStart_received {input : List Event} :
    ChunkStart (received input true (-1)) (received input true (-1)).pending where
  conn := rfl
  failed := rfl
  eof := rfl
  chunked := rfl
  chunkLeft := rfl
  pending := rfl

theorem chunkHeader_threeBytes :
    ∃ h', ReadOn (received threeBytesInput true (-1)) h'
        (threeBytes.data ++ [13, 10] ++ lastChunk.wire) ∧
      gcHttpRead (received threeBytesInput true (-1)) 2 = afterSize h' 2 3 := by
  have hline : HeaderAt (received threeBytesInput true (-1)).pending 3
      (threeBytes.data ++ [13, 10] ++ lastChunk.wire) :=
    ⟨threeBytes.sizeLine, by decide, by decide, by decide⟩
  exact ((chunkHeader_iff chunkStart_received (by decide)).mpr
    fun v rest hbegins => hbegins.not_header 3 _ hline).2.1 3 _ hline

/-- The pieces `0x3`, a line ending and three bytes. -/
def prefixedInput : List Event := [.data 48 [120, 51, 13, 10, 97, 98, 99]]

/-- A size with a prefix is taken. -/
theorem chunkHeader_prefixed :
    ¬ ∀ (h : GcHttp Unit) (q : List UInt8) (len : ℤ), ChunkStart h q → 0 < len →
      (∀ v rest, ¬ HeaderAt q v rest) → (gcHttpRead h len).1 = none := by
  intro hfails
  have hbegins : PrefixedAt (received prefixedInput true (-1)).pending 3 [97, 98, 99] := by
    exact ⟨120, ⟨[51], [], by decide, by decide +kernel, rfl, nofun, by decide⟩, by decide,
      by decide, by decide, by decide, by decide⟩
  have hnone := hfails (received prefixedInput true (-1)) _ 3 chunkStart_received (by decide)
    hbegins.not_header
  exact absurd hnone (by decide)

end Sample

end WiiMC.Http
