import WiiMC.Dav.Client
import WiiMC.Http.Body

/-!
# The limit of a listing

The loop of `query` that reads the body of an answer. It makes room for 4096 bytes before it knows
whether more will come, and `gc_http_read` never returns more than these.

* `gcHttpRead_long`: how many bytes a read returns does not depend on the room, if that is enough.
* `Reached`: the states of the loop, and `reached_within`: it keeps to its buffer.
* `readXml_run`: a body is accepted if the reads pass over the last 4096 bytes at one go.
* `readXml_limit`: where the limit is the one that the error message names.
-/

namespace WiiMC.Dav

open Bytes Http

variable {κ : Type} {h h' : GcHttp κ} {net net' : Net κ} {xml body rest : List UInt8}
  {allocated allocated' used : ℕ} {len : ℤ}

/-! ## Reads of many bytes -/

/-- The refill buffer holds at most the 4096 bytes it is long. -/
def Buffered (h : GcHttp κ) : Prop := h.buffer.length ≤ 4096

/-- A read of a connection gives no more than it is asked for. -/
theorem gcNetRead_length {c c' : GcConnection κ} {n : ℕ} {bs : List UInt8}
    (hread : gcNetRead c n = (.ok bs, c')) : bs.length ≤ n := by
  unfold gcNetRead at hread
  split_ifs at hread
  · cases hread
    exact Nat.zero_le _
  · split at hread
    · cases hread
      exact Nat.zero_le _
    · cases hread
      exact List.length_take_le _ _
    · cases hread

/-- Of a short list, reads of the same size up to the buffer take the same. -/
theorem take_min {l : List UInt8} (hl : l.length ≤ 4096) {m n : ℕ}
    (hmin : min m 4096 = min n 4096) : l.take m = l.take n ∧ l.drop m = l.drop n := by
  rcases Nat.le_total m 4096 with hm | hm
  · rcases Nat.le_total n 4096 with hn | hn
    · have heq : m = n := by omega
      rw [heq]
      exact ⟨rfl, rfl⟩
    · have heq : m = 4096 := by omega
      rw [List.take_of_length_le (by omega), List.take_of_length_le (by omega),
        List.drop_of_length_le (by omega), List.drop_of_length_le (by omega)]
      exact ⟨rfl, rfl⟩
  · rw [List.take_of_length_le (by omega), List.take_of_length_le (by omega),
      List.drop_of_length_le (by omega), List.drop_of_length_le (by omega)]
    exact ⟨rfl, rfl⟩

/-- A read gives a part of at most 4096 bytes, whatever it is asked for. -/
theorem rawRead_min (hbuf : Buffered h) {m n : ℕ} (hmin : min m 4096 = min n 4096) :
    rawRead h m = rawRead h n ∧ Buffered (rawRead h m).2 := by
  unfold rawRead
  rcases hbuffer : h.buffer with _ | ⟨b, bs⟩
  · rcases hconn : h.conn with _ | c
    · exact ⟨rfl, hbuf⟩
    rcases hnet : gcNetRead c 4096 with ⟨cancelled | _ | ⟨b, bs⟩, c'⟩ <;> simp only [hnet]
    · exact ⟨trivial, Nat.zero_le _⟩
    · exact ⟨trivial, Nat.zero_le _⟩
    · have hlen := gcNetRead_length hnet
      obtain ⟨htake, hdrop⟩ := take_min hlen hmin
      simp only [htake, hdrop, Buffered, true_and]
      rw [List.length_drop]
      omega
  · have hlen : (b :: bs).length ≤ 4096 := hbuffer ▸ hbuf
    obtain ⟨htake, hdrop⟩ := take_min hlen hmin
    simp only [htake, hdrop, Buffered, true_and]
    rw [List.length_drop]
    omega

/-- A read leaves no more than a buffer. -/
theorem rawRead_buffered (hbuf : Buffered h) (n : ℕ) : Buffered (rawRead h n).2 :=
  (rawRead_min hbuf rfl).2

/-- Reading a line leaves no more than a buffer. -/
theorem lineLoop_buffered (hbuf : Buffered h) (room : ℕ) (dst : List UInt8) :
    Buffered (lineLoop room dst h).2 := by
  induction room generalizing dst h with
  | zero => exact hbuf
  | succ room ih =>
      have hraw := rawRead_buffered hbuf 1
      rw [lineLoop]
      rcases hread : rawRead h 1 with ⟨_ | _ | ⟨c, _ | ⟨c', bs⟩⟩, h₁⟩ <;> rw [hread] at hraw <;>
        simp only
      · exact hraw
      · exact hraw
      · split_ifs
        · split <;> exact hraw
        · exact hraw
        · exact ih hraw _
      · exact hraw

/-- Reading the trailer leaves no more than a buffer. -/
theorem trailerLoop_buffered (hbuf : Buffered h) (fuel total : ℕ) :
    Buffered (trailerLoop fuel total h).2 := by
  induction fuel generalizing total h with
  | zero => exact hbuf
  | succ fuel ih =>
      have hline : Buffered (line h 256).2 := lineLoop_buffered hbuf _ _
      rw [trailerLoop]
      rcases hread : line h 256 with ⟨_ | text, h₁⟩ <;> rw [hread] at hline <;> simp only
      · exact hline
      · split_ifs
        · exact hline
        · exact hline
        · exact ih hline _

/-- Reading the end of a chunk leaves no more than a buffer. -/
theorem chunkBoundary_buffered (hbuf : Buffered h) : Buffered (chunkBoundary h).2 := by
  have hline : Buffered (line h 256).2 := lineLoop_buffered hbuf _ _
  unfold chunkBoundary
  split_ifs
  · rcases hread : line h 256 with ⟨_ | _ | ⟨b, bs⟩, h₁⟩ <;> rw [hread] at hline <;> exact hline
  · exact hbuf

/-- Reading the size of a chunk leaves no more than a buffer. -/
theorem chunkSize_buffered (hbuf : Buffered h) : Buffered (chunkSize h).2 := by
  have hline : Buffered (line h 256).2 := lineLoop_buffered hbuf _ _
  unfold chunkSize
  rcases hread : line h 256 with ⟨_ | text, h₁⟩ <;> rw [hread] at hline <;> simp only
  · exact hline
  · split_ifs <;> exact hline

/-- The last part of a read does not depend on the room either. -/
theorem readBody_min (hbuf : Buffered h) {m n : ℤ} (hmin : min m.toNat 4096 = min n.toNat 4096) :
    readBody h m = readBody h n ∧ Buffered (readBody h m).2 := by
  obtain ⟨heq, hraw⟩ := rawRead_min hbuf hmin
  unfold readBody
  rw [← heq]
  refine ⟨rfl, ?_⟩
  rcases hread : rawRead h m.toNat with ⟨_ | _ | ⟨b, bs⟩, h₁⟩ <;> rw [hread] at hraw <;> simp only
  · exact hraw
  · split_ifs <;> exact hraw
  · rw [GcHttp.count]
    split_ifs <;> exact hraw

/-- A read of more than a buffer gives as much as one of a buffer. -/
theorem nextChunk_min (hbuf : Buffered h) {m n : ℤ} (hm : 4096 ≤ m) (hn : 4096 ≤ n) :
    nextChunk h m = nextChunk h n ∧ Buffered (nextChunk h m).2 := by
  have hboundary := chunkBoundary_buffered hbuf
  unfold nextChunk
  rcases hb : chunkBoundary h with ⟨_ | _, h₁⟩ <;> rw [hb] at hboundary <;> simp only
  · exact ⟨trivial, hboundary⟩
  · have hsize := chunkSize_buffered hboundary
    rcases hs : chunkSize h₁ with ⟨_ | _ | v, h₂⟩ <;> rw [hs] at hsize <;> simp only
    · exact ⟨trivial, hsize⟩
    · have hlast : Buffered { h₂ with chunkLeft := 0, chunkCrlf := true } := hsize
      exact ⟨trivial, trailerLoop_buffered hlast _ _⟩
    · have hnext : Buffered { h₂ with chunkLeft := v + 1, chunkCrlf := true } := hsize
      exact readBody_min hnext (by omega)

/-- A read of 4096 bytes or more returns the same bytes, whatever the room is. -/
theorem gcHttpRead_min (hbuf : Buffered h) {m n : ℤ} (hm : 4096 ≤ m) (hn : 4096 ≤ n) :
    gcHttpRead h m = gcHttpRead h n ∧ Buffered (gcHttpRead h m).2 := by
  have hpos : ¬ m ≤ 0 ∧ ¬ n ≤ 0 := by omega
  unfold gcHttpRead
  simp only [hpos, or_false]
  split_ifs
  · exact ⟨rfl, hbuf⟩
  · exact ⟨rfl, hbuf⟩
  · exact nextChunk_min hbuf hm hn
  · exact readBody_min hbuf (by omega)
  · exact ⟨rfl, hbuf⟩
  · exact readBody_min hbuf (by omega)
  · exact readBody_min hbuf (by omega)

/-- How many bytes `k` reads of 4096 bytes return. -/
def total (h : GcHttp κ) (k : ℕ) : ℕ :=
  ((reads h (List.replicate k 4096)).map fun r => (r.getD []).length).sum

/-- What is read in several calls adds up. -/
theorem total_succ {bs : List UInt8} (hread : gcHttpRead h 4096 = (some bs, h')) (k : ℕ) :
    total h (k + 1) = bs.length + total h' k := by
  rw [total, List.replicate_succ, reads, hread, List.map_cons, List.sum_cons]
  rfl

/-! ## The buffer -/

/-- What is allocated before the last step. -/
def Doubled (allocated : ℕ) : Prop := ∃ i ≤ 6, allocated = 8192 * 2 ^ i

/-- The bytes that are used and allocated: none, a doubled size with room, or all that is ever
allocated, and then fewer than 4096 bytes are left. -/
def Sized (used allocated : ℕ) : Prop :=
  (used = 0 ∧ allocated = 0) ∨ (used < allocated ∧ Doubled allocated) ∨
    (520192 < used ∧ used < allocated ∧ allocated = xmlMax)

/-- An allocation succeeds, or one is going to fail. -/
theorem alloc_cases (net : Net κ) :
    (∃ net', net.alloc = (true, net') ∧ net'.allocs ⊆ net.allocs) ∨
      (false ∈ net.allocs ∧ ∃ net', net.alloc = (false, net')) := by
  unfold Net.alloc
  rcases hallocs : net.allocs with _ | ⟨_ | _, rest⟩
  · exact .inl ⟨net, rfl, hallocs ▸ List.Subset.refl _⟩
  · exact .inr ⟨List.mem_cons_self, _, rfl⟩
  · exact .inl ⟨_, rfl, List.subset_cons_self _ _⟩

/-- The size after a step that makes room. -/
def doubled (allocated : ℕ) : ℕ := min (if allocated = 0 then 8192 else allocated * 2) xmlMax

/-- Where room has to be made, twice the size is enough, or all that is ever allocated. -/
theorem doubled_cases (hsized : Sized used allocated) (hne : allocated ≠ xmlMax)
    (hfull : used + 4096 + 1 > allocated) :
    (used < 520192 ∧ used + 4096 < doubled allocated ∧ Doubled (doubled allocated)) ∨
      (520192 ≤ used ∧ used + 1 < doubled allocated ∧ doubled allocated = xmlMax) := by
  rcases hsized with ⟨rfl, rfl⟩ | ⟨hused, i, hi, rfl⟩ | ⟨-, -, hmax⟩
  · exact .inl ⟨by decide, by decide, 0, by decide, rfl⟩
  · have hpow : 2 ^ i ≤ 2 ^ 6 := Nat.pow_le_pow_right (by decide) hi
    have hnext : doubled (8192 * 2 ^ i) = min (8192 * 2 ^ (i + 1)) xmlMax := by
      rw [doubled, if_neg (Nat.mul_ne_zero (by decide) (Nat.two_pow_pos i).ne'), pow_succ,
        Nat.mul_assoc]
    rcases Nat.lt_or_eq_of_le hi with hlt | rfl
    · have hsmall : 2 ^ (i + 1) ≤ 2 ^ 6 := Nat.pow_le_pow_right (by decide) hlt
      have htwo : 2 ^ (i + 1) = 2 ^ i * 2 := pow_succ 2 i
      have hmin : min (8192 * 2 ^ (i + 1)) xmlMax = 8192 * 2 ^ (i + 1) :=
        Nat.min_eq_left (by rw [xmlMax]; omega)
      have hpos := Nat.two_pow_pos i
      rw [hnext, hmin]
      exact .inl ⟨by omega, by omega, i + 1, hlt, rfl⟩
    · -- the size is 512 KiB, and one byte more is all there is
      rw [hnext]
      rw [xmlMax]
      exact .inr ⟨by omega, by omega, rfl⟩
  · exact absurd hmax hne

/-- Room is made for 4096 bytes, or, at the end, for what is left. -/
theorem growXml_cases (hsized : Sized used allocated) (net : Net κ) :
    (allocated = xmlMax ∧ (growXml used allocated net).1 =
      .error (.eoverflow, "WebDAV listing exceeds 512 KiB")) ∨
    (allocated ≠ xmlMax ∧ false ∈ net.allocs ∧
      (growXml used allocated net).1 = .error (.enomem, "Out of memory")) ∨
    ∃ allocated' net', allocated ≠ xmlMax ∧ growXml used allocated net = (.ok allocated', net') ∧
      net'.allocs ⊆ net.allocs ∧
      ((used < 520192 ∧ used + 4096 < allocated' ∧ Doubled allocated') ∨
        (520192 ≤ used ∧ used + 1 < allocated' ∧ allocated' = xmlMax)) := by
  -- The buffer's sizes are powers of two below the limit, or the limit.
  have hsmall : allocated ≠ xmlMax → ¬ allocated ≥ xmlMax := by
    rcases hsized with ⟨-, rfl⟩ | ⟨-, i, hi, rfl⟩ | ⟨-, -, hmax⟩
    · exact fun _ => by decide
    · have hpow : 2 ^ i ≤ 2 ^ 6 := Nat.pow_le_pow_right (by decide) hi
      rw [xmlMax]
      omega
    · exact absurd hmax
  unfold growXml
  by_cases hfull : used + 4096 + 1 > allocated
  · rw [if_pos hfull]
    by_cases hmax : allocated = xmlMax
    · exact .inl ⟨hmax, by rw [if_pos (Nat.le_of_eq hmax.symm)]⟩
    · rw [if_neg (hsmall hmax)]
      rcases alloc_cases net with ⟨net', halloc, hsub⟩ | ⟨hfalse, net', halloc⟩
      · rw [halloc]
        exact .inr (.inr ⟨doubled allocated, net', hmax, rfl, hsub,
          doubled_cases hsized hmax hfull⟩)
      · rw [halloc]
        exact .inr (.inl ⟨hmax, hfalse, rfl⟩)
  · rw [if_neg hfull]
    rcases hsized with ⟨rfl, rfl⟩ | ⟨hused, i, hi, rfl⟩ | ⟨hused, hlt, rfl⟩
    · exact absurd (by decide) hfull
    · have hpow : 2 ^ i ≤ 2 ^ 6 := Nat.pow_le_pow_right (by decide) hi
      refine .inr (.inr ⟨8192 * 2 ^ i, net, by rw [xmlMax]; omega, rfl, List.Subset.refl _,
        .inl ⟨by omega, by omega, i, hi, rfl⟩⟩)
    · rw [xmlMax] at hfull
      omega

/-- The states of the loop that reads the body of the answer `h₀`, in front of a step. -/
inductive Reached (h₀ : GcHttp κ) (net₀ : Net κ) :
    List UInt8 → ℕ → GcHttp κ → Net κ → Prop
  | start : Reached h₀ net₀ [] 0 h₀ net₀
  | round {xml bs : List UInt8} {allocated allocated' : ℕ} {h h' : GcHttp κ} {net net' : Net κ}
      (hreached : Reached h₀ net₀ xml allocated h net)
      (hgrow : growXml xml.length allocated net = (.ok allocated', net'))
      (hread : gcHttpRead h (allocated' - xml.length - 1 : ℕ) = (some bs, h')) (hne : bs ≠ []) :
      Reached h₀ net₀ (xml ++ bs) allocated' h' net'

/-- A read gives no more than it is asked for. -/
theorem rawRead_length {n : ℕ} {bs : List UInt8} (hread : rawRead h n = (some bs, h')) :
    bs.length ≤ n := by
  unfold rawRead at hread
  rcases hbuffer : h.buffer with _ | ⟨b, bs'⟩
  · rw [hbuffer] at hread
    rcases hconn : h.conn with _ | c
    · rw [hconn] at hread
      cases hread
    rw [hconn] at hread
    rcases hnet : gcNetRead c 4096 with ⟨cancelled | _ | ⟨b, bs'⟩, c'⟩ <;>
      simp only [hnet] at hread <;> cases hread
    · exact Nat.zero_le _
    · exact List.length_take_le _ _
  · rw [hbuffer] at hread
    cases hread
    exact List.length_take_le _ _

/-- A read of the body gives no more than it is asked for. -/
theorem readBody_length {bs : List UInt8} (hread : (readBody h len).1 = some bs) :
    bs.length ≤ len.toNat := by
  unfold readBody at hread
  rcases hraw : rawRead h len.toNat with ⟨_ | _ | ⟨b, bs'⟩, h₁⟩ <;> rw [hraw] at hread
  · cases hread
  · simp only at hread
    split_ifs at hread
    cases hread
    exact Nat.zero_le _
  · cases hread
    exact rawRead_length hraw

/-- Reading the trailer gives no bytes. -/
theorem trailerLoop_nil {fuel n : ℕ} {bs : List UInt8} (hloop : (trailerLoop fuel n h).1 = some bs) :
    bs = [] := by
  induction fuel generalizing n h with
  | zero => cases hloop
  | succ fuel ih =>
      rw [trailerLoop] at hloop
      rcases hline : line h 256 with ⟨_ | text, h₁⟩ <;> rw [hline] at hloop
      · cases hloop
      · simp only at hloop
        split_ifs at hloop
        · cases hloop
          rfl
        · exact ih hloop

/-- No read returns more bytes than it is asked for. -/
theorem gcHttpRead_length {n : ℕ} {bs : List UInt8} (hread : gcHttpRead h n = (some bs, h')) :
    bs.length ≤ n := by
  have hfst := congrArg Prod.fst hread
  -- What a read returns is bounded by the length in every framing.
  have hnext : ∀ {m : ℤ}, (nextChunk h m).1 = some bs → bs.length ≤ m.toNat := by
    intro m hm
    unfold nextChunk at hm
    rcases hb : chunkBoundary h with ⟨_ | _, h₁⟩ <;> rw [hb] at hm
    · cases hm
    simp only at hm
    rcases hs : chunkSize h₁ with ⟨_ | _ | v, h₂⟩ <;> rw [hs] at hm
    · cases hm
    · rw [trailerLoop_nil hm]
      exact Nat.zero_le _
    · have hlen := readBody_length hm
      omega
  unfold gcHttpRead at hfst
  split_ifs at hfst
  · cases hfst
    exact Nat.zero_le _
  · exact hnext hfst
  · have hlen := readBody_length hfst
    omega
  · cases hfst
    exact Nat.zero_le _
  · have hlen := readBody_length hfst
    omega
  · have hlen := readBody_length hfst
    omega

/-- What is read fits the buffer, with the final byte. -/
theorem sized_read (hsized : Sized used allocated)
    (hgrow : growXml used allocated net = (.ok allocated', net')) :
    used < allocated' ∧ allocated' ≤ xmlMax ∧
      ∀ n, 0 < n → n ≤ allocated' - used - 1 → Sized (used + n) allocated' := by
  rcases growXml_cases hsized net with ⟨-, herr⟩ | ⟨-, -, herr⟩ | ⟨a, n', -, hok, -, hroom⟩
  · rw [hgrow] at herr
    cases herr
  · rw [hgrow] at herr
    cases herr
  · rw [hgrow] at hok
    cases hok
    rcases hroom with ⟨hused, hlt, i, hi, rfl⟩ | ⟨hused, hlt, rfl⟩
    · have hpow : 2 ^ i ≤ 2 ^ 6 := Nat.pow_le_pow_right (by decide) hi
      refine ⟨by omega, by rw [xmlMax]; omega, fun n hn hle => .inr (.inl ⟨by omega, i, hi, rfl⟩)⟩
    · exact ⟨by omega, Nat.le_refl _, fun n hn hle => .inr (.inr ⟨by omega, by omega, rfl⟩)⟩

/-- The loop keeps its buffer larger than what it has read. -/
theorem Reached.sized {h₀ : GcHttp κ} {net₀ : Net κ}
    (hreached : Reached h₀ net₀ xml allocated h net) : Sized xml.length allocated := by
  induction hreached with
  | start => exact .inl ⟨rfl, rfl⟩
  | round _ hgrow hread hne ih =>
      rw [List.length_append]
      exact (sized_read ih hgrow).2.2 _ (List.length_pos_iff.mpr hne) (gcHttpRead_length hread)

/-! ## The end of the body -/

/-- The body of a listing that is refused for its length. -/
def tooLong : Failure := (.eoverflow, "WebDAV listing exceeds 512 KiB")

/-- Behind the bytes that are used, the reads do not stop in the last 4096 bytes before the end. -/
def Skips (h : GcHttp κ) (used size : ℕ) : Prop :=
  ∀ k, used + total h k < size → used + total h k < 520192

/-- A call that does not fill the buffer makes no difference to the rest. -/
theorem skips_succ {bs : List UInt8} {size : ℕ} (hread : gcHttpRead h 4096 = (some bs, h'))
    (hused : used < 520192) : Skips h used size ↔ Skips h' (used + bs.length) size := by
  refine ⟨fun hskips k => ?_, fun hskips k => ?_⟩
  · have hnext := hskips (k + 1)
    rw [total_succ hread] at hnext
    omega
  · cases k with
    | zero => exact fun _ => hused
    | succ k =>
        have hnext := hskips k
        rw [total_succ hread]
        omega

/-- A size that has been doubled is not the limit. -/
theorem doubled_ne (hdoubled : Doubled allocated) : allocated ≠ xmlMax := by
  obtain ⟨i, hi, rfl⟩ := hdoubled
  rw [xmlMax]
  omega

/-- When all is allocated and more comes, the listing is too long. -/
theorem readXml_full (fuel : ℕ) (hfull : 520192 < xml.length) (hlt : xml.length < xmlMax) :
    (readXml fuel xml xmlMax h net).1 = .error tooLong := by
  cases fuel with
  | zero => rfl
  | succ fuel =>
      rw [readXml]
      rcases growXml_cases (.inr (.inr ⟨hfull, hlt, rfl⟩)) net with ⟨-, herr⟩ | ⟨hne, -⟩ |
        ⟨_, _, hne, -⟩
      · rcases hgrow : growXml xml.length xmlMax net with ⟨r, net'⟩
        rw [hgrow] at herr
        simp only at herr
        rw [herr]
        rfl
      · exact absurd rfl hne
      · exact absurd rfl hne

/-- The run of the loop: a body whose reads skip the last 4096 bytes is accepted, and every other
one is refused. -/
theorem readXml_run {fuel : ℕ} (hsized : Sized xml.length allocated) (hnot : allocated ≠ xmlMax)
    (hd : Delivering h rest true) (hbuf : Buffered h) (hmem : false ∉ net.allocs)
    (hfuel : xmlMax < fuel + xml.length) :
    (Skips h xml.length (xml ++ rest).length ∧ (xml ++ rest).length + 1 < xmlMax ∧
      (readXml fuel xml allocated h net).1 = .ok (xml ++ rest)) ∨
    (¬ Skips h xml.length (xml ++ rest).length ∧
      (readXml fuel xml allocated h net).1 = .error tooLong) := by
  -- The induction carries the text read so far and the size of its buffer.
  induction fuel generalizing xml allocated h net rest with
  | zero =>
      rcases hsized with ⟨hzero, -⟩ | ⟨hlt, i, hi, rfl⟩ | ⟨-, -, hmax⟩
      · rw [hzero] at hfuel
        cases hfuel
      · have hpow : 2 ^ i ≤ 2 ^ 6 := Nat.pow_le_pow_right (by decide) hi
        rw [xmlMax] at hfuel
        omega
      · exact absurd hmax hnot
  | succ fuel ih =>
      rcases growXml_cases hsized net with ⟨hmax, -⟩ | ⟨-, hfalse, -⟩ |
        ⟨allocated', net', -, hgrow, hsub, hroom⟩
      · exact absurd hmax hnot
      · exact absurd hfalse hmem
      -- the buffer has grown, so the read has a positive length
      obtain ⟨hlt, hle, hnext⟩ := sized_read hsized hgrow
      have hpos : (0 : ℤ) < (allocated' - xml.length - 1 : ℕ) := by
        rcases hroom with ⟨-, hroom, -⟩ | ⟨-, hroom, -⟩
        · omega
        · omega
      rw [readXml, hgrow]
      simp only
      rcases hread : gcHttpRead h (allocated' - xml.length - 1 : ℕ) with ⟨r, h'⟩
      have hstep := gcHttpRead_step hd hpos
      rw [hread] at hstep
      rcases hstep with ⟨bs, rest', hne, hlen, rfl, hr, hd'⟩ | ⟨-, rfl, hr, -⟩ | ⟨⟨⟩, -⟩
      -- the body has ended
      · simp only at hr hd'
        subst hr
        obtain ⟨b, bs, rfl⟩ := List.exists_cons_of_ne_nil hne
        have hsize := hnext _ (List.length_pos_iff.mpr hne) (by omega)
        rw [← List.length_append] at hsize
        rw [← List.append_assoc]
        rcases hroom with ⟨hused, hroom, hdoubled⟩ | ⟨hused, hroom, rfl⟩
        · obtain ⟨hsame, hbuf'⟩ := gcHttpRead_min hbuf (m := (allocated' - xml.length - 1 : ℕ))
            (n := 4096) (by omega) (Int.le_refl _)
          rw [hread] at hsame hbuf'
          rw [skips_succ hsame.symm hused, ← List.length_append]
          refine ih hsize (doubled_ne hdoubled) hd' hbuf' (fun hf => hmem (hsub hf)) ?_
          rw [List.length_append, List.length_cons]
          omega
        · -- the buffer is as long as it gets, and more has come
          refine .inr ⟨fun hskips => ?_, readXml_full _ ?_ ?_⟩
          · have hzero := hskips 0
            rw [List.length_append, List.length_append, List.length_cons] at hzero
            have hlow := hzero (by rw [show total h 0 = 0 from rfl]; omega)
            rw [show total h 0 = 0 from rfl] at hlow
            omega
          · rw [List.length_append, List.length_cons]
            omega
          · rw [List.length_append]
            omega
      · simp only at hr
        subst hr
        rw [List.append_nil]
        exact .inl ⟨fun k hk => absurd hk (by omega), by omega, rfl⟩

/-- A body is accepted if its reads skip the last 4096 bytes, and then it is shorter than 512 KiB. -/
theorem readXml_cases (hd : Delivering h body true) (hbuf : Buffered h)
    (hmem : false ∉ net.allocs) :
    (Skips h 0 body.length ∧ body.length < 512 * 1024 ∧
      (readXml (xmlMax + 1) [] 0 h net).1 = .ok body) ∨
    (¬ Skips h 0 body.length ∧ (readXml (xmlMax + 1) [] 0 h net).1 = .error tooLong) := by
  have hsized : Sized ([] : List UInt8).length 0 := .inl ⟨rfl, rfl⟩
  rcases readXml_run hsized (by decide) hd hbuf hmem (Nat.lt_succ_self xmlMax) with ⟨hskips, hlen, hok⟩ | hfail
  · rw [List.nil_append, xmlMax] at hlen
    exact .inl ⟨hskips, by omega, hok⟩
  · exact .inr hfail

/-- The loop accepts the bodies of at most 512 KiB and keeps to a buffer of one byte more, exactly
if the body is longer than that, or no number of reads stops in its last 4096 bytes. -/
theorem readXml_limit (hd : Delivering h body true) (hbuf : Buffered h) :
    ((∀ net : Net κ, false ∉ net.allocs →
        (∀ xml, (readXml (xmlMax + 1) [] 0 h net).1 = .ok xml → xml = body) ∧
        ((∃ xml, (readXml (xmlMax + 1) [] 0 h net).1 = .ok xml) ↔ body.length ≤ 512 * 1024)) ∧
      (∀ (net₀ : Net κ) xml allocated h₁ net₁ allocated' net₂,
        Reached h net₀ xml allocated h₁ net₁ →
        growXml xml.length allocated net₁ = (.ok allocated', net₂) →
        allocated' ≤ 512 * 1024 + 1 ∧ xml.length < allocated' ∧
        ∀ bs h₂, gcHttpRead h₁ (allocated' - xml.length - 1 : ℕ) = (some bs, h₂) →
          xml.length + bs.length < allocated')) ↔
      512 * 1024 < body.length ∨ ∀ k, total h k < body.length → total h k < 508 * 1024 := by
  have hskips : Skips h 0 body.length ↔ ∀ k, total h k < body.length → total h k < 508 * 1024 := by
    rw [Skips]
    simp only [Nat.zero_add]
  rw [← hskips]
  refine ⟨fun ⟨hlimit, _⟩ => ?_, fun hcond => ⟨fun net hmem => ?_, ?_⟩⟩
  -- from left to right: a run in which all allocations succeed decides
  · have hmem : false ∉ (⟨[], [], [], []⟩ : Net κ).allocs := List.not_mem_nil
    rcases Nat.lt_or_ge (512 * 1024) body.length with hlong | hshort
    · exact .inl hlong
    · obtain ⟨xml, hxml⟩ := (hlimit _ hmem).2.mpr hshort
      rcases readXml_cases hd hbuf hmem with ⟨hskips, -, -⟩ | ⟨-, hfail⟩
      · exact .inr hskips
      · rw [hfail] at hxml
        cases hxml
  · rcases readXml_cases hd hbuf hmem with ⟨-, hlt, hok⟩ | ⟨hno, hfail⟩
    · rw [hok]
      refine ⟨fun xml hxml => (Except.ok.inj hxml).symm, ?_⟩
      exact iff_of_true ⟨body, rfl⟩ (Nat.le_of_lt hlt)
    · rw [hfail]
      refine ⟨nofun, ?_⟩
      exact iff_of_false nofun (Nat.not_le.mpr (hcond.resolve_right hno))
  -- the buffer bounds hold in every run
  · intro net₀ xml allocated h₁ net₁ allocated' net₂ hreached hgrow
    obtain ⟨hlt, hle, -⟩ := sized_read hreached.sized hgrow
    refine ⟨hle, hlt, fun bs h₂ hread => ?_⟩
    have hlen := gcHttpRead_length hread
    omega

section Sample

theorem readXml_limit_threeBytes :
    (∃ xml, (readXml (xmlMax + 1) [] 0 (received threeBytesInput true (-1)) ⟨[], [], [], []⟩).1 =
      .ok xml) ↔ [97, 98, (99 : UInt8)].length ≤ 512 * 1024 := by
  have hpending : (received threeBytesInput true (-1)).pending =
      (Framing.chunked [threeBytes] lastChunk).wire := by decide
  have hstarts : Starts (received threeBytesInput true (-1)) (.chunked [threeBytes] lastChunk) :=
    ⟨rfl, rfl, rfl, rfl, rfl, rfl⟩
  have hwhole : (Framing.chunked [threeBytes] lastChunk).wire <+:
      (received threeBytesInput true (-1)).pending := hpending ▸ List.prefix_refl _
  have hd : Delivering (received threeBytesInput true (-1)) [97, 98, 99] true :=
    hstarts.delivering_whole hwhole
  refine (((readXml_limit hd (Nat.zero_le _)).mpr (.inr fun k hk => ?_)).1 _ List.not_mem_nil).2
  exact Nat.lt_trans hk (by decide)

/-- A body with a `Content-Length` that arrives at once. -/
theorem delivering_received (b : UInt8) (bs : List UInt8) :
    Delivering (received [.data b bs] false (b :: bs).length) (b :: bs) true := by
  have hpending : (received [.data b bs] false (b :: bs).length).pending = b :: bs :=
    List.append_nil (b :: bs)
  exact .contentLength _ _ rfl rfl rfl rfl rfl (.inl (hpending ▸ List.prefix_refl _))
    ⟨fun _ => hpending ▸ List.prefix_refl _, fun _ => rfl⟩

/-- A body of exactly 512 KiB is refused. -/
theorem readXml_refuses :
    ¬ ∀ (h : GcHttp Unit) (body : List UInt8) (net : Net Unit), Delivering h body true →
      Buffered h → false ∉ net.allocs →
      ((∃ xml, (readXml (xmlMax + 1) [] 0 h net).1 = .ok xml) ↔ body.length ≤ 512 * 1024) := by
  intro hlimit
  obtain ⟨bs, hbs⟩ : ∃ bs : List UInt8, (0 :: bs).length = 512 * 1024 :=
    ⟨List.replicate (512 * 1024 - 1) 0, by rw [List.length_cons, List.length_replicate]⟩
  have hd := delivering_received 0 bs
  have hmem : false ∉ (⟨[], [], [], []⟩ : Net Unit).allocs := List.not_mem_nil
  obtain ⟨xml, hxml⟩ := (hlimit _ _ _ hd (Nat.zero_le _) hmem).mpr (Nat.le_of_eq hbs)
  rcases readXml_cases hd (Nat.zero_le _) hmem with ⟨-, hlt, -⟩ | ⟨-, hfail⟩
  · omega
  · rw [hfail] at hxml
    cases hxml

end Sample

end WiiMC.Dav
