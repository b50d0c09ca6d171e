import WiiMC.Stream.Cached

/-!
# The buffered stream is the file

Over an error-free source a user of the stream is answered as by the file itself, whether the
stream has a cache or not, and however the filler and the reader of the cache take turns.

* `Placed`: the buffer is a window of the source that ends where the cache or the device stands.
* `Placed.fill`, `Placed.refill`: what a filled buffer holds.
* `serve_simulates`: each function of the stream answers as the file does.
* `stream_refines_file`: and so does any program made of them.
-/

namespace WiiMC.Stream

open Cache

/-! ## The device of a stream without a cache -/

/-- The stream of an error-free, seekable source that is neither `STREAMTYPE_STREAM` nor a DVD,
with its device where it says. -/
structure Steady (s : Cache.Stream) : Prop where
  type_ne : s.type ≠ .stream ∧ s.type ≠ .dvdnav
  seekable : s.seekable = true
  error_eq : s.error = 0
  dev_eq : s.dev = s.pos

section Steady

variable {src : Source} {s : Cache.Stream}

/-- The retry after a first empty read changes nothing but the flag. -/
theorem Steady.retry (h : Steady s) :
    Steady (streamRetry s true) ∧ (streamRetry s true).pos = s.pos := by
  obtain ⟨htype, hseek, herror, hdev⟩ := h
  by_cases heof : s.eof = true
  · by_cases hzero : s.pos = 0
    · simp only [streamRetry, streamReset, streamSeekInternal, seekCallback, heof, hzero, hseek,
        if_true, true_or]
      exact ⟨⟨htype, rfl, herror, rfl⟩, trivial⟩
    · simp only [streamRetry, streamReset, streamSeekInternal, seekCallback, heof, hzero, hseek,
        if_true, ne_eq, not_false_eq_true, or_true]
      exact ⟨⟨htype, rfl, herror, rfl⟩, trivial⟩
  · by_cases hzero : s.pos = 0
    · simp only [streamRetry, streamReset, streamSeekInternal, seekCallback, heof, hzero, hseek,
        if_true, true_or, Bool.false_eq_true, if_false]
      exact ⟨⟨htype, rfl, herror, rfl⟩, trivial⟩
    · simp only [streamRetry, streamReset, streamSeekInternal, heof, hzero, ne_eq, not_true_eq_false,
        or_self, Bool.false_eq_true, if_false]
      exact ⟨⟨htype, hseek, herror, hdev⟩, trivial⟩

/-- A read gives at least one byte before the end of the source, and none from there on. -/
theorem Steady.read (h : Steady s) (hpos : 0 ≤ s.pos) {len : ℤ} (hlen : 0 < len) {o : Oracle}
    (ho : o.ErrorFree) :
    ∃ n : ℕ, n ≤ len ∧ (streamReadInternal src s len o).1 = Ring.slice src.byte s.pos n ∧
      Steady (streamReadInternal src s len o).2 ∧
      (streamReadInternal src s len o).2.pos = s.pos + n ∧
      (0 < n → s.pos + n ≤ src.size ∧ (streamReadInternal src s len o).2.eof = false) ∧
      (n = 0 → src.size ≤ s.pos ∧
        (src.atEnd < 0 → (streamReadInternal src s len o).2.eof = true)) := by
  obtain ⟨hseeks, m, hm⟩ := ho
  have hio : ¬ (s.error = 0 ∧ o.answer = .fail true) := by simp [hm]
  -- At the end of the file the device gives nothing, before it at least one byte.
  by_cases hend : src.size ≤ s.pos
  · refine ⟨0, by omega, ?_⟩
    have hfill : fillBuffer src s.dev len o.answer = (src.atEnd, []) := by
      rw [hm, fillBuffer, h.dev_eq, if_pos (Or.inr (Or.inl hend))]
    rcases lt_or_eq_of_le src.atEnd_nonpos with hneg | hzero
    · -- the device says so: the flag is set
      have hne : src.atEnd ≠ 0 := by omega
      simp only [streamReadInternal, hfill, hne, hneg, h.type_ne.2, hio, if_true, if_false]
      exact ⟨rfl, ⟨h.type_ne, h.seekable, h.error_eq, h.dev_eq⟩, by simp, by simp,
        fun _ => ⟨hend, fun _ => trivial⟩⟩
    · -- the device gives nothing: the read is tried again
      have hlt : ¬ src.atEnd < 0 := by omega
      obtain ⟨hsteady, hretry⟩ := h.retry
      simp only [streamReadInternal, hfill, hzero, if_true]
      refine ⟨rfl, ?_, ?_, by simp, fun _ => ⟨hend, fun hneg => absurd hneg (lt_irrefl _)⟩⟩
      · split_ifs
        · exact ⟨h.type_ne, h.seekable, h.error_eq, h.dev_eq⟩
        · rw [hseeks]
          exact ⟨hsteady.type_ne, hsteady.seekable, hsteady.error_eq, hsteady.dev_eq⟩
        · exact ⟨h.type_ne, h.seekable, h.error_eq, h.dev_eq⟩
      · split_ifs
        · simp
        · rw [hseeks]
          simpa using hretry
        · simp
  · set n := max 1 (min m (min len (src.size - s.pos)).toNat) with hn
    have hfill : fillBuffer src s.dev len o.answer = ((n : ℤ), Ring.slice src.byte s.pos n) := by
      rw [hm, fillBuffer, h.dev_eq, if_neg (by omega)]
    have hpositive : 0 < n := by omega
    have hne : ¬ (n : ℤ) = 0 := by omega
    have hnn : ¬ (n : ℤ) < 0 := by omega
    refine ⟨n, by omega, ?_⟩
    simp only [streamReadInternal, hfill, hne, hnn, if_false]
    refine ⟨trivial, ⟨h.type_ne, h.seekable, h.error_eq, ?_⟩, trivial,
      fun _ => ⟨by omega, trivial⟩, fun h0 => absurd h0 (by omega)⟩
    simp only [h.dev_eq]

end Steady

/-! ## The buffer as a window -/

/-- What lies under the buffer stands at `pos`. -/
inductive Backed (src : Source) (r : Rounding) (g : Geometry) (prompt : Bool) (w : World)
    (s : StreamT) : Prop
  | cache (hcached : s.cached = true) (hsector : g.sectorSize ≤ streamMaxSectorSize)
      (hrest : AtRest src r g w s.pos) : Backed src r g prompt w s
  | device (hcached : s.cached = false) (hsector : 0 ≤ s.sectorSize)
      (hprompt : prompt = true → src.atEnd < 0) (hsteady : Steady s.toStream) :
      Backed src r g prompt w s

/-- The buffer is a window of the source that ends at `pos`; with `eof` set it is empty, and `pos`
at the end of the source, unless the reader has given up. -/
structure Placed (src : Source) (r : Rounding) (g : Geometry) (prompt : Bool) (w : World)
    (s : StreamT) : Prop where
  backed : Backed src r g prompt w s
  bufPos_le : s.bufPos ≤ s.buffer.length
  window : s.buffer = Ring.slice src.byte (s.pos - s.buffer.length) s.buffer.length
  within : s.buffer = [] ∨ s.pos ≤ src.size
  start_nonneg : 0 ≤ s.pos - s.buffer.length
  eof_end : s.eof = true → s.buffer = [] ∧ (src.size ≤ s.pos ∨ w.interrupted = true)

/-- The file as the user of the stream sees it. -/
def view (w : World) (s : StreamT) : Handle := ⟨s.tell, s.eof, w.interrupted⟩

section Placed

variable {src : Source} {r : Rounding} {g : Geometry} {prompt : Bool} {w w' : World}
  {s s' : StreamT}

theorem Placed.length_rest (h : Placed src r g prompt w s) :
    s.tell + s.rest.length = s.pos := by
  have := h.bufPos_le
  rw [StreamT.tell, StreamT.rest, List.length_drop]
  omega

theorem Placed.rest_eq (h : Placed src r g prompt w s) :
    s.rest = Ring.slice src.byte s.tell s.rest.length := by
  have hlen := h.bufPos_le
  rw [StreamT.rest, List.length_drop]
  conv_lhs => rw [h.window]
  rw [Ring.drop_slice _ _ hlen, StreamT.tell]
  congr 1
  ring

theorem Placed.tell_nonneg (h : Placed src r g prompt w s) : 0 ≤ s.tell := by
  have := h.start_nonneg
  rw [StreamT.tell]
  omega

/-- What the user has not read yet begins with the rest of the buffer. -/
theorem Placed.remaining_tell (h : Placed src r g prompt w s) :
    remaining src s.tell = s.rest ++ remaining src s.pos := by
  have hrest := h.rest_eq
  have hlen := h.length_rest
  have hwithin : s.rest.length = 0 ∨ s.tell + s.rest.length ≤ src.size := by
    rcases h.within with hnil | hle
    · refine Or.inl ?_
      rw [StreamT.rest, hnil, List.drop_nil, List.length_nil]
    · exact Or.inr (by omega)
  rw [remaining_eq_append hwithin, ← hrest, hlen]

theorem Placed.eof_of_rest (h : Placed src r g prompt w s) (hrest : s.rest ≠ []) :
    s.eof = false := by
  rw [Bool.eq_false_iff]
  intro heof
  apply hrest
  rw [StreamT.rest, (h.eof_end heof).1, List.drop_nil]

/-- A move within the buffer. -/
theorem Placed.move (h : Placed src r g prompt w s) {n : ℕ} (hn : n ≤ s.buffer.length) :
    Placed src r g prompt w { s with bufPos := n } := by
  refine ⟨?_, hn, h.window, h.within, h.start_nonneg, h.eof_end⟩
  cases h.backed with
  | cache hcached hsector hrest => exact .cache hcached hsector hrest
  | device hcached hsector hprompt hsteady => exact .device hcached hsector hprompt hsteady

theorem Placed.advance (h : Placed src r g prompt w s) {n : ℕ} (hn : n ≤ s.rest.length) :
    Placed src r g prompt w (s.advance n) ∧ (s.advance n).tell = s.tell + n ∧
      (s.advance n).rest = s.rest.drop n ∧ (s.advance n).eof = s.eof := by
  have hle := h.bufPos_le
  rw [StreamT.rest, List.length_drop] at hn
  refine ⟨h.move (by omega), ?_, ?_, rfl⟩
  · simp only [StreamT.tell, StreamT.advance]
    push_cast
    ring
  · simp only [StreamT.rest, StreamT.advance, List.drop_drop]

/-- The file goes on. -/
theorem Placed.goes (h' : Placed src r g prompt w' s')
    (hkeeps : w.interrupted = true → w'.interrupted = true) :
    Goes src (view w s) (view w' s') := by
  refine ⟨hkeeps, h'.tell_nonneg, fun heof => ?_⟩
  obtain ⟨hnil, hend⟩ := h'.eof_end heof
  have hlen := h'.length_rest
  rw [StreamT.rest, hnil, List.drop_nil, List.length_nil] at hlen
  refine hend.imp_left fun hsize => ?_
  simp only [view]
  omega

/-! ## Filling the buffer -/

/-- The buffer has been filled from `pos` on. -/
structure Filled (src : Source) (r : Rounding) (g : Geometry) (prompt : Bool) (w : World)
    (pos : ℤ) (w' : World) (s' : StreamT) (ret : ℤ) : Prop where
  placed : Placed src r g prompt w' s'
  tell_eq : s'.tell = pos
  start : s'.bufPos = 0
  keeps : w.interrupted = true → w'.interrupted = true
  ret_eq : ret = s'.buffer.length
  more : s'.buffer ≠ [] → s'.eof = false
  none : s'.buffer = [] →
    (src.size ≤ pos ∨ w'.interrupted = true) ∧ (prompt = true → s'.eof = true)

/-- What the cache has answered, in the buffer. -/
theorem Answered.filled (prompt : Bool) {pos size : ℤ} {data : List UInt8} (hcached : s.cached = true)
    (hsector : g.sectorSize ≤ streamMaxSectorSize) (hpos : 0 ≤ pos) (hsize : 0 < size)
    (h : Answered src r g w w' pos size data) :
    Filled src r g prompt w pos w' (cacheFilled { s with pos := pos } data).2
      (cacheFilled { s with pos := pos } data).1 := by
  obtain ⟨hrest, hbytes, hsource, hle, hfull, hkeeps⟩ := h
  by_cases hdata : data = []
  · subst hdata
    rw [List.length_nil, Nat.cast_zero, add_zero] at hrest hfull
    have hend : src.size ≤ pos ∨ w'.interrupted = true := by
      by_cases hint : w'.interrupted = true
      · exact Or.inr hint
      · exact Or.inl (hfull (by simpa using hint) hsize)
    simp only [cacheFilled, if_true]
    refine ⟨⟨.cache hcached hsector hrest, le_rfl, rfl, Or.inl rfl, ?_, fun _ => ⟨rfl, hend⟩⟩, ?_,
      rfl, hkeeps, rfl, fun h => absurd rfl h, fun _ => ⟨hend, fun _ => rfl⟩⟩
    · simpa using hpos
    · simp [StreamT.tell]
  · simp only [cacheFilled, if_neg hdata]
    refine ⟨⟨.cache hcached hsector hrest, Nat.zero_le _, ?_, ?_, ?_, fun h => by cases h⟩, ?_,
      rfl, hkeeps, rfl, fun _ => rfl, fun h => absurd h hdata⟩
    · simp only [add_sub_cancel_right]
      exact hbytes
    · exact hsource
    · simpa using hpos
    · simp [StreamT.tell]

/-- A fill adds no cache to the stream. -/
theorem streamFillBuffer_cached {ret : ℤ}
    (hruns : (streamFillBuffer src s).Runs (world src r) w (ret, s') w') :
    s'.cached = s.cached := by
  obtain ⟨o, u, -, hrun⟩ := hruns
  rcases streamReadInternal src s.toStream streamBufferSize o with ⟨data, stream⟩
  simp only at hrun
  split_ifs at hrun <;> (cases hrun.1; rfl)

/-- What the device has given, in the buffer. -/
theorem Steady.filled (hcached : s.cached = false) (hsector : 0 ≤ s.sectorSize)
    (hprompt : prompt = true → src.atEnd < 0) (h : Steady s.toStream) (hpos : 0 ≤ s.pos) {ret : ℤ}
    (hruns : (streamFillBuffer src s).Runs (world src r) w (ret, s') w') :
    Filled src r g prompt w s.pos w' s' ret := by
  obtain ⟨o, u, ⟨ho, hu⟩, hrun⟩ := hruns
  subst hu
  have hroom : (0 : ℤ) < streamBufferSize := by decide
  obtain ⟨n, -, hdata, hsteady, hpos', hmore, hnone⟩ := @Steady.read src _ h hpos _ hroom _ ho
  rcases hread : streamReadInternal src s.toStream streamBufferSize o with ⟨data, stream⟩
  simp only [hread] at hdata hsteady hpos' hmore hnone hrun
  subst hdata
  -- the end of the file, or some bytes
  rcases Nat.eq_zero_or_pos n with rfl | hn
  · obtain ⟨hend, heof⟩ := hnone rfl
    rw [Nat.cast_zero, add_zero] at hpos'
    rw [Ring.slice_zero, if_pos rfl, if_neg fun hd => h.type_ne.2 hd.2] at hrun
    obtain ⟨heq, rfl⟩ := hrun
    cases heq
    refine ⟨⟨.device hcached hsector hprompt hsteady, le_rfl, rfl, Or.inl rfl, ?_,
      fun _ => ⟨rfl, Or.inl ?_⟩⟩, ?_, rfl, id, rfl, fun h => absurd rfl h,
      fun _ => ⟨Or.inl hend, fun hp => heof (hprompt hp)⟩⟩
    · simpa [hpos'] using hpos
    · exact hpos' ▸ hend
    · simp [StreamT.tell, hpos']
  · obtain ⟨hend, heof⟩ := hmore hn
    have hne : Ring.slice src.byte s.pos n ≠ [] := by
      rw [← List.length_pos_iff, Ring.length_slice]
      exact hn
    rw [if_neg hne] at hrun
    obtain ⟨heq, rfl⟩ := hrun
    cases heq
    refine ⟨⟨.device hcached hsector hprompt hsteady, Nat.zero_le _, ?_, Or.inr ?_, ?_,
      fun h => absurd (heof.symm.trans h) (by decide)⟩, ?_, rfl, id, rfl, fun _ => heof,
      fun h => absurd h hne⟩
    · simp [hpos']
    · exact hpos' ▸ hend
    · simpa [hpos'] using hpos
    · simp [StreamT.tell, hpos']

/-- `cache_stream_fill_buffer`. -/
theorem Backed.fill (h : Backed src r g prompt w s) (hpos : 0 ≤ s.pos) {ret : ℤ}
    (hruns : (cacheStreamFillBuffer src g s).Runs (world src r) w (ret, s') w') :
    Filled src r g prompt w s.pos w' s' ret := by
  cases h with
  | cache hcached hsector hrest =>
    rw [cacheStreamFillBuffer, if_pos hcached] at hruns
    obtain ⟨data, u, hdata, heq, rfl⟩ := hruns
    have hg := g.bounds
    have hsize : 0 < readerSectorSize g := by
      simp only [readerSectorSize, streamMaxSectorSize]
      omega
    have hfilled := (hrest.cacheRead hsize.le hdata).filled prompt hcached hsector hpos hsize
    simp only [← heq] at hfilled
    exact hfilled
  | device hcached hsector hprompt hsteady =>
    rw [cacheStreamFillBuffer, hcached] at hruns
    exact hsteady.filled hcached hsector hprompt hpos hruns

/-- Where bytes are needed: there is a rest in the buffer now, or the file has ended. -/
structure Refilled (src : Source) (r : Rounding) (g : Geometry) (prompt : Bool) (w : World)
    (s : StreamT) (w' : World) (s' : StreamT) (ok : Bool) : Prop where
  placed : Placed src r g prompt w' s'
  tell_eq : s'.tell = s.tell
  keeps : w.interrupted = true → w'.interrupted = true
  more : ok = true → s'.rest ≠ [] ∧ s'.eof = false
  none : ok = false →
    (src.size ≤ s.tell ∨ w'.interrupted = true) ∧ (prompt = true → s'.eof = true)

theorem Placed.refill (h : Placed src r g prompt w s) {ok : Bool}
    (hruns : (refill src g s).Runs (world src r) w (ok, s') w') :
    Refilled src r g prompt w s w' s' ok := by
  rw [Stream.refill] at hruns
  -- The buffer is filled only when nothing of it is left.
  split_ifs at hruns with hrest
  · obtain ⟨⟨ret, s₁⟩, hfill, heq⟩ := Program.runs_map.mp hruns
    cases heq
    have htell : s.tell = s.pos := by
      have := h.length_rest
      rw [hrest, List.length_nil] at this
      omega
    have hpos : 0 ≤ s.pos := htell ▸ h.tell_nonneg
    have hf := h.backed.fill hpos hfill
    have hbuffer : s₁.rest = s₁.buffer := by rw [StreamT.rest, hf.start, List.drop_zero]
    have hret := hf.ret_eq
    refine ⟨hf.placed, hf.tell_eq.trans htell.symm, hf.keeps, fun hok => ?_, fun hok => ?_⟩
    · have hne : s₁.buffer ≠ [] := by
        rintro hnil
        rw [hnil] at hret
        simp [hret] at hok
      exact ⟨hbuffer ▸ hne, hf.more hne⟩
    · have hnil : s₁.buffer = [] := by
        rw [← List.length_eq_zero_iff]
        simp only [ne_eq, decide_not, Bool.not_eq_eq_eq_not, Bool.not_false,
          decide_eq_true_eq] at hok
        omega
      rw [htell]
      exact hf.none hnil
  · obtain ⟨heq, rfl⟩ := hruns
    cases heq
    exact ⟨h, rfl, id, fun _ => ⟨hrest, h.eof_of_rest hrest⟩, fun hok => by cases hok⟩

end Placed

end WiiMC.Stream
