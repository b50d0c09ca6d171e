import WiiMC.Stream.Progress
import WiiMC.Stream.Refinement

/-!
# Each function of the stream

The functions of the buffered stream answer as the file does: the invariant of each loop, and what
its last turn makes of it. The file of a request is that of the state before it, so the lemmas are
stated from a start `w`, `s` to the place where the function has come to.
-/

namespace WiiMC.Stream

open Cache

variable {src : Source} {r : Rounding} {g : Geometry} {prompt : Bool} {w w' w₀ : World}
  {s s' s₀ : StreamT}

/-! ## Reading -/

/-- `stream_read` so far: `mem` has been stored, and `len` bytes are to go. -/
structure ReadSoFar (src : Source) (r : Rounding) (g : Geometry) (prompt : Bool) (w₀ : World)
    (s₀ : StreamT) (total : ℤ) (len : ℤ) (mem : List UInt8) (s : StreamT) (w : World) :
    Prop where
  placed : Placed src r g prompt w s
  keeps : w₀.interrupted = true → w.interrupted = true
  len_eq : len + mem.length = total
  len_nonneg : 0 ≤ len
  tell_eq : s.tell = s₀.tell + mem.length
  wanted : (remaining src s₀.tell).take total.toNat = mem ++ (remaining src s.tell).take len.toNat
  eof_of_some : mem ≠ [] → s.eof = false

/-- Another refill gives more of the bytes. -/
theorem ReadSoFar.more {total len : ℤ} {mem : List UInt8}
    (h : ReadSoFar src r g prompt w₀ s₀ total len mem s w) (hlen : 0 < len)
    (hf : Refilled src r g prompt w s w' s' true) :
    ReadSoFar src r g prompt w₀ s₀ total (len - (min s'.rest.length len.toNat : ℕ))
      (mem ++ s'.rest.take (min s'.rest.length len.toNat))
      (s'.advance (min s'.rest.length len.toNat)) w' := by
  obtain ⟨hrest, heof⟩ := hf.more rfl
  set x := min s'.rest.length len.toNat with hx
  have hxle : x ≤ s'.rest.length := Nat.min_le_left _ _
  have hpositive := List.length_pos_iff.mpr hrest
  obtain ⟨hplaced, htell, hrest', heof'⟩ := hf.placed.advance hxle
  have htaken : (s'.rest.take x).length = x := by rw [List.length_take, Nat.min_eq_left hxle]
  have hsum := h.len_eq
  refine ⟨hplaced, fun hi => hf.keeps (h.keeps hi), ?_, by omega, ?_, ?_, fun _ => heof'.trans heof⟩
  · rw [List.length_append, htaken]
    push_cast
    omega
  · rw [htell, hf.tell_eq, h.tell_eq, List.length_append, htaken]
    push_cast
    ring
  · -- the bytes taken are the next ones
    have hnext : remaining src s.tell =
        s'.rest.take x ++ remaining src (s'.advance x).tell := by
      rw [hplaced.remaining_tell, hrest', ← List.append_assoc, List.take_append_drop,
        ← hf.tell_eq]
      exact hf.placed.remaining_tell
    rw [h.wanted, hnext, List.append_assoc, List.take_append, htaken, List.take_take,
      Nat.min_eq_right (by omega)]
    congr 3
    omega

/-- `stream_read` answers as the file does. -/
theorem streamRead_answers {total ret : ℤ} {mem : List UInt8} (h : Placed src r g prompt w s)
    (hruns : (streamRead src g s total).Runs (world src r) w ((ret, mem), s') w') :
    Placed src r g prompt w' s' ∧
      file src prompt (.read total) (view w s) (ret, mem) (view w' s') := by
  obtain ⟨⟨⟨ret, mem⟩, s'⟩, w', hloop, heq, rfl⟩ := hruns
  cases heq
  by_cases htotal : total ≤ 0
  · -- nothing is asked for
    have hturn : readTurn src g total (total, [], s) = .ret (.inr ((total, []), s)) := by
      rw [readTurn, if_neg (by omega)]
    cases hloop with
    | again hbody =>
      rw [hturn] at hbody
      cases hbody.1
    | leave hbody =>
      rw [hturn] at hbody
      obtain ⟨heq, rfl⟩ := hbody
      cases heq
      have hzero : total.toNat = 0 := by omega
      refine ⟨h, h.goes id, ⟨?_, ?_, ?_⟩, ?_, fun _ => rfl, fun h => by omega, fun h => by omega⟩
      · exact List.nil_prefix
      · simp
      · simp [hzero]
      · rw [if_neg (by omega)]
  -- The invariant says what has been copied so far, and from where.
  refine hloop.invariant
    (I := fun x u => ReadSoFar src r g prompt w s total x.1 x.2.1 x.2.2 u)
    (Q := fun x u => Placed src r g prompt u x.2 ∧
      file src prompt (.read total) (view w s) x.1 (view u x.2)) ?_ ?_ ?_
  · -- a turn that goes on
    rintro ⟨len, mem, s₁⟩ w₁ ⟨len', mem', s₂⟩ w₂ hI hbody
    rw [readTurn] at hbody
    split_ifs at hbody with hlen
    · obtain ⟨⟨ok, s₃⟩, w₃, hfill, hrun⟩ := Program.runs_bind.mp hbody
      have hf := hI.placed.refill hfill
      cases ok with
      | false => cases hrun.1
      | true =>
        obtain ⟨heq, rfl⟩ := hrun
        cases heq
        exact hI.more hlen hf
    · cases hbody.1
  · -- the last turn
    rintro ⟨len, mem, s₁⟩ w₁ ⟨⟨ret, mem'⟩, s₂⟩ w₂ hI hbody
    rw [readTurn] at hbody
    have hsum := hI.len_eq
    have hnn := hI.len_nonneg
    simp only at hsum hnn
    split_ifs at hbody with hlen
    · obtain ⟨⟨ok, s₃⟩, w₃, hfill, hrun⟩ := Program.runs_bind.mp hbody
      have hf := hI.placed.refill hfill
      cases ok with
      | true => cases hrun.1
      | false =>
        obtain ⟨heq, rfl⟩ := hrun
        cases heq
        obtain ⟨hend, heof⟩ := hf.none rfl
        refine ⟨hf.placed, hf.placed.goes fun hi => hf.keeps (hI.keeps hi), ⟨?_, ?_, ?_⟩, ?_,
          fun h => by omega, fun _ _ => by omega, fun _ hp _ => heof hp⟩
        · simp only [view]
          rw [hI.wanted]
          exact List.prefix_append _ _
        · simp only [view]
          rw [hf.tell_eq, hI.tell_eq]
        · intro hno
          have hsize := hend.resolve_right (by simpa [view] using hno)
          simp only [view]
          rw [hI.wanted, remaining_eq_nil_iff.mpr hsize, List.take_nil, List.append_nil]
        · rw [if_pos (by omega)]
          omega
    · obtain ⟨heq, rfl⟩ := hbody
      cases heq
      have hzero : len = 0 := by omega
      have hmem : mem ≠ [] := by
        rintro rfl
        simp at hsum
        omega
      have heof := hI.eof_of_some hmem
      subst hzero
      refine ⟨hI.placed, hI.placed.goes hI.keeps, ⟨?_, ?_, fun _ => ?_⟩, ?_, fun h => by omega,
        fun _ he => absurd (heof.symm.trans he) (by decide), fun _ _ hlt => by omega⟩
      · simp only [view]
        rw [hI.wanted]
        exact List.prefix_append _ _
      · exact hI.tell_eq
      · simp only [view]
        rw [hI.wanted]
        simp
      · rw [if_pos (by omega)]
        omega
  · exact ⟨h, id, by simp, by omega, by simp, by simp, fun h => absurd rfl h⟩

/-- `stream_read_char`. -/
theorem streamReadChar_answers {c : ℤ} (h : Placed src r g prompt w s)
    (hruns : (streamReadChar src g s).Runs (world src r) w (c, s') w') :
    Placed src r g prompt w' s' ∧ file src prompt .readChar (view w s) c (view w' s') := by
  obtain ⟨⟨ok, s₁⟩, w₁, hfill, hrun⟩ := Program.runs_bind.mp hruns
  have hf := h.refill hfill
  cases ok with
  | false =>
    obtain ⟨heq, rfl⟩ := hrun
    cases heq
    obtain ⟨hend, heof⟩ := hf.none rfl
    exact ⟨hf.placed, hf.placed.goes hf.keeps, Or.inr ⟨rfl, hf.tell_eq, hend, heof⟩⟩
  | true =>
    obtain ⟨heq, rfl⟩ := hrun
    cases heq
    obtain ⟨hrest, heof⟩ := hf.more rfl
    obtain ⟨b, bs, hcons⟩ := List.exists_cons_of_ne_nil hrest
    obtain ⟨hplaced, htell, -, heof'⟩ := hf.placed.advance (n := 1) (by rw [hcons]; simp)
    refine ⟨hplaced, hplaced.goes hf.keeps, Or.inl ⟨b, ?_, ?_, ?_, heof'.trans heof⟩⟩
    · simp only [view]
      rw [← hf.tell_eq, hf.placed.remaining_tell, hcons]
      rfl
    · rw [hcons]
      rfl
    · simp only [view]
      rw [htell, hf.tell_eq]
      rfl

/-! ## Reading a line -/

/-- `findTermChar` splits a text at its first terminator. -/
theorem findTermChar_some {buf : List UInt8} {term : UInt8} {i : ℕ}
    (h : findTermChar buf term = some i) :
    term ∉ buf.take i ∧ buf.take (i + 1) = buf.take i ++ [term] ∧ i < buf.length := by
  obtain ⟨hlt, hterm, hbefore⟩ := List.findIdx?_eq_some_iff_getElem.mp h
  have hget : buf[i] = term := by simpa using hterm
  refine ⟨fun hmem => ?_, ?_, hlt⟩
  · obtain ⟨j, hj, hjt⟩ := List.mem_take_iff_getElem.mp hmem
    have := hbefore j (by omega)
    simp [hjt] at this
  · rw [← List.take_append_getElem hlt, hget]

/-- Where no terminator is found there is none. -/
theorem findTermChar_none {buf : List UInt8} {term : UInt8} (h : findTermChar buf term = none) :
    term ∉ buf := by
  intro hmem
  have := List.findIdx?_eq_none_iff.mp h term hmem
  simp at this

/-- `stream_read_until` so far: `mem` has been stored and, once there is no room, `passed` passed
over; no terminator is among them. -/
structure UntilSoFar (src : Source) (r : Rounding) (g : Geometry) (prompt : Bool) (w₀ : World)
    (s₀ : StreamT) (term : UInt8) (room : ℕ) (max : ℕ) (mem : List UInt8) (s : StreamT)
    (w : World) : Prop where
  placed : Placed src r g prompt w s
  keeps : w₀.interrupted = true → w.interrupted = true
  room_eq : mem.length + max = room
  split : ∃ passed, remaining src s₀.tell = mem ++ passed ++ remaining src s.tell ∧
    term ∉ mem ++ passed ∧ (passed ≠ [] → max = 0) ∧
    s.tell = s₀.tell + mem.length + passed.length

section Until

variable {term : UInt8} {room max : ℕ} {mem : List UInt8}

/-- The bytes of the rest are taken, or passed over. -/
theorem UntilSoFar.more (h : UntilSoFar src r g prompt w₀ s₀ term room max mem s w)
    (hf : Refilled src r g prompt w s w' s' true) (hterm : term ∉ s'.rest) {len l : ℕ}
    (hlen : len = if max > 0 then min s'.rest.length max else s'.rest.length)
    (hl : l = if max > 0 then len else 0) :
    UntilSoFar src r g prompt w₀ s₀ term room (max - l) (mem ++ s'.rest.take l) (s'.advance len)
      w' := by
  have hle : len ≤ s'.rest.length := by
    subst hlen
    split_ifs <;> omega
  obtain ⟨hplaced, htell, hrest, -⟩ := hf.placed.advance hle
  obtain ⟨passed, hsplit, hmem, hpassed, hpos⟩ := h.split
  have hroom := h.room_eq
  -- The line goes on behind the refilled buffer.
  have hnext : remaining src s.tell = s'.rest.take len ++ remaining src (s'.advance len).tell := by
    rw [hplaced.remaining_tell, hrest, ← List.append_assoc, List.take_append_drop, ← hf.tell_eq]
    exact hf.placed.remaining_tell
  by_cases hmax : 0 < max
  · -- there is room
    have hnil : passed = [] := by
      by_contra hne
      have := hpassed hne
      omega
    subst hnil
    rw [if_pos hmax] at hlen hl
    subst l
    have htaken : (s'.rest.take len).length = len := by rw [List.length_take, Nat.min_eq_left hle]
    refine ⟨hplaced, fun hi => hf.keeps (h.keeps hi), ?_, [], ?_, ?_, fun h => absurd rfl h, ?_⟩
    · rw [List.length_append, htaken]
      omega
    · rw [hsplit, hnext, List.append_nil, List.append_nil, List.append_assoc]
    · rw [List.append_nil] at hmem ⊢
      rw [List.mem_append, not_or]
      exact ⟨hmem, fun hm => hterm (List.mem_of_mem_take hm)⟩
    · rw [htell, hf.tell_eq, hpos, List.length_append, htaken]
      push_cast
      simp
      ring
  · -- the line is passed over
    rw [if_neg hmax] at hlen hl
    subst l len
    rw [List.take_length] at hnext
    refine ⟨hplaced, fun hi => hf.keeps (h.keeps hi), ?_, passed ++ s'.rest, ?_, ?_,
      fun _ => by omega, ?_⟩
    · simpa using hroom
    · rw [hsplit, hnext]
      simp only [List.take_zero, List.append_nil, List.append_assoc]
    · rw [List.take_zero, List.append_nil, ← List.append_assoc, List.mem_append, not_or]
      exact ⟨hmem, hterm⟩
    · rw [htell, hf.tell_eq, hpos]
      simp only [List.take_zero, List.append_nil, List.length_append]
      push_cast
      ring

/-- The terminator is in the rest, behind `i` bytes. -/
theorem UntilSoFar.stop (h : UntilSoFar src r g prompt w₀ s₀ term room max mem s w)
    (hf : Refilled src r g prompt w s w' s' true) {i : ℕ}
    (hterm : findTermChar s'.rest term = some i) {len l : ℕ}
    (hlen : len = if max > 0 then min (i + 1) max else i + 1) (hl : l = if max > 0 then len else 0) :
    Placed src r g prompt w' (s'.advance len) ∧ (s'.advance len).eof = false ∧
      ReadsLine src term room (view w₀ s₀) (view w' (s'.advance len)) (mem ++ s'.rest.take l) := by
  obtain ⟨hno, htake, hi⟩ := findTermChar_some hterm
  have hle : len ≤ s'.rest.length := by
    subst hlen
    split_ifs <;> omega
  obtain ⟨hplaced, htell, -, heof⟩ := hf.placed.advance hle
  obtain ⟨passed, hsplit, hmem, hpassed, hpos⟩ := h.split
  have hroom := h.room_eq
  -- the whole line
  have hline : line term (remaining src s₀.tell) = mem ++ passed ++ s'.rest.take (i + 1) := by
    have hcons : remaining src s₀.tell = (mem ++ passed ++ s'.rest.take i) ++
        term :: (s'.rest.drop (i + 1) ++ remaining src s'.pos) := by
      have hrest : s'.rest = s'.rest.take i ++ term :: s'.rest.drop (i + 1) := by
        conv_lhs => rw [← List.take_append_drop (i + 1) s'.rest, htake]
        simp
      rw [hsplit, ← hf.tell_eq, hf.placed.remaining_tell]
      conv_lhs => rw [hrest]
      simp only [List.append_assoc, List.cons_append]
    rw [hcons, line_append_cons, htake, ← List.append_assoc]
    rw [List.mem_append, not_or]
    exact ⟨hmem, hno⟩
  have hexact : mem ++ s'.rest.take l = (line term (remaining src s₀.tell)).take room := by
    rw [hline, ← hroom]
    by_cases hmax : 0 < max
    · have hnil : passed = [] := by
        by_contra hne
        have := hpassed hne
        omega
      rw [if_pos hmax] at hl hlen
      rw [hnil, List.append_nil, List.take_length_add_append, List.take_take, hl, hlen,
        Nat.min_comm]
    · rw [if_neg hmax] at hl
      have hzero : max = 0 := by omega
      rw [hl, hzero, List.take_zero, List.append_nil, add_zero, List.append_assoc, List.take_left]
  refine ⟨hplaced, heof.trans (hf.more rfl).2, ?_, fun _ => hexact, fun _ => ?_⟩
  · exact ⟨[], (List.append_nil _).trans hexact⟩
  · simp only [view]
    rw [htell, hf.tell_eq, hpos]
    by_cases hmax : 0 < max
    · refine Or.inl ?_
      have hnil : passed = [] := by
        by_contra hne
        have := hpassed hne
        omega
      rw [if_pos hmax] at hl
      rw [hnil, List.length_append, List.length_take, hl, Nat.min_eq_left hle]
      push_cast
      simp
      ring
    · refine Or.inr ?_
      rw [if_neg hmax] at hlen
      rw [hline, List.length_append, List.length_append, List.length_take, hlen,
        Nat.min_eq_left (by omega)]
      push_cast
      ring

/-- The file ends before a terminator is found. -/
theorem UntilSoFar.ends (h : UntilSoFar src r g prompt w₀ s₀ term room max mem s w)
    (hf : Refilled src r g prompt w s w' s' false) :
    ReadsLine src term room (view w₀ s₀) (view w' s') mem := by
  obtain ⟨hend, -⟩ := hf.none rfl
  obtain ⟨passed, hsplit, hmem, hpassed, hpos⟩ := h.split
  have hroom := h.room_eq
  have hnot : term ∉ mem := fun hm => hmem (List.mem_append_left _ hm)
  refine ⟨?_, fun hno => ?_, fun hno => ?_⟩
  · simp only [view]
    rw [hsplit, List.append_assoc, line_append hnot, ← hroom, List.take_length_add_append]
    exact List.prefix_append _ _
  all_goals
    have hnil : remaining src s.tell = [] :=
      remaining_eq_nil_iff.mpr (hend.resolve_right (by simpa [view] using hno))
    have hline : line term (remaining src s₀.tell) = mem ++ passed := by
      rw [hsplit, hnil, List.append_nil, line_eq_self hmem]
    simp only [view]
  · rw [hline, ← hroom, List.take_length_add_append]
    by_cases hp : passed = []
    · rw [hp, List.take_nil, List.append_nil]
    · rw [hpassed hp, List.take_zero, List.append_nil]
  · refine Or.inr ?_
    rw [hf.tell_eq, hpos, hline, List.length_append]
    push_cast
    ring

end Until

/-- `stream_read_until`. -/
theorem streamReadUntil_answers {max : ℤ} {term : UInt8} {answer : Option (List UInt8)}
    (h : Placed src r g prompt w s)
    (hruns : (streamReadUntil src g s max term).Runs (world src r) w (answer, s') w') :
    Placed src r g prompt w' s' ∧
      file src prompt (.readUntil max term) (view w s) answer (view w' s') := by
  rw [streamReadUntil] at hruns
  split_ifs at hruns with hmax
  · obtain ⟨heq, rfl⟩ := hruns
    cases heq
    refine ⟨h, h.goes id, ?_⟩
    simp only [Answers, if_pos hmax]
    exact ⟨rfl, trivial⟩
  obtain ⟨⟨mem, s'⟩, w', hloop, heq, rfl⟩ := hruns
  cases heq
  -- the string that is stored, and the flag that makes it `NULL`
  have hread : Placed src r g prompt w' s' ∧ (w.interrupted = true → w'.interrupted = true) ∧
      ReadsLine src term (max - 1).toNat (view w s) (view w' s') mem ∧
      (prompt = true → remaining src (view w s).pos = [] → s'.eof = true) := by
    refine hloop.invariant
      (I := fun x u => UntilSoFar src r g prompt w s term (max - 1).toNat x.1 x.2.1 x.2.2 u)
      (Q := fun x u => Placed src r g prompt u x.2 ∧
        (w.interrupted = true → u.interrupted = true) ∧
        ReadsLine src term (max - 1).toNat (view w s) (view u x.2) x.1 ∧
        (prompt = true → remaining src (view w s).pos = [] → x.2.eof = true)) ?_ ?_ ?_
    · rintro ⟨max₁, mem₁, s₁⟩ w₁ ⟨max₂, mem₂, s₂⟩ w₂ hI hbody
      obtain ⟨⟨ok, s₃⟩, w₃, hfill, hrun⟩ := Program.runs_bind.mp hbody
      have hf := hI.placed.refill hfill
      cases ok with
      | false => cases hrun.1
      | true =>
        cases hstop : findTermChar s₃.rest term with
        | some i =>
          simp only [hstop, Option.isSome_some, if_true] at hrun
          cases hrun.1
        | none =>
          simp only [hstop, Option.isSome_none, Bool.false_eq_true, if_false, Option.map_none,
            Option.getD_none] at hrun
          obtain ⟨heq, rfl⟩ := hrun
          cases heq
          exact hI.more hf (findTermChar_none hstop) rfl rfl
    · rintro ⟨max₁, mem₁, s₁⟩ w₁ ⟨mem₂, s₂⟩ w₂ hI hbody
      obtain ⟨⟨ok, s₃⟩, w₃, hfill, hrun⟩ := Program.runs_bind.mp hbody
      have hf := hI.placed.refill hfill
      cases ok with
      | false =>
        obtain ⟨heq, rfl⟩ := hrun
        cases heq
        exact ⟨hf.placed, fun hi => hf.keeps (hI.keeps hi), hI.ends hf,
          fun hp _ => (hf.none rfl).2 hp⟩
      | true =>
        cases hstop : findTermChar s₃.rest term with
        | none =>
          simp only [hstop, Option.isSome_none, Bool.false_eq_true, if_false] at hrun
          cases hrun.1
        | some i =>
          simp only [hstop, Option.isSome_some, if_true, Option.map_some,
            Option.getD_some] at hrun
          obtain ⟨heq, rfl⟩ := hrun
          cases heq
          obtain ⟨hplaced, -, hline⟩ := hI.stop hf hstop rfl rfl
          refine ⟨hplaced, fun hi => hf.keeps (hI.keeps hi), hline, fun _ hnil => ?_⟩
          -- there was something to read
          obtain ⟨passed, hsplit, -⟩ := hI.split
          simp only [view] at hnil
          rw [hnil, eq_comm, List.append_eq_nil_iff, ← hf.tell_eq, hf.placed.remaining_tell,
            List.append_eq_nil_iff] at hsplit
          exact absurd (List.append_eq_nil_iff.mp hsplit.2).1 (hf.more rfl).1
    · exact ⟨h, id, by simp, [], by simp, by simp, fun h => absurd rfl h, by simp⟩
  obtain ⟨hplaced, hkeeps, hline, heof⟩ := hread
  refine ⟨hplaced, hplaced.goes hkeeps, ?_⟩
  simp only [Answers, if_neg hmax]
  exact ⟨mem, hline, heof, rfl⟩

/-! ## Seeking -/

/-- The position that the cache is put to: the start of a sector. -/
theorem alignedPos_bounds {pos : ℤ} (hpos : 0 ≤ pos) :
    0 ≤ alignedPos g pos ∧ alignedPos g pos ≤ pos ∧ pos - alignedPos g pos < g.sectorSize := by
  have hsector := g.sector_pos
  rw [alignedPos, Int.tdiv_eq_ediv_of_nonneg hpos]
  have hmod := Int.emod_add_mul_ediv pos g.sectorSize
  have hlt := Int.emod_lt_of_pos pos hsector
  have hnn := Int.emod_nonneg pos hsector.ne'
  have hdiv := Int.ediv_nonneg hpos hsector.le
  rw [mul_comm] at hmod
  exact ⟨mul_nonneg hdiv hsector.le, by omega, by omega⟩

/-- The position that the device is put to. -/
theorem sectorStart_bounds {pos : ℤ} (hsector : 0 ≤ s.sectorSize) (hpos : 0 ≤ pos) :
    0 ≤ sectorStart s pos ∧ sectorStart s pos ≤ pos := by
  rw [sectorStart]
  split_ifs with hzero
  · rw [Int.tdiv_eq_ediv_of_nonneg hpos]
    exact ⟨mul_nonneg (Int.ediv_nonneg hpos hsector) hsector,
      Int.ediv_mul_le pos hzero⟩
  · exact ⟨mul_nonneg (Int.ediv_nonneg hpos (by decide)) (by decide),
      Int.ediv_mul_le pos (by decide)⟩

/-- Where a seek has led. -/
structure Sought (src : Source) (r : Rounding) (g : Geometry) (prompt : Bool) (w : World) (pos : ℤ)
    (w' : World) (s' : StreamT) (ret : ℤ) : Prop where
  placed : Placed src r g prompt w' s'
  keeps : w.interrupted = true → w'.interrupted = true
  moves : Moves src (view w' s') pos ret

/-- The filled buffer has the data. -/
@[simp]
theorem cacheFilled_buffer (data : List UInt8) : (cacheFilled s data).2.buffer = data := by
  rw [cacheFilled]
  split_ifs with hdata
  · exact hdata.symm
  · rfl

/-- The length of the data is returned. -/
@[simp]
theorem cacheFilled_ret (data : List UInt8) : (cacheFilled s data).1 = data.length := by
  rw [cacheFilled]
  split_ifs with hdata
  · rw [hdata, List.length_nil, Nat.cast_zero]
  · rfl

/-- `cache_stream_seek_long` with a cache. -/
theorem cacheSeek_sought {pos ret : ℤ} (hcached : s.cached = true)
    (hsector : g.sectorSize ≤ streamMaxSectorSize) (hrest : AtRest src r g w s.pos)
    (hpos : 0 ≤ pos)
    (hruns : (cacheStreamSeekLong src g s pos).Runs (world src r) w (ret, s') w') :
    Sought src r g prompt w pos w' s' ret := by
  obtain ⟨hnn, hle, hlt⟩ := alignedPos_bounds (g := g) hpos
  have hg := g.bounds
  rw [cacheStreamSeekLong, if_pos hcached] at hruns
  obtain ⟨data, u, hdata, hrun⟩ := hruns
  have hsize : readerSectorSize g = g.sectorSize := by
    simp only [readerSectorSize]
    omega
  have hanswered := hrest.cacheSeek hpos hdata
  have hf := hanswered.filled (s := s) prompt hcached hsector hnn (by omega)
  have hlen : (cacheFilled { s with pos := alignedPos g pos } data).2.buffer.length =
      data.length := congrArg List.length (cacheFilled_buffer data)
  rcases hfilled : cacheFilled { s with pos := alignedPos g pos } data with ⟨n, s₁⟩
  simp only [hfilled] at hf hrun hlen
  have htell := hf.tell_eq
  rw [StreamT.tell, hf.start] at htell
  split_ifs at hrun with hin
  · obtain ⟨heq, rfl⟩ := hrun
    cases heq
    refine ⟨hf.placed.move (by omega), hf.keeps, Or.inl rfl, fun _ => ?_,
      fun h => by cases h⟩
    simp only [view, StreamT.tell]
    omega
  · obtain ⟨heq, rfl⟩ := hrun
    cases heq
    refine ⟨hf.placed, hf.keeps, Or.inr rfl, fun h => absurd h (by decide), fun _ => ?_⟩
    by_cases hint : w'.interrupted = true
    · exact Or.inr hint
    -- a sector that does not reach as far as the position is the last one
    have hfull := hanswered.full (by simpa using hint)
    exact Or.inl (by omega)

/-- `stream_seek_long`: the sectors from the start of the one with the position on. -/
theorem streamSeekLong_sought {pos ret : ℤ} (hcached : s.cached = false)
    (hsector : 0 ≤ s.sectorSize) (hprompt : prompt = true → src.atEnd < 0)
    (hsteady : Steady s.toStream) (hpos : 0 ≤ pos)
    (hruns : (streamSeekLong src s pos).Runs (world src r) w (ret, s') w') :
    Sought src r g prompt w pos w' s' ret := by
  obtain ⟨hnn, hle⟩ := sectorStart_bounds (s := { s with buffer := [], bufPos := 0 }) hsector hpos
  obtain ⟨o, w, ⟨⟨hseeks, -⟩, rfl⟩, hrun⟩ := hruns
  generalize hnew : sectorStart { s with buffer := [], bufPos := 0 } pos = newpos at *
  -- the device is put there
  have hres : streamSeekResult s.toStream newpos o.seeks = -1 := by
    simp [streamSeekResult, hsteady.seekable, hseeks]
  have hthere : Steady (streamSeekInternal s.toStream newpos o.seeks) ∧
      (streamSeekInternal s.toStream newpos o.seeks).pos = newpos := by
    rw [streamSeekInternal, hseeks]
    split_ifs with hcase hs
    · exact ⟨⟨hsteady.type_ne, hsteady.seekable, hsteady.error_eq, rfl⟩, rfl⟩
    · exact absurd hsteady.seekable hs
    · rw [not_or, not_not] at hcase
      exact ⟨hsteady, hcase.2.symm⟩
  dsimp only at hrun
  rw [hres, if_neg (by decide)] at hrun
  obtain ⟨s₁, u, hforward, ⟨⟨ret, s'⟩, w', hloop, heq, rfl⟩⟩ := hrun
  cases heq
  obtain ⟨hsteady₁, hpos₁⟩ := hthere
  -- it stands there already
  have hsame : s₁ = { s with
      toStream := streamSeekInternal s.toStream newpos o.seeks, buffer := [], bufPos := 0 } ∧
      w = u := by
    cases hforward with
    | leave hbody =>
      rw [forwardTurn, if_neg (by simp only [hpos₁]; omega)] at hbody
      obtain ⟨heq, rfl⟩ := hbody
      cases heq
      exact ⟨rfl, rfl⟩
    | again hbody =>
      rw [forwardTurn, if_neg (by simp only [hpos₁]; omega)] at hbody
      cases hbody.1
  obtain ⟨rfl, rfl⟩ := hsame
  refine hloop.invariant
    (I := fun x v => x.2.cached = false ∧ 0 ≤ x.2.sectorSize ∧ Steady x.2.toStream ∧
      0 ≤ x.2.pos ∧ 0 ≤ x.1 ∧ x.2.pos + x.1 = pos ∧
      (w.interrupted = true → v.interrupted = true))
    (Q := fun x v => Sought src r g prompt w pos v x.2 x.1) ?_ ?_ ?_
  · rintro ⟨p, s₂⟩ w₂ ⟨p', s₃⟩ w₃ ⟨hcached₂, hsector₂, hsteady₂, hnn₂, hp, hsum, hkeeps⟩ hbody
    obtain ⟨⟨ret, s₄⟩, hfill, heq⟩ := Program.runs_map.mp hbody
    have hf := hsteady₂.filled (g := g) (r := r) hcached₂ hsector₂ hprompt hnn₂ hfill
    simp only at heq
    split_ifs at heq with hret hin
    cases heq
    have htell := hf.tell_eq
    have hretEq := hf.ret_eq
    rw [StreamT.tell, hf.start] at htell
    simp only at hsum hp htell
    have hnn₃ := hf.placed.start_nonneg
    have hcached₃ := (streamFillBuffer_cached hfill).trans hcached₂
    cases hf.placed.backed with
    | cache hcached₄ => exact absurd (hcached₃.symm.trans hcached₄) (by decide)
    | device hcached₄ hsector₄ _ hsteady₄ =>
      exact ⟨hcached₄, hsector₄, hsteady₄, by simp only; omega, by simp only; omega,
        by simp only; omega, fun hi => hf.keeps (hkeeps hi)⟩
  · rintro ⟨p, s₂⟩ w₂ ⟨ret, s₃⟩ w₃ ⟨hcached₂, hsector₂, hsteady₂, hnn₂, hp, hsum, hkeeps⟩ hbody
    obtain ⟨⟨ret, s₄⟩, hfill, heq⟩ := Program.runs_map.mp hbody
    have hf := hsteady₂.filled (g := g) (r := r) hcached₂ hsector₂ hprompt hnn₂ hfill
    have htell := hf.tell_eq
    have hretEq := hf.ret_eq
    rw [StreamT.tell, hf.start] at htell
    simp only at heq hsum hp htell
    split_ifs at heq with hret hin <;> cases heq
    · refine ⟨hf.placed.move (by omega), fun hi => hf.keeps (hkeeps hi), Or.inl rfl, fun _ => ?_,
        fun h => by cases h⟩
      simp only [view, StreamT.tell]
      omega
    · refine ⟨hf.placed, fun hi => hf.keeps (hkeeps hi), Or.inr rfl,
        fun h => absurd h (by simp), fun _ => ?_⟩
      have hnil : s₃.buffer = [] := by
        rw [← List.length_eq_zero_iff]
        omega
      refine (hf.none hnil).1.imp_left fun hend => ?_
      simp only at hend
      omega
  · exact ⟨hcached, hsector, hsteady₁, by simp only [hpos₁]; exact hnn, by simp only; omega,
      by simp only [hpos₁]; omega, id⟩

/-- `stream_seek`. -/
theorem streamSeek_sought {pos ret : ℤ} (h : Placed src r g prompt w s)
    (hruns : (streamSeek src g s pos).Runs (world src r) w (ret, s') w') :
    Sought src r g prompt w (max 0 pos) w' s' ret := by
  have hclamp : (if pos < 0 then 0 else pos) = max 0 pos := by
    split_ifs <;> omega
  have hnn : 0 ≤ max 0 pos := le_max_left _ _
  rw [streamSeek, hclamp] at hruns
  generalize max 0 pos = pos at hnn hruns ⊢
  split_ifs at hruns with hin
  · -- within the buffer
    obtain ⟨heq, rfl⟩ := hruns
    cases heq
    refine ⟨h.move (by omega), id, Or.inl rfl, fun _ => ?_, fun h => absurd h (by decide)⟩
    simp only [view, StreamT.tell]
    omega
  · cases h.backed with
    | cache hcached hsector hrest => exact cacheSeek_sought hcached hsector hrest hnn hruns
    | device hcached hsector hprompt hsteady =>
      rw [cacheStreamSeekLong, hcached] at hruns
      exact streamSeekLong_sought hcached hsector hprompt hsteady hnn hruns

/-- `stream_skip`. -/
theorem streamSkip_sought {len ret : ℤ} (h : Placed src r g prompt w s)
    (hruns : (streamSkip src g s len).Runs (world src r) w (ret, s') w') :
    Sought src r g prompt w (if len < 0 then max 0 (s.tell + len) else s.tell + len) w' s' ret := by
  have htell := h.tell_nonneg
  rw [streamSkip] at hruns
  -- backwards, or far ahead in a seekable stream, it is a seek
  by_cases hseek : len < 0 ∨ (len > 2 * streamBufferSize ∧ s.seekFw = true)
  · rw [if_pos hseek] at hruns
    have hsought := streamSeek_sought h hruns
    split_ifs with hneg
    · exact hsought
    · rwa [max_eq_right (by omega)] at hsought
  rw [if_neg hseek] at hruns
  rw [not_or, not_lt] at hseek
  obtain ⟨⟨ret, s'⟩, w', hloop, heq, rfl⟩ := hruns
  cases heq
  rw [if_neg (by omega)]
  -- otherwise buffers are read and dropped, and the sum stays the target
  refine hloop.invariant
    (I := fun x v => Placed src r g prompt v x.2 ∧ 0 ≤ x.1 ∧ x.2.tell + x.1 = s.tell + len ∧
      (w.interrupted = true → v.interrupted = true))
    (Q := fun x v => Sought src r g prompt w (s.tell + len) v x.2 x.1) ?_ ?_ ?_
  · rintro ⟨l, s₁⟩ w₁ ⟨l', s₂⟩ w₂ ⟨hplaced, hnn, hsum, hkeeps⟩ hbody
    rw [skipTurn] at hbody
    split_ifs at hbody with hlen
    · obtain ⟨⟨ok, s₃⟩, w₃, hfill, hrun⟩ := Program.runs_bind.mp hbody
      have hf := hplaced.refill hfill
      cases ok with
      | false => cases hrun.1
      | true =>
        obtain ⟨heq, rfl⟩ := hrun
        cases heq
        obtain ⟨hplaced', htell', -, -⟩ :=
          hf.placed.advance (n := min s₃.rest.length l.toNat) (Nat.min_le_left _ _)
        have hsame := hf.tell_eq
        simp only at hsum hsame
        refine ⟨hplaced', by simp only; omega, ?_, fun hi => hf.keeps (hkeeps hi)⟩
        rw [htell', hsame]
        simp only
        omega
    · cases hbody.1
  -- at the end of the file the target is behind it
  · rintro ⟨l, s₁⟩ w₁ ⟨ret, s₂⟩ w₂ ⟨hplaced, hnn, hsum, hkeeps⟩ hbody
    rw [skipTurn] at hbody
    simp only at hsum hnn
    split_ifs at hbody with hlen
    · obtain ⟨⟨ok, s₃⟩, w₃, hfill, hrun⟩ := Program.runs_bind.mp hbody
      have hf := hplaced.refill hfill
      cases ok with
      | true => cases hrun.1
      | false =>
        obtain ⟨heq, rfl⟩ := hrun
        cases heq
        refine ⟨hf.placed, fun hi => hf.keeps (hkeeps hi), Or.inr rfl,
          fun h => absurd h (by simp), fun _ => (hf.none rfl).1.imp_left fun hend => ?_⟩
        simp only at hend
        omega
    · obtain ⟨heq, rfl⟩ := hbody
      cases heq
      refine ⟨hplaced, hkeeps, Or.inl rfl, fun _ => ?_, fun h => absurd h (by simp)⟩
      simp only [view]
      omega
  · exact ⟨h, by simp only; omega, rfl, id⟩

/-! ## Programs of a user -/

/-- Every function of the stream answers as the file does. -/
theorem serve_simulates :
    Program.Simulates (W := world src r) (serve src g) (file src prompt)
      fun w s v => Placed src r g prompt w s ∧ v = view w s := by
  rintro q w s _ answer w' s' ⟨h, rfl⟩ hruns
  have hboth : Placed src r g prompt w' s' ∧ file src prompt q (view w s) answer (view w' s') := by
    cases q with
    | read total =>
      obtain ⟨ret, mem⟩ := answer
      exact streamRead_answers h hruns
    | readChar => exact streamReadChar_answers h hruns
    | readUntil max term => exact streamReadUntil_answers h hruns
    | skip len =>
      have hsought := streamSkip_sought h hruns
      exact ⟨hsought.placed, hsought.placed.goes hsought.keeps, hsought.moves⟩
    | seek pos =>
      have hsought := streamSeek_sought h hruns
      exact ⟨hsought.placed, hsought.placed.goes hsought.keeps, hsought.moves⟩
    | tell =>
      obtain ⟨heq, rfl⟩ := hruns
      cases heq
      exact ⟨h, h.goes id, rfl, rfl⟩
    | eof =>
      obtain ⟨heq, rfl⟩ := hruns
      cases heq
      exact ⟨h, h.goes id, rfl, rfl⟩
  exact ⟨view w' s', hboth.2, hboth.1, rfl⟩

/-- A user of the stream that is told something could have been told the same by the file. -/
theorem stream_refines_file {α : Type} (p : Program Request Request.Answer α) {a : α}
    (h : Placed src r g prompt w s)
    (hruns : (p.interp (serve src g) s).Runs (world src r) w (a, s') w') :
    p.Runs (file src prompt) (view w s) a (view w' s') ∧ Placed src r g prompt w' s' := by
  obtain ⟨v, hfile, hplaced, rfl⟩ := Program.runs_of_interp serve_simulates p ⟨h, rfl⟩ hruns
  exact ⟨hfile, hplaced⟩

/-- A stream on the short source whose cache has just been enabled. -/
def freshStream : StreamT where
  toStream := fileStream
  buffer := []
  bufPos := 0
  sectorSize := 0
  seekFw := false
  cached := true

/-- The sample stream is at rest. -/
theorem freshStream_atRest :
    AtRest shortSource exactRounding smallRing.geo ⟨freshHalves, false⟩ 0 :=
  ⟨.init ⟨smallRing_started, fileStream_fresh, rfl, rfl, rfl, rfl⟩, rfl, ⟨0, rfl⟩, rfl⟩

/-- The sample stream is placed at its beginning. -/
theorem freshStream_placed : Placed shortSource exactRounding smallRing.geo true
    ⟨freshHalves, false⟩ freshStream :=
  ⟨.cache rfl (by decide) freshStream_atRest, le_rfl, rfl, Or.inl rfl, le_rfl,
    fun h => absurd h (by decide)⟩

/-- A user that asks where it is and reads a byte. -/
def readOne : Program Request Request.Answer (ℤ × ℤ) :=
  .call .tell fun pos : ℤ => .call .readChar fun c : ℤ => .ret (pos, c)

/-- It is served while the filler does its work. -/
theorem readOne_runs : ∃ answer w s, (readOne.interp (serve shortSource smallRing.geo)
    freshStream).Runs (world shortSource exactRounding) ⟨freshHalves, false⟩ (answer, s) w := by
  obtain ⟨(data : List UInt8), w, hdata, hno⟩ :=
    freshStream_atRest.served (readerSectorSize smallRing.geo)
  have hanswered := freshStream_atRest.cacheRead (by decide) hdata
  have hne : data ≠ [] := by
    rintro rfl
    exact absurd (hanswered.full hno (by decide)) (by decide)
  have hfill : (refill shortSource smallRing.geo freshStream).Runs
      (world shortSource exactRounding) ⟨freshHalves, false⟩
      (true, (cacheFilled freshStream data).2) w := by
    rw [refill, if_pos (by rfl), cacheStreamFillBuffer, if_pos (by rfl)]
    refine Program.runs_map.mpr ⟨cacheFilled freshStream data, ⟨data, w, hdata, rfl, rfl⟩, ?_⟩
    simp [hne]
  have hchar : (streamReadChar shortSource smallRing.geo freshStream).Runs
      (world shortSource exactRounding) ⟨freshHalves, false⟩
      (((cacheFilled freshStream data).2.rest.headD 0).toNat,
        (cacheFilled freshStream data).2.advance 1) w :=
    Program.runs_bind.mpr ⟨_, w, hfill, rfl, rfl⟩
  exact ⟨(freshStream.tell, ((cacheFilled freshStream data).2.rest.headD 0).toNat), w, _,
    Program.runs_bind.mpr ⟨(freshStream.tell, freshStream), _, ⟨rfl, rfl⟩,
      Program.runs_bind.mpr ⟨_, w, hchar, rfl, rfl⟩⟩⟩

theorem stream_refines_file_readOne : ∃ answer w s,
    readOne.Runs (file shortSource true) (view ⟨freshHalves, false⟩ freshStream) answer
      (view w s) ∧
      Placed shortSource exactRounding smallRing.geo true w s :=
  let ⟨answer, w, s, hruns⟩ := readOne_runs
  ⟨answer, w, s, stream_refines_file readOne freshStream_placed hruns⟩

end WiiMC.Stream
