import Mathlib.Data.List.GetD
import WiiMC.Lib.Search

/-!
# The subtitle that belongs to a time

`sub/find_sub.c`: `find_sub` keeps the place of the last subtitle and a range of times without one,
and searches the table if neither helps; `step_sub` moves the place. The subtitle on the screen is
`vo_sub`.

* `Timed`: the subtitles of a table follow each other.
* `RangeOk`: no subtitle of the table lies in the range that `find_sub` keeps.
* `searchKey_looked`: the search finds the subtitle of the time, or a range without one around it.
* `findSub_spec`: a call leaves on the screen what was there if the time is still in it, and the
  subtitle of the time otherwise.

The times are `unsigned long`s of 32 bits, and the key is an `int`. `vo_osd_changed`, which has the
screen redrawn, and `sub_delay`, which `step_sub` computes from the place it has moved to, are left
out; the key of `step_sub`, a rounded product, is given.
-/

namespace WiiMC.Sub

/-- `subtitle`: its times, in hundredths of a second or frames, and its lines. -/
structure Subtitle where
  start : ℕ
  /-- `end`. -/
  stop : ℕ
  text : List (List UInt8)
  alignment : ℕ
  deriving DecidableEq, Repr

/-- The bits of an `int` as an `unsigned long`. -/
def unsigned (x : ℤ) : ℕ := (x % 2 ^ 32).toNat

/-- The bits of an `unsigned long` as an `int`. -/
def signed (x : ℕ) : ℤ := Int.bmod x (2 ^ 32)

/-- The key is in the time of a subtitle. -/
def Subtitle.shows (v : Subtitle) (key : ℤ) : Bool := v.start ≤ unsigned key ∧ unsigned key ≤ v.stop

/-- The static variables of `find_sub.c`, and `vo_sub`. -/
structure FindState where
  currentSub : ℤ
  nosubRangeStart : ℤ
  nosubRangeEnd : ℤ
  /-- `last_sub_data`, an address. -/
  lastSubData : Option ℕ
  voSub : Option Subtitle
  deriving DecidableEq

/-- The state at the start of the program. -/
def FindState.fresh : FindState := ⟨0, -1, -1, none, none⟩

/-- `subs[i]`. -/
def nth (subs : List Subtitle) (i : ℤ) : Subtitle := subs.getD i.toNat ⟨0, 0, [], 0⟩

/-- Where the key lies from the subtitle at an index. -/
def position (subs : List Subtitle) (key i : ℤ) : Ordering :=
  if unsigned key < (nth subs i).start then .lt
  else if unsigned key > (nth subs i).stop then .gt
  else .eq

/-- The key lies between two neighbouring subtitles. -/
def between (subs : List Subtitle) (key i : ℤ) : Bool :=
  unsigned key > (nth subs i).stop ∧ unsigned key < (nth subs (i + 1)).start

/-- The range between two neighbouring subtitles is kept, and there is no subtitle. -/
def FindState.gap (s : FindState) (subs : List Subtitle) (i : ℤ) : FindState :=
  { s with
    currentSub := i
    nosubRangeStart := signed (nth subs i).stop
    nosubRangeEnd := signed (nth subs (i + 1)).start
    voSub := none }

/-- `find_sub` after the search has lost the key; `s.currentSub` is the last probe. -/
def lostKey (s : FindState) (subs : List Subtitle) (key : ℤ) : FindState :=
  let i := s.currentSub
  if unsigned key < (nth subs i).start then
    if i ≤ 0 then
      -- before the first subtitle
      { s with
        nosubRangeStart := key - 1
        nosubRangeEnd := signed (nth subs i).start
        voSub := none }
    else if between subs key (i - 1) then s.gap subs (i - 1)
    else { s with currentSub := i - 1, voSub := none }
  else if unsigned key ≤ (nth subs i).stop then { s with voSub := none }
  else if i + 1 ≥ subs.length then
    -- behind the last one
    { s with
      nosubRangeStart := signed (nth subs i).stop
      nosubRangeEnd := 0x7FFFFFFF
      voSub := none }
  else if between subs key i then s.gap subs i
  else { s with voSub := none }

/-- The search of `find_sub` over the whole table. -/
def searchKey (s : FindState) (subs : List Subtitle) (key : ℤ) : FindState :=
  let (found, i) := Search.loop (position subs key) 0 (subs.length - 1) s.currentSub
  if found then { s with currentSub := i, voSub := some (nth subs i) }
  else lostKey { s with currentSub := i } subs key

/-- `find_sub` looks at the next subtitle, and searches the whole table if it is not that one. -/
def nextSub (s : FindState) (subs : List Subtitle) (key : ℤ) : FindState :=
  if s.currentSub ≥ 0 ∧ s.currentSub + 1 < subs.length then
    if between subs key s.currentSub then s.gap subs s.currentSub
    else
      let s := { s with currentSub := s.currentSub + 1 }
      if (nth subs s.currentSub).shows key then { s with voSub := some (nth subs s.currentSub) }
      else searchKey s subs key
  else searchKey s subs key

/-- What `find_sub` keeps of the range, at a table's address. -/
def FindState.ofTable (s : FindState) (addr : ℕ) : FindState :=
  if s.lastSubData ≠ some addr then
    { s with lastSubData := some addr, nosubRangeStart := -1, nosubRangeEnd := -1 }
  else s

/-- The first tests of `find_sub`: what is on the screen, or that nothing is, still holds. -/
def FindState.settled (s : FindState) (key : ℤ) : Bool :=
  match s.voSub with
  | some v => v.shows key
  | none => key > s.nosubRangeStart ∧ key < s.nosubRangeEnd

/-- `find_sub`, for the table at an address. -/
def findSub (s : FindState) (addr : ℕ) (subs : List Subtitle) (key : ℤ) : FindState :=
  if subs = [] then s
  else
    let s := s.ofTable addr
    if s.settled key then s
    else if key ≤ 0 then { s with voSub := none }
    else nextSub s subs key

/-- `step_sub`: the place moves by a number of subtitles, the next one not counted if it has not
been shown yet. -/
def stepSub (s : FindState) (subs : List Subtitle) (key movement : ℤ) : FindState :=
  let movement :=
    if movement > 0 ∧ unsigned key < (nth subs s.currentSub).start then movement - 1 else movement
  let movement :=
    if movement < 0 ∧ unsigned key ≥ (nth subs s.currentSub).stop then movement + 1 else movement
  let movement := if s.currentSub + movement < 0 then 0 - s.currentSub else movement
  let movement :=
    if s.currentSub + movement ≥ subs.length then subs.length - s.currentSub - 1 else movement
  { s with currentSub := s.currentSub + movement }

/-! ## Tables in order -/

/-- Each subtitle ends before the next one begins, and the times are `int`s. -/
structure Timed (subs : List Subtitle) : Prop where
  pairwise : subs.Pairwise fun v w => v.stop < w.start
  lasts : ∀ v ∈ subs, v.start ≤ v.stop
  small : ∀ v ∈ subs, v.stop < 2 ^ 31

variable {subs : List Subtitle} {s : FindState} {key i j : ℤ} {addr : ℕ}

/-- An index into the table gives one of its texts. -/
theorem nth_mem (h0 : 0 ≤ i) (hi : i < subs.length) : nth subs i ∈ subs := by
  have hlt : i.toNat < subs.length := by omega
  rw [nth, List.getD_eq_getElem _ _ hlt]
  exact List.getElem_mem hlt

/-- Each text of the table has its index. -/
theorem exists_nth {v : Subtitle} (hv : v ∈ subs) :
    ∃ i : ℤ, 0 ≤ i ∧ i < subs.length ∧ nth subs i = v := by
  obtain ⟨n, hn, rfl⟩ := List.getElem_of_mem hv
  refine ⟨n, by omega, by omega, ?_⟩
  rw [nth, Int.toNat_natCast, List.getD_eq_getElem _ _ hn]

namespace Timed

/-- A text that stands in front of another one is over before that one begins. -/
theorem stop_lt_start (h : Timed subs) (h0 : 0 ≤ i) (hij : i < j) (hj : j < subs.length) :
    (nth subs i).stop < (nth subs j).start := by
  have hi' : i.toNat < subs.length := by omega
  have hj' : j.toNat < subs.length := by omega
  rw [nth, nth, List.getD_eq_getElem _ _ hi', List.getD_eq_getElem _ _ hj']
  exact List.pairwise_iff_getElem.mp h.pairwise _ _ hi' hj' (by omega)

/-- A text does not end before it begins. -/
theorem start_le_stop (h : Timed subs) (h0 : 0 ≤ i) (hi : i < subs.length) :
    (nth subs i).start ≤ (nth subs i).stop := h.lasts _ (nth_mem h0 hi)

/-- The times fit into an `int`. -/
theorem stop_lt (h : Timed subs) (h0 : 0 ≤ i) (hi : i < subs.length) :
    (nth subs i).stop < 2 ^ 31 := h.small _ (nth_mem h0 hi)

/-- A key has one subtitle at most. -/
theorem eq_of_shows (h : Timed subs) {v w : Subtitle} (hv : v ∈ subs) (hw : w ∈ subs)
    (hvk : v.shows key = true) (hwk : w.shows key = true) : v = w := by
  obtain ⟨i, hi0, hi, rfl⟩ := exists_nth hv
  obtain ⟨j, hj0, hj, rfl⟩ := exists_nth hw
  simp only [Subtitle.shows, decide_eq_true_eq] at hvk hwk
  rcases lt_trichotomy i j with hlt | heq | hgt
  · have := h.stop_lt_start hi0 hlt hj
    omega
  · rw [heq]
  · have := h.stop_lt_start hj0 hgt hi
    omega

/-- The table is in order from the view of any key. -/
theorem ordered (h : Timed subs) (key : ℤ) :
    Search.Ordered (position subs key) 0 (subs.length - 1) := by
  intro a b ha hab hb hcmp
  have hstop := h.stop_lt_start ha hab (by omega)
  have hstart := h.start_le_stop ha (by omega)
  unfold position at hcmp ⊢
  have hge : ¬ unsigned key < (nth subs b).start := by
    intro hlt
    rw [if_pos hlt] at hcmp
    exact hcmp rfl
  rw [if_neg (by omega), if_pos (by omega)]

end Timed

/-- The comparison finds that the text is shown if it is. -/
theorem position_eq : position subs key i = .eq ↔ (nth subs i).shows key = true := by
  unfold position Subtitle.shows
  rw [decide_eq_true_eq]
  split_ifs with hlt hgt
  · exact iff_of_false (fun h => by cases h) (by omega)
  · exact iff_of_false (fun h => by cases h) (by omega)
  · exact iff_of_true rfl ⟨by omega, by omega⟩

/-- The comparison finds the key in front of the text if it is. -/
theorem position_lt : position subs key i = .lt ↔ unsigned key < (nth subs i).start := by
  unfold position
  split_ifs with hlt hgt
  · exact iff_of_true rfl hlt
  · exact iff_of_false (fun h => by cases h) hlt
  · exact iff_of_false (fun h => by cases h) hlt

/-- The comparison finds the key behind the text if it is. -/
theorem position_gt (h : (nth subs i).start ≤ (nth subs i).stop) :
    position subs key i = .gt ↔ unsigned key > (nth subs i).stop := by
  unfold position
  split_ifs with hlt hgt
  · exact iff_of_false (fun h => by cases h) (by omega)
  · exact iff_of_true rfl hgt
  · exact iff_of_false (fun h => by cases h) hgt

/-- A small time is not negative as a `long`. -/
theorem signed_of_lt {x : ℕ} (h : x < 2 ^ 31) : signed x = x := by
  unfold signed
  rw [Int.bmod_def]
  split <;> omega

/-- A key that is not negative is its own value as an `unsigned long`. -/
theorem unsigned_of_nonneg (h0 : 0 ≤ key) (h : key < 2 ^ 31) : (unsigned key : ℤ) = key := by
  unfold unsigned
  rw [Int.emod_eq_of_lt h0 (by omega)]
  omega

/-! ## The range without a subtitle -/

/-- No subtitle of the table is in the range that is kept, and the range has no negative time. -/
def RangeOk (s : FindState) (subs : List Subtitle) : Prop :=
  -1 ≤ s.nosubRangeStart ∧ s.nosubRangeEnd < 2 ^ 31 ∧
    ∀ v ∈ subs, ∀ key, s.nosubRangeStart < key → key < s.nosubRangeEnd → v.shows key = false

/-- A range in front of one subtitle and behind the one before it, if there are any. -/
theorem not_shows_of_gap {i : ℤ} (hkey : 0 ≤ key) (hsmall : key < 2 ^ 31)
    (hfront : ∀ j, 0 ≤ j → j ≤ i → j < subs.length → ((nth subs j).stop : ℤ) < key)
    (hback : ∀ j, i < j → 0 ≤ j → j < subs.length → key < (nth subs j).start) :
    ∀ v ∈ subs, v.shows key = false := by
  intro v hv
  obtain ⟨j, hj0, hj, rfl⟩ := exists_nth hv
  have hk := unsigned_of_nonneg hkey hsmall
  rw [Subtitle.shows, decide_eq_false_iff_not]
  rcases le_or_gt j i with hle | hgt
  · have := hfront j hj0 hle hj
    omega
  · have := hback j hgt hj0 hj
    omega

/-- The gap between two texts is kept as a range of the table. -/
theorem gap_ok (h : Timed subs) (h0 : 0 ≤ i) (hi : i + 1 < subs.length) :
    RangeOk (s.gap subs i) subs := by
  have hstop := h.stop_lt h0 (by omega : i < subs.length)
  have hnext := h.stop_lt (by omega : 0 ≤ i + 1) hi
  have hlast := h.start_le_stop (by omega : 0 ≤ i + 1) hi
  have hstart : signed (nth subs (i + 1)).start = (nth subs (i + 1)).start :=
    signed_of_lt (by omega)
  rw [RangeOk, FindState.gap]
  simp only [signed_of_lt hstop, hstart]
  refine ⟨by omega, by omega, fun v hv key hlo hhi => ?_⟩
  refine not_shows_of_gap (i := i) (by omega) (by omega) (fun j hj0 hji hj => ?_)
    (fun j hij hj0 hj => ?_) v hv
  · rcases eq_or_lt_of_le hji with rfl | hlt
    · exact hlo
    · have := h.stop_lt_start hj0 hlt (by omega)
      have := h.start_le_stop h0 (by omega : i < subs.length)
      omega
  · rcases eq_or_lt_of_le (show i + 1 ≤ j by omega) with rfl | hlt
    · exact hhi
    · have := h.stop_lt_start (by omega : 0 ≤ i + 1) hlt hj
      omega

/-- The range in front of the first subtitle. -/
theorem before_ok (h : Timed subs) (hne : subs ≠ []) (hkey : 0 < key) :
    RangeOk { s with
      nosubRangeStart := key - 1
      nosubRangeEnd := signed (nth subs 0).start
      voSub := none } subs := by
  have hlen : (0 : ℤ) < subs.length := by
    have := List.length_pos_iff.mpr hne
    omega
  have hstop := h.stop_lt le_rfl hlen
  have hlast := h.start_le_stop le_rfl hlen
  have hstart : signed (nth subs 0).start = (nth subs 0).start := signed_of_lt (by omega)
  simp only [RangeOk, hstart]
  refine ⟨by omega, by omega, fun v hv key' hlo hhi => ?_⟩
  refine not_shows_of_gap (i := -1) (by omega) (by omega) (fun j hj0 hji hj => by omega)
    (fun j _ hj0 hj => ?_) v hv
  rcases eq_or_lt_of_le hj0 with rfl | hlt
  · exact hhi
  · have := h.stop_lt_start le_rfl hlt hj
    omega

/-- The range behind the last subtitle. -/
theorem behind_ok (h : Timed subs) (h0 : 0 ≤ i) (hi : i < subs.length)
    (hend : i + 1 ≥ subs.length) :
    RangeOk { s with
      nosubRangeStart := signed (nth subs i).stop
      nosubRangeEnd := 0x7FFFFFFF
      voSub := none } subs := by
  have hstop := h.stop_lt h0 hi
  simp only [RangeOk, signed_of_lt hstop]
  refine ⟨by omega, by decide, fun v hv key hlo hhi => ?_⟩
  refine not_shows_of_gap (i := i) (by omega) (by omega) (fun j hj0 hji hj => ?_)
    (fun j hij hj0 hj => by omega) v hv
  rcases eq_or_lt_of_le hji with rfl | hlt
  · exact hlo
  · have := h.stop_lt_start hj0 hlt hi
    have := h.start_le_stop h0 hi
    omega

/-! ## The search -/

/-- The subtitle of a time. -/
def subtitleAt (subs : List Subtitle) (key : ℤ) : Option Subtitle :=
  subs.find? fun v => v.shows key

/-- The text that is shown at a time is the only one. -/
theorem subtitleAt_of_shows (h : Timed subs) {v : Subtitle} (hv : v ∈ subs)
    (hshows : v.shows key = true) : subtitleAt subs key = some v := by
  cases hfind : subtitleAt subs key with
  | none => exact absurd hshows (List.find?_eq_none.mp hfind v hv)
  | some w =>
    have hw : w.shows key = true := by
      have := List.find?_some hfind
      exact this
    rw [h.eq_of_shows (List.mem_of_find?_eq_some hfind) hv hw hshows]

/-- Where no text is shown there is none to be found. -/
theorem subtitleAt_of_not_shows (h : ∀ v ∈ subs, v.shows key = false) :
    subtitleAt subs key = none :=
  List.find?_eq_none.mpr fun v hv => by rw [h v hv]; exact Bool.false_ne_true

/-- What `find_sub` leaves behind when it has looked for the key. -/
structure Looked (s t : FindState) (subs : List Subtitle) (key : ℤ) : Prop where
  voSub : t.voSub = subtitleAt subs key
  range : RangeOk t subs
  lastSubData : t.lastSubData = s.lastSubData
  place : 0 ≤ t.currentSub

/-- A key in the gap between two texts has been looked up. -/
theorem gap_looked (h : Timed subs) (h0 : 0 ≤ i) (hi : i + 1 < subs.length) (hkey : 0 < key)
    (hsmall : key < 2 ^ 31) (hbetween : between subs key i = true) :
    Looked s (s.gap subs i) subs key := by
  have hrange := gap_ok (s := s) h h0 hi
  have hk := unsigned_of_nonneg hkey.le hsmall
  rw [between, decide_eq_true_eq] at hbetween
  refine ⟨?_, hrange, rfl, h0⟩
  have hlast := h.start_le_stop (by omega : 0 ≤ i + 1) hi
  have hnext := h.stop_lt (by omega : 0 ≤ i + 1) hi
  have hstart : (s.gap subs i).nosubRangeStart = (nth subs i).stop := by
    simp only [FindState.gap]
    exact signed_of_lt (h.stop_lt h0 (by omega))
  have hend : (s.gap subs i).nosubRangeEnd = (nth subs (i + 1)).start := by
    simp only [FindState.gap]
    exact signed_of_lt (by omega)
  refine (subtitleAt_of_not_shows fun v hv => hrange.2.2 v hv key ?_ ?_).symm
  · rw [hstart]
    omega
  · rw [hend]
    omega

/-- After the search, the last probe tells where the key is. -/
theorem lostKey_looked (h : Timed subs) (hne : subs ≠ []) (hkey : 0 < key)
    (hsmall : key < 2 ^ 31) (h0 : 0 ≤ s.currentSub) (hi : s.currentSub < subs.length)
    (hnone : ∀ v ∈ subs, v.shows key = false)
    (hcmp : position subs key s.currentSub = .lt ∧
        (∀ l, 0 ≤ l → l < s.currentSub → position subs key l = .gt) ∨
      position subs key s.currentSub = .gt ∧
        ∀ l, s.currentSub < l → l ≤ subs.length - 1 → position subs key l = .lt) :
    Looked s (lostKey s subs key) subs key := by
  have hat := (subtitleAt_of_not_shows hnone).symm
  have hk := unsigned_of_nonneg hkey.le hsmall
  unfold lostKey
  simp only
  rcases hcmp with ⟨hlt, hfront⟩ | ⟨hgt, hback⟩
  · have hbefore := position_lt.mp hlt
    rw [if_pos hbefore]
    split_ifs with hfirst hgap
    · have hzero : s.currentSub = 0 := by omega
      rw [hzero]
      exact ⟨hat, before_ok (s := s) h hne hkey, rfl, le_rfl⟩
    · exact gap_looked h (by omega) (by omega) hkey hsmall hgap
    · -- the key is behind the subtitle in front
      have hprev := hfront (s.currentSub - 1) (by omega) (by omega)
      rw [position_gt (h.start_le_stop (by omega) (by omega))] at hprev
      rw [between, decide_eq_true_eq, Int.sub_add_cancel] at hgap
      exact absurd ⟨hprev, hbefore⟩ hgap
  · have hlast := h.start_le_stop h0 hi
    have hbehind := (position_gt hlast).mp hgt
    rw [if_neg (by omega), if_neg (by omega)]
    split_ifs with hend hgap
    · exact ⟨hat, behind_ok h h0 hi hend, rfl, h0⟩
    · exact gap_looked h h0 (by omega) hkey hsmall hgap
    · have hnext := position_lt.mp (hback (s.currentSub + 1) (by omega) (by omega))
      rw [between, decide_eq_true_eq] at hgap
      exact absurd ⟨hbehind, hnext⟩ hgap

/-- The search looks the key up. -/
theorem searchKey_looked (h : Timed subs) (hne : subs ≠ []) (hkey : 0 < key)
    (hsmall : key < 2 ^ 31) (hrange : RangeOk s subs) :
    Looked s (searchKey s subs key) subs key := by
  have hlen : 0 < subs.length := List.length_pos_iff.mpr hne
  have hord := h.ordered key
  have hinit : Search.Narrowed (position subs key) 0 (subs.length - 1) 0 (subs.length - 1)
      s.currentSub := .init (by omega) _
  rw [searchKey]
  rcases hloop : Search.loop (position subs key) 0 (subs.length - 1) s.currentSub with ⟨found, i⟩
  cases found with
  | true =>
    obtain ⟨h0, hi, hcmp⟩ := Search.loop_found hinit hord hloop
    have hlt : i < subs.length := by omega
    have hmem := nth_mem h0 hlt
    exact ⟨(subtitleAt_of_shows h hmem (position_eq.mp hcmp)).symm, hrange, rfl, h0⟩
  | false =>
    obtain ⟨h0, hi, hcmp⟩ := Search.loop_lost hinit hord hloop
    have hlt : i < subs.length := by omega
    have hnone : ∀ v ∈ subs, v.shows key = false := by
      intro v hv
      obtain ⟨j, hj0, hj, rfl⟩ := exists_nth hv
      rw [← Bool.not_eq_true, ← position_eq]
      exact Search.cmp_ne_eq_of_lost (by omega) hord hloop hj0 (by omega)
    have hlooked := lostKey_looked (s := { s with currentSub := i }) h hne hkey hsmall h0 hlt
      hnone hcmp
    exact ⟨hlooked.voSub, hlooked.range, hlooked.lastSubData, hlooked.place⟩

/-- Trying the next text first looks the key up too. -/
theorem nextSub_looked (h : Timed subs) (hne : subs ≠ []) (hkey : 0 < key) (hsmall : key < 2 ^ 31)
    (hrange : RangeOk s subs) : Looked s (nextSub s subs key) subs key := by
  unfold nextSub
  simp only
  split_ifs with hnext hbetween hshows
  · exact gap_looked h hnext.1 hnext.2 hkey hsmall hbetween
  · have hplace : 0 ≤ s.currentSub + 1 := by omega
    exact ⟨(subtitleAt_of_shows h (nth_mem hplace hnext.2) hshows).symm, hrange, rfl, hplace⟩
  · have hlooked := searchKey_looked (s := { s with currentSub := s.currentSub + 1 }) h hne hkey
      hsmall hrange
    exact ⟨hlooked.voSub, hlooked.range, hlooked.lastSubData, hlooked.place⟩
  · exact searchKey_looked h hne hkey hsmall hrange

/-! ## A call of `find_sub` -/

/-- What is on the screen after a call: what was there if the time is still in it, and the subtitle
of the time otherwise. -/
def display (old : Option Subtitle) (subs : List Subtitle) (key : ℤ) : Option Subtitle :=
  match old.filter fun v => v.shows key with
  | some v => some v
  | none => if key ≤ 0 then none else subtitleAt subs key

/-- The text on the screen stays while it is to be shown. -/
theorem display_of_shows {v : Subtitle} (h : v.shows key = true) :
    display (some v) subs key = some v := by
  rw [display, Option.filter_some, if_pos h]

/-- A key outside of what is on the screen. -/
theorem display_of_not_shows {old : Option Subtitle} (h : ∀ v ∈ old, v.shows key = false) :
    display old subs key = if key ≤ 0 then none else subtitleAt subs key := by
  have hnone : (old.filter fun v => v.shows key) = none := by
    rw [Option.filter_eq_none_iff]
    exact fun v hv => by rw [h v hv]; exact Bool.false_ne_true
  rw [display, hnone]

/-- A range that belongs to the table is kept, and any other one is given up. -/
theorem ofTable_ok (addr : ℕ) (h : s.lastSubData = some addr → RangeOk s subs) :
    RangeOk (s.ofTable addr) subs := by
  unfold FindState.ofTable
  split_ifs with hother
  · simp only [RangeOk]
    refine ⟨le_rfl, by omega, fun v _ key hlo hhi => ?_⟩
    omega
  · exact h (not_not.mp hother)

/-- The table is remembered. -/
theorem lastSubData_ofTable (addr : ℕ) : (s.ofTable addr).lastSubData = some addr := by
  unfold FindState.ofTable
  split_ifs with hother
  · rfl
  · exact not_not.mp hother

/-- The text on the screen does not depend on the table that was searched last. -/
theorem voSub_ofTable (addr : ℕ) : (s.ofTable addr).voSub = s.voSub := by
  unfold FindState.ofTable
  split_ifs <;> rfl

/-- The index of the current text does not depend on the table that was searched last. -/
theorem currentSub_ofTable (addr : ℕ) : (s.ofTable addr).currentSub = s.currentSub := by
  unfold FindState.ofTable
  split_ifs <;> rfl

/-- What still holds on the screen is what belongs there. -/
theorem display_of_settled (hrange : RangeOk s subs) (hsettled : s.settled key = true) :
    display s.voSub subs key = s.voSub := by
  unfold FindState.settled at hsettled
  cases hvo : s.voSub with
  | some v =>
    rw [hvo] at hsettled
    exact display_of_shows hsettled
  | none =>
    rw [hvo] at hsettled
    obtain ⟨hlo, hhi⟩ := of_decide_eq_true hsettled
    rw [display_of_not_shows (fun v hv => by cases hv),
      subtitleAt_of_not_shows fun v hv => hrange.2.2 v hv key hlo hhi, ite_self]

/-- A key that is not settled is looked up, if it is positive. -/
theorem display_of_not_settled (hsettled : ¬ s.settled key = true) :
    display s.voSub subs key = if key ≤ 0 then none else subtitleAt subs key := by
  refine display_of_not_shows fun v hv => ?_
  rw [FindState.settled, Option.mem_def.mp hv, Bool.not_eq_true] at hsettled
  exact hsettled

/-- A call shows what belongs on the screen, and the range that it keeps is without a subtitle. -/
theorem findSub_spec (h : Timed subs) (hne : subs ≠ []) (hsmall : key < 2 ^ 31)
    (hplace : 0 ≤ s.currentSub) (hrange : s.lastSubData = some addr → RangeOk s subs) :
    (findSub s addr subs key).voSub = display s.voSub subs key ∧
      RangeOk (findSub s addr subs key) subs ∧
      (findSub s addr subs key).lastSubData = some addr ∧
      0 ≤ (findSub s addr subs key).currentSub := by
  have hok := ofTable_ok addr hrange
  have hdata := lastSubData_ofTable (s := s) addr
  have hcur : 0 ≤ (s.ofTable addr).currentSub := by
    rw [currentSub_ofTable]
    exact hplace
  rw [← voSub_ofTable (s := s) addr, findSub, if_neg hne]
  simp only
  split_ifs with hsettled hneg
  · exact ⟨(display_of_settled hok hsettled).symm, hok, hdata, hcur⟩
  · rw [display_of_not_settled hsettled, if_pos hneg]
    exact ⟨rfl, hok, hdata, hcur⟩
  · rw [display_of_not_settled hsettled, if_neg hneg]
    have hlooked := nextSub_looked h hne (by omega) hsmall hok
    exact ⟨hlooked.voSub, hlooked.range, hlooked.lastSubData.trans hdata, hlooked.place⟩

end WiiMC.Sub
