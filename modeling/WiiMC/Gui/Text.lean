import WiiMC.Lib.Loop
import WiiMC.Lib.Words
import Mathlib.Algebra.Group.Int.Defs
import Mathlib.Algebra.Group.Nat.Defs

/-!
# Wrapping a text

The loop of `GuiText::Draw` that breaks a text into lines. It fills the buffer of a line, and looks
at its width at each space and at the end of the text; when the line has become too wide, it goes
back to the last space. The column is unsigned, so that the test of it behind a break is true.

* `Wrap`: the variables of the loop, with the indices at which it has written.
* `Wrap.turn`, `wrap`: the loop.
* `exists_wrap`: it ends.
* `Wrap.within`: the states within a line.
* `turn_fits`, `turn_last`, `turn_break`, `turn_wide`, `turn_stuck`: what becomes of a word.
-/

namespace WiiMC.Gui

open Loop Words

/-- A text of wide characters, without its terminator. It has a place in memory, where a character
takes two bytes at least. -/
structure WideText where
  chars : List UInt32
  nonzero : 0 ∉ chars
  short : chars.length < 2 ^ 31

/-- The variables of the loop. `textDyn` has the lines that are finished, so that `linenum` is their
number, and `line` is what stands in the buffer of the next one; `written` has the indices at which
the buffers of the lines have been written. -/
structure Wrap where
  n : ℕ
  ch : ℕ
  lastSpace : ℤ
  lastSpaceIndex : ℤ
  textDyn : List (List UInt32)
  line : List UInt32
  written : List ℤ
  deriving DecidableEq

/-- An unsigned number as an `int`. -/
def toInt (n : ℕ) : ℤ := if n < 2 ^ 31 then n else n - 2 ^ 32

variable (width : List UInt32 → ℤ) (maxWidth : ℤ) (text : WideText)

namespace Wrap

def start : Wrap := ⟨0, 0, -1, -1, [], [], []⟩

/-- The character and the end of the line are written; in the first column the buffer is new. -/
def put (s : Wrap) : Wrap :=
  { s with
    line := (if s.n = 0 then [] else s.line).take s.n ++ [text.chars.getD s.ch 0]
    written := s.written ++ [(s.n : ℤ), (((s.n + 1) % 2 ^ 32 : ℕ) : ℤ)] }

/-- `textDyn[linenum][i] = 0`. In front of the buffer it changes nothing of the line. -/
def cut (i : ℤ) (s : Wrap) : Wrap :=
  { s with line := if 0 ≤ i then s.line.take i.toNat else s.line, written := s.written ++ [i] }

/-- `++linenum`. -/
def nextLine (s : Wrap) : Wrap := { s with textDyn := s.textDyn ++ [s.line], line := [] }

/-- The test of the width. -/
def check (s : Wrap) : Wrap :=
  if text.chars.getD s.ch 0 = 32 ∨ s.ch = text.chars.length - 1 then
    if width s.line > maxWidth then
      let s :=
        if 0 ≤ s.lastSpace then
          { s.cut s.lastSpaceIndex with
            ch := s.lastSpace.toNat, lastSpace := -1, lastSpaceIndex := -1 }
        else s
      { s.nextLine with n := 2 ^ 32 - 1 }
    else if s.ch = text.chars.length - 1 then s.nextLine
    else s
  else s

/-- The last space; `n >= 0` is true of every unsigned number. -/
def mark (s : Wrap) : Wrap :=
  if text.chars.getD s.ch 0 = 32 ∧ 0 ≤ s.n then
    { s with lastSpace := toInt s.ch, lastSpaceIndex := toInt s.n }
  else s

def advance (s : Wrap) : Wrap :=
  { s with ch := (s.ch + 1) % 2 ^ 32, n := (s.n + 1) % 2 ^ 32 }

/-- One turn of the loop. -/
def turn (s : Wrap) : Wrap := (((s.put text).check width maxWidth text).mark text).advance

/-- The condition of the loop. -/
def Running (s : Wrap) : Prop := s.ch < text.chars.length ∧ s.textDyn.length < 20

/-- Whether the loop is running is decided by its position. -/
instance : DecidablePred (Running text) := fun _ => inferInstanceAs (Decidable (_ ∧ _))

end Wrap

open Wrap

/-- The loop. As `exists_wrap` shows, it does not turn more often than this. -/
def wrap : Option Wrap :=
  run (Running text) (turn width maxWidth text) (21 * (text.chars.length + 1)) start

/-! ## The end of the loop -/

section Ends

variable {width maxWidth text} {s : Wrap}

/-- Marking a space leaves the lines as they are. -/
@[simp] theorem Wrap.textDyn_mark (s : Wrap) : (s.mark text).textDyn = s.textDyn := by
  unfold mark
  split <;> rfl

/-- Marking a space leaves the position as it is. -/
@[simp] theorem Wrap.ch_mark (s : Wrap) : (s.mark text).ch = s.ch := by
  unfold mark
  split <;> rfl

/-- Marking a space leaves the log of the writes as it is. -/
@[simp] theorem Wrap.written_mark (s : Wrap) : (s.mark text).written = s.written := by
  unfold mark
  split <;> rfl

/-- What has been written stays written. -/
theorem mem_written_turn {i : ℤ} (h : i ∈ s.written) :
    i ∈ (turn width maxWidth text s).written := by
  show i ∈ (mark text _).written
  rw [written_mark]
  unfold check
  split_ifs <;> simp only [nextLine, cut, put, List.mem_append, h, true_or]

/-- A turn goes on by one character, or finishes a line. -/
theorem turn_cases (width : List UInt32 → ℤ) (maxWidth : ℤ) (hs : Running text s) :
    (turn width maxWidth text s).textDyn.length = s.textDyn.length ∧
        (turn width maxWidth text s).ch = s.ch + 1 ∨
      (turn width maxWidth text s).textDyn.length = s.textDyn.length + 1 := by
  have hturn : (turn width maxWidth text s).textDyn =
      ((s.put text).check width maxWidth text).textDyn := textDyn_mark _
  have hnext : (turn width maxWidth text s).ch =
      (((s.put text).check width maxWidth text).ch + 1) % 2 ^ 32 :=
    congrArg (fun k => (k + 1) % 2 ^ 32) (ch_mark _)
  have hsame : ((s.put text).check width maxWidth text).textDyn = s.textDyn ∧
        ((s.put text).check width maxWidth text).ch = s.ch ∨
      ((s.put text).check width maxWidth text).textDyn.length = s.textDyn.length + 1 := by
    unfold check
    split_ifs
    all_goals first
      | exact .inl ⟨rfl, rfl⟩
      | exact .inr (by simp only [nextLine, put, cut, List.length_append, List.length_singleton])
  rw [hturn, hnext]
  refine hsame.imp (fun h => ⟨congrArg List.length h.1, ?_⟩) id
  have hshort := text.short
  have hlt := hs.1
  rw [h.2, Nat.mod_eq_of_lt (by omega)]

/-- Every text is wrapped: there are twenty lines at most, and each goes through the text once. -/
theorem exists_wrap (width : List UInt32 → ℤ) (maxWidth : ℤ) (text : WideText) :
    ∃ s, wrap width maxWidth text = some s := by
  let m : Wrap → ℕ := fun s =>
    (20 - s.textDyn.length) * (text.chars.length + 1) + (text.chars.length - s.ch)
  refine exists_run m (fun s hs => ?_) ?_
  · have hlines := hs.2
    have hch := hs.1
    obtain ⟨hsame, hnext⟩ | hmore := turn_cases width maxWidth hs
    · show _ * _ + _ < _ * _ + _
      rw [hsame, hnext]
      omega
    · show _ * _ + _ < _ * _ + _
      obtain ⟨k, hk⟩ : ∃ k, 20 - s.textDyn.length = k + 1 := ⟨19 - s.textDyn.length, by omega⟩
      rw [hmore, hk, show 20 - (s.textDyn.length + 1) = k by omega, Nat.succ_mul]
      omega
  · show 20 * (text.chars.length + 1) + text.chars.length ≤ 21 * (text.chars.length + 1)
    omega

end Ends

/-! ## Within a line -/

/-- The line has begun at the character `p`. Its words up to here are `L`, and `X` is what stands in
its buffer; the last space is the one in front of what comes behind `L`. -/
def Wrap.within (lines : List (List UInt32)) (p : ℕ) (L X : List UInt32) (written : List ℤ) : Wrap :=
  ⟨X.length, p + X.length, (p + L.length : ℕ) - 1, (L.length : ℤ) - 1, lines, X, written⟩

/-- All that has been written has been written in the buffer. -/
def InBuffer (text : WideText) (written : List ℤ) : Prop :=
  ∀ i ∈ written, 0 ≤ i ∧ i ≤ text.chars.length

section Chunks

variable {width maxWidth text} {lines : List (List UInt32)} {pre L X u rest : List UInt32} {c : UInt32}
  {written : List ℤ}

/-- A small number is not negative as an `int`. -/
theorem toInt_of_lt {n : ℕ} (h : n < 2 ^ 31) : toInt n = n := if_pos h

/-- Inside of the text the loop is running. -/
theorem running_within (h : text.chars = pre ++ X ++ c :: rest) (hlines : lines.length < 20) :
    Running text (within lines pre.length L X written) := by
  refine ⟨?_, hlines⟩
  rw [h]
  simp only [within, List.length_append, List.length_cons]
  omega

/-- The state when the character `c` has been written behind `X`. -/
def Wrap.filled (lines : List (List UInt32)) (p : ℕ) (L X : List UInt32) (c : UInt32)
    (written : List ℤ) : Wrap :=
  ⟨X.length, p + X.length, (p + L.length : ℕ) - 1, (L.length : ℤ) - 1, lines, X ++ [c],
    written ++ [(X.length : ℤ), (X.length + 1 : ℕ)]⟩

/-- The next character is the one at the position. -/
theorem getD_within (h : text.chars = pre ++ X ++ c :: rest) :
    text.chars.getD (pre.length + X.length) 0 = c := by
  rw [h, List.getD_eq_getElem?_getD, ← List.length_append, List.getElem?_append_right le_rfl,
    Nat.sub_self]
  rfl

/-- The text is what has been read and what follows. -/
theorem length_within (h : text.chars = pre ++ X ++ c :: rest) :
    text.chars.length = pre.length + X.length + 1 + rest.length := by
  rw [h]
  simp only [List.length_append, List.length_cons]
  omega

/-- The next character is written behind the line. -/
theorem put_within (lines : List (List UInt32)) (L : List UInt32) (written : List ℤ)
    (h : text.chars = pre ++ X ++ c :: rest) :
    (within lines pre.length L X written).put text = filled lines pre.length L X c written := by
  have hshort := text.short
  have hlen := length_within h
  have hline : (if (within lines pre.length L X written).n = 0 then []
      else (within lines pre.length L X written).line).take (within lines pre.length L X written).n =
      X := by
    split_ifs with hX
    · obtain rfl := List.length_eq_zero_iff.mp hX
      rfl
    · exact List.take_length
  have hmod : ((within lines pre.length L X written).n + 1) % 2 ^ 32 = X.length + 1 :=
    Nat.mod_eq_of_lt (show X.length + 1 < 2 ^ 32 by omega)
  have hchar : text.chars.getD (within lines pre.length L X written).ch 0 = c := getD_within h
  rw [Wrap.put, hline, hchar, hmod]
  rfl

/-- A character and the end behind it are in the buffer. -/
theorem InBuffer.put (h : text.chars = pre ++ X ++ c :: rest) (hwritten : InBuffer text written) :
    InBuffer text (written ++ [(X.length : ℤ), (X.length + 1 : ℕ)]) := by
  have hlen := length_within h
  intro i hi
  rw [List.mem_append] at hi
  obtain hi | hi := hi
  · exact hwritten i hi
  · simp only [List.mem_cons, List.not_mem_nil, or_false] at hi
    omega

/-- Within a word nothing else happens. -/
theorem turn_plain (width : List UInt32 → ℤ) (maxWidth : ℤ) (lines : List (List UInt32))
    (L : List UInt32) (written : List ℤ) (h : text.chars = pre ++ X ++ c :: rest) (hc : c ≠ 32) (hrest : rest ≠ []) :
    turn width maxWidth text (within lines pre.length L X written) =
      within lines pre.length L (X ++ [c]) (written ++ [(X.length : ℤ), (X.length + 1 : ℕ)]) := by
  have hshort := text.short
  have hlen := length_within h
  have hpos := List.length_pos_iff.mpr hrest
  have hcheck : (filled lines pre.length L X c written).check width maxWidth text =
      filled lines pre.length L X c written := by
    rw [check, if_neg]
    simp only [filled, getD_within h, hc, false_or]
    omega
  have hmark : (filled lines pre.length L X c written).mark text =
      filled lines pre.length L X c written := by
    rw [mark, if_neg]
    simp only [filled, getD_within h, hc, false_and, not_false_eq_true]
  rw [turn, put_within _ _ _ h, hcheck, hmark]
  simp only [advance, filled, within, List.length_append, List.length_singleton]
  rw [Nat.mod_eq_of_lt (by omega), Nat.mod_eq_of_lt (by omega), Nat.add_assoc]

/-- A word is written behind the line. -/
theorem reaches_word (width : List UInt32 → ℤ) (maxWidth : ℤ) (L : List UInt32) (hu : 32 ∉ u)
    (h : text.chars = pre ++ X ++ (u ++ c :: rest))
    (hlines : lines.length < 20) (hwritten : InBuffer text written) :
    ∃ written', InBuffer text written' ∧
      Reaches (Running text) (turn width maxWidth text) (within lines pre.length L X written)
        (within lines pre.length L (X ++ u) written') := by
  induction u generalizing X written with
  | nil => exact ⟨written, hwritten, by rw [List.append_nil]; exact .refl _⟩
  | cons d u ih =>
    rw [List.mem_cons, not_or] at hu
    have hturn := turn_plain width maxWidth lines L written h (Ne.symm hu.1) (by simp)
    obtain ⟨written', hwritten', hreach⟩ := ih (X := X ++ [d]) hu.2 (by rw [h]; simp) (hwritten.put h)
    refine ⟨written', hwritten', .turn (running_within h hlines) ?_⟩
    rw [hturn]
    rwa [List.append_assoc, List.singleton_append] at hreach

/-! ## The end of a word -/

/-- The whole text has been wrapped. -/
structure Ended (text : WideText) (lines : List (List UInt32)) (s : Wrap) : Prop where
  textDyn : s.textDyn = lines
  ch : s.ch = text.chars.length
  written : InBuffer text s.written

/-- A loop that has ended is not running. -/
theorem Ended.not_running {s : Wrap} (h : Ended text lines s) : ¬Running text s := fun hs =>
  Nat.lt_irrefl _ (h.ch ▸ hs.1)

/-- The word fits behind the line, and is not the last one. -/
theorem turn_fits (h : text.chars = pre ++ X ++ 32 :: rest) (hrest : rest ≠ [])
    (hfits : width (X ++ [32]) ≤ maxWidth) :
    turn width maxWidth text (within lines pre.length L X written) =
      within lines pre.length (X ++ [32]) (X ++ [32])
        (written ++ [(X.length : ℤ), (X.length + 1 : ℕ)]) := by
  have hshort := text.short
  have hlen := length_within h
  have hpos := List.length_pos_iff.mpr hrest
  have hcheck : (filled lines pre.length L X 32 written).check width maxWidth text =
      filled lines pre.length L X 32 written := by
    have hchar : text.chars.getD (filled lines pre.length L X 32 written).ch 0 = 32 := getD_within h
    have hnarrow : ¬width (filled lines pre.length L X 32 written).line > maxWidth :=
      Int.not_lt.mpr hfits
    rw [check, if_pos (.inl hchar), if_neg hnarrow, if_neg]
    show ¬pre.length + X.length = _
    omega
  have hmark : (filled lines pre.length L X 32 written).mark text =
      { filled lines pre.length L X 32 written with
        lastSpace := (pre.length + X.length : ℕ), lastSpaceIndex := (X.length : ℤ) } := by
    have hchar : text.chars.getD (filled lines pre.length L X 32 written).ch 0 = 32 := getD_within h
    rw [mark, if_pos ⟨hchar, Nat.zero_le _⟩]
    simp only [filled]
    rw [toInt_of_lt (by omega), toInt_of_lt (by omega)]
  rw [turn, put_within _ _ _ h, hcheck, hmark]
  simp only [advance, filled, within, List.length_append, List.length_singleton]
  rw [Nat.mod_eq_of_lt (by omega), Nat.mod_eq_of_lt (by omega), Wrap.mk.injEq]
  refine ⟨rfl, by omega, by omega, by omega, rfl, rfl, rfl⟩

/-- The last word fits behind the line. -/
theorem turn_last (h : text.chars = pre ++ X ++ [c]) (hfits : width (X ++ [c]) ≤ maxWidth)
    (hwritten : InBuffer text written) :
    Ended text (lines ++ [X ++ [c]])
      (turn width maxWidth text (within lines pre.length L X written)) := by
  have hshort := text.short
  have hlen := length_within h
  rw [List.length_nil, Nat.add_zero] at hlen
  have hcheck : (filled lines pre.length L X c written).check width maxWidth text =
      (filled lines pre.length L X c written).nextLine := by
    have hch : (filled lines pre.length L X c written).ch = text.chars.length - 1 := by
      show pre.length + X.length = _
      omega
    have hnarrow : ¬width (filled lines pre.length L X c written).line > maxWidth :=
      Int.not_lt.mpr hfits
    rw [check, if_pos (.inr hch), if_neg hnarrow, if_pos hch]
  rw [turn, put_within _ _ _ h, hcheck]
  refine ⟨textDyn_mark _, ?_, (congrArg _ (written_mark _)).mpr (hwritten.put h)⟩
  show (Wrap.ch (mark text _) + 1) % 2 ^ 32 = _
  rw [ch_mark]
  exact (Nat.mod_eq_of_lt (show pre.length + X.length + 1 < 2 ^ 32 by omega)).trans hlen.symm

/-- The column in front of the first one. -/
theorem toInt_minus_one : toInt (2 ^ 32 - 1) = -1 := by decide

/-- A line that is too wide is finished, where there has been a space: without what is behind it. -/
theorem check_space (lines : List (List UInt32)) (L : List UInt32) (written : List ℤ)
    (h : text.chars = pre ++ X ++ c :: rest) (hend : c = 32 ∨ rest = [])
    (hwide : maxWidth < width (X ++ [c])) (hspace : pre ++ L ≠ []) :
    (filled lines pre.length L X c written).check width maxWidth text =
      { ({ (filled lines pre.length L X c written).cut ((L.length : ℤ) - 1) with
            ch := pre.length + L.length - 1, lastSpace := -1, lastSpaceIndex := -1 } : Wrap).nextLine with
        n := 2 ^ 32 - 1 } := by
  have hlen := length_within h
  have hpos := List.length_pos_iff.mpr hspace
  rw [List.length_append] at hpos
  have htest : text.chars.getD (filled lines pre.length L X c written).ch 0 = 32 ∨
      (filled lines pre.length L X c written).ch = text.chars.length - 1 := by
    refine hend.imp (fun hc => (getD_within h).trans hc) fun hrest => ?_
    show pre.length + X.length = _
    rw [hlen, hrest]
    rfl
  have hback : 0 ≤ (filled lines pre.length L X c written).lastSpace := by
    show (0 : ℤ) ≤ (pre.length + L.length : ℕ) - 1
    omega
  have hch : (filled lines pre.length L X c written).lastSpace.toNat = pre.length + L.length - 1 := by
    show (((pre.length + L.length : ℕ) : ℤ) - 1).toNat = _
    omega
  rw [check, if_pos htest, if_pos (show width (filled lines pre.length L X c written).line > _ from hwide)]
  simp only
  rw [if_pos hback, hch]
  rfl

/-- From a space in the column in front of the first one, the next line begins. -/
theorem advance_mark {q : ℕ} {line : List UInt32} {space index : ℤ} (hq : q < text.chars.length)
    (hspace : text.chars.getD q 0 = 32) :
    ((⟨2 ^ 32 - 1, q, space, index, lines, line, written⟩ : Wrap).mark text).advance =
      ⟨0, q + 1, (q + 1 : ℕ) - 1, -1, lines, line, written⟩ := by
  have hshort := text.short
  rw [mark, if_pos ⟨hspace, Nat.zero_le _⟩, toInt_minus_one,
    toInt_of_lt (show q < 2 ^ 31 by omega)]
  simp only [advance]
  rw [Wrap.mk.injEq]
  refine ⟨rfl, Nat.mod_eq_of_lt (by omega), ?_, rfl, rfl, rfl, rfl⟩
  omega

/-- Behind the line there is no room for the word: the line is broken at its last space, and the next
one begins behind it. -/
theorem turn_break (h : text.chars = pre ++ X ++ c :: rest) (hend : c = 32 ∨ rest = [])
    (hwide : maxWidth < width (X ++ [c])) {L₀ : List UInt32} (hL : L = L₀ ++ [32]) (hX : L <+: X) :
    turn width maxWidth text (within lines pre.length L X written) =
      within (lines ++ [L₀]) (pre ++ L).length [] []
        (written ++ [(X.length : ℤ), (X.length + 1 : ℕ)] ++ [(L₀.length : ℤ)]) := by
  obtain ⟨u, rfl⟩ := hX
  subst hL
  have hlen := length_within h
  have hindex : (((L₀ ++ [32]).length : ℕ) : ℤ) - 1 = L₀.length := by
    rw [List.length_append, List.length_singleton]
    omega
  have hline : (L₀ ++ [32] ++ u ++ [c]).take L₀.length = L₀ := by
    rw [List.append_assoc, List.append_assoc, List.take_left]
  have hch : pre.length + (L₀ ++ [32]).length - 1 = pre.length + L₀.length := by
    rw [List.length_append, List.length_singleton]
    omega
  -- The line is cut at its last space, which the turn before has noted.
  have hcheck := check_space lines (L₀ ++ [32]) written h hend hwide
    (List.append_ne_nil_of_right_ne_nil pre (List.concat_ne_nil 32 L₀))
  rw [hindex, hch] at hcheck
  have hspace : text.chars.getD (pre.length + L₀.length) 0 = 32 :=
    getD_within (h.trans (by simp) : text.chars = pre ++ L₀ ++ 32 :: (u ++ c :: rest))
  rw [turn, put_within _ _ _ h, hcheck]
  simp only [cut, nextLine, filled]
  rw [if_pos (Int.natCast_nonneg _), Int.toNat_natCast, hline, advance_mark _ hspace]
  · simp only [within, List.length_append, List.length_singleton, List.length_nil]
    rw [Wrap.mk.injEq]
    refine ⟨rfl, rfl, ?_, rfl, rfl, rfl, rfl⟩
    omega
  · rw [hlen, List.length_append, List.length_append]
    omega

/-- Before there has been a space a line that is too wide is finished as it is. -/
theorem check_start (h : text.chars = u ++ c :: rest) (hend : c = 32 ∨ rest = [])
    (hwide : maxWidth < width (u ++ [c])) :
    (filled lines 0 [] u c written).check width maxWidth text =
      { (filled lines 0 [] u c written).nextLine with n := 2 ^ 32 - 1 } := by
  have h' : text.chars = [] ++ u ++ c :: rest := h
  have hlen := length_within h'
  have htest : text.chars.getD (filled lines 0 [] u c written).ch 0 = 32 ∨
      (filled lines 0 [] u c written).ch = text.chars.length - 1 := by
    refine hend.imp (fun hc => (getD_within h').trans hc) fun hrest => ?_
    show 0 + u.length = _
    rw [hlen, hrest]
    rfl
  have hnone : ¬0 ≤ (filled lines 0 [] u c written).lastSpace := by
    show ¬(0 : ℤ) ≤ (0 + 0 : ℕ) - 1
    decide
  rw [check, if_pos htest, if_pos (show width (filled lines 0 [] u c written).line > _ from hwide)]
  simp only
  rw [if_neg hnone]

/-- The first word of the text is too wide: it stands on a line of its own, with its space. -/
theorem turn_wide (h : text.chars = u ++ 32 :: rest) (hwide : maxWidth < width (u ++ [32])) :
    turn width maxWidth text (within lines 0 [] u written) =
      within (lines ++ [u ++ [32]]) (u ++ [32]).length [] []
        (written ++ [(u.length : ℤ), (u.length + 1 : ℕ)]) := by
  have h' : text.chars = [] ++ u ++ 32 :: rest := h
  have hlen := length_within h'
  have hput := put_within lines [] written h'
  rw [List.length_nil] at hput hlen
  have hspace : text.chars.getD (0 + u.length) 0 = 32 := getD_within h'
  rw [turn, hput, check_start h (.inl rfl) hwide]
  simp only [nextLine, filled]
  rw [advance_mark (by omega) hspace]
  simp only [within, List.length_append, List.length_singleton, List.length_nil]
  rw [Wrap.mk.injEq]
  refine ⟨rfl, ?_, ?_, rfl, rfl, rfl, rfl⟩ <;> omega

/-- The only word of the text is too wide. -/
theorem turn_wide_last (h : text.chars = u ++ [c]) (hwide : maxWidth < width (u ++ [c]))
    (hwritten : InBuffer text written) :
    Ended text (lines ++ [u ++ [c]]) (turn width maxWidth text (within lines 0 [] u written)) := by
  have h' : text.chars = [] ++ u ++ [c] := h
  have hshort := text.short
  have hlen := length_within h'
  have hput := put_within lines [] written h'
  rw [List.length_nil] at hput hlen
  rw [turn, hput, check_start h (.inr rfl) hwide]
  refine ⟨textDyn_mark _, ?_, (congrArg _ (written_mark _)).mpr (hwritten.put h')⟩
  show (Wrap.ch (mark text _) + 1) % 2 ^ 32 = _
  rw [ch_mark]
  exact (Nat.mod_eq_of_lt (show 0 + u.length + 1 < 2 ^ 32 by omega)).trans hlen.symm

/-- A word at the beginning of another line is too wide: the space that is remembered is the one
before the line, and its column lies in front of the buffer. -/
theorem turn_stuck (h : text.chars = pre ++ u ++ c :: rest) (hend : c = 32 ∨ rest = [])
    (hwide : maxWidth < width (u ++ [c])) (hpre : pre ≠ []) :
    -1 ∈ (turn width maxWidth text (within lines pre.length [] u written)).written := by
  have hcheck := check_space lines [] written h hend hwide
    (by rwa [List.append_nil])
  rw [turn, put_within _ _ _ h, hcheck]
  show -1 ∈ Wrap.written (mark text _)
  rw [written_mark]
  exact List.mem_append_right _ (List.mem_singleton.mpr rfl)

end Chunks

end WiiMC.Gui
