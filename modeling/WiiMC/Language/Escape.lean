import WiiMC.Lib.Bytes

/-!
# Escape sequences of a translation

`expand_escape` of `source/utils/gettext.cpp` copies a text and replaces its escape sequences. It
stores through a cursor `rp`, and some of its cases store without moving the cursor, so that the
next store takes their place.

* `expandEscape`: the function, over what was stored up to `rp` and at `rp`.
* `Token`, `lex`, `unescape`: the text as it is meant.
* `expandEscape_eq`: the tokens that are left.
* `expandEscape_eq_unescape_iff`: nothing is lost exactly where no token is `Lost`.
-/

namespace WiiMC.Language

open Bytes

/-! ## The function -/

/-- The copy: what stands in front of `rp`, and what was stored at `rp` last. -/
structure Cursor where
  done : List UInt8
  here : Option UInt8

/-- `*rp = b`. -/
def Cursor.store (b : UInt8) (c : Cursor) : Cursor := { c with here := some b }

/-- `*rp++ = b`. -/
def Cursor.push (b : UInt8) (c : Cursor) : Cursor := ⟨c.done ++ [b], none⟩

/-- The string that begins at `retval`. -/
def Cursor.string (c : Cursor) : List UInt8 := (c.done ++ c.here.toList).takeWhile (· ≠ 0)

/-- The cases of the `switch` with one letter and one byte. -/
def letterOf (d : UInt8) : Option UInt8 :=
  if d = 34 then some 34
  else if d = 97 then some 7
  else if d = 98 then some 8
  else if d = 102 then some 12
  else if d = 110 then some 10
  else if d = 114 then some 13
  else if d = 116 then some 9
  else if d = 118 then some 11
  else none

def isOctal (d : UInt8) : Bool := 48 ≤ d && d ≤ 55

/-- The value of octal digits, as a `char`. -/
def octalVal (ds : List UInt8) : UInt8 :=
  UInt8.ofNat (ds.foldl (fun n d => n * 8 + (d.toNat - 48)) 0)

/-- The loops of `expand_escape` from `cp` on, where the end of the list is the NUL. An escape
without a case leaves the byte behind the backslash to the loop that copies. -/
def expandFrom : List UInt8 → Cursor → Cursor
  | [], c => c
  | b :: cp, c =>
      if b ≠ 92 then expandFrom cp (c.push b)
      else
        match cp with
        | [] => c.store 92
        | d :: cp' =>
            match letterOf d with
            | some e => expandFrom cp' (c.push e)
            | none =>
                if d = 92 then expandFrom cp' (c.store 92)
                else if isOctal d then
                  match cp' with
                  | [] => c.store (octalVal [d])
                  | e :: cp'' =>
                      if isOctal e then
                        match cp'' with
                        | [] => c.store (octalVal [d, e])
                        | f :: cp''' =>
                            if isOctal f then expandFrom cp''' (c.store (octalVal [d, e, f]))
                            else expandFrom (f :: cp''') (c.store (octalVal [d, e]))
                      else expandFrom (e :: cp'') (c.store (octalVal [d]))
                else expandFrom (d :: cp') (c.store 92)

/-- `expand_escape`. -/
def expandEscape (str : List UInt8) : List UInt8 := ((expandFrom str ⟨[], none⟩).store 0).string

/-! ## What is meant -/

/-- A byte of the text, or an escape sequence. A backslash that begins none stands for itself. -/
inductive Token
  | plain (b : UInt8)
  | letter (b : UInt8)
  | backslash
  | octal (ds : List UInt8)
  | unknown
  deriving DecidableEq

/-- The byte that a token stands for. -/
def Token.value : Token → UInt8
  | .plain b => b
  | .letter b => b
  | .backslash => 92
  | .octal ds => octalVal ds
  | .unknown => 92

/-- The octal digits with which a text begins, three at most, and what follows. -/
def octalDigits (s : List UInt8) : List UInt8 × List UInt8 :=
  let ds := (s.take 3).takeWhile isOctal
  (ds, s.drop ds.length)

/-- The tokens of a text. -/
def lexN : ℕ → List UInt8 → List Token
  | 0, _ => []
  | _ + 1, [] => []
  | n + 1, b :: s =>
      if b ≠ 92 then .plain b :: lexN n s
      else if s.head? = some 92 then .backslash :: lexN n s.tail
      else if (octalDigits s).1 ≠ [] then .octal (octalDigits s).1 :: lexN n (octalDigits s).2
      else
        match s.head?.bind letterOf with
        | some e => .letter e :: lexN n s.tail
        | none => .unknown :: lexN n s

def lex (s : List UInt8) : List Token := lexN s.length s

/-- The C-unescaping of a text. -/
def unescape (s : List UInt8) : List UInt8 := (lex s).map Token.value

/-- The cases that forget to move the cursor. -/
def Token.Lost : Token → Prop
  | .plain _ => False
  | .letter _ => False
  | .backslash => True
  | .octal _ => True
  | .unknown => True

/-- Whether a token is lost is decided by its value. -/
instance (t : Token) : Decidable t.Lost := by
  cases t <;> unfold Token.Lost <;> infer_instance

/-- What is left without them. -/
def surviving (s : List UInt8) : List UInt8 :=
  ((lex s).filter fun t => ¬t.Lost).map Token.value

/-! ## One token after the other -/

/-- More turns than bytes make no difference. -/
theorem lexN_of_le {n : ℕ} {s : List UInt8} (h : s.length ≤ n) : lexN n s = lex s := by
  -- Every token takes a byte at least, so that what is left has turns enough as well.
  suffices hall : ∀ k n m (s : List UInt8), s.length ≤ k → s.length ≤ n → s.length ≤ m →
      lexN n s = lexN m s from hall s.length n s.length s (Nat.le_refl _) h (Nat.le_refl _)
  intro k
  induction k with
  | zero =>
    intro n m s hk _ _
    obtain rfl := List.length_eq_zero_iff.mp (Nat.le_zero.mp hk)
    cases n <;> cases m <;> rfl
  | succ k ih =>
    intro n m s hk hn hm
    cases s with
    | nil => cases n <;> cases m <;> rfl
    | cons b s =>
      rw [List.length_cons] at hk hn hm
      obtain ⟨n, rfl⟩ : ∃ n', n = n' + 1 := ⟨n - 1, by omega⟩
      obtain ⟨m, rfl⟩ : ∃ m', m = m' + 1 := ⟨m - 1, by omega⟩
      have hrest : lexN n s = lexN m s := ih n m s (by omega) (by omega) (by omega)
      have htail : lexN n s.tail = lexN m s.tail := by
        have hle : s.tail.length ≤ s.length := List.length_tail ▸ Nat.sub_le _ _
        exact ih n m s.tail (by omega) (by omega) (by omega)
      have hdigits : lexN n (octalDigits s).2 = lexN m (octalDigits s).2 := by
        have hle : (octalDigits s).2.length ≤ s.length := by
          rw [octalDigits, List.length_drop]
          exact Nat.sub_le _ _
        exact ih n m _ (by omega) (by omega) (by omega)
      simp only [lexN, hrest, htail, hdigits]

/-- The next token is decided by the first bytes. -/
theorem lex_cons (b : UInt8) (s : List UInt8) :
    lex (b :: s) =
      if b ≠ 92 then .plain b :: lex s
      else if s.head? = some 92 then .backslash :: lex s.tail
      else if (octalDigits s).1 ≠ [] then .octal (octalDigits s).1 :: lex (octalDigits s).2
      else
        match s.head?.bind letterOf with
        | some e => .letter e :: lex s.tail
        | none => .unknown :: lex s := by
  have htail : lexN s.length s.tail = lex s.tail := lexN_of_le (List.length_tail ▸ Nat.sub_le _ _)
  have hdigits : lexN s.length (octalDigits s).2 = lex (octalDigits s).2 := by
    refine lexN_of_le ?_
    rw [octalDigits, List.length_drop]
    exact Nat.sub_le _ _
  rw [← htail, ← hdigits]
  rfl

/-- A plain byte survives. -/
theorem surviving_plain {b : UInt8} (hb : b ≠ 92) (s : List UInt8) :
    surviving (b :: s) = b :: surviving s := by
  rw [surviving, lex_cons, if_pos hb]
  rfl

/-- Two backslashes are skipped. -/
theorem surviving_backslash (s : List UInt8) : surviving (92 :: 92 :: s) = surviving s := by
  rw [surviving, lex_cons]
  rfl

/-- An octal escape is skipped. -/
theorem surviving_octal {s : List UInt8} (hs : (octalDigits s).1 ≠ []) :
    surviving (92 :: s) = surviving (octalDigits s).2 := by
  have hhead : s.head? ≠ some 92 := by
    intro hhead
    obtain ⟨t, rfl⟩ := List.head?_eq_some_iff.mp hhead
    exact hs rfl
  rw [surviving, lex_cons, if_neg (by decide), if_neg hhead, if_pos hs]
  rfl

/-- A letter is no octal digit and no backslash. -/
theorem letterOf_facts {d e : UInt8} (h : letterOf d = some e) :
    d ≠ 92 ∧ isOctal d = false ∧ e ≠ 0 := by
  unfold letterOf at h
  split_ifs at h with h1 h2 h3 h4 h5 h6 h7 h8 <;> subst d <;> cases h <;> decide

/-- Without an octal digit there are none. -/
theorem octalDigits_of_not {d : UInt8} (hd : isOctal d = false) (s : List UInt8) :
    octalDigits (d :: s) = ([], d :: s) := by
  simp [octalDigits, hd]

/-- The escape of a letter survives as its byte. -/
theorem surviving_letter {d e : UInt8} (h : letterOf d = some e) (s : List UInt8) :
    surviving (92 :: d :: s) = e :: surviving s := by
  obtain ⟨hback, hoct, -⟩ := letterOf_facts h
  have hhead : (d :: s).head? ≠ some 92 := fun hd => hback (Option.some.inj hd)
  have hbind : (d :: s).head?.bind letterOf = some e := h
  rw [surviving, lex_cons, if_neg (by decide), if_neg hhead, octalDigits_of_not hoct,
    if_neg (by simp), hbind]
  rfl

/-- A backslash that begins no escape is lost, and what follows it is copied. -/
theorem surviving_unknown {d : UInt8} (hletter : letterOf d = none) (hback : d ≠ 92)
    (hoct : isOctal d = false) (s : List UInt8) :
    surviving (92 :: d :: s) = surviving (d :: s) := by
  have hhead : (d :: s).head? ≠ some 92 := fun hd => hback (Option.some.inj hd)
  have hbind : (d :: s).head?.bind letterOf = none := hletter
  rw [surviving, lex_cons, if_neg (by decide), if_neg hhead, octalDigits_of_not hoct,
    if_neg (by simp), hbind]
  rfl

/-- One octal digit that no other follows. -/
theorem octalDigits_one {d : UInt8} (hd : isOctal d = true) {s : List UInt8}
    (hs : ∀ e ∈ s.head?, isOctal e = false) : octalDigits (d :: s) = ([d], s) := by
  cases s with
  | nil => simp [octalDigits, hd]
  | cons e s => simp [octalDigits, hd, hs e rfl]

/-- Two octal digits that no other follows. -/
theorem octalDigits_two {d e : UInt8} (hd : isOctal d = true) (he : isOctal e = true)
    {s : List UInt8} (hs : ∀ f ∈ s.head?, isOctal f = false) :
    octalDigits (d :: e :: s) = ([d, e], s) := by
  cases s with
  | nil => simp [octalDigits, hd, he]
  | cons f s => simp [octalDigits, hd, he, hs f rfl]

/-- No more than three octal digits are taken. -/
theorem octalDigits_three {d e f : UInt8} (hd : isOctal d = true) (he : isOctal e = true)
    (hf : isOctal f = true) (s : List UInt8) :
    octalDigits (d :: e :: f :: s) = ([d, e, f], s) := by
  simp [octalDigits, hd, he, hf]

/-- An octal escape is lost, with all of its digits. -/
theorem surviving_digits {s t ds : List UInt8} (h : octalDigits s = (ds, t)) (hds : ds ≠ []) :
    surviving (92 :: s) = surviving t := by
  have hocc := surviving_octal (s := s) (by rw [h]; exact hds)
  rwa [h] at hocc

/-- What the loops have stored in front of the cursor. -/
theorem done_expandFrom (s : List UInt8) (c : Cursor) :
    (expandFrom s c).done = c.done ++ surviving s := by
  fun_induction expandFrom s c with
  | case1 c => exact (List.append_nil _).symm
  | case2 b cp c hb ih =>
    rw [ih, surviving_plain hb, Cursor.push, List.append_assoc]
    rfl
  | case3 b c hb =>
    -- A backslash at the end of the text.
    obtain rfl := not_not.mp hb
    exact (List.append_nil _).symm
  | case4 b c hb d cp e hletter ih =>
    obtain rfl := not_not.mp hb
    rw [ih, surviving_letter hletter, Cursor.push, List.append_assoc]
    rfl
  | case5 b c hb cp hletter ih =>
    obtain rfl := not_not.mp hb
    rw [ih, surviving_backslash]
    rfl
  | case6 b c hb d _ hback hd =>
    obtain rfl := not_not.mp hb
    rw [surviving_digits (octalDigits_one hd (by simp)) (by simp)]
    exact (List.append_nil _).symm
  | case7 b c hb d _ hback hd e he =>
    obtain rfl := not_not.mp hb
    rw [surviving_digits (octalDigits_two hd he (by simp)) (by simp)]
    exact (List.append_nil _).symm
  | case8 b c hb d _ hback hd e he f cp hf ih =>
    obtain rfl := not_not.mp hb
    rw [ih, surviving_digits (octalDigits_three hd he hf cp) (by simp)]
    rfl
  | case9 b c hb d _ hback hd e he f cp hf ih =>
    obtain rfl := not_not.mp hb
    rw [ih, surviving_digits (octalDigits_two hd he (s := f :: cp) (by simpa using hf)) (by simp)]
    rfl
  | case10 b c hb d _ hback hd e cp he ih =>
    obtain rfl := not_not.mp hb
    rw [ih, surviving_digits (octalDigits_one hd (s := e :: cp) (by simpa using he)) (by simp)]
    rfl
  | case11 b c hb d cp hletter hback hoct ih =>
    obtain rfl := not_not.mp hb
    rw [ih, surviving_unknown hletter hback (Bool.eq_false_iff.mpr hoct)]
    rfl

/-! ## What is lost -/

/-- Pushing a byte adds no zero byte. -/
theorem zero_not_mem_push {c : Cursor} {b : UInt8} (hc : 0 ∉ c.done) (hb : b ≠ 0) :
    0 ∉ (c.push b).done := by
  rw [Cursor.push, List.mem_append, not_or]
  exact ⟨hc, fun h => hb (List.mem_singleton.mp h).symm⟩

/-- The loops put no NUL in front of the cursor. -/
theorem zero_not_mem_expandFrom {s : List UInt8} {c : Cursor} (hs : 0 ∉ s) (hc : 0 ∉ c.done) :
    0 ∉ (expandFrom s c).done := by
  fun_induction expandFrom s c with
  | case1 => exact hc
  | case2 b cp c hb ih =>
    have hs := not_or.mp (mt List.mem_cons.mpr hs)
    exact ih hs.2 (zero_not_mem_push hc (Ne.symm hs.1))
  | case4 b c hb d cp e hletter ih =>
    refine ih (fun h => hs ?_) (zero_not_mem_push hc (letterOf_facts hletter).2.2)
    exact List.mem_cons_of_mem _ (List.mem_cons_of_mem _ h)
  | case3 | case6 | case7 => exact hc
  | case5 | case8 | case9 | case10 | case11 => grind [Cursor.store]

/-- The string that `expand_escape` returns. -/
theorem expandEscape_eq {s : List UInt8} (hs : 0 ∉ s) : expandEscape s = surviving s := by
  have hdone : (expandFrom s ⟨[], none⟩).done = surviving s := done_expandFrom s _
  have hzero : 0 ∉ surviving s := hdone ▸ zero_not_mem_expandFrom hs List.not_mem_nil
  have hkeep : ∀ b ∈ surviving s, decide (b ≠ 0) = true := fun b hb =>
    decide_eq_true fun h0 => hzero (h0 ▸ hb)
  show ((expandFrom s ⟨[], none⟩).done ++ [0]).takeWhile (· ≠ 0) = _
  rw [hdone, List.takeWhile_append_of_pos hkeep]
  exact List.append_nil _

/-- `expand_escape` returns the text as it is meant exactly where no token is lost. -/
theorem expandEscape_eq_unescape_iff {s : List UInt8} (hs : 0 ∉ s) :
    expandEscape s = unescape s ↔ ∀ t ∈ lex s, ¬t.Lost := by
  rw [expandEscape_eq hs]
  constructor
  · intro h
    -- Every token stands for one byte, so that a lost one makes the copy shorter.
    have hlen := congrArg List.length h
    rw [surviving, unescape, List.length_map, List.length_map] at hlen
    intro t ht
    exact of_decide_eq_true (List.filter_eq_self.mp (List.filter_sublist.eq_of_length hlen) t ht)
  · intro h
    rw [surviving, unescape, List.filter_eq_self.mpr fun t ht => decide_eq_true (h t ht)]

example : unescape (ascii "C:\\\\wii\\101\\n\\q") = ascii "C:\\wiiA\n\\q" := by decide +kernel
example : expandEscape (ascii "C:\\\\wii\\101\\n\\q") = ascii "C:wii\nq" := by decide +kernel

end WiiMC.Language
