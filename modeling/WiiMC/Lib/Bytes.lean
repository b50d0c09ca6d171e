import Mathlib.Tactic.Common
import Mathlib.Data.Nat.Digits.Defs
import Mathlib.Data.List.Lex

/-!
# Bytes, C strings and numbers in them

A C string is the list of its bytes before the final 0. The functions are those of the C library
in the C locale; a number that is scanned is an unbounded integer, so that the caller states its
own limit.

* `scanInt`: the decimal integer that `strtol`, `strtoll` and the conversions `%d` of `sscanf`
  read at the start of a string.
* `scanHex`: the number that `strtoull` reads in base 16 at a hexadecimal digit.
* `scanHex_append`, `scanInt_numeral`: digits that nothing but a non-digit follows are read as a
  whole.
* `scanInt_append`: a number ends where a byte stands that no number has.
* `splitAt?`: a string divided at the first occurrence of a byte.
* `findText?`: a string divided at the first occurrence of a text.
* `crlf`: the text of some lines, and `splitOn_crlf`: how it is divided into them again.
* `strcasecmp_sign`: `strcasecmp` is a lexicographic order.
-/

namespace Bytes

/-- The bytes of an ASCII text. -/
def ascii (s : String) : List UInt8 := s.toList.map fun c => UInt8.ofNat c.toNat

/-! ## Classes of bytes -/

def isSpace (c : UInt8) : Bool := c == 32 || (9 ≤ c && c ≤ 13)
def isDigit (c : UInt8) : Bool := 48 ≤ c && c ≤ 57
def isUpper (c : UInt8) : Bool := 65 ≤ c && c ≤ 90
def isLower (c : UInt8) : Bool := 97 ≤ c && c ≤ 122
def isAlnum (c : UInt8) : Bool := isDigit c || isUpper c || isLower c
def isXDigit (c : UInt8) : Bool := isDigit c || (65 ≤ c && c ≤ 70) || (97 ≤ c && c ≤ 102)
def toLower (c : UInt8) : UInt8 := if isUpper c then c + 32 else c

/-- The value of a hexadecimal, or decimal, digit. -/
def digitVal (c : UInt8) : ℕ :=
  if isDigit c then c.toNat - 48 else (toLower c).toNat - 87

/-! ## Comparing and searching -/

/-- `!strcasecmp(s, t)`. -/
def eqNoCase (s t : List UInt8) : Bool := s.map toLower == t.map toLower

/-- `strcasecmp(s, t)`, where a byte 0 ends a string. -/
def strcasecmp : List UInt8 → List UInt8 → ℤ
  | [], [] => 0
  | [], d :: _ => -(toLower d).toNat
  | c :: _, [] => (toLower c).toNat
  | c :: s, d :: t =>
      if toLower c ≠ toLower d then (toLower c).toNat - (toLower d).toNat
      else if d = 0 then 0 else strcasecmp s t

/-- `!strncasecmp(s, p, strlen(p))`. -/
def startsNoCase (s p : List UInt8) : Bool := eqNoCase (s.take p.length) p

/-- `strstr(s, t)` finds something. -/
def contains (s t : List UInt8) : Bool := s.tails.any fun u => t.isPrefixOf u

/-- The part before the first `c`, and the part behind it. -/
def splitAt? (c : UInt8) (s : List UInt8) : Option (List UInt8 × List UInt8) :=
  if c ∈ s then some (s.takeWhile (· != c), (s.dropWhile (· != c)).tail) else none

/-- `strstr(s, t)`: the part before the first `t`, and the part behind it. -/
def findText? (t : List UInt8) : List UInt8 → Option (List UInt8 × List UInt8)
  | [] => if t = [] then some ([], []) else none
  | c :: s =>
      if t.isPrefixOf (c :: s) then some ([], (c :: s).drop t.length)
      else (findText? t s).map fun r => (c :: r.1, r.2)

/-- The part up to and including the last `c`, or everything. -/
def throughLast (c : UInt8) (s : List UInt8) : List UInt8 :=
  if c ∈ s then (s.reverse.dropWhile (· != c)).reverse else s

/-- The string without the bytes `p` at its end. -/
def trimEnd (p : UInt8 → Bool) (s : List UInt8) : List UInt8 := (s.reverse.dropWhile p).reverse

/-! ## Numbers -/

/-- The number written by the digits `ds`. -/
def valOf (base : ℕ) (ds : List UInt8) : ℕ := ds.foldl (fun n c => n * base + digitVal c) 0

/-- `n` in decimal digits. -/
def decimal (n : ℕ) : List UInt8 := (Nat.toDigits 10 n).map fun c => UInt8.ofNat c.toNat

/-- The digits at the start of `s` and what follows, if there is a digit. -/
def scanDigits (s : List UInt8) : Option (ℕ × List UInt8) :=
  if s.takeWhile isDigit = [] then none
  else some (valOf 10 (s.takeWhile isDigit), s.dropWhile isDigit)

/-- Blanks, a sign and digits at the start of `s`, and what follows. -/
def scanInt (s : List UInt8) : Option (ℤ × List UInt8) :=
  match s.dropWhile isSpace with
  | 45 :: t => (scanDigits t).map fun r => (-(r.1 : ℤ), r.2)
  | 43 :: t => (scanDigits t).map fun r => ((r.1 : ℤ), r.2)
  | t => (scanDigits t).map fun r => ((r.1 : ℤ), r.2)

/-- `strtoull(s, &end, 16)` of a string that starts with a hexadecimal digit. -/
def scanHex (s : List UInt8) : ℕ × List UInt8 :=
  match s with
  | 48 :: x :: d :: t =>
      if toLower x == 120 && isXDigit d then
        (valOf 16 ((d :: t).takeWhile isXDigit), (d :: t).dropWhile isXDigit)
      else (valOf 16 (s.takeWhile isXDigit), s.dropWhile isXDigit)
  | _ => (valOf 16 (s.takeWhile isXDigit), s.dropWhile isXDigit)

/-- A 64-bit conversion of `sscanf` stops at the limits. -/
def clamp64 (n : ℤ) : ℤ := max (-2 ^ 63) (min n (2 ^ 63 - 1))

/-- A 32-bit conversion of `sscanf` stops at the limits. -/
def clamp32 (n : ℤ) : ℤ := max (-2 ^ 31) (min n (2 ^ 31 - 1))

/-! ## Lemmas -/

/-- What holds of all numbers below 256 holds of every byte. -/
theorem forall_byte {p : UInt8 → Prop} (h : ∀ n < 256, p (UInt8.ofNat n)) (c : UInt8) : p c := by
  have hbyte := h c.toNat c.toNat_lt
  rwa [UInt8.ofNat_toNat] at hbyte

/-- What a byte other than `p` starts is left by both. -/
theorem takeWhile_append_head {p : UInt8 → Bool} {t : List UInt8}
    (ht : ∀ c ∈ t.head?, p c = false) (s : List UInt8) :
    (s ++ t).takeWhile p = s.takeWhile p ∧ (s ++ t).dropWhile p = s.dropWhile p ++ t := by
  have htake : t.takeWhile p = [] ∧ t.dropWhile p = t := by
    cases t with
    | nil => exact ⟨rfl, rfl⟩
    | cons c t => simp [ht c rfl]
  rw [List.takeWhile_append, List.dropWhile_append, htake.1, htake.2]
  refine ⟨?_, ?_⟩
  · split_ifs with hall
    · rw [List.append_nil, (List.takeWhile_prefix p).eq_of_length hall]
    · rfl
  · split_ifs with hnil
    · rw [List.isEmpty_iff.mp hnil, List.nil_append]
    · rfl

/-- A text that ends before the first byte other than `p`. -/
theorem span_append {p : UInt8 → Bool} {s t : List UInt8} (hs : ∀ c ∈ s, p c = true)
    (ht : ∀ c ∈ t.head?, p c = false) :
    (s ++ t).takeWhile p = s ∧ (s ++ t).dropWhile p = t := by
  obtain ⟨htake, hdrop⟩ := takeWhile_append_head ht []
  rw [List.nil_append] at htake hdrop
  rw [List.takeWhile_append_of_pos hs, List.dropWhile_append_of_pos hs, htake, hdrop]
  exact ⟨List.append_nil s, rfl⟩

/-- The bytes in front of the first `c` have none. -/
theorem not_mem_takeWhile (s : List UInt8) (c : UInt8) : c ∉ s.takeWhile (· != c) := fun h =>
  bne_iff_ne.mp (List.all_eq_true.mp (List.all_takeWhile (p := (· != c))) c h) rfl

/-- A text that ends before the first byte `c`. -/
theorem span_of_not_mem {c : UInt8} {s t : List UInt8} (hs : c ∉ s) (ht : ∀ d ∈ t.head?, d = c) :
    (s ++ t).takeWhile (· != c) = s ∧ (s ++ t).dropWhile (· != c) = t :=
  span_append (fun _ hd => bne_iff_ne.mpr fun heq => hs (heq ▸ hd))
    fun d hd => bne_eq_false_iff_eq.mpr (ht d hd)

/-- A text without a `c` is all in front of it. -/
theorem takeWhile_of_not_mem {c : UInt8} {s : List UInt8} (hs : c ∉ s) :
    s.takeWhile (· != c) = s := by
  have hspan := (span_of_not_mem (t := []) hs nofun).1
  rwa [List.append_nil] at hspan

/-- A hexadecimal digit is not the `x` of a prefix. -/
theorem toLower_ne_x {c : UInt8} (h : isXDigit c = true) : toLower c ≠ 120 :=
  forall_byte (p := fun c => isXDigit c = true → toLower c ≠ 120) (by decide +kernel) c h

/-- Digits that nothing but a non-digit other than `x` follows are read as a whole. -/
theorem scanHex_append {ds t : List UInt8} (hds : ∀ c ∈ ds, isXDigit c = true)
    (ht : ∀ c ∈ t.head?, isXDigit c = false ∧ toLower c ≠ 120) :
    scanHex (ds ++ t) = (valOf 16 ds, t) := by
  obtain ⟨htake, hdrop⟩ := span_append hds fun c hc => (ht c hc).1
  unfold scanHex
  split
  · rename_i x d u heq
    have hx : toLower x ≠ 120 := by
      rcases ds with _ | ⟨c, _ | ⟨c', ds⟩⟩
      · rw [List.nil_append] at heq
        exact absurd (ht 48 (by rw [heq]; rfl)).1 (by decide)
      · simp only [List.cons_append, List.nil_append, List.cons.injEq] at heq
        exact (ht x (by rw [heq.2]; rfl)).2
      · simp only [List.cons_append, List.cons.injEq] at heq
        exact heq.2.1 ▸ toLower_ne_x (hds c' (by simp))
    rw [beq_eq_false_iff_ne.mpr hx, Bool.false_and, if_neg (by decide), htake, hdrop]
  · rw [htake, hdrop]

/-- A string that does not end with a byte to trim is kept. -/
theorem trimEnd_eq_self {p : UInt8 → Bool} {s : List UInt8}
    (hs : ∀ c ∈ s.getLast?, p c = false) : trimEnd p s = s := by
  rw [← List.head?_reverse] at hs
  rw [trimEnd]
  rcases hrev : s.reverse with _ | ⟨c, t⟩
  · exact (List.reverse_eq_nil_iff.mp hrev).symm
  · rw [hrev] at hs
    rw [List.dropWhile_cons_of_neg (by rw [hs c rfl]; exact Bool.false_ne_true), ← hrev,
      List.reverse_reverse]

/-- A last byte that is to be trimmed makes no difference. -/
theorem trimEnd_concat {p : UInt8 → Bool} {c : UInt8} (hc : p c = true) (s : List UInt8) :
    trimEnd p (s ++ [c]) = trimEnd p s := by
  rw [trimEnd, trimEnd, List.reverse_append, List.reverse_singleton, List.singleton_append,
    List.dropWhile_cons_of_pos hc]

/-- A decimal digit is no blank and no sign. -/
theorem isDigit_facts {c : UInt8} (h : isDigit c = true) :
    isSpace c = false ∧ c ≠ 45 ∧ c ≠ 43 :=
  forall_byte (p := fun c => isDigit c = true → isSpace c = false ∧ c ≠ 45 ∧ c ≠ 43)
    (by decide +kernel) c h

/-- A letter or a digit is no blank and no control character. -/
theorem isAlnum_safe {c : UInt8} (h : isAlnum c = true) : 32 ≤ c ∧ c ≠ 127 :=
  forall_byte (p := fun c => isAlnum c = true → 32 ≤ c ∧ c ≠ 127) (by decide +kernel) c h

/-- The decimal digits `ds` write the number `n`. -/
structure Numeral (ds : List UInt8) (n : ℕ) : Prop where
  ne : ds ≠ []
  digits : ∀ c ∈ ds, isDigit c = true
  val : valOf 10 ds = n

/-- Some digits are a numeral of their value. -/
theorem Numeral.of_all {ds : List UInt8} {n : ℕ} (hne : ds ≠ []) (hall : ds.all isDigit = true)
    (hval : valOf 10 ds = n) : Numeral ds n :=
  ⟨hne, List.all_eq_true.mp hall, hval⟩

/-- A numeral that is not followed by a digit is read. -/
theorem scanDigits_numeral {ds t : List UInt8} {n : ℕ} (hds : Numeral ds n)
    (ht : ∀ c ∈ t.head?, isDigit c = false) : scanDigits (ds ++ t) = some (n, t) := by
  obtain ⟨htake, hdrop⟩ := span_append hds.digits ht
  rw [scanDigits, htake, hdrop, if_neg hds.ne, hds.val]

/-- Decimal digits that nothing but a non-digit follows are read as a whole. -/
theorem scanInt_numeral {ds t : List UInt8} {n : ℕ} (hds : Numeral ds n)
    (ht : ∀ c ∈ t.head?, isDigit c = false) : scanInt (ds ++ t) = some ((n : ℤ), t) := by
  have hscan := scanDigits_numeral hds ht
  obtain ⟨c, ds', rfl⟩ := List.exists_cons_of_ne_nil hds.ne
  obtain ⟨hspace, hminus, hplus⟩ := isDigit_facts (hds.digits c List.mem_cons_self)
  have hdrop : (c :: ds' ++ t).dropWhile isSpace = c :: ds' ++ t := by
    simp [hspace]
  unfold scanInt
  rw [hdrop]
  split
  · next heq => exact absurd (List.cons.inj heq).1 hminus
  · next heq => exact absurd (List.cons.inj heq).1 hplus
  · rw [hscan]
    rfl

/-- What ends a number ends the number at the end of a text, too. -/
theorem scanDigits_append {t : List UInt8} (ht : ∀ c ∈ t.head?, isDigit c = false)
    (s : List UInt8) : scanDigits (s ++ t) = (scanDigits s).map fun r => (r.1, r.2 ++ t) := by
  obtain ⟨htake, hdrop⟩ := takeWhile_append_head ht s
  rw [scanDigits, scanDigits, htake, hdrop]
  split_ifs
  · rfl
  · rfl

/-- A byte that can stand in a number or in front of it. -/
def inNumber (c : UInt8) : Bool := isSpace c || isDigit c || c == 45 || c == 43

/-- A number is scanned as it is without what ends it. -/
theorem scanInt_append {t : List UInt8} (ht : ∀ c ∈ t.head?, inNumber c = false) (s : List UInt8) :
    scanInt (s ++ t) = (scanInt s).map fun r => (r.1, r.2 ++ t) := by
  have hall : ∀ c ∈ t.head?, isSpace c = false ∧ isDigit c = false ∧ c ≠ 45 ∧ c ≠ 43 := by
    intro c hc
    have hno := ht c hc
    simp only [inNumber, Bool.or_eq_false_iff, beq_eq_false_iff_ne] at hno
    exact ⟨hno.1.1.1, hno.1.1.2, hno.1.2, hno.2⟩
  have hdigit : ∀ c ∈ t.head?, isDigit c = false := fun c hc => (hall c hc).2.1
  have hspace : ∀ c ∈ t.head?, isSpace c = false := fun c hc => (hall c hc).1
  rw [scanInt, scanInt, (takeWhile_append_head hspace s).2]
  rcases s.dropWhile isSpace with _ | ⟨c, w⟩
  · -- nothing but blanks: neither is a number
    have hscan : scanDigits t = none := (scanDigits_append hdigit []).trans rfl
    rw [List.nil_append]
    split
    · exact absurd rfl (hall 45 rfl).2.2.1
    · exact absurd rfl (hall 43 rfl).2.2.2
    · rw [hscan]
      rfl
  · rw [List.cons_append]
    by_cases hminus : c = 45
    · subst hminus
      simp only [scanDigits_append hdigit, Option.map_map]
      rfl
    by_cases hplus : c = 43
    · subst hplus
      simp only [scanDigits_append hdigit, Option.map_map]
      rfl
    split
    · next heq => exact absurd (List.cons.inj heq).1 hminus
    · next heq => exact absurd (List.cons.inj heq).1 hplus
    rw [← List.cons_append, scanDigits_append hdigit]
    split
    · next heq => exact absurd (List.cons.inj heq).1 hminus
    · next heq => exact absurd (List.cons.inj heq).1 hplus
    rw [Option.map_map, Option.map_map]
    rfl

/-- Blanks in front of a number are skipped. -/
theorem scanInt_blank (t : List UInt8) : scanInt (32 :: t) = scanInt t := rfl

/-- A printed number has digits only. -/
theorem isDigit_of_mem_decimal {n : ℕ} {c : UInt8} (hc : c ∈ decimal n) : isDigit c = true := by
  obtain ⟨d, hd, rfl⟩ := List.mem_map.mp hc
  have hdigit := Nat.isDigit_of_mem_toDigits (b := 10) (by decide) (by decide) hd
  rw [Char.isDigit, Bool.and_eq_true, decide_eq_true_eq, decide_eq_true_eq] at hdigit
  have hlo : 48 ≤ d.toNat := hdigit.1
  have hhi : d.toNat ≤ 57 := hdigit.2
  simp only [isDigit, Bool.and_eq_true, decide_eq_true_eq, UInt8.le_iff_toNat_le, UInt8.toNat_ofNat,
    UInt8.toNat_ofNat']
  omega

/-- One more digit multiplies the value by the base. -/
theorem valOf_concat (b : ℕ) (ds : List UInt8) (c : UInt8) :
    valOf b (ds ++ [c]) = valOf b ds * b + digitVal c := by
  rw [valOf, List.foldl_append]
  rfl

/-- The character of a digit has the value of the digit. -/
theorem digitVal_digitChar {n : ℕ} (hn : n < 10) :
    digitVal (UInt8.ofNat n.digitChar.toNat) = n := by
  have hall : ∀ n < 10, digitVal (UInt8.ofNat n.digitChar.toNat) = n := by decide
  exact hall n hn

/-- The digits of a number have its value. -/
theorem valOf_decimal (n : ℕ) : valOf 10 (decimal n) = n := by
  induction n using Nat.strongRecOn with
  | ind n ih =>
      by_cases hn : n < 10
      · rw [decimal, Nat.toDigits_of_lt_base hn]
        exact (Nat.zero_add _).trans (digitVal_digitChar hn)
      · rw [not_lt] at hn
        have hrec := ih (n / 10) (by omega)
        rw [decimal] at hrec ⊢
        rw [Nat.toDigits_of_base_le (by decide) hn, List.map_append, List.map_singleton,
          valOf_concat, hrec, digitVal_digitChar (Nat.mod_lt n (by decide))]
        omega

/-- A printed number is a numeral of it. -/
theorem numeral_decimal (n : ℕ) : Numeral (decimal n) n where
  ne := by
    rw [decimal, Ne, List.map_eq_nil_iff]
    exact Nat.toDigits_ne_nil
  digits _ := isDigit_of_mem_decimal
  val := valOf_decimal n

/-- `%d`. -/
def decimalInt (i : ℤ) : List UInt8 := if i < 0 then 45 :: decimal i.natAbs else decimal i.natAbs

/-- A printed integer is read again. -/
theorem scanInt_decimalInt (i : ℤ) : scanInt (decimalInt i) = some (i, []) := by
  have hnum := numeral_decimal i.natAbs
  rw [decimalInt]
  split_ifs with hi
  · have hscan := scanDigits_numeral (t := []) hnum (by simp)
    rw [List.append_nil] at hscan
    have hdrop : (45 :: decimal i.natAbs).dropWhile isSpace = 45 :: decimal i.natAbs := by
      rw [List.dropWhile_cons_of_neg]
      decide
    rw [scanInt, hdrop]
    simp only [hscan, Option.map_some]
    rw [Int.ofNat_natAbs_of_nonpos hi.le, neg_neg]
  · have hscan := scanInt_numeral (t := []) hnum (by simp)
    rw [List.append_nil] at hscan
    rw [hscan, Int.natAbs_of_nonneg (not_lt.mp hi)]

/-- A number below `10 ^ k` has at most `k` digits. -/
theorem length_decimal_le {n k : ℕ} (hk : 0 < k) (hn : n < 10 ^ k) : (decimal n).length ≤ k := by
  rw [decimal, List.length_map]
  exact (Nat.length_toDigits_le_iff (by decide) hk).mpr hn

/-- The byte that divides a string is the first one of its kind. -/
theorem splitAt?_append {c : UInt8} {s : List UInt8} (hs : c ∉ s) (t : List UInt8) :
    splitAt? c (s ++ c :: t) = some (s, t) := by
  have hhead : ∀ d ∈ (c :: t).head?, d = c := fun _ hd => (Option.some.inj hd).symm
  obtain ⟨htake, hdrop⟩ := span_of_not_mem hs hhead
  rw [splitAt?, if_pos (List.mem_append_right s List.mem_cons_self), htake, hdrop]
  rfl

/-- `t` stands in `s` between `a` and `b`, and nowhere before. -/
def First (t s a b : List UInt8) : Prop :=
  s = a ++ t ++ b ∧ ∀ a' b', s = a' ++ t ++ b' → a.length ≤ a'.length

/-- `findText?` finds the first place of the text. -/
theorem first_of_findText? {t s a b : List UInt8} (h : findText? t s = some (a, b)) :
    First t s a b := by
  induction s generalizing a with
  | nil =>
      rw [findText?] at h
      split_ifs at h with ht
      cases h
      exact ⟨by rw [ht]; rfl, fun _ _ _ => Nat.zero_le _⟩
  | cons c s ih =>
      rw [findText?] at h
      split_ifs at h with hfront
      · cases h
        exact ⟨(List.prefix_iff_eq_append.mp (List.isPrefixOf_iff_prefix.mp hfront)).symm,
          fun _ _ _ => Nat.zero_le _⟩
      · obtain ⟨⟨a₁, b₁⟩, hrest, hab⟩ := Option.map_eq_some_iff.mp h
        cases hab
        obtain ⟨rfl, hfirst⟩ := ih hrest
        refine ⟨rfl, fun a' b' heq => ?_⟩
        cases a' with
        | nil =>
            refine absurd (List.isPrefixOf_iff_prefix.mpr ?_) hfront
            exact ⟨b', by rw [heq]; rfl⟩
        | cons c' a' =>
            rw [List.cons_append, List.cons_append, List.cons.injEq] at heq
            exact Nat.succ_le_succ (hfirst a' b' heq.2)

/-- Where `findText?` finds nothing, the text is no part of the other one. -/
theorem not_mem_of_findText? {t s : List UInt8} (h : findText? t s = none) (a b : List UInt8) :
    s ≠ a ++ t ++ b := by
  induction s generalizing a with
  | nil =>
      rw [findText?] at h
      split_ifs at h with ht
      intro heq
      simp at heq
      exact ht heq.2.1
  | cons c s ih =>
      rw [findText?] at h
      split_ifs at h with hfront
      intro heq
      cases a with
      | nil => exact hfront (List.isPrefixOf_iff_prefix.mpr ⟨b, by rw [heq]; rfl⟩)
      | cons c' a =>
          rw [List.cons_append, List.cons_append, List.cons.injEq] at heq
          exact ih (Option.map_eq_none_iff.mp h) a heq.2

/-- A text is found where it stands first. -/
theorem findText?_eq_some_iff {t s a b : List UInt8} :
    findText? t s = some (a, b) ↔ First t s a b := by
  refine ⟨first_of_findText?, fun ⟨heq, hfirst⟩ => ?_⟩
  cases h : findText? t s with
  | none => exact absurd heq (not_mem_of_findText? h a b)
  | some r =>
      obtain ⟨a₁, b₁⟩ := r
      obtain ⟨heq₁, hfirst₁⟩ := first_of_findText? h
      have hlen : a₁.length = a.length := le_antisymm (hfirst₁ a b heq) (hfirst a₁ b₁ heq₁)
      have happend : a₁ ++ (t ++ b₁) = a ++ (t ++ b) := by
        rw [← List.append_assoc, ← List.append_assoc, ← heq₁, ← heq]
      obtain ⟨rfl, htail⟩ := List.append_inj happend hlen
      rw [List.append_cancel_left htail]

/-! ## Lines -/

/-- The text of some lines, each with a carriage return and a line feed behind it. -/
def crlf (lines : List (List UInt8)) : List UInt8 := lines.flatMap fun l => l ++ [13, 10]

@[simp]
theorem crlf_nil : crlf [] = [] := rfl

/-- The lines are ended one after the other. -/
@[simp]
theorem crlf_cons (l : List UInt8) (lines : List (List UInt8)) :
    crlf (l :: lines) = l ++ [13, 10] ++ crlf lines := rfl

/-- Two groups of lines are ended one after the other. -/
@[simp]
theorem crlf_append (lines lines' : List (List UInt8)) :
    crlf (lines ++ lines') = crlf lines ++ crlf lines' := List.flatMap_append

/-- Line feeds are found at the ends of the lines and nowhere else. -/
theorem splitOn_crlf {lines : List (List UInt8)} (hlines : ∀ l ∈ lines, 10 ∉ l) :
    (crlf lines).splitOn 10 = lines.map (· ++ [13]) ++ [[]] := by
  induction lines with
  | nil => rfl
  | cons l lines ih =>
      have hl : (10 : UInt8) ∉ l ++ [13] := by
        rw [List.mem_append, not_or]
        exact ⟨hlines l List.mem_cons_self, by decide⟩
      rw [crlf_cons, show l ++ [13, 10] ++ crlf lines = l ++ [13] ++ 10 :: crlf lines by simp,
        List.splitOn_append_cons_self_of_not_mem hl,
        ih fun l' hl' => hlines l' (List.mem_cons_of_mem l hl'), List.map_cons, List.cons_append]

/-! ## Comparing without regard to case -/

/-- What `strcasecmp` compares. -/
def folded (s : List UInt8) : List ℕ := (s.takeWhile (· != 0)).map fun c => (toLower c).toNat

/-- Only the zero byte is lowered to zero. -/
theorem toLower_eq_zero_iff {c : UInt8} : toLower c = 0 ↔ c = 0 :=
  forall_byte (p := fun c => toLower c = 0 ↔ c = 0) (by decide +kernel) c

/-- Another byte is lowered to a positive one. -/
theorem toNat_toLower_pos {c : UInt8} (h : c ≠ 0) : 0 < (toLower c).toNat := by
  refine Nat.pos_of_ne_zero fun hzero => h (toLower_eq_zero_iff.mp ?_)
  exact UInt8.toNat_inj.mp hzero

@[simp] theorem folded_nil : folded [] = [] := rfl

/-- Nothing is compared behind a zero byte. -/
theorem folded_cons_zero (s : List UInt8) : folded (0 :: s) = [] := rfl

/-- A byte is compared as the lower case of it. -/
theorem folded_cons {c : UInt8} (h : c ≠ 0) (s : List UInt8) :
    folded (c :: s) = (toLower c).toNat :: folded s := by
  rw [folded, List.takeWhile_cons_of_pos (by simpa using h)]
  rfl

theorem toLower_zero : toLower 0 = 0 := rfl

/-- The sign of `strcasecmp` is the lexicographic order. -/
theorem strcasecmp_sign (s t : List UInt8) :
    (strcasecmp s t < 0 ↔ folded s < folded t) ∧ (0 < strcasecmp s t ↔ folded t < folded s) := by
  -- The cases are those of the function: an end of one text, a difference, a common byte.
  induction s, t using strcasecmp.induct with
  | case1 => simp [strcasecmp]
  | case2 d t =>
      by_cases hd : d = 0
      · subst hd
        simp [strcasecmp, folded_cons_zero, toLower_zero]
      · have hpos := toNat_toLower_pos hd
        rw [strcasecmp, folded_cons hd]
        simp
        omega
  | case3 c s =>
      by_cases hc : c = 0
      · subst hc
        simp [strcasecmp, folded_cons_zero, toLower_zero]
      · have hpos := toNat_toLower_pos hc
        rw [strcasecmp, folded_cons hc]
        simp
        omega
  | case4 c s d t hne =>
      have hval : (toLower c).toNat ≠ (toLower d).toNat := fun h => hne (UInt8.toNat_inj.mp h)
      rw [strcasecmp, if_pos hne]
      by_cases hc : c = 0
      · subst hc
        have hd : d ≠ 0 := by
          rintro rfl
          exact hne rfl
        have hpos := toNat_toLower_pos hd
        rw [folded_cons_zero, folded_cons hd]
        simp [toLower_zero]
        omega
      · by_cases hd : d = 0
        · subst hd
          have hpos := toNat_toLower_pos hc
          rw [folded_cons_zero, folded_cons hc]
          simp [toLower_zero]
          omega
        · rw [folded_cons hc, folded_cons hd, List.cons_lt_cons_iff, List.cons_lt_cons_iff]
          omega
  | case5 c s t h =>
      have hc : c = 0 := toLower_eq_zero_iff.mp (not_not.mp h)
      subst hc
      rw [strcasecmp, if_neg h, if_pos rfl, folded_cons_zero, folded_cons_zero]
      simp
  | case6 c s d t h hd ih =>
      have heq := not_not.mp h
      have hc : c ≠ 0 := by
        rintro rfl
        exact hd (toLower_eq_zero_iff.mp heq.symm)
      rw [strcasecmp, if_neg h, if_neg hd, folded_cons hc, folded_cons hd, heq]
      simpa using ih

end Bytes
