import Mathlib.Data.List.Induction
import WiiMC.Lib.Bytes

/-!
# Base64

The encoding of RFC 4648, section 4, stated for the bits of the text: they are divided into groups
of six, the last group is filled up with zeros, each group is a character, and the text of the
characters is filled up to a multiple of four.

* `Bits.bits`, `Bits.ofBits`: the binary digits of a number, the highest one first.
* `Bits.bits_add`: a number of `u + v` digits consists of a number of `u` digits and one of `v`.
* `Base64.encode`, `Base64.decode`: the encoding, and a decoder that accepts nothing else.
* `Base64.decode_encode`: an encoded text is decoded to the text.
-/

namespace Bits

/-- The last `w` binary digits of `n`. -/
def bits : ℕ → ℕ → List Bool
  | 0, _ => []
  | w + 1, n => n.testBit w :: bits w n

/-- The number with the given binary digits. -/
def ofBits (l : List Bool) : ℕ := l.foldl (fun n b => 2 * n + b.toNat) 0

/-- The first `k` groups of `w` digits. -/
def groups (w : ℕ) : ℕ → List Bool → List (List Bool)
  | 0, _ => []
  | k + 1, l => l.take w :: groups w k (l.drop w)

/-- `bits w` gives `w` bits. -/
@[simp]
theorem length_bits (w n : ℕ) : (bits w n).length = w := by
  induction w with
  | zero => rfl
  | succ w ih => rw [bits, List.length_cons, ih]

/-- The bits of a number are cut where its value is divided. -/
theorem bits_add (u v n : ℕ) : bits (u + v) n = bits u (n / 2 ^ v) ++ bits v n := by
  induction u with
  | zero => rw [Nat.zero_add, bits, List.nil_append]
  | succ u ih =>
      rw [Nat.succ_add, bits, bits, ih, Nat.testBit_div_two_pow, List.cons_append]

/-- Only the digits below count. -/
theorem bits_mul_add (w k n : ℕ) : bits w (k * 2 ^ w + n) = bits w n := by
  have hlow : ∀ v ≤ w, bits v (k * 2 ^ w + n) = bits v n := by
    intro v hv
    induction v with
    | zero => rfl
    | succ v ih =>
        rw [bits, bits, ih (Nat.le_of_succ_le hv), Nat.testBit_eq_decide_div_mod_eq,
          Nat.testBit_eq_decide_div_mod_eq]
        -- what is added is an even multiple of `2 ^ v`
        obtain ⟨d, rfl⟩ := Nat.exists_eq_add_of_le hv
        have hsplit : k * 2 ^ (v.succ + d) = k * 2 ^ d * 2 * 2 ^ v := by
          rw [Nat.succ_eq_add_one, pow_add, pow_succ]
          ring
        rw [hsplit, Nat.add_comm, Nat.add_mul_div_right _ _ (Nat.two_pow_pos v),
          Nat.add_mul_mod_self_right]
  exact hlow w le_rfl

/-- One more bit doubles the value. -/
theorem ofBits_concat (l : List Bool) (b : Bool) :
    ofBits (l ++ [b]) = 2 * ofBits l + b.toNat := by
  rw [ofBits, List.foldl_append]
  rfl

/-- The last bit of a number is its lowest one. -/
theorem bits_succ_concat (w n : ℕ) : bits (w + 1) n = bits w (n / 2) ++ [n.testBit 0] := by
  rw [bits_add w 1 n, pow_one]
  rfl

/-- The value of the lowest `w` bits is the number up to `2 ^ w`. -/
theorem ofBits_bits (w n : ℕ) : ofBits (bits w n) = n % 2 ^ w := by
  induction w generalizing n with
  | zero => rw [pow_zero, Nat.mod_one]; rfl
  | succ w ih =>
      rw [bits_succ_concat, ofBits_concat, ih, pow_succ', Nat.mod_mul, Nat.testBit_zero]
      rcases Nat.mod_two_eq_zero_or_one n with hpar | hpar
      · rw [hpar]
        exact Nat.add_comm _ _
      · rw [hpar]
        exact Nat.add_comm _ _

/-- The bits of the value are the bits. -/
theorem bits_ofBits (l : List Bool) : bits l.length (ofBits l) = l := by
  induction l using List.reverseRecOn with
  | nil => rfl
  | append_singleton l b ih =>
      have hhalf : (2 * ofBits l + b.toNat) / 2 = ofBits l ∧
          (2 * ofBits l + b.toNat).testBit 0 = b := by
        cases b with
        | false => simp
        | true =>
            refine ⟨?_, ?_⟩
            · rw [Bool.toNat_true]
              omega
            · rw [Nat.testBit_zero, Bool.toNat_true, decide_eq_true_eq]
              omega
      rw [List.length_append, List.length_singleton, bits_succ_concat, ofBits_concat, hhalf.1,
        hhalf.2, ih]

/-- The value of some bits is bounded by their number. -/
theorem ofBits_lt (l : List Bool) : ofBits l < 2 ^ l.length := by
  rw [← bits_ofBits l, ofBits_bits, length_bits]
  exact Nat.mod_lt _ (Nat.two_pow_pos _)

/-- As many groups are cut as are asked for. -/
@[simp]
theorem length_groups (w k : ℕ) (l : List Bool) : (groups w k l).length = k := by
  induction k generalizing l with
  | zero => rfl
  | succ k ih => rw [groups, List.length_cons, ih]

/-- The first group is taken off. -/
theorem groups_append {w k : ℕ} {g : List Bool} (hg : g.length = w) (l : List Bool) :
    groups w (k + 1) (g ++ l) = g :: groups w k l := by
  subst hg
  rw [groups, List.take_left, List.drop_left]

/-- Groups of the right length are found again. -/
theorem groups_flatten {w : ℕ} {gs : List (List Bool)} (hgs : ∀ g ∈ gs, g.length = w)
    (l : List Bool) : groups w gs.length (gs.flatten ++ l) = gs := by
  induction gs with
  | nil => rfl
  | cons g gs ih =>
      obtain ⟨hg, hgs⟩ := List.forall_mem_cons.mp hgs
      rw [List.length_cons, List.flatten_cons, List.append_assoc, groups_append hg, ih hgs]

/-- Bits that fill their groups are put together again. -/
theorem flatten_groups {w k : ℕ} {l : List Bool} (hl : l.length = k * w) :
    (groups w k l).flatten = l ∧ ∀ g ∈ groups w k l, g.length = w := by
  induction k generalizing l with
  | zero =>
      rw [Nat.zero_mul, List.length_eq_zero_iff] at hl
      subst hl
      exact ⟨rfl, nofun⟩
  | succ k ih =>
      rw [Nat.succ_mul] at hl
      obtain ⟨hflat, hlen⟩ := ih (l := l.drop w) (by rw [List.length_drop]; omega)
      rw [groups, List.flatten_cons, hflat, List.take_append_drop]
      refine ⟨rfl, List.forall_mem_cons.mpr ⟨?_, hlen⟩⟩
      rw [List.length_take]
      omega

/-- Numbers are put behind each other. -/
theorem bits_append {v b : ℕ} (u a : ℕ) (hb : b < 2 ^ v) :
    bits u a ++ bits v b = bits (u + v) (a * 2 ^ v + b) := by
  rw [bits_add, bits_mul_add, Nat.mul_comm, Nat.mul_add_div (Nat.two_pow_pos v),
    Nat.div_eq_of_lt hb, Nat.add_zero]

/-- Bits that are not set are those of zero. -/
theorem replicate_false (n : ℕ) : List.replicate n false = bits n 0 := by
  induction n with
  | zero => rfl
  | succ n ih => rw [List.replicate_succ, bits, Nat.zero_testBit, ih]

/-- Two parts of bits are cut into groups one after the other, if the first one fills its groups. -/
theorem groups_add {w j : ℕ} {l : List Bool} (hl : l.length = j * w) (k : ℕ) (l' : List Bool) :
    groups w (j + k) (l ++ l') = groups w j l ++ groups w k l' := by
  induction j generalizing l with
  | zero =>
      rw [Nat.zero_mul, List.length_eq_zero_iff] at hl
      subst hl
      rw [Nat.zero_add, List.nil_append]
      rfl
  | succ j ih =>
      rw [Nat.succ_mul] at hl
      have hhead : (l.take w).length = w := by
        rw [List.length_take]
        omega
      have htail : (l.drop w).length = j * w := by
        rw [List.length_drop]
        omega
      have hsplit : l ++ l' = l.take w ++ (l.drop w ++ l') := by
        rw [← List.append_assoc, List.take_append_drop]
      rw [hsplit, Nat.succ_add, groups_append hhead, ih htail, groups, List.cons_append]

/-- The highest group of a number. -/
theorem groups_bits (w k n : ℕ) :
    groups w (k + 1) (bits (w + k * w) n) =
      bits w (n / 2 ^ (k * w)) :: groups w k (bits (k * w) n) := by
  rw [bits_add, groups_append (length_bits w _)]

end Bits

namespace Base64

open Bytes Bits

/-- The alphabet of Base64. -/
def alphabet : List UInt8 :=
  ascii "ABCDEFGHIJKLMNOPQRSTUVWXYZabcdefghijklmnopqrstuvwxyz0123456789+/"

/-- The character for the number `n < 64`. -/
def char (n : ℕ) : UInt8 := alphabet.getD n 0

/-- The number that a character stands for. -/
def value? (c : UInt8) : Option ℕ := alphabet.idxOf? c

/-- The number of characters for `n` bytes, without the padding. -/
def digits (n : ℕ) : ℕ := (8 * n + 5) / 6

/-- The padding behind `k` characters. -/
def padding (k : ℕ) : List UInt8 := List.replicate ((4 - k % 4) % 4) 61

/-- The bits of a text. -/
def textBits (s : List UInt8) : List Bool := s.flatMap fun c => bits 8 c.toNat

/-- The bits of a text, filled up to groups of six. -/
def filled (s : List UInt8) : List Bool :=
  textBits s ++ List.replicate (6 * digits s.length - 8 * s.length) false

/-- The Base64 encoding of a text. -/
def encode (s : List UInt8) : List UInt8 :=
  (groups 6 (digits s.length) (filled s)).map (fun g => char (ofBits g)) ++
    padding (digits s.length)

/-- The text that a Base64 encoding stands for. What the encoder would not write is refused. -/
def decode (cs : List UInt8) : Option (List UInt8) :=
  match (cs.takeWhile (· != 61)).mapM value? with
  | none => none
  | some vs =>
      let l := vs.flatMap (bits 6)
      let s := (groups 8 (l.length / 8) l).map fun g => UInt8.ofNat (ofBits g)
      if encode s = cs then some s else none

/-- A digit has its character, which is not `=`, and is read again. -/
theorem char_facts {n : ℕ} (hn : n < 64) :
    char n ∈ alphabet ∧ char n ≠ 61 ∧ value? (char n) = some n := by
  have hall : ∀ n < 64, char n ∈ alphabet ∧ char n ≠ 61 ∧ value? (char n) = some n := by
    decide +kernel
  exact hall n hn

/-- A byte has eight bits. -/
theorem length_textBits (s : List UInt8) : (textBits s).length = 8 * s.length := by
  induction s with
  | nil => rfl
  | cons c s ih =>
      rw [textBits, List.flatMap_cons, List.length_append, length_bits, ← textBits, ih,
        List.length_cons, Nat.mul_succ, Nat.add_comm]

/-- The bits are filled up to whole digits. -/
theorem length_filled (s : List UInt8) : (filled s).length = digits s.length * 6 := by
  rw [filled, List.length_append, length_textBits, List.length_replicate, digits]
  omega

/-- The number of characters counts the groups of three bytes that are begun. -/
theorem length_encode (s : List UInt8) : (encode s).length = (s.length + 2) / 3 * 4 := by
  rw [encode, List.length_append, List.length_map, length_groups, padding, List.length_replicate,
    digits]
  omega

/-- The characters in front of the padding are the groups of the bits. -/
theorem mapM_value? {gs : List (List Bool)} (hgs : ∀ g ∈ gs, g.length = 6) :
    (gs.map fun g => char (ofBits g)).mapM value? = some (gs.map ofBits) ∧
      ∀ c ∈ gs.map fun g => char (ofBits g), c ≠ 61 := by
  have hlt : ∀ g ∈ gs, ofBits g < 64 := fun g hg => by
    have hbits := ofBits_lt g
    rwa [hgs g hg] at hbits
  refine ⟨?_, fun c hc => ?_⟩
  · induction gs with
    | nil => rfl
    | cons g gs ih =>
        obtain ⟨hg, htail⟩ := List.forall_mem_cons.mp hlt
        rw [List.map_cons, List.mapM_cons, (char_facts hg).2.2,
          ih (fun g hg => hgs g (List.mem_cons_of_mem _ hg)) htail]
        rfl
  · obtain ⟨g, hg, rfl⟩ := List.mem_map.mp hc
    exact (char_facts (hlt g hg)).2.1

/-- The code has the characters of the alphabet, and `=`. -/
theorem mem_encode {s : List UInt8} {c : UInt8} (hc : c ∈ encode s) : c ∈ alphabet ∨ c = 61 := by
  rcases List.mem_append.mp hc with hc | hc
  · obtain ⟨g, hg, rfl⟩ := List.mem_map.mp hc
    have hbits := ofBits_lt g
    rw [(flatten_groups (length_filled s)).2 g hg] at hbits
    exact .inl (char_facts hbits).1
  · exact .inr (List.eq_of_mem_replicate hc)

/-- The bits of the groups are the bits that have been divided. -/
theorem flatMap_bits {w : ℕ} {gs : List (List Bool)} (hgs : ∀ g ∈ gs, g.length = w) :
    (gs.map ofBits).flatMap (bits w) = gs.flatten := by
  induction gs with
  | nil => rfl
  | cons g gs ih =>
      obtain ⟨rfl, hgs⟩ := List.forall_mem_cons.mp hgs
      rw [List.map_cons, List.flatMap_cons, List.flatten_cons, bits_ofBits, ih hgs]

/-- The bits that were filled up do not make another byte. -/
theorem groups_filled (s : List UInt8) :
    (groups 8 ((filled s).length / 8) (filled s)).map (fun g => UInt8.ofNat (ofBits g)) = s := by
  have hcount : (filled s).length / 8 = (s.map fun c => bits 8 c.toNat).length := by
    rw [length_filled, digits, List.length_map]
    omega
  rw [hcount, filled, textBits, List.flatMap_def, groups_flatten, List.map_map]
  · conv_rhs => rw [← List.map_id s]
    refine List.map_congr_left fun c _ => ?_
    rw [Function.comp_apply, ofBits_bits, Nat.mod_eq_of_lt c.toNat_lt, UInt8.ofNat_toNat, id]
  · intro g hg
    obtain ⟨c, -, rfl⟩ := List.mem_map.mp hg
    exact length_bits 8 _

/-- An encoded text is decoded to the text. -/
theorem decode_encode (s : List UInt8) : decode (encode s) = some s := by
  obtain ⟨hflat, hlen⟩ := flatten_groups (length_filled s)
  obtain ⟨hvalues, hchars⟩ := mapM_value? hlen
  have htake : (encode s).takeWhile (· != 61) =
      (groups 6 (digits s.length) (filled s)).map fun g => char (ofBits g) := by
    rw [encode, List.takeWhile_append_of_pos fun c hc => by simpa using hchars c hc, padding]
    cases (4 - digits s.length % 4) % 4 with
    | zero => exact List.append_nil _
    | succ n => exact List.append_nil _
  rw [decode, htake, hvalues]
  simp only [flatMap_bits hlen, hflat, groups_filled, if_true]

/-! ## Groups of three bytes -/

/-- Groups that are full are encoded on their own. -/
theorem encode_append {s : List UInt8} (hs : s.length % 3 = 0) (t : List UInt8) :
    encode (s ++ t) = encode s ++ encode t := by
  have hdigits : digits (s ++ t).length = digits s.length + digits t.length := by
    rw [List.length_append, digits, digits, digits]
    omega
  have hpadding : padding (digits s.length) = [] ∧
      padding (digits s.length + digits t.length) = padding (digits t.length) := by
    have hfour : digits s.length % 4 = 0 := by
      rw [digits]
      omega
    rw [padding, padding, padding, Nat.add_mod, hfour, Nat.zero_add, Nat.mod_mod]
    exact ⟨rfl, rfl⟩
  have hbits : filled (s ++ t) = filled s ++ filled t := by
    have hfull : 6 * digits s.length - 8 * s.length = 0 := by
      rw [digits]
      omega
    have hrest : 6 * digits (s ++ t).length - 8 * (s ++ t).length =
        6 * digits t.length - 8 * t.length := by
      rw [hdigits, List.length_append, digits, digits]
      omega
    rw [filled, filled, filled, hfull, hrest, textBits, List.flatMap_append,
      List.replicate_zero, List.append_nil, List.append_assoc]
    rfl
  rw [encode, encode, encode, hdigits, hbits, groups_add (length_filled s), List.map_append,
    hpadding.1, hpadding.2, List.append_nil, List.append_assoc]

/-- The characters of a text whose filled up bits are the digits of the number `n`. -/
theorem encode_of_bits {s : List UInt8} {k n : ℕ} (hk : digits s.length = k)
    (hbits : filled s = bits (k * 6) n) :
    encode s = (groups 6 k (bits (k * 6) n)).map (fun g => char (ofBits g)) ++ padding k := by
  rw [encode, hk, hbits]

/-- Three bytes give four digits. -/
theorem encode_three (a b c : UInt8) :
    let v := a.toNat * 2 ^ 16 + b.toNat * 2 ^ 8 + c.toNat
    encode [a, b, c] =
      [char (v / 2 ^ 18 % 64), char (v / 2 ^ 12 % 64), char (v / 2 ^ 6 % 64), char (v % 64)] := by
  intro v
  have hk : digits [a, b, c].length = 4 := (by decide : digits 3 = 4)
  have hbits : filled [a, b, c] = bits (4 * 6) v := by
    have htext : textBits [a, b, c] = bits 8 a.toNat ++ bits 8 b.toNat ++ bits 8 c.toNat := by
      rw [List.append_assoc]
      exact congrArg (_ ++ ·) (congrArg (_ ++ ·) (List.append_nil _))
    rw [filled, hk, htext, bits_append 8 _ b.toNat_lt, bits_append 16 _ c.toNat_lt]
    refine (List.append_nil _).trans (congrArg (bits 24) ?_)
    omega
  have hgroups : groups 6 4 (bits (4 * 6) v) =
      [bits 6 (v / 2 ^ 18), bits 6 (v / 2 ^ 12), bits 6 (v / 2 ^ 6), bits 6 (v / 2 ^ 0)] := by
    rw [groups_bits 6 3, groups_bits 6 2, groups_bits 6 1, groups_bits 6 0]
    rfl
  rw [encode_of_bits hk hbits, hgroups]
  simp only [List.map_cons, List.map_nil, ofBits_bits, pow_zero, Nat.div_one]
  rfl

/-- Two last bytes give three digits and one `=`. -/
theorem encode_two (a b : UInt8) :
    let v := a.toNat * 2 ^ 16 + b.toNat * 2 ^ 8
    encode [a, b] =
      [char (v / 2 ^ 18 % 64), char (v / 2 ^ 12 % 64), char (v / 2 ^ 6 % 64), 61] := by
  intro v
  have hk : digits [a, b].length = 3 := (by decide : digits 2 = 3)
  have hbits : filled [a, b] = bits (3 * 6) (v / 2 ^ 6) := by
    have htext : textBits [a, b] = bits 8 a.toNat ++ bits 8 b.toNat :=
      congrArg (_ ++ ·) (List.append_nil _)
    rw [filled, hk, htext, replicate_false, bits_append 8 _ b.toNat_lt]
    refine (bits_append 16 _ (Nat.two_pow_pos 2)).trans (congrArg (bits 18) ?_)
    omega
  have hgroups : groups 6 3 (bits (3 * 6) (v / 2 ^ 6)) =
      [bits 6 (v / 2 ^ 6 / 2 ^ 12), bits 6 (v / 2 ^ 6 / 2 ^ 6), bits 6 (v / 2 ^ 6 / 2 ^ 0)] := by
    rw [groups_bits 6 2, groups_bits 6 1, groups_bits 6 0]
    rfl
  rw [encode_of_bits hk hbits, hgroups]
  simp only [List.map_cons, List.map_nil, ofBits_bits, Nat.div_div_eq_div_mul, ← pow_add]
  rfl

/-- A last byte gives two digits and two `=`. -/
theorem encode_one (a : UInt8) :
    let v := a.toNat * 2 ^ 16
    encode [a] = [char (v / 2 ^ 18 % 64), char (v / 2 ^ 12 % 64), 61, 61] := by
  intro v
  have hk : digits [a].length = 2 := (by decide : digits 1 = 2)
  have hbits : filled [a] = bits (2 * 6) (v / 2 ^ 12) := by
    have htext : textBits [a] = bits 8 a.toNat := List.append_nil _
    rw [filled, hk, htext, replicate_false]
    refine (bits_append 8 _ (Nat.two_pow_pos 4)).trans (congrArg (bits 12) ?_)
    omega
  have hgroups : groups 6 2 (bits (2 * 6) (v / 2 ^ 12)) =
      [bits 6 (v / 2 ^ 12 / 2 ^ 6), bits 6 (v / 2 ^ 12 / 2 ^ 0)] := by
    rw [groups_bits 6 1, groups_bits 6 0]
    rfl
  rw [encode_of_bits hk hbits, hgroups]
  simp only [List.map_cons, List.map_nil, ofBits_bits, Nat.div_div_eq_div_mul, ← pow_add]
  rfl

end Base64
