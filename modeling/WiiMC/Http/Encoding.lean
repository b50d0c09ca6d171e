import WiiMC.Http.Url
import WiiMC.Lib.Segments
import WiiMC.Lib.Base64

/-!
# Credentials and escaped paths

`gc_http_basic`, `gc_http_encode_path` and `gc_http_decode_path` of `http_client.c`.

* `decodes_encode`: an encoded path stands for the path.
* `gcHttpDecodePath_eq_some_iff`: what is decoded is what the path stands for.
* `escapes_iff`: an encoded path is decoded to the path, and the buffers are kept to, unless the
  path is empty and there is no buffer.
* `gcHttpBasic_iff`: the credentials are written in Base64 if they fit.
-/

namespace WiiMC.Http

open Bytes Percent

/-- What a function has stored in its buffer, from the start on, and whether it returns 0. -/
structure Stored where
  bytes : List UInt8
  ok : Bool
  deriving DecidableEq

/-- The string that a function which returns 0 leaves; `none` is -1. -/
def Stored.text? (r : Stored) : Option (List UInt8) :=
  if r.ok then some r.bytes.dropLast else none

/-- The buffer of `cap` bytes is kept to, and holds a string when 0 is returned. -/
def Stored.Kept (r : Stored) (cap : ℕ) : Prop :=
  r.bytes.length ≤ cap ∧ (r.ok = true → ∃ t, r.bytes = t ++ [0] ∧ 0 ∉ t)

/-- A text is stored if the call succeeds and the bytes are that text, ended by a zero byte. -/
theorem Stored.text?_eq_some_iff {r : Stored} {t : List UInt8} :
    r.text? = some t ↔ r.ok = true ∧ r.bytes.dropLast = t := by
  rw [Stored.text?, Option.ite_none_right_eq_some, Option.some_inj]

/-- The alphabet of Base64. -/
def alphabet : List UInt8 :=
  ascii "ABCDEFGHIJKLMNOPQRSTUVWXYZabcdefghijklmnopqrstuvwxyz0123456789+/"

/-- The character for the low six bits of `v >> shift`. -/
def sextet (v shift : ℕ) : UInt8 := alphabet.getD (v / 2 ^ shift % 64) 0

/-- The loop of `gc_http_basic`. -/
def base64 : List UInt8 → List UInt8
  | [] => []
  | [a] =>
      let v := a.toNat * 2 ^ 16
      [sextet v 18, sextet v 12, 61, 61]
  | [a, b] =>
      let v := a.toNat * 2 ^ 16 + b.toNat * 2 ^ 8
      [sextet v 18, sextet v 12, sextet v 6, 61]
  | a :: b :: c :: rest =>
      let v := a.toNat * 2 ^ 16 + b.toNat * 2 ^ 8 + c.toNat
      [sextet v 18, sextet v 12, sextet v 6, sextet v 0] ++ base64 rest

/-- What `gc_http_basic` stores. -/
def storeBasic (user password : List UInt8) (cap : ℕ) : Stored :=
  let plain := user ++ [58] ++ password
  if 58 ∈ user ∨ safeText user = false ∨ safeText password = false then ⟨[], false⟩
  else if 768 ≤ plain.length then ⟨[], false⟩
  else if cap < (plain.length + 2) / 3 * 4 + 1 then ⟨[], false⟩
  else ⟨base64 plain ++ [0], true⟩

/-- `gc_http_basic`; `none` is -1. -/
def gcHttpBasic (user password : List UInt8) (cap : ℕ) : Option (List UInt8) :=
  (storeBasic user password cap).text?

/-- A byte that `gc_http_encode_path` leaves as it is. -/
def isLiteral (c : UInt8) : Bool := isAlnum c || (ascii "/-._~").contains c

/-- The hexadecimal digit of `n < 16`. -/
def hexDigit (n : ℕ) : UInt8 := (ascii "0123456789ABCDEF").getD n 0

/-- One byte of a path, escaped where it has to be. -/
def encodeByte (c : UInt8) : List UInt8 :=
  if isLiteral c then [c] else [37, hexDigit (c.toNat / 16), hexDigit (c.toNat % 16)]

/-- The loop of `gc_http_encode_path`, behind the bytes `out`. -/
def encodeLoop (cap : ℕ) (out : List UInt8) : List UInt8 → Stored
  | [] => ⟨out ++ [0], true⟩
  | c :: path =>
      if cap ≤ out.length + (if isLiteral c then 1 else 3) then ⟨out, false⟩
      else encodeLoop cap (out ++ encodeByte c) path

/-- `gc_http_encode_path`; `none` is -1. -/
def gcHttpEncodePath (path : List UInt8) (cap : ℕ) : Option (List UInt8) :=
  (encodeLoop cap [] path).text?

/-- `hexval`. -/
def hexval (c : UInt8) : Option ℕ := if isXDigit c then some (digitVal c) else none

/-- The loop of `gc_http_decode_path`, behind the bytes `out`. -/
def decodeLoop (cap : ℕ) (out : List UInt8) : List UInt8 → Stored
  | [] => ⟨out ++ [0], true⟩
  | 37 :: a :: b :: path =>
      match hexval a, hexval b with
      | some x, some y =>
          let c := UInt8.ofNat (x * 16 + y)
          if c = 47 ∨ c < 32 ∨ c = 127 ∨ c = 92 ∨ cap ≤ out.length + 1 then ⟨out, false⟩
          else decodeLoop cap (out ++ [c]) path
      | _, _ => ⟨out, false⟩
  | c :: path =>
      if c = 37 ∨ c < 32 ∨ c = 127 ∨ c = 92 ∨ cap ≤ out.length + 1 then ⟨out, false⟩
      else decodeLoop cap (out ++ [c]) path

/-- `gc_http_decode_path`; `none` is -1. -/
def gcHttpDecodePath (path : List UInt8) (cap : ℕ) : Option (List UInt8) :=
  (decodeLoop cap [] path).text?

/-! ## Credentials -/

/-- The loop writes the Base64 encoding, whatever the length is modulo 3. -/
theorem base64_eq (s : List UInt8) : base64 s = Base64.encode s := by
  induction s using base64.induct with
  | case1 => rfl
  | case2 a => exact (Base64.encode_one a).symm
  | case3 a b => exact (Base64.encode_two a b).symm
  | case4 a b c rest ih =>
      have hthree : [a, b, c].length % 3 = 0 := (by decide : 3 % 3 = 0)
      have happend := Base64.encode_append hthree rest
      rw [Base64.encode_three] at happend
      rw [base64, ih, sextet, sextet, sextet, sextet, pow_zero, Nat.div_one]
      exact happend.symm

/-- User and password can be sent as credentials. -/
def Credentials (user password : List UInt8) : Prop :=
  58 ∉ user ∧ (∀ c ∈ user, 32 ≤ c ∧ c ≠ 127) ∧ (∀ c ∈ password, 32 ≤ c ∧ c ≠ 127) ∧
    user.length + password.length ≤ 766

/-- The encoding is stored if it fits with its final byte, and nothing otherwise. -/
theorem storeBasic_eq (user password : List UInt8) (cap : ℕ) :
    (Credentials user password ∧
        (Base64.encode (user ++ [58] ++ password)).length + 1 ≤ cap ∧
        storeBasic user password cap =
          ⟨Base64.encode (user ++ [58] ++ password) ++ [0], true⟩) ∨
      (¬ (Credentials user password ∧
        (Base64.encode (user ++ [58] ++ password)).length + 1 ≤ cap) ∧
        storeBasic user password cap = ⟨[], false⟩) := by
  have hlen : (user ++ [58] ++ password).length = user.length + password.length + 1 := by
    rw [List.length_append, List.length_append, List.length_singleton]
    omega
  rw [Base64.length_encode, hlen, storeBasic, hlen, base64_eq]
  -- the tests of the source, against those of the specification
  by_cases hbad : 58 ∈ user ∨ safeText user = false ∨ safeText password = false
  · rw [if_pos hbad]
    refine .inr ⟨fun ⟨⟨hcolon, huser, hpassword, _⟩, _⟩ => ?_, rfl⟩
    rcases hbad with hbad | hbad | hbad
    · exact hcolon hbad
    · exact absurd ((safeText_iff user).mpr huser) (by rw [hbad]; exact Bool.false_ne_true)
    · exact absurd ((safeText_iff password).mpr hpassword) (by rw [hbad]; exact Bool.false_ne_true)
  rw [if_neg hbad]
  simp only [not_or, Bool.not_eq_false, safeText_iff] at hbad
  by_cases hlong : 768 ≤ user.length + password.length + 1
  · rw [if_pos hlong]
    exact .inr ⟨fun ⟨⟨_, _, _, hshort⟩, _⟩ => by omega, rfl⟩
  rw [if_neg hlong]
  by_cases hroom : cap < (user.length + password.length + 1 + 2) / 3 * 4 + 1
  · rw [if_pos hroom]
    exact .inr ⟨fun ⟨_, hcap⟩ => absurd hroom (Nat.not_lt.mpr hcap), rfl⟩
  rw [if_neg hroom]
  exact .inl ⟨⟨hbad.1, hbad.2.1, hbad.2.2, by omega⟩, Nat.not_lt.mp hroom, rfl⟩

/-- `gc_http_basic` writes the Base64 encoding of the credentials if it fits, and is -1 for
everything else. -/
theorem gcHttpBasic_iff (user password : List UInt8) (cap : ℕ) :
    (∀ t, gcHttpBasic user password cap = some t ↔ Credentials user password ∧
      t = Base64.encode (user ++ [58] ++ password) ∧ t.length + 1 ≤ cap) ∧
      Base64.decode (Base64.encode (user ++ [58] ++ password)) =
        some (user ++ [58] ++ password) ∧
      (storeBasic user password cap).Kept cap := by
  refine ⟨fun t => ?_, Base64.decode_encode _, ?_⟩
  · rw [gcHttpBasic, Stored.text?_eq_some_iff]
    rcases storeBasic_eq user password cap with ⟨hok, hroom, hstore⟩ | ⟨hno, hstore⟩
    · rw [hstore, List.dropLast_concat]
      refine ⟨?_, ?_⟩
      · rintro ⟨-, rfl⟩
        exact ⟨hok, rfl, hroom⟩
      · rintro ⟨-, rfl, -⟩
        exact ⟨rfl, rfl⟩
    · rw [hstore]
      refine ⟨fun hcontra => absurd hcontra.1 Bool.false_ne_true, ?_⟩
      rintro ⟨hok, rfl, hroom⟩
      exact absurd ⟨hok, hroom⟩ hno
  · rcases storeBasic_eq user password cap with ⟨-, hroom, hstore⟩ | ⟨-, hstore⟩
    · rw [hstore]
      refine ⟨?_, fun _ => ⟨_, rfl, fun hzero => ?_⟩⟩
      · rw [List.length_append]
        exact hroom
      -- the text ends at the byte that was put behind it
      · rcases Base64.mem_encode hzero with hmem | heq
        · exact absurd hmem (by decide)
        · exact absurd heq (by decide)
    · rw [hstore]
      exact ⟨Nat.zero_le _, fun hcontra => absurd hcontra Bool.false_ne_true⟩

example : gcHttpBasic (ascii "user") (ascii "pass") 1025 = some (ascii "dXNlcjpwYXNz") := by
  decide +kernel

/-! ## Paths that are decoded again -/

/-- A byte of a path that `gc_http_decode_path` accepts. -/
def Clean (c : UInt8) : Prop := 32 ≤ c ∧ c ≠ 127 ∧ c ≠ 92

/-- A printed hexadecimal digit is one, with its value. -/
theorem isXDigit_hexDigit {n : ℕ} (hn : n < 16) :
    isXDigit (hexDigit n) = true ∧ digitVal (hexDigit n) = n := by
  have hall : ∀ n < 16, isXDigit (hexDigit n) = true ∧ digitVal (hexDigit n) = n := by
    decide +kernel
  exact hall n hn

/-- An escaped byte stands for itself. -/
theorem decodes_encodeByte (c : UInt8) :
    Decodes (fun c => isLiteral c = false) (encodeByte c) [c] := by
  rw [encodeByte]
  by_cases hlit : isLiteral c = true
  · rw [if_pos hlit]
    refine .plain ?_ .nil
    rintro rfl
    exact absurd hlit (by decide)
  · rw [if_neg hlit]
    have hc := c.toNat_lt
    obtain ⟨hhi, hval⟩ := isXDigit_hexDigit (n := c.toNat / 16) (by omega)
    obtain ⟨hlo, hval'⟩ := isXDigit_hexDigit (n := c.toNat % 16) (by omega)
    have hbyte : byte (hexDigit (c.toNat / 16)) (hexDigit (c.toNat % 16)) = c := by
      rw [byte, hval, hval', Nat.div_add_mod', UInt8.ofNat_toNat]
    have hdec : Decodes (fun c => isLiteral c = false) _ _ :=
      .escape hhi hlo (by rw [hbyte]; exact Bool.eq_false_iff.mpr hlit) .nil
    rwa [hbyte] at hdec

/-- What `gc_http_encode_path` writes stands for the path. -/
theorem decodes_encode (s : List UInt8) :
    Decodes (fun c => isLiteral c = false) (s.flatMap encodeByte) s := by
  induction s with
  | nil => exact .nil
  | cons c s ih => exact (decodes_encodeByte c).append ih

/-- What `gc_http_encode_path` writes can stand in a URL. -/
theorem encode_bytes {s : List UInt8} {c : UInt8} (hc : c ∈ s.flatMap encodeByte) :
    (32 < c ∧ c ≠ 127 ∧ c ≠ 92 ∧ c ≠ 35) ∧ c ≠ 63 := by
  obtain ⟨b, -, hb⟩ := List.mem_flatMap.mp hc
  exact forall_byte (p := fun b => ∀ c ∈ encodeByte b,
    (32 < c ∧ c ≠ 127 ∧ c ≠ 92 ∧ c ≠ 35) ∧ c ≠ 63) (by decide +kernel) b c hb

/-- A byte takes one character, or three if it is escaped. -/
theorem length_encodeByte (c : UInt8) :
    (encodeByte c).length = if isLiteral c then 1 else 3 := by
  rw [encodeByte]
  split_ifs
  · rfl
  · rfl

/-- A path that fits with its final byte is written as a whole. -/
theorem encodeLoop_of_fits {cap : ℕ} {out path : List UInt8}
    (hfits : out.length + (path.flatMap encodeByte).length < cap) :
    encodeLoop cap out path = ⟨out ++ path.flatMap encodeByte ++ [0], true⟩ := by
  induction path generalizing out with
  | nil => rw [encodeLoop, List.flatMap_nil, List.append_nil]
  | cons c path ih =>
      rw [List.flatMap_cons, List.length_append] at hfits
      rw [encodeLoop, ← length_encodeByte, if_neg (by omega), ih, List.flatMap_cons,
        ← List.append_assoc out]
      rw [List.length_append]
      omega

/-- Success is reported for the whole path only. -/
theorem encodeLoop_bytes {cap : ℕ} {out path : List UInt8}
    (hok : (encodeLoop cap out path).ok = true) :
    (encodeLoop cap out path).bytes = out ++ path.flatMap encodeByte ++ [0] := by
  induction path generalizing out with
  | nil => rw [encodeLoop, List.flatMap_nil, List.append_nil]
  | cons c path ih =>
      rw [encodeLoop, ← length_encodeByte] at hok ⊢
      split_ifs at hok ⊢
      rw [ih hok, List.flatMap_cons, ← List.append_assoc out]

/-- A loop that starts within the buffer stays within it. -/
theorem encodeLoop_within {cap : ℕ} {out path : List UInt8} (hout : out.length < cap) :
    (encodeLoop cap out path).bytes.length ≤ cap := by
  induction path generalizing out with
  | nil =>
      rw [encodeLoop, List.length_append]
      exact hout
  | cons c path ih =>
      rw [encodeLoop, ← length_encodeByte]
      split_ifs with hfull
      · exact hout.le
      · refine ih ?_
        rw [List.length_append]
        omega

/-- A path that is encoded is encoded byte by byte. -/
theorem gcHttpEncodePath_eq {path out : List UInt8} {cap : ℕ}
    (h : gcHttpEncodePath path cap = some out) : out = path.flatMap encodeByte := by
  obtain ⟨hok, rfl⟩ := Stored.text?_eq_some_iff.mp h
  rw [encodeLoop_bytes hok, List.dropLast_concat, List.nil_append]

/-- A path whose code fits is encoded. -/
theorem gcHttpEncodePath_of_fits {path : List UInt8} {cap : ℕ}
    (hfits : (path.flatMap encodeByte).length < cap) :
    gcHttpEncodePath path cap = some (path.flatMap encodeByte) := by
  rw [gcHttpEncodePath, encodeLoop_of_fits (by rw [List.length_nil, Nat.zero_add]; exact hfits),
    Stored.text?, if_pos rfl, List.dropLast_concat, List.nil_append]

/-- `hexval` gives the value of a hexadecimal digit. -/
theorem hexval_eq_some_iff {c : UInt8} {n : ℕ} :
    hexval c = some n ↔ isXDigit c = true ∧ digitVal c = n := by
  rw [hexval, Option.ite_none_right_eq_some, Option.some_inj]

/-- A plain character is copied. -/
theorem decodeLoop_plain {cap : ℕ} {out path : List UInt8} {c : UInt8} (hc : c ≠ 37)
    (hclean : Clean c) (hroom : out.length + 1 < cap) :
    decodeLoop cap out (c :: path) = decodeLoop cap (out ++ [c]) path := by
  rw [decodeLoop, if_neg]
  · simp only [not_or, UInt8.not_lt, not_le]
    exact ⟨hc, hclean.1, hclean.2.1, hclean.2.2, hroom⟩
  · exact fun _ _ _ heq => absurd heq hc

/-- An escape is copied as its byte. -/
theorem decodeLoop_escape {cap : ℕ} {out path : List UInt8} {a b : UInt8}
    (ha : isXDigit a = true) (hb : isXDigit b = true) (hesc : byte a b ≠ 47)
    (hclean : Clean (byte a b)) (hroom : out.length + 1 < cap) :
    decodeLoop cap out (37 :: a :: b :: path) = decodeLoop cap (out ++ [byte a b]) path := by
  rw [decodeLoop, hexval_eq_some_iff.mpr ⟨ha, rfl⟩, hexval_eq_some_iff.mpr ⟨hb, rfl⟩]
  refine if_neg ?_
  simp only [not_or, UInt8.not_lt, not_le]
  exact ⟨hesc, hclean.1, hclean.2.1, hclean.2.2, hroom⟩

/-- A turn of the loop ends it, or takes one clean byte for which there is room. -/
theorem decodeLoop_cases (cap : ℕ) (out s : List UInt8) :
    s = [] ∨ decodeLoop cap out s = ⟨out, false⟩ ∨
      ∃ c rest, Clean c ∧ out.length + 1 < cap ∧ rest.length < s.length ∧
        decodeLoop cap out s = decodeLoop cap (out ++ [c]) rest ∧
        ∀ t, Decodes (· ≠ 47) rest t → Decodes (· ≠ 47) s (c :: t) := by
  fun_cases decodeLoop cap out s with
  | case1 => exact .inl rfl
  | case2 a b path x y hy hx _ hbad => exact .inr (.inl rfl)
  | case3 a b path x y hy hx c hbad =>
      obtain ⟨ha, rfl⟩ := hexval_eq_some_iff.mp hx
      obtain ⟨hb, rfl⟩ := hexval_eq_some_iff.mp hy
      simp only [not_or, UInt8.not_lt, not_le] at hbad
      obtain ⟨hesc, hlow, hdel, hback, hroom⟩ := hbad
      refine .inr (.inr ⟨c, path, ⟨hlow, hdel, hback⟩, hroom, ?_, rfl, fun t ht => ?_⟩)
      · simp only [List.length_cons]
        omega
      · exact .escape ha hb hesc ht
  | case4 a b path hno => exact .inr (.inl rfl)
  | case5 c path hno hbad => exact .inr (.inl rfl)
  | case6 c path hno hbad =>
      simp only [not_or, UInt8.not_lt, not_le] at hbad
      obtain ⟨hplain, hlow, hdel, hback, hroom⟩ := hbad
      exact .inr (.inr ⟨c, path, ⟨hlow, hdel, hback⟩, hroom, Nat.lt_succ_self _, rfl,
        fun t ht => .plain hplain ht⟩)

/-- What is decoded is what the path stands for. A slash is never written as an escape. -/
theorem decodes_of_decodeLoop {cap : ℕ} {out s : List UInt8}
    (hok : (decodeLoop cap out s).ok = true) :
    ∃ t, (decodeLoop cap out s).bytes = out ++ t ++ [0] ∧ Decodes (· ≠ 47) s t ∧
      (∀ c ∈ t, Clean c) ∧ (t ≠ [] → out.length + t.length < cap) := by
  induction hlen : s.length using Nat.strongRecOn generalizing out s with
  | ind n ih =>
      subst hlen
      rcases decodeLoop_cases cap out s with rfl | hfail | ⟨c, rest, hc, hroom, hlt, hstep, hdec⟩
      · refine ⟨[], ?_, .nil, nofun, fun hne => absurd rfl hne⟩
        rw [decodeLoop, List.append_nil]
      · rw [hfail] at hok
        cases hok
      · rw [hstep] at hok ⊢
        obtain ⟨t, hbytes, hrest, hclean, hlen⟩ := ih rest.length hlt hok rfl
        refine ⟨c :: t, ?_, hdec t hrest, List.forall_mem_cons.mpr ⟨hc, hclean⟩, fun _ => ?_⟩
        · rw [hbytes, List.append_assoc out, List.singleton_append]
        · rcases t with _ | ⟨d, t⟩
          · exact hroom
          · have hlen := hlen (List.cons_ne_nil d t)
            rw [List.length_append, List.length_singleton] at hlen
            rw [List.length_cons]
            omega

/-- A loop that starts within the buffer stays within it. -/
theorem decodeLoop_within {cap : ℕ} {out s : List UInt8} (hout : out.length < cap) :
    (decodeLoop cap out s).bytes.length ≤ cap := by
  induction hlen : s.length using Nat.strongRecOn generalizing out s with
  | ind n ih =>
      subst hlen
      rcases decodeLoop_cases cap out s with rfl | hfail | ⟨c, rest, -, hroom, hlt, hstep, -⟩
      · rw [decodeLoop, List.length_append]
        exact hout
      · rw [hfail]
        exact hout.le
      · rw [hstep]
        refine ih rest.length hlt ?_ rfl
        rw [List.length_append]
        exact hroom

/-- A text that can be decoded is, if it fits. -/
theorem decodeLoop_of_decodes {cap : ℕ} {out s t : List UInt8} (h : Decodes (· ≠ 47) s t)
    (hclean : ∀ c ∈ t, Clean c) (hlen : out.length + t.length < cap) :
    decodeLoop cap out s = ⟨out ++ t ++ [0], true⟩ := by
  induction h generalizing out with
  | nil => rw [decodeLoop, List.append_nil]
  | @plain c s t hc _ ih =>
      obtain ⟨hclean', htail⟩ := List.forall_mem_cons.mp hclean
      rw [List.length_cons] at hlen
      rw [decodeLoop_plain hc hclean' (by omega), ih htail, List.append_assoc out,
        List.singleton_append]
      rw [List.length_append, List.length_singleton]
      omega
  | @escape a b s t ha hb hesc _ ih =>
      obtain ⟨hclean', htail⟩ := List.forall_mem_cons.mp hclean
      rw [List.length_cons] at hlen
      rw [decodeLoop_escape ha hb hesc hclean' (by omega), ih htail, List.append_assoc out,
        List.singleton_append]
      rw [List.length_append, List.length_singleton]
      omega

/-- `gc_http_decode_path` gives what the path stands for, if that is clean and fits. -/
theorem gcHttpDecodePath_eq_some_iff {s t : List UInt8} {cap : ℕ} (hcap : 0 < cap) :
    gcHttpDecodePath s cap = some t ↔
      Decodes (· ≠ 47) s t ∧ (∀ c ∈ t, Clean c) ∧ t.length < cap := by
  rw [gcHttpDecodePath, Stored.text?_eq_some_iff]
  refine ⟨fun ⟨hok, htext⟩ => ?_, fun ⟨hdec, hclean, hlen⟩ => ?_⟩
  · obtain ⟨t', hbytes, hdec, hclean, hlen⟩ := decodes_of_decodeLoop hok
    rw [hbytes, List.dropLast_concat, List.nil_append] at htext
    subst htext
    refine ⟨hdec, hclean, ?_⟩
    rcases t' with _ | ⟨c, t'⟩
    · exact hcap
    · have hlen := hlen (List.cons_ne_nil c t')
      rwa [List.length_nil, Nat.zero_add] at hlen
  · rw [decodeLoop_of_decodes hdec hclean (by rw [List.length_nil, Nat.zero_add]; exact hlen)]
    exact ⟨rfl, by rw [List.dropLast_concat, List.nil_append]⟩

example : gcHttpEncodePath (ascii "/ete & 100%.mp3") 4096 =
    some (ascii "/ete%20%26%20100%25.mp3") := by decide +kernel

example : gcHttpDecodePath (ascii "/ete%20%26%20100%25.mp3") 2304 =
    some (ascii "/ete & 100%.mp3") := by decide +kernel

example : gcHttpDecodePath (ascii "/a%2fb") 4096 = none := by decide +kernel

/-! ## Round trip and room -/

/-- A text of unreserved characters, slashes and escapes. -/
inductive Escaped : List UInt8 → Prop
  | nil : Escaped []
  | plain {c : UInt8} {s : List UInt8} (hc : isAlnum c = true ∨ c ∈ ascii "-._~" ∨ c = 47)
      (h : Escaped s) : Escaped (c :: s)
  | escape {a b : UInt8} {s : List UInt8} (ha : isXDigit a = true) (hb : isXDigit b = true)
      (h : Escaped s) : Escaped (37 :: a :: b :: s)

/-- The code of a path is escaped. -/
theorem escaped_encode (path : List UInt8) : Escaped (path.flatMap encodeByte) := by
  induction path with
  | nil => exact .nil
  | cons c path ih =>
      rw [List.flatMap_cons, encodeByte]
      split_ifs with hlit
      · refine .plain ?_ ih
        rw [isLiteral, Bool.or_eq_true, List.contains_iff_mem] at hlit
        refine hlit.imp_right fun hmem => ?_
        -- the slash comes first among the characters that are no letters
        rcases List.mem_cons.mp hmem with hslash | hmem
        · exact .inr hslash
        · exact .inl hmem
      · have hc := c.toNat_lt
        exact .escape (isXDigit_hexDigit (by omega)).1 (isXDigit_hexDigit (by omega)).1 ih

/-- An encoded path is decoded to the path, if that is clean. -/
theorem decode_encode {path : List UInt8} {m n : ℕ} (hclean : ∀ c ∈ path, Clean c)
    (hm : (path.flatMap encodeByte).length < m) (hn : path.length < n) :
    (gcHttpEncodePath path m).bind (gcHttpDecodePath · n) = some path := by
  rw [gcHttpEncodePath_of_fits hm, Option.bind_some]
  refine (gcHttpDecodePath_eq_some_iff (by omega)).mpr ⟨?_, hclean, hn⟩
  refine (decodes_encode path).mono fun c hc => ?_
  rintro rfl
  exact absurd hc (by decide)

/-- Two paths are not encoded alike. -/
theorem encode_injective {path path' out : List UInt8} {cap cap' : ℕ}
    (h : gcHttpEncodePath path cap = some out) (h' : gcHttpEncodePath path' cap' = some out) :
    path' = path := by
  have hout := decodes_encode path
  have hout' := decodes_encode path'
  rw [← gcHttpEncodePath_eq h] at hout
  rw [← gcHttpEncodePath_eq h'] at hout'
  exact hout'.unique hout

/-- Encoding writes into its buffer only. -/
theorem encode_kept {path : List UInt8} {cap : ℕ} (hcap : 0 < cap ∨ path ≠ []) :
    (encodeLoop cap [] path).Kept cap := by
  refine ⟨?_, fun hok => ⟨path.flatMap encodeByte, encodeLoop_bytes hok, fun hzero => ?_⟩⟩
  · rcases cap.eq_zero_or_pos with rfl | hpos
    · obtain ⟨c, path, rfl⟩ := List.exists_cons_of_ne_nil
        (hcap.resolve_left (Nat.lt_irrefl 0))
      rw [encodeLoop, if_pos (Nat.zero_le _)]
      rfl
    · exact encodeLoop_within hpos
  · exact absurd (encode_bytes hzero).1.1 (by decide)

/-- Decoding writes into its buffer only. -/
theorem decode_kept {path : List UInt8} {cap : ℕ} (hcap : 0 < cap ∨ path ≠ []) :
    (decodeLoop cap [] path).Kept cap := by
  refine ⟨?_, fun hok => ?_⟩
  · rcases cap.eq_zero_or_pos with rfl | hpos
    · rcases decodeLoop_cases 0 [] path with hnil | hfail | ⟨-, -, -, hroom, -⟩
      · exact absurd hnil (hcap.resolve_left (Nat.lt_irrefl 0))
      · rw [hfail]
        rfl
      · cases hroom
    · exact decodeLoop_within hpos
  · obtain ⟨t, hbytes, -, hclean, -⟩ := decodes_of_decodeLoop hok
    exact ⟨t, hbytes, fun hzero => absurd (hclean 0 hzero).1 (by decide)⟩

/-- The functions on escaped paths do what they are for, except that neither looks whether an
empty string fits. -/
theorem escapes_iff (path : List UInt8) (cap : ℕ) :
    ((∀ c ∈ path, Clean c) → ∀ m n, (path.flatMap encodeByte).length < m → path.length < n →
        (gcHttpEncodePath path m).bind (gcHttpDecodePath · n) = some path) ∧
      (∀ out, gcHttpEncodePath path cap = some out → Escaped out ∧
        ∀ path' cap', gcHttpEncodePath path' cap' = some out → path' = path) ∧
      (∀ out, gcHttpDecodePath path cap = some out →
        Decodes (· ≠ 47) path out ∧ ∀ c ∈ out, Clean c) ∧
      (encodeLoop cap [] path).Kept cap ∧ (decodeLoop cap [] path).Kept cap ↔
      0 < cap ∨ path ≠ [] := by
  refine ⟨fun ⟨_, _, _, hencode, _⟩ => ?_, fun hcap => ⟨fun hclean m n => decode_encode hclean,
    fun out hout => ?_, fun out hout => ?_, encode_kept hcap, decode_kept hcap⟩⟩
  · by_contra hnone
    rw [not_or, not_not, Nat.not_lt, Nat.le_zero] at hnone
    obtain ⟨rfl, rfl⟩ := hnone
    -- the final byte is written without a look at the capacity
    exact absurd hencode.1 (by decide)
  · refine ⟨?_, fun path' cap' => encode_injective hout⟩
    rw [gcHttpEncodePath_eq hout]
    exact escaped_encode path
  · obtain ⟨hok, htext⟩ := Stored.text?_eq_some_iff.mp hout
    obtain ⟨t, hbytes, hdec, hclean, -⟩ := decodes_of_decodeLoop hok
    rw [hbytes, List.dropLast_concat, List.nil_append] at htext
    subst htext
    exact ⟨hdec, hclean⟩

/-- An empty path and a buffer of no bytes: a byte is written behind the buffer. -/
theorem escapes_past_empty_buffer :
    ¬ ∀ path cap, (encodeLoop cap [] path).Kept cap ∧ (decodeLoop cap [] path).Kept cap := by
  intro hkept
  exact absurd (hkept [] 0).1.1 (by decide)

end WiiMC.Http
