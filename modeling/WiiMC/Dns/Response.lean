import WiiMC.Lib.BigEndian
import WiiMC.Lib.Buffer
import WiiMC.Lib.Bytes

/-!
# A DNS response is read

`dns_parse_response` of `dns.c`. The message has exactly the bytes that have been received, and a
read past them fails. Names are skipped and not followed, and so are all records in front of the
first one that is an address.

* `skipName`, `dnsParseResponse`: the functions.
* `EncodedName`, `Record`, `Response`: the grammar of the messages that are accepted.
* `skipName_spec`: a name is skipped if one is there.
* `questionLoop_spec`, `answerLoop_spec`: so are the questions, and the answers up to the address.
* `dnsParseResponse_iff`: exactly the responses of the grammar are accepted.
-/

namespace WiiMC.Dns

open Bytes Buffer

/-! ## The functions -/

/-- `skip_name`: where the next field begins, or nothing where it returns -1. Callers have returned
for a negative offset. -/
def skipName (buf : List UInt8) (len : ℕ) : ℕ → ℕ → Option (Option ℕ)
  | 0, _ => none
  | n + 1, o =>
      if o < len then
        buf[o]?.bind fun c =>
          if c = 0 then some (some (o + 1))
          else if c &&& 0xC0 = 0xC0 then some (if o + 2 ≤ len then some (o + 2) else none)
          else if 63 < c then some none
          else skipName buf len n (o + 1 + c.toNat)
      else some none

/-- A number of `n` bytes at `buf + o`. -/
def number (o n : ℕ) (buf : List UInt8) : Option ℕ := (get o n buf).map BigEndian.decode

/-- The loop over the question section: where the answers begin. -/
def questionLoop (buf : List UInt8) (len : ℕ) : ℕ → ℕ → Option (Option ℕ)
  | 0, o => some (some o)
  | n + 1, o =>
      (skipName buf len (len + 1) o).bind fun
        | none => some none
        | some o => if len < o + 4 then some none else questionLoop buf len n (o + 4)

/-- The loop over the answers: the address and the TTL of the first A record. -/
def answerLoop (buf : List UInt8) (len : ℕ) : ℕ → ℕ → Option (Option (List UInt8 × ℕ))
  | 0, _ => some none
  | n + 1, o =>
      (skipName buf len (len + 1) o).bind fun
        | none => some none
        | some o =>
            if len < o + 10 then some none
            else
              (number o 2 buf).bind fun type =>
              (number (o + 2) 2 buf).bind fun cls =>
              (number (o + 4) 4 buf).bind fun t =>
              (number (o + 8) 2 buf).bind fun rdlen =>
              if len < o + 10 + rdlen then some none
              else if type = 1 ∧ cls = 1 ∧ rdlen = 4 then
                (get (o + 10) 4 buf).map fun ip => some (ip, t)
              else answerLoop buf len n (o + 10 + rdlen)

/-- A TTL between `TTL_MIN` and `TTL_MAX`. -/
def clampTtl (t : ℕ) : ℕ :=
  let t := if t < 30 then 30 else t
  if t > 3600 then 3600 else t

/-- `dns_parse_response`: 0 or -1, and what `ip` and `ttl` point to afterwards. The bytes of an
address are in network order, in which the processor has its numbers too. -/
def dnsParseResponse (buf : Option (List UInt8)) (len : ℤ) (id : UInt16) (ip ttl : Option UInt32) :
    Option (ℤ × Option UInt32 × Option UInt32) :=
  match buf with
  | none => some (-1, ip, ttl)
  | some buf =>
      if ip = none ∨ len < 12 then some (-1, ip, ttl)
      else
        (number 0 2 buf).bind fun ident =>
        if ident ≠ id.toNat then some (-1, ip, ttl)
        else
          buf[2]?.bind fun flags =>
          if flags &&& 0x80 = 0 then some (-1, ip, ttl)
          else
            buf[3]?.bind fun rcode =>
            if rcode &&& 0x0F ≠ 0 then some (-1, ip, ttl)
            else
              (number 4 2 buf).bind fun qd =>
              (number 6 2 buf).bind fun an =>
              (questionLoop buf len.toNat qd 12).bind fun
                | none => some (-1, ip, ttl)
                | some o =>
                    (answerLoop buf len.toNat an o).map fun
                      | none => (-1, ip, ttl)
                      | some (addr, t) =>
                          (0, some (UInt32.ofNat (BigEndian.decode addr)),
                            ttl.map fun _ => UInt32.ofNat (clampTtl t))

/-! ## The grammar -/

/-- An encoded name, as far as it is looked at: labels, and the byte of the root or a pointer. -/
inductive EncodedName : List UInt8 → Prop
  | root : EncodedName [0]
  | pointer {hi : UInt8} (lo : UInt8) : hi &&& 0xC0 = 0xC0 → EncodedName [hi, lo]
  | label {c : UInt8} {l name : List UInt8} : c ≠ 0 → c ≤ 63 → l.length = c.toNat →
      EncodedName name → EncodedName (c :: (l ++ name))

/-- An entry of the question section. -/
structure Question where
  name : List UInt8
  isName : EncodedName name
  type : UInt16
  cls : UInt16

def Question.bytes (q : Question) : List UInt8 :=
  q.name ++ (BigEndian.encode 2 q.type.toNat ++ BigEndian.encode 2 q.cls.toNat)

/-- A resource record. -/
structure Record where
  name : List UInt8
  isName : EncodedName name
  type : UInt16
  cls : UInt16
  ttl : UInt32
  rdata : List UInt8
  rdata_length : rdata.length < 2 ^ 16

def Record.bytes (r : Record) : List UInt8 :=
  r.name ++ (BigEndian.encode 2 r.type.toNat ++ (BigEndian.encode 2 r.cls.toNat ++
    (BigEndian.encode 4 r.ttl.toNat ++ (BigEndian.encode 2 r.rdata.length ++ r.rdata))))

/-- An A record of the class IN, with an address of four bytes. -/
def Record.IsAddress (r : Record) : Prop := r.type = 1 ∧ r.cls = 1 ∧ r.rdata.length = 4

/-- A question section of `n` entries, with `tail` behind it. -/
inductive Questions : ℕ → List UInt8 → List UInt8 → Prop
  | nil (tail : List UInt8) : Questions 0 tail tail
  | cons {n : ℕ} {rest tail : List UInt8} (q : Question) : Questions n rest tail →
      Questions (n + 1) (q.bytes ++ rest) tail

/-- Of at most `n` records `r` is the first address. Nothing is said of what comes behind it. -/
inductive Answers : ℕ → List UInt8 → Record → Prop
  | found {n : ℕ} {r : Record} (tail : List UInt8) : r.IsAddress →
      Answers (n + 1) (r.bytes ++ tail) r
  | skip {n : ℕ} {rest : List UInt8} {r : Record} (x : Record) : ¬x.IsAddress →
      Answers n rest r → Answers (n + 1) (x.bytes ++ rest) r

/-- The answer that is taken is an address. -/
theorem Answers.isAddress {n : ℕ} {rest : List UInt8} {r : Record} (h : Answers n rest r) :
    r.IsAddress := by
  induction h with
  | found _ h => exact h
  | skip _ _ _ ih => exact ih

/-- A response without an error to the query `id`, with the address `r`. -/
inductive Response (id : UInt16) : List UInt8 → Record → Prop
  | mk {flags rcode : UInt8} {qd an : UInt16} {others rest answers : List UInt8} {r : Record} :
      flags &&& 0x80 ≠ 0 → rcode &&& 0x0F = 0 → others.length = 4 →
      Questions qd.toNat rest answers → Answers an.toNat answers r →
      Response id (BigEndian.encode 2 id.toNat ++ (flags :: rcode :: (BigEndian.encode 2 qd.toNat ++
        (BigEndian.encode 2 an.toNat ++ (others ++ rest))))) r

variable {buf pre post rest tail name : List UInt8} {n o : ℕ}

/-! ## Names -/

/-- A pointer does not look like the length of a label. -/
theorem pointer_gt {c : UInt8} (h : c &&& 0xC0 = 0xC0) : 63 < c :=
  forall_byte (p := fun c => c &&& 0xC0 = 0xC0 → 63 < c) (by decide +kernel) c h

/-- A pointer is not the end of a name. -/
theorem pointer_ne_zero {c : UInt8} (h : c &&& 0xC0 = 0xC0) : c ≠ 0 := by
  rintro rfl
  exact absurd h (by decide)

/-- A byte that is known to follow is read. -/
theorem getElem?_of_drop {c : UInt8} (h : c :: rest <+: buf.drop o) : buf[o]? = some c := by
  obtain ⟨t, ht⟩ := h
  rw [← List.head?_drop, ← ht]
  rfl

/-- A text that is known to follow stands in the message. -/
theorem lt_of_drop (hne : name ≠ []) (h : name <+: buf.drop o) : o + name.length ≤ buf.length := by
  have hlen := h.length_le
  have hpos := List.length_pos_of_ne_nil hne
  rw [List.length_drop] at hlen
  omega

/-- An encoded name has some bytes. -/
theorem EncodedName.ne_nil (h : EncodedName name) : name ≠ [] := by
  cases h <;> exact List.cons_ne_nil _ _

/-- A name that is there is skipped. -/
theorem skipName_name (hname : EncodedName name) (hpre : name <+: buf.drop o)
    (hn : buf.length < o + n) : skipName buf buf.length n o = some (some (o + name.length)) := by
  induction hname generalizing o n with
  | root =>
      have hlt := lt_of_drop (List.cons_ne_nil _ _) hpre
      rw [List.length_singleton] at hlt
      obtain ⟨n, rfl⟩ := Nat.exists_eq_succ_of_ne_zero (show n ≠ 0 by omega)
      rw [skipName, if_pos (by omega), getElem?_of_drop hpre]
      rfl
  | @pointer hi lo hhi =>
      have hlt : o + 2 ≤ buf.length := lt_of_drop (List.cons_ne_nil _ _) hpre
      obtain ⟨n, rfl⟩ := Nat.exists_eq_succ_of_ne_zero (show n ≠ 0 by omega)
      rw [skipName, if_pos (by omega), getElem?_of_drop hpre, Option.bind_some,
        if_neg (pointer_ne_zero hhi), if_pos hhi, if_pos hlt]
      rfl
  | @label c l name hc hle hl hname ih =>
      have hlt := lt_of_drop (List.cons_ne_nil _ _) hpre
      rw [List.length_cons] at hlt
      obtain ⟨n, rfl⟩ := Nat.exists_eq_succ_of_ne_zero (show n ≠ 0 by omega)
      rw [skipName, if_pos (by omega), getElem?_of_drop hpre, Option.bind_some, if_neg hc,
        if_neg fun h => UInt8.not_lt.mpr hle (pointer_gt h), if_neg (UInt8.not_lt.mpr hle)]
      -- behind the label stands the rest of the name
      have hdrop : name <+: buf.drop (o + 1 + c.toNat) := by
        obtain ⟨t, ht⟩ := hpre
        refine ⟨t, ?_⟩
        rw [Nat.add_assoc, ← List.drop_drop, ← ht, Nat.add_comm 1, List.cons_append,
          List.drop_succ_cons, List.append_assoc, ← hl, List.drop_left]
      rw [ih hdrop (by omega), List.length_cons, List.length_append, hl]
      congr 2
      omega

/-- If there is no name, -1 is returned. -/
theorem skipName_none (hno : ∀ name, EncodedName name → ¬name <+: buf.drop o)
    (hn : buf.length < o + n) (hpos : 0 < n) : skipName buf buf.length n o = some none := by
  induction n generalizing o with
  | zero => exact absurd hpos (Nat.lt_irrefl 0)
  | succ n ih =>
      rw [skipName]
      by_cases hlt : o < buf.length
      swap
      · rw [if_neg hlt]
      rw [if_pos hlt]
      obtain ⟨c, rest, hdrop⟩ := List.exists_cons_of_length_pos
        (show 0 < (buf.drop o).length by rw [List.length_drop]; omega)
      have hlen : o + 1 + rest.length = buf.length := by
        have hlen := congrArg List.length hdrop
        rw [List.length_drop, List.length_cons] at hlen
        omega
      have hpre : c :: rest <+: buf.drop o := ⟨[], by rw [List.append_nil, hdrop]⟩
      rw [getElem?_of_drop hpre, Option.bind_some]
      rw [hdrop] at hno
      by_cases hc : c = 0
      · subst hc
        exact absurd ⟨rest, rfl⟩ (hno [0] .root)
      rw [if_neg hc]
      by_cases hpointer : c &&& 0xC0 = 0xC0
      · rw [if_pos hpointer]
        rcases rest with _ | ⟨lo, rest⟩
        · rw [if_neg (by rw [← hlen]; simp)]
        · exact absurd ⟨rest, rfl⟩ (hno [c, lo] (.pointer lo hpointer))
      rw [if_neg hpointer]
      by_cases hlong : 63 < c
      · rw [if_pos hlong]
      rw [if_neg hlong]
      have hcpos : 0 < c.toNat := Nat.pos_of_ne_zero fun h => hc (UInt8.toNat_inj.mp h)
      refine ih (fun name hname hpre => ?_) (by omega) (by omega)
      -- a name behind the label would make one with it
      have hle := lt_of_drop hname.ne_nil hpre
      have hnext : buf.drop (o + 1 + c.toNat) = rest.drop c.toNat := by
        rw [Nat.add_assoc, ← List.drop_drop, hdrop, Nat.add_comm 1, List.drop_succ_cons]
      rw [hnext] at hpre
      refine hno _ (.label hc (UInt8.not_lt.mp hlong) (l := rest.take c.toNat) ?_ hname) ?_
      · rw [List.length_take]
        omega
      · rw [List.cons_prefix_cons]
        refine ⟨rfl, ?_⟩
        conv_rhs => rw [← List.take_append_drop c.toNat rest]
        exact (List.prefix_append_right_inj _).mpr hpre

/-! ## Numbers -/

/-- A number is read where it was written. -/
theorem number_append {k v : ℕ} (hv : v < 256 ^ k) (ho : pre.length = o) :
    number o k (pre ++ (BigEndian.encode k v ++ post)) = some v := by
  rw [number, ← ho, get_append pre _ post (BigEndian.length_encode k v), Option.map_some,
    BigEndian.decode_encode hv]

/-- The bytes at the start are a number. -/
theorem exists_number {k : ℕ} (hk : k ≤ rest.length) :
    ∃ v < 256 ^ k, ∃ post, rest = BigEndian.encode k v ++ post := by
  have hlen : (rest.take k).length = k := List.length_take_of_le hk
  refine ⟨BigEndian.decode (rest.take k), ?_, rest.drop k, ?_⟩
  · have hlt := BigEndian.decode_lt (rest.take k)
    rwa [hlen] at hlt
  · have hencode := BigEndian.encode_decode (rest.take k)
    rw [hlen] at hencode
    rw [hencode, List.take_append_drop]

/-- Two bytes are a number of 16 bits. -/
theorem exists_number16 (hlen : 2 ≤ rest.length) :
    ∃ (v : UInt16) (post : List UInt8), rest = BigEndian.encode 2 v.toNat ++ post ∧
      post.length + 2 = rest.length := by
  obtain ⟨v, hv, post, rfl⟩ := exists_number hlen
  refine ⟨UInt16.ofNat v, post, ?_, ?_⟩
  · rw [UInt16.toNat_ofNat', Nat.mod_eq_of_lt (show v < 2 ^ 16 from hv)]
  · rw [List.length_append, BigEndian.length_encode, Nat.add_comm]

/-- Four bytes are a number of 32 bits. -/
theorem exists_number32 (hlen : 4 ≤ rest.length) :
    ∃ (v : UInt32) (post : List UInt8), rest = BigEndian.encode 4 v.toNat ++ post ∧
      post.length + 4 = rest.length := by
  obtain ⟨v, hv, post, rfl⟩ := exists_number hlen
  refine ⟨UInt32.ofNat v, post, ?_, ?_⟩
  · rw [UInt32.toNat_ofNat', Nat.mod_eq_of_lt (show v < 2 ^ 32 from hv)]
  · rw [List.length_append, BigEndian.length_encode, Nat.add_comm]

/-! ## Questions -/

/-- The name at the place where a section goes on. -/
theorem skipName_at (hbuf : buf = pre ++ (name ++ rest)) (hname : EncodedName name) :
    skipName buf buf.length (buf.length + 1) pre.length = some (some (pre ++ name).length) := by
  rw [skipName_name hname (by rw [hbuf, List.drop_left]; exact List.prefix_append name rest)
    (by omega), List.length_append]

/-- There is no name there. -/
theorem skipName_not_at (hbuf : buf = pre ++ rest)
    (hno : ∀ name, EncodedName name → ¬name <+: rest) :
    skipName buf buf.length (buf.length + 1) pre.length = some none :=
  skipName_none (by rwa [hbuf, List.drop_left]) (by omega) (Nat.succ_pos _)

/-- The loop skips the questions. -/
theorem questionLoop_questions (hq : Questions n rest tail) (hbuf : buf = pre ++ rest) :
    ∃ pre', buf = pre' ++ tail ∧
      questionLoop buf buf.length n pre.length = some (some pre'.length) := by
  induction hq generalizing pre with
  | nil tail => exact ⟨pre, hbuf, rfl⟩
  | @cons n rest tail q hq ih =>
      have hbytes : q.bytes ++ rest = q.name ++ (BigEndian.encode 2 q.type.toNat ++
          (BigEndian.encode 2 q.cls.toNat ++ rest)) := by
        simp only [Question.bytes, List.append_assoc]
      have hlen : (pre ++ q.bytes).length = (pre ++ q.name).length + 4 := by
        simp only [Question.bytes, List.length_append, BigEndian.length_encode]
        omega
      have hroom : (pre ++ q.bytes).length ≤ buf.length := by
        rw [hbuf, ← List.append_assoc, @List.length_append _ (pre ++ q.bytes)]
        omega
      obtain ⟨pre', htail, hloop⟩ := ih (hbuf.trans (List.append_assoc ..).symm)
      refine ⟨pre', htail, ?_⟩
      rw [questionLoop, skipName_at (hbuf.trans (by rw [hbytes])) q.isName, Option.bind_some]
      simp only
      rw [if_neg (by omega), ← hlen, hloop]

/-- The loop fails where the questions are cut short. -/
theorem questionLoop_none (hno : ∀ tail, ¬Questions n rest tail) (hbuf : buf = pre ++ rest) :
    questionLoop buf buf.length n pre.length = some none := by
  induction n generalizing pre rest with
  | zero => exact absurd (.nil rest) (hno rest)
  | succ n ih =>
      rw [questionLoop]
      by_cases hname : ∃ name, EncodedName name ∧ name <+: rest
      swap
      · rw [skipName_not_at hbuf fun name h h' => hname ⟨name, h, h'⟩]
        rfl
      obtain ⟨name, hname, r, rfl⟩ := hname
      rw [skipName_at hbuf hname, Option.bind_some]
      simp only
      by_cases hroom : 4 ≤ r.length
      swap
      · rw [if_pos (by rw [hbuf]; simp only [List.length_append]; omega)]
      obtain ⟨type, r, rfl, hlen⟩ := exists_number16 (show 2 ≤ r.length by omega)
      obtain ⟨cls, r, rfl, -⟩ := exists_number16 (show 2 ≤ r.length by omega)
      rw [if_neg (by rw [hbuf]; simp only [List.length_append, BigEndian.length_encode]; omega)]
      -- the entry is one, so that the others are not
      let q : Question := ⟨name, hname, type, cls⟩
      have hbytes : name ++ (BigEndian.encode 2 type.toNat ++ (BigEndian.encode 2 cls.toNat ++ r)) =
          q.bytes ++ r := by
        simp only [q, Question.bytes, List.append_assoc]
      rw [hbytes] at hbuf hno
      have hlen : (pre ++ name).length + 4 = (pre ++ q.bytes).length := by
        simp only [q, Question.bytes, List.length_append, BigEndian.length_encode]
        omega
      rw [hlen]
      exact ih (fun tail h => hno tail (.cons q h)) (hbuf.trans (List.append_assoc ..).symm)

/-! ## Answers -/

/-- The fields of a record at the place where the section goes on. -/
theorem answerLoop_step {type cls : UInt16} {ttl : UInt32} {k : UInt16} (hname : EncodedName name)
    (hbuf : buf = pre ++ (name ++ (BigEndian.encode 2 type.toNat ++
      (BigEndian.encode 2 cls.toNat ++ (BigEndian.encode 4 ttl.toNat ++
        (BigEndian.encode 2 k.toNat ++ rest)))))) :
    answerLoop buf buf.length (n + 1) pre.length =
      if rest.length < k.toNat then some none
      else if type = 1 ∧ cls = 1 ∧ k.toNat = 4 then some (some (rest.take 4, ttl.toNat))
      else answerLoop buf buf.length n (pre.length + name.length + 10 + k.toNat) := by
  have hlen : buf.length = pre.length + name.length + 10 + rest.length := by
    rw [hbuf]
    simp only [List.length_append, BigEndian.length_encode]
    omega
  have ho : (pre ++ name).length = pre.length + name.length := List.length_append
  have hname' := skipName_at hbuf hname
  -- each field, behind the ones in front of it
  have h1 : number (pre.length + name.length) 2 buf = some type.toNat := by
    rw [hbuf, ← List.append_assoc pre]
    exact number_append type.toNat_lt ho
  have h2 : number (pre.length + name.length + 2) 2 buf = some cls.toNat := by
    rw [hbuf, ← List.append_assoc pre, ← List.append_assoc (pre ++ name)]
    exact number_append cls.toNat_lt (by rw [List.length_append, ho, BigEndian.length_encode])
  have h3 : number (pre.length + name.length + 4) 4 buf = some ttl.toNat := by
    rw [hbuf, ← List.append_assoc pre, ← List.append_assoc (pre ++ name), ← List.append_assoc]
    exact number_append ttl.toNat_lt (by simp only [List.length_append, BigEndian.length_encode])
  have h4 : number (pre.length + name.length + 8) 2 buf = some k.toNat := by
    rw [hbuf, ← List.append_assoc pre, ← List.append_assoc (pre ++ name), ← List.append_assoc,
      ← List.append_assoc]
    exact number_append k.toNat_lt (by simp only [List.length_append, BigEndian.length_encode])
  have h5 : 4 ≤ rest.length → get (pre.length + name.length + 10) 4 buf = some (rest.take 4) := by
    intro hle
    have hdrop : buf.drop (pre.length + name.length + 10) = rest := by
      rw [hbuf, ← List.append_assoc pre, ← List.append_assoc (pre ++ name), ← List.append_assoc,
        ← List.append_assoc, ← List.append_assoc]
      exact List.drop_left' (by simp only [List.length_append, BigEndian.length_encode])
    rw [get_of_le (by omega), hdrop]
  have htype : type.toNat = 1 ↔ type = 1 := UInt16.toNat_inj (b := 1)
  have hcls : cls.toNat = 1 ↔ cls = 1 := UInt16.toNat_inj (b := 1)
  rw [answerLoop, hname', Option.bind_some]
  simp only [ho]
  rw [if_neg (by omega), h1, Option.bind_some, h2, Option.bind_some, h3, Option.bind_some, h4,
    Option.bind_some]
  simp only [htype, hcls]
  by_cases hshort : rest.length < k.toNat
  · rw [if_pos hshort, if_pos (by omega)]
  rw [if_neg hshort, if_neg (by omega)]
  by_cases haddress : type = 1 ∧ cls = 1 ∧ k.toNat = 4
  · rw [if_pos haddress, if_pos haddress, h5 (by omega)]
    rfl
  · rw [if_neg haddress, if_neg haddress]

/-- The fields of a record follow each other. -/
theorem Record.bytes_append (r : Record) (tail : List UInt8) :
    r.bytes ++ tail = r.name ++ (BigEndian.encode 2 r.type.toNat ++
      (BigEndian.encode 2 r.cls.toNat ++ (BigEndian.encode 4 r.ttl.toNat ++
        (BigEndian.encode 2 (UInt16.ofNat r.rdata.length).toNat ++ (r.rdata ++ tail))))) := by
  have hk : (UInt16.ofNat r.rdata.length).toNat = r.rdata.length := Nat.mod_eq_of_lt r.rdata_length
  rw [hk]
  simp only [Record.bytes, List.append_assoc]

/-- The loop at a record: its address is taken, or it is left behind. -/
theorem answerLoop_record (r : Record) (hbuf : buf = pre ++ (r.bytes ++ tail)) :
    (r.IsAddress → answerLoop buf buf.length (n + 1) pre.length =
      some (some (r.rdata, r.ttl.toNat))) ∧
    (¬r.IsAddress → answerLoop buf buf.length (n + 1) pre.length =
      answerLoop buf buf.length n (pre ++ r.bytes).length) := by
  have hk : (UInt16.ofNat r.rdata.length).toNat = r.rdata.length := Nat.mod_eq_of_lt r.rdata_length
  rw [answerLoop_step r.isName (hbuf.trans (by rw [r.bytes_append])), hk,
    if_neg (by rw [List.length_append]; omega)]
  constructor
  · intro h
    rw [if_pos (show r.type = 1 ∧ r.cls = 1 ∧ r.rdata.length = 4 from h), List.take_left' h.2.2]
  · intro h
    rw [if_neg (show ¬(r.type = 1 ∧ r.cls = 1 ∧ r.rdata.length = 4) from h), List.length_append,
      Record.bytes]
    simp only [List.length_append, BigEndian.length_encode]
    congr 1
    omega

/-- The loop finds the answer. -/
theorem answerLoop_answers {r : Record} (ha : Answers n rest r) (hbuf : buf = pre ++ rest) :
    answerLoop buf buf.length n pre.length = some (some (r.rdata, r.ttl.toNat)) := by
  induction ha generalizing pre with
  | found tail h => exact (answerLoop_record _ hbuf).1 h
  | skip x h _ ih =>
      rw [(answerLoop_record x hbuf).2 h]
      exact ih (hbuf.trans (List.append_assoc ..).symm)

/-- The loop fails where there is no answer. -/
theorem answerLoop_none (hno : ∀ r, ¬Answers n rest r) (hbuf : buf = pre ++ rest) :
    answerLoop buf buf.length n pre.length = some none := by
  induction n generalizing pre rest with
  | zero => rfl
  | succ n ih =>
      by_cases hname : ∃ name, EncodedName name ∧ name <+: rest
      swap
      · rw [answerLoop, skipName_not_at hbuf fun name h h' => hname ⟨name, h, h'⟩]
        rfl
      obtain ⟨name, hname, r, rfl⟩ := hname
      by_cases hroom : 10 ≤ r.length
      swap
      · rw [answerLoop, skipName_at hbuf hname, Option.bind_some]
        exact if_pos (by rw [hbuf]; simp only [List.length_append]; omega)
      obtain ⟨type, r₁, rfl, hlen⟩ := exists_number16 (show 2 ≤ r.length by omega)
      obtain ⟨cls, r₂, rfl, hlen₁⟩ := exists_number16 (show 2 ≤ r₁.length by omega)
      obtain ⟨ttl, r₃, rfl, hlen₂⟩ := exists_number32 (show 4 ≤ r₂.length by omega)
      obtain ⟨k, r, rfl, -⟩ := exists_number16 (show 2 ≤ r₃.length by omega)
      by_cases hshort : r.length < k.toNat
      · rw [answerLoop_step hname hbuf, if_pos hshort]
      -- the record is one, so that it is no address and the others are none
      have hk : (r.take k.toNat).length = k.toNat := List.length_take_of_le (not_lt.mp hshort)
      let x : Record := ⟨name, hname, type, cls, ttl, r.take k.toNat, hk.trans_lt k.toNat_lt⟩
      have hbytes : name ++ (BigEndian.encode 2 type.toNat ++ (BigEndian.encode 2 cls.toNat ++
          (BigEndian.encode 4 ttl.toNat ++ (BigEndian.encode 2 k.toNat ++ r)))) =
          x.bytes ++ r.drop k.toNat := by
        simp only [x, Record.bytes, List.append_assoc, hk, List.take_append_drop]
      rw [hbytes] at hbuf hno
      have hx : ¬x.IsAddress := fun h => hno x (.found _ h)
      rw [(answerLoop_record x hbuf).2 hx]
      exact ih (fun r h => hno r (.skip x hx h)) (hbuf.trans (List.append_assoc ..).symm)

/-! ## The message -/

/-- The fields of the header are there in every message of 12 bytes. -/
theorem exists_header (hlen : 12 ≤ buf.length) :
    ∃ (id : UInt16) (flags rcode : UInt8) (qd an : UInt16) (others rest : List UInt8),
      others.length = 4 ∧
      buf = BigEndian.encode 2 id.toNat ++ (flags :: rcode :: (BigEndian.encode 2 qd.toNat ++
        (BigEndian.encode 2 an.toNat ++ (others ++ rest)))) := by
  obtain ⟨id, r, rfl, hr⟩ := exists_number16 (show 2 ≤ buf.length by omega)
  obtain ⟨flags, r₁, rfl⟩ := List.exists_cons_of_length_pos (show 0 < r.length by omega)
  rw [List.length_cons] at hr
  obtain ⟨rcode, r₂, rfl⟩ := List.exists_cons_of_length_pos (show 0 < r₁.length by omega)
  rw [List.length_cons] at hr
  obtain ⟨qd, r₃, rfl, hr₃⟩ := exists_number16 (show 2 ≤ r₂.length by omega)
  obtain ⟨an, r₄, rfl, hr₄⟩ := exists_number16 (show 2 ≤ r₃.length by omega)
  exact ⟨id, flags, rcode, qd, an, r₄.take 4, r₄.drop 4, List.length_take_of_le (by omega),
    by rw [List.take_append_drop]⟩

/-- What is read of the header. -/
theorem dnsParseResponse_header {ident qd an : UInt16} {flags rcode : UInt8} {others : List UInt8}
    (hothers : others.length = 4)
    (hbuf : buf = BigEndian.encode 2 ident.toNat ++ (flags :: rcode ::
      (BigEndian.encode 2 qd.toNat ++ (BigEndian.encode 2 an.toNat ++ (others ++ rest)))))
    (id : UInt16) (ip : UInt32) (ttl : Option UInt32) :
    ∃ pre, buf = pre ++ rest ∧ dnsParseResponse (some buf) buf.length id (some ip) ttl =
      if ident ≠ id then some (-1, some ip, ttl)
      else if flags &&& 0x80 = 0 then some (-1, some ip, ttl)
      else if rcode &&& 0x0F ≠ 0 then some (-1, some ip, ttl)
      else
        (questionLoop buf buf.length qd.toNat pre.length).bind fun
          | none => some (-1, some ip, ttl)
          | some o =>
              (answerLoop buf buf.length an.toNat o).map fun
                | none => (-1, some ip, ttl)
                | some (addr, t) =>
                    (0, some (UInt32.ofNat (BigEndian.decode addr)),
                      ttl.map fun _ => UInt32.ofNat (clampTtl t)) := by
  refine ⟨BigEndian.encode 2 ident.toNat ++ (flags :: rcode :: (BigEndian.encode 2 qd.toNat ++
    (BigEndian.encode 2 an.toNat ++ others))), by
      simp only [hbuf, List.append_assoc, List.cons_append], ?_⟩
  have hpre : (BigEndian.encode 2 ident.toNat ++ (flags :: rcode :: (BigEndian.encode 2 qd.toNat ++
      (BigEndian.encode 2 an.toNat ++ others)))).length = 12 := by
    simp only [List.length_append, List.length_cons, BigEndian.length_encode, hothers]
  have hlen : ¬(buf.length : ℤ) < 12 := by
    have hlen := congrArg List.length hbuf
    simp only [List.length_append, List.length_cons, BigEndian.length_encode, hothers] at hlen
    omega
  -- The five reads of the header, each behind the bytes in front of it.
  have h1 : number 0 2 buf = some ident.toNat := by
    rw [hbuf]
    show number 0 2 ([] ++ _) = _
    exact number_append ident.toNat_lt rfl
  have h2 : buf[2]? = some flags := by
    rw [hbuf]
    rfl
  have h3 : buf[3]? = some rcode := by
    rw [hbuf]
    rfl
  have h4 : number 4 2 buf = some qd.toNat := by
    rw [hbuf]
    show number 4 2 ((BigEndian.encode 2 ident.toNat ++ [flags, rcode]) ++
      (BigEndian.encode 2 qd.toNat ++ _)) = _
    exact number_append qd.toNat_lt rfl
  have h5 : number 6 2 buf = some an.toNat := by
    rw [hbuf]
    show number 6 2 ((BigEndian.encode 2 ident.toNat ++
      (flags :: rcode :: BigEndian.encode 2 qd.toNat)) ++ (BigEndian.encode 2 an.toNat ++ _)) = _
    exact number_append an.toNat_lt rfl
  -- what follows is the function itself, with these values
  have hident : ident.toNat ≠ id.toNat ↔ ident ≠ id := not_congr UInt16.toNat_inj
  rw [dnsParseResponse, if_neg (not_or.mpr ⟨nofun, hlen⟩), hpre, h1, Option.bind_some, h2, h3, h4,
    h5, Int.toNat_natCast]
  simp only [hident, Option.bind_some]

/-- A response of the grammar is accepted. -/
theorem dnsParseResponse_response {id : UInt16} {r : Record} (h : Response id buf r) (ip : UInt32)
    (ttl : Option UInt32) :
    dnsParseResponse (some buf) buf.length id (some ip) ttl =
      some (0, some (UInt32.ofNat (BigEndian.decode r.rdata)),
        ttl.map fun _ => UInt32.ofNat (clampTtl r.ttl.toNat)) := by
  rcases h with ⟨hflags, hrcode, hothers, hquestions, hanswers⟩
  obtain ⟨pre, hpre, heq⟩ := dnsParseResponse_header hothers rfl id ip ttl
  rw [heq, if_neg (not_not.mpr rfl), if_neg hflags, if_neg (not_not.mpr hrcode)]
  obtain ⟨pre', hpre', hloop⟩ := questionLoop_questions hquestions hpre
  rw [hloop, Option.bind_some]
  simp only
  rw [answerLoop_answers hanswers hpre']
  rfl

/-- Everything else is not, and nothing is stored. -/
theorem dnsParseResponse_none {id : UInt16} (hno : ¬∃ r, Response id buf r) (ip : UInt32)
    (ttl : Option UInt32) :
    dnsParseResponse (some buf) buf.length id (some ip) ttl = some (-1, some ip, ttl) := by
  by_cases hlen : 12 ≤ buf.length
  swap
  · exact if_pos (.inr (by omega))
  obtain ⟨ident, flags, rcode, qd, an, others, rest, hothers, hbuf⟩ := exists_header hlen
  obtain ⟨pre, hpre, heq⟩ := dnsParseResponse_header hothers hbuf id ip ttl
  rw [heq]
  by_cases hid : ident = id
  swap
  · rw [if_pos hid]
  rw [if_neg (not_not.mpr hid)]
  by_cases hflags : flags &&& 0x80 = 0
  · rw [if_pos hflags]
  rw [if_neg hflags]
  by_cases hrcode : rcode &&& 0x0F = 0
  swap
  · rw [if_pos hrcode]
  rw [if_neg (not_not.mpr hrcode)]
  by_cases hquestions : ∃ answers, Questions qd.toNat rest answers
  swap
  · rw [questionLoop_none (not_exists.mp hquestions) hpre]
    rfl
  obtain ⟨answers, hquestions⟩ := hquestions
  obtain ⟨pre', hpre', hloop⟩ := questionLoop_questions hquestions hpre
  -- an address among the answers would make the message a response
  have hanswers : ∀ r, ¬Answers an.toNat answers r := fun r hr => hno
    ⟨r, hid ▸ hbuf ▸ .mk hflags hrcode hothers hquestions hr⟩
  rw [hloop, Option.bind_some]
  simp only
  rw [answerLoop_none hanswers hpre']
  rfl

/-- The time to live is kept between half a minute and an hour. -/
theorem clampTtl_eq (t : ℕ) : clampTtl t = min 3600 (max 30 t) := by
  unfold clampTtl
  simp only
  split_ifs <;> omega

/-- `dns_parse_response` reads nothing behind the message and returns. It returns 0 exactly for the
responses of the grammar, with the address of the record and its TTL between the limits, and stores
nothing otherwise. -/
theorem dnsParseResponse_iff (buf : List UInt8) (id : UInt16) (ip : UInt32) (ttl : Option UInt32) :
    ∃ ret ip' ttl',
      dnsParseResponse (some buf) buf.length id (some ip) ttl = some (ret, some ip', ttl') ∧
      (ret = 0 ↔ ∃ r, Response id buf r) ∧
      (∀ r, Response id buf r → BigEndian.encode 4 ip'.toNat = r.rdata ∧
        ttl' = ttl.map fun _ => UInt32.ofNat (min 3600 (max 30 r.ttl.toNat))) ∧
      ((¬∃ r, Response id buf r) → ret = -1 ∧ ip' = ip ∧ ttl' = ttl) := by
  by_cases hr : ∃ r, Response id buf r
  · obtain ⟨r, hr⟩ := hr
    refine ⟨_, _, _, dnsParseResponse_response hr ip ttl, ⟨fun _ => ⟨r, hr⟩, fun _ => rfl⟩,
      fun r' hr' => ?_, fun hno => absurd ⟨r, hr⟩ hno⟩
    -- the record is the only one
    have heq := (dnsParseResponse_response hr ip ttl).symm.trans
      (dnsParseResponse_response hr' ip ttl)
    simp only [Option.some.injEq, Prod.mk.injEq, true_and] at heq
    rw [heq.1, heq.2, clampTtl_eq]
    refine ⟨?_, rfl⟩
    have hrdata : r'.rdata.length = 4 := by
      rcases hr' with ⟨-, -, -, -, hanswers⟩
      exact hanswers.isAddress.2.2
    have hlt := BigEndian.decode_lt r'.rdata
    have hencode := BigEndian.encode_decode r'.rdata
    rw [hrdata] at hlt hencode
    rw [UInt32.toNat_ofNat', Nat.mod_eq_of_lt (show _ < 2 ^ 32 from hlt), hencode]
  · exact ⟨_, _, _, dnsParseResponse_none hr ip ttl, ⟨nofun, fun h => absurd h hr⟩,
      fun r h => absurd ⟨r, h⟩ hr, fun _ => ⟨rfl, rfl, rfl⟩⟩

end WiiMC.Dns
