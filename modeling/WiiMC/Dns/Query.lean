import WiiMC.Lib.Buffer
import WiiMC.Player.Browser

/-!
# A DNS query is built

`dns_build_query` of `dns.c`: the host becomes a name of labels, each behind its length. The
buffer has exactly the size that the caller states, and a write past it fails.

* `dnsBuildQuery`: the function.
* `labels`, `message`: the labels of a host, one dot at its end apart, and the message for it.
* `labelLoop_spec`: what the loop over the labels stores, and when it gives up.
* `dnsBuildQuery_iff`: the query is built exactly for the names of RFC 1035, except at one length.
-/

namespace WiiMC.Dns

open Bytes Buffer Player

/-- `NAME_MAXLEN`. -/
def nameMaxlen : ℕ := 255

/-- The loop over the labels: `p` is what is left of the host, and `o` where the next byte goes. It
returns where it has stopped, or nothing for a name that cannot be encoded, and the buffer. -/
def labelLoop (max : ℤ) : ℕ → Text → ℕ → List UInt8 → Option (Option ℕ × List UInt8)
  | _, [], o, buf => some (some o, buf)
  | 0, _ :: _, _, _ => none
  | n + 1, p@(_ :: _), o, buf =>
      let dot := splitAt? 46 p
      let lab := (dot.map (·.1.length)).getD p.length
      if lab < 1 ∨ 63 < lab then some (none, buf)
      else if max < o + 1 + lab + 5 then some (none, buf)
      else if nameMaxlen < o + 1 + lab - 12 then some (none, buf)
      else
        (put o [UInt8.ofNat lab] buf).bind fun buf =>
        (put (o + 1) (p.take lab) buf).bind fun buf =>
        labelLoop max n ((dot.map (·.2)).getD []) (o + 1 + lab) buf

/-- The header of a query. -/
def header (id : UInt16) : List UInt8 :=
  [(id >>> 8).toUInt8, id.toUInt8, 1, 0, 0, 1, 0, 0, 0, 0, 0, 0]

/-- `dns_build_query`: the length of the message, or -1, and the buffer afterwards. -/
def dnsBuildQuery (buf : Option (List UInt8)) (max : ℤ) (host : Option Text) (id : UInt16) :
    Option (ℤ × List UInt8) :=
  match buf, host with
  | some buf, some host =>
      if max < 17 then some (-1, buf)
      else
        (put 0 (header id) buf).bind fun buf =>
        (labelLoop max host.length host 12 buf).bind fun
          | (none, buf) => some (-1, buf)
          | (some o, buf) =>
              if o = 12 then some (-1, buf)
              else (put o [0, 0, 1, 0, 1] buf).map fun buf => (↑(o + 5), buf)
  | buf, _ => some (-1, buf.getD [])

/-! ## The name of a host -/

/-- The host, without one dot at its end. -/
def withoutDot (host : Text) : Text := if host.getLast? = some 46 then host.dropLast else host

/-- The labels of a host. -/
def labels (host : Text) : List Text := (withoutDot host).splitOn 46

/-- Labels, each behind its length. -/
def encode (ls : List Text) : List UInt8 := ls.flatMap fun l => UInt8.ofNat l.length :: l

/-- The encoded name, with the byte of the root. -/
def encodedName (host : Text) : List UInt8 := encode (labels host) ++ [0]

/-- The message that asks for an address of the host. -/
def message (id : UInt16) (host : Text) : List UInt8 :=
  header id ++ encodedName host ++ [0, 1, 0, 1]

/-- The labels at the start of a message's bytes. -/
def decodeLabels : ℕ → List UInt8 → Option (List Text)
  | _, [] => none
  | 0, _ :: _ => none
  | n + 1, c :: bs =>
      if c = 0 then some []
      else if bs.length < c.toNat then none
      else (decodeLabels n (bs.drop c.toNat)).map (bs.take c.toNat :: ·)

variable {host p l rest : Text} {ls : List Text} {max : ℤ} {n o : ℕ} {buf buf' : List UInt8}
  {id : UInt16}

/-- A name without a dot is one label. -/
theorem labels_single (hl : 46 ∉ l) : labels l = [l] := by
  have hlast : l.getLast? ≠ some 46 := fun h => hl (List.mem_of_getLast? h)
  rw [labels, withoutDot, if_neg hlast, List.splitOn_eq_singleton hl]

/-- A dot at the end takes care of itself. -/
theorem labels_dot (hl : 46 ∉ l) : labels (l ++ [46]) = [l] := by
  rw [labels, withoutDot, if_pos List.getLast?_concat, List.dropLast_concat,
    List.splitOn_eq_singleton hl]

/-- The first label ends at the first dot. -/
theorem labels_cons (hl : 46 ∉ l) (hrest : rest ≠ []) :
    labels (l ++ 46 :: rest) = l :: labels rest := by
  have hdot : withoutDot (l ++ 46 :: rest) = l ++ 46 :: withoutDot rest := by
    unfold withoutDot
    rw [List.getLast?_append_of_ne_nil _ (List.cons_ne_nil _ _), List.getLast?_cons_of_ne_nil hrest,
      List.dropLast_append_of_ne_nil (List.cons_ne_nil _ _), List.dropLast_cons_of_ne_nil hrest]
    split_ifs <;> rfl
  rw [labels, hdot, List.splitOn_append_cons_self_of_not_mem hl, labels]

/-- The labels with dots between them are the host again. -/
theorem intercalate_labels (host : Text) : [46].intercalate (labels host) = withoutDot host :=
  List.intercalate_splitOn 46

/-- A label that can be encoded. -/
def GoodLabel (l : Text) : Prop := 1 ≤ l.length ∧ l.length ≤ 63

/-- The host has labels that can be encoded, and only those. -/
def IsName (host : Text) : Prop := ∀ l ∈ labels host, GoodLabel l

/-- A label has its length in front. -/
theorem encode_cons (l : Text) (ls : List Text) :
    encode (l :: ls) = UInt8.ofNat l.length :: l ++ encode ls := List.flatMap_cons

/-- A label takes one byte more than its length. -/
theorem length_encode_cons (l : Text) (ls : List Text) :
    (encode (l :: ls)).length = 1 + l.length + (encode ls).length := by
  rw [encode_cons, List.length_append, List.length_cons]
  omega

/-! ## The loop -/

/-- From `o` on the rest of a host can be encoded: its labels are good, four bytes and the root fit
behind them, and the name is not too long. -/
structure Fits (max : ℤ) (o : ℕ) (ls : List Text) : Prop where
  good : ∀ l ∈ ls, GoodLabel l
  room : (o + (encode ls).length + 5 : ℤ) ≤ max
  short : o + (encode ls).length ≤ 12 + nameMaxlen

/-- One label fits, and then the others. -/
theorem fits_cons (ho : 12 ≤ o) :
    Fits max o (l :: ls) ↔
      (1 ≤ l.length ∧ l.length ≤ 63) ∧ (o + 1 + l.length + 5 : ℤ) ≤ max ∧
        o + 1 + l.length - 12 ≤ nameMaxlen ∧ Fits max (o + 1 + l.length) ls := by
  have hlen := length_encode_cons l ls
  constructor
  · rintro ⟨hgood, hroom, hshort⟩
    rw [hlen] at hroom hshort
    push_cast at hroom
    refine ⟨hgood l List.mem_cons_self, by omega, by omega,
      fun l' hl' => hgood l' (List.mem_cons_of_mem l hl'), ?_, by omega⟩
    push_cast
    omega
  · rintro ⟨hl, -, -, hgood, hroom, hshort⟩
    push_cast at hroom
    refine ⟨List.forall_mem_cons.mpr ⟨hl, hgood⟩, ?_, by omega⟩
    rw [hlen]
    push_cast
    omega

/-- What one round of the loop does with the label `l`, where `rest` comes next. -/
theorem labelLoop_step (hp : p ≠ []) (hcut : (splitAt? 46 p).getD (p, []) = (l, rest))
    (htake : p.take l.length = l) :
    labelLoop max (n + 1) p o buf =
      if l.length < 1 ∨ 63 < l.length then some (none, buf)
      else if max < o + 1 + l.length + 5 then some (none, buf)
      else if nameMaxlen < o + 1 + l.length - 12 then some (none, buf)
      else (put o (UInt8.ofNat l.length :: l) buf).bind fun buf =>
        labelLoop max n rest (o + 1 + l.length) buf := by
  have hwrite : ∀ k : List UInt8 → Option (Option ℕ × List UInt8),
      ((put o [UInt8.ofNat l.length] buf).bind fun buf => (put (o + 1) l buf).bind k) =
        (put o (UInt8.ofNat l.length :: l) buf).bind k := by
    intro k
    rw [← Option.bind_assoc]
    exact congrArg (·.bind k) (put_append o [UInt8.ofNat l.length] l buf)
  have hlab : ((splitAt? 46 p).map (·.1.length)).getD p.length = l.length := by
    rw [← congrArg (·.1.length) hcut]
    rcases splitAt? 46 p with _ | ⟨l, rest⟩ <;> rfl
  have hnext : ((splitAt? 46 p).map (·.2)).getD [] = rest := by
    rw [show rest = ((splitAt? 46 p).getD (p, [])).2 from (congrArg Prod.snd hcut).symm]
    rcases splitAt? 46 p with _ | ⟨l, rest⟩ <;> rfl
  rcases p with _ | ⟨b, p⟩
  · exact absurd rfl hp
  · rw [labelLoop]
    simp only [hlab, hnext, htake, hwrite]

/-- The first label of a host, and what is behind its dot. -/
theorem exists_label (hp : p ≠ []) :
    ∃ l rest, (splitAt? 46 p).getD (p, []) = (l, rest) ∧ p.take l.length = l ∧
      rest.length < p.length ∧
      (rest = [] ∧ labels p = [l] ∨ rest ≠ [] ∧ labels p = l :: labels rest) := by
  by_cases hdot : 46 ∈ p
  · obtain ⟨l, rest, rfl, hl⟩ := List.eq_append_cons_of_mem hdot
    refine ⟨l, rest, by rw [splitAt?_append hl, Option.getD_some], List.take_left, ?_, ?_⟩
    · rw [List.length_append, List.length_cons]
      omega
    · by_cases hrest : rest = []
      · exact .inl ⟨hrest, by rw [hrest, labels_dot hl]⟩
      · exact .inr ⟨hrest, labels_cons hl hrest⟩
  · refine ⟨p, [], by rw [splitAt?, if_neg hdot, Option.getD_none], List.take_length,
      List.length_pos_of_ne_nil hp, .inl ⟨rfl, labels_single hdot⟩⟩

/-- The loop stores the labels that are left, if they fit. -/
theorem labelLoop_spec (hmax : max = buf.length) (hp : p ≠ []) (hn : p.length ≤ n) (ho : 12 ≤ o) :
    (Fits max o (labels p) → labelLoop max n p o buf =
      (put o (encode (labels p)) buf).map fun b => (some (o + (encode (labels p)).length), b)) ∧
    (¬Fits max o (labels p) →
      ∃ b, labelLoop max n p o buf = some (none, b) ∧ b.length = buf.length) := by
  induction n generalizing p o buf with
  | zero => exact absurd (List.eq_nil_of_length_eq_zero (Nat.le_zero.mp hn)) hp
  | succ n ih =>
      obtain ⟨l, rest, hcut, htake, hlt, hlabels⟩ := exists_label hp
      rw [labelLoop_step hp hcut htake]
      -- the labels behind the first one: there may be none
      obtain ⟨ls, heq, hls⟩ : ∃ ls, labels p = l :: ls ∧ (rest = [] ∧ ls = [] ∨
          rest ≠ [] ∧ ls = labels rest) := by
        rcases hlabels with ⟨hrest, heq⟩ | ⟨hrest, heq⟩
        · exact ⟨[], heq, .inl ⟨hrest, rfl⟩⟩
        · exact ⟨labels rest, heq, .inr ⟨hrest, rfl⟩⟩
      rw [heq, fits_cons ho]
      by_cases hgood : 1 ≤ l.length ∧ l.length ≤ 63
      swap
      · rw [if_pos (by omega)]
        exact ⟨fun h => absurd h.1 hgood, fun _ => ⟨buf, rfl, rfl⟩⟩
      rw [if_neg (by omega)]
      by_cases hroom : (o + 1 + l.length + 5 : ℤ) ≤ max
      swap
      · rw [if_pos (not_le.mp hroom)]
        exact ⟨fun h => absurd h.2.1 hroom, fun _ => ⟨buf, rfl, rfl⟩⟩
      rw [if_neg (not_lt.mpr hroom)]
      by_cases hshort : o + 1 + l.length - 12 ≤ nameMaxlen
      swap
      · rw [if_pos (not_le.mp hshort)]
        exact ⟨fun h => absurd h.2.2.1 hshort, fun _ => ⟨buf, rfl, rfl⟩⟩
      rw [if_neg (not_lt.mpr hshort)]
      -- the label is stored, and the rest goes behind it
      obtain ⟨b, hb⟩ : ∃ b, put o (UInt8.ofNat l.length :: l) buf = some b :=
        exists_put (by rw [List.length_cons]; omega)
      have hlen : b.length = buf.length := length_put hb
      have hput : (put o (encode (l :: ls)) buf) = put (o + 1 + l.length) (encode ls) b := by
        rw [encode_cons, ← put_append, hb, Option.bind_some, List.length_cons, Nat.add_right_comm,
          Nat.add_assoc o]
      have hsum : o + (encode (l :: ls)).length = o + 1 + l.length + (encode ls).length := by
        rw [length_encode_cons]
        omega
      rw [hb, Option.bind_some, hput, hsum]
      rcases hls with ⟨rfl, rfl⟩ | ⟨hrest, rfl⟩
      · have hnil : labelLoop max n [] (o + 1 + l.length) b = some (some (o + 1 + l.length), b) := by
          cases n <;> rfl
        refine ⟨fun _ => ?_, fun h => absurd ⟨hgood, hroom, hshort, nofun, ?_, ?_⟩ h⟩
        · rw [hnil, show encode [] = [] from rfl, put_nil (by omega)]
          rfl
        · show (↑(o + 1 + l.length) + ((0 : ℕ) : ℤ) + 5 : ℤ) ≤ max
          push_cast
          omega
        · show o + 1 + l.length + 0 ≤ 12 + nameMaxlen
          omega
      · obtain ⟨hfits, hnot⟩ := ih (hlen ▸ hmax) hrest (by omega)
          (show 12 ≤ o + 1 + l.length by omega)
        refine ⟨fun h => hfits h.2.2.2, fun h => ?_⟩
        obtain ⟨b', hloop, hlen'⟩ := hnot fun h' => h ⟨hgood, hroom, hshort, h'⟩
        exact ⟨b', hloop, hlen'.trans hlen⟩

/-! ## The message -/

/-- The labels are found again. -/
theorem decodeLabels_encode (hgood : ∀ l ∈ ls, GoodLabel l) (tail : List UInt8) {n : ℕ}
    (hn : (encode ls).length < n) : decodeLabels n (encode ls ++ 0 :: tail) = some ls := by
  induction ls generalizing n with
  | nil =>
      obtain ⟨n, rfl⟩ := Nat.exists_eq_succ_of_ne_zero (Nat.ne_of_gt hn)
      exact if_pos rfl
  | cons l ls ih =>
      obtain ⟨n, rfl⟩ := Nat.exists_eq_succ_of_ne_zero (Nat.ne_of_gt (Nat.zero_lt_of_lt hn))
      obtain ⟨⟨hpos, hle⟩, hgood⟩ := List.forall_mem_cons.mp hgood
      rw [length_encode_cons] at hn
      have hlab : (UInt8.ofNat l.length).toNat = l.length :=
        Nat.mod_eq_of_lt (show l.length < 256 by omega)
      have hzero : UInt8.ofNat l.length ≠ 0 := fun h => by
        rw [h] at hlab
        exact absurd hlab.symm (Nat.ne_of_gt hpos)
      show decodeLabels (n + 1) (_ :: (l ++ encode ls ++ 0 :: tail)) = _
      rw [decodeLabels, if_neg hzero, hlab, List.append_assoc, if_neg (by simp), List.drop_left,
        List.take_left, ih hgood (by omega)]
      rfl

/-- What the answer of `dns_build_query` should be: a name of RFC 1035 whose message has room is
accepted, and no other. Then the message stands in the buffer, and the labels in it are the host. -/
structure Builds (host : Text) (max : ℤ) (id : UInt16) (r : ℤ) (buf : List UInt8) : Prop where
  accepts : 0 ≤ r ↔
    IsName host ∧ (encodedName host).length ≤ nameMaxlen ∧ (message id host).length ≤ max
  length : 0 ≤ r → r = (message id host).length
  stored : 0 ≤ r → buf.take r.toNat = message id host
  decoded : 0 ≤ r → (decodeLabels buf.length (buf.drop 12)).map [46].intercalate =
    some (withoutDot host)

/-- The name is one byte too long, and nothing else is wrong with it. -/
def OneTooLong (host : Text) (max : ℤ) : Prop :=
  IsName host ∧ (encodedName host).length = nameMaxlen + 1 ∧ 12 + (encodedName host).length + 4 ≤ max

/-- A question is its header, its name and four bytes. -/
theorem length_message (id : UInt16) (host : Text) :
    (message id host).length = 12 + (encodedName host).length + 4 := by
  rw [message, List.length_append, List.length_append]
  rfl

/-- The parts of a question follow each other. -/
theorem message_append (id : UInt16) (host : Text) (tail : List UInt8) :
    message id host ++ tail =
      header id ++ (encode (labels host) ++ 0 :: ([0, 1, 0, 1] ++ tail)) := by
  simp only [message, encodedName, List.append_assoc, List.cons_append, List.nil_append]

/-- A question fits if its name is one, and both lengths are kept. -/
theorem fits_iff (host : Text) (max : ℤ) :
    Fits max 12 (labels host) ↔
      IsName host ∧ (encodedName host).length ≤ nameMaxlen + 1 ∧
        (message id host).length ≤ max := by
  have hlen : (encodedName host).length = (encode (labels host)).length + 1 := List.length_append
  rw [length_message, hlen]
  push_cast
  constructor
  · rintro ⟨hgood, hroom, hshort⟩
    push_cast at hroom
    exact ⟨hgood, by omega, by omega⟩
  · rintro ⟨hgood, hshort, hroom⟩
    refine ⟨hgood, ?_, by omega⟩
    push_cast
    omega

/-- The empty text is no name. -/
theorem not_isName_nil : ¬IsName [] := fun h => absurd (h [] List.mem_cons_self).1 (by decide)

/-- The query is built, all of it, or -1 is returned. -/
theorem dnsBuildQuery_spec (buf : List UInt8) (host : Text) (id : UInt16) :
    ∃ r b, dnsBuildQuery (some buf) buf.length (some host) id = some (r, b) ∧
      b.length = buf.length ∧
      ((Fits buf.length 12 (labels host) ∧ r = (message id host).length ∧
          b.take r.toNat = message id host) ∨
        ¬Fits buf.length 12 (labels host) ∧ r = -1) := by
  rw [dnsBuildQuery]
  by_cases hmax : (buf.length : ℤ) < 17
  · refine ⟨-1, buf, if_pos hmax, rfl, .inr ⟨fun h => ?_, rfl⟩⟩
    -- there is at least one label
    have hroom := h.room
    rcases hls : labels host with _ | ⟨l, ls⟩
    · exact absurd hls (List.splitOn_ne_nil 46 _)
    · rw [hls, length_encode_cons] at hroom
      push_cast at hroom
      omega
  rw [if_neg hmax]
  have hheader : (header id).length = 12 := rfl
  obtain ⟨b₁, hb₁⟩ : ∃ b, put 0 (header id) buf = some b := exists_put (by omega)
  have hlen₁ : b₁.length = buf.length := length_put hb₁
  rw [hb₁, Option.bind_some]
  by_cases hhost : host = []
  · subst hhost
    exact ⟨-1, b₁, rfl, hlen₁, .inr ⟨fun h => not_isName_nil h.good, rfl⟩⟩
  have hmax₁ : (buf.length : ℤ) = b₁.length := by rw [hlen₁]
  obtain ⟨hfits, hnot⟩ := labelLoop_spec hmax₁ hhost le_rfl le_rfl
  by_cases hfit : Fits buf.length 12 (labels host)
  swap
  · obtain ⟨b, hloop, hlen⟩ := hnot hfit
    exact ⟨-1, b, by rw [hloop]; rfl, hlen.trans hlen₁, .inr ⟨hfit, rfl⟩⟩
  have henc : encode (labels host) ≠ [] := by
    rcases hls : labels host with _ | ⟨l, ls⟩
    · exact absurd hls (List.splitOn_ne_nil 46 _)
    · exact List.cons_ne_nil _ _
  have hpos := List.length_pos_of_ne_nil henc
  have hroom := hfit.room
  -- the labels and the four fields behind them are one write
  have hwrite : put 12 (encode (labels host) ++ [0, 0, 1, 0, 1]) b₁ =
      put 0 (message id host) buf := by
    have hmessage : message id host = header id ++ (encode (labels host) ++ [0, 0, 1, 0, 1]) := by
      simp only [message, encodedName, List.append_assoc, List.singleton_append]
    rw [hmessage, ← put_append 0 (header id), hb₁]
    rfl
  obtain ⟨b, hb⟩ : ∃ b, put 0 (message id host) buf = some b := by
    refine exists_put ?_
    rw [length_message, encodedName, List.length_append, List.length_singleton]
    omega
  refine ⟨(message id host).length, b, ?_, length_put hb, .inl ⟨hfit, rfl, ?_⟩⟩
  · obtain ⟨b₂, hb₂, hlast⟩ := Option.bind_eq_some_iff.mp
      ((put_append 12 (encode (labels host)) _ b₁).trans (hwrite.trans hb))
    have hlen : 12 + (encode (labels host)).length + 5 = (message id host).length := by
      rw [length_message, encodedName, List.length_append, List.length_singleton]
      omega
    have hne : 12 + (encode (labels host)).length ≠ 12 := by omega
    rw [hfits hfit, hb₂, Option.map_some, Option.bind_some]
    simp only [if_neg hne, hlast, Option.map_some, hlen]
  · have htake := take_put hb
    rwa [Nat.zero_add, List.take_zero, List.nil_append] at htake

/-- `dns_build_query` does what it should if and only if the name is not one byte too long. It has
then written nothing behind the `max` bytes that it has been given. -/
theorem dnsBuildQuery_iff (buf : List UInt8) (host : Text) (id : UInt16) :
    ∃ r b, dnsBuildQuery (some buf) buf.length (some host) id = some (r, b) ∧
      b.length = buf.length ∧
      (Builds host buf.length id r b ↔ ¬OneTooLong host buf.length) := by
  obtain ⟨r, b, hrun, hlen, hr⟩ := dnsBuildQuery_spec buf host id
  refine ⟨r, b, hrun, hlen, ?_⟩
  rw [fits_iff] at hr
  have hmessage := length_message id host
  constructor
  · -- a name of 256 bytes is accepted
    rintro hbuilds ⟨hname, hlong, hroom⟩
    have hfit : IsName host ∧ (encodedName host).length ≤ nameMaxlen + 1 ∧
        ((message id host).length : ℤ) ≤ buf.length := ⟨hname, hlong.le, by rw [hmessage]; omega⟩
    rcases hr with ⟨-, hr, -⟩ | ⟨hnot, -⟩
    · have hshort := (hbuilds.accepts.mp (by omega)).2.1
      omega
    · exact hnot hfit
  · intro hnot
    rcases hr with ⟨⟨hname, hshort, hroom⟩, hr, hstored⟩ | ⟨hno, rfl⟩
    · have hstrict : (encodedName host).length ≤ nameMaxlen := by
        by_contra hlong
        exact hnot ⟨hname, by omega, by omega⟩
      refine ⟨⟨fun _ => ⟨hname, hstrict, hroom⟩, fun _ => by omega⟩, fun _ => hr, fun _ => hstored,
        fun _ => ?_⟩
      have hdrop : b.drop 12 = encode (labels host) ++ 0 :: ([0, 1, 0, 1] ++ b.drop r.toNat) := by
        have hsplit : b = message id host ++ b.drop r.toNat := by
          rw [← hstored, List.take_append_drop]
        rw [message_append] at hsplit
        exact (congrArg (List.drop 12) hsplit).trans (List.drop_left' rfl)
      rw [hdrop, decodeLabels_encode hname, Option.map_some, intercalate_labels]
      have henc : (encodedName host).length = (encode (labels host)).length + 1 :=
        List.length_append
      omega
    · refine ⟨⟨nofun, fun h => absurd ⟨h.1, by omega, h.2.2⟩ hno⟩, nofun, nofun, nofun⟩

/-- A host of four labels, 254 bytes long. -/
def longHost : Text :=
  [46].intercalate [List.replicate 63 97, List.replicate 63 97, List.replicate 63 97,
    List.replicate 62 97]

/-- In the buffer of `dns_query` the name is built. -/
theorem dnsBuildQuery_long :
    ∃ b, dnsBuildQuery (some (List.replicate 512 0)) 512 (some longHost) 1 = some (272, b) ∧
      ¬Builds longHost 512 1 272 b := by
  have hrun : (dnsBuildQuery (some (List.replicate 512 0)) 512 (some longHost) 1).map Prod.fst =
      some 272 := by decide +kernel
  obtain ⟨⟨r, b⟩, hrun, rfl⟩ := Option.map_eq_some_iff.mp hrun
  refine ⟨b, hrun, fun h => ?_⟩
  have hshort := (h.accepts.mp (by decide)).2.1
  revert hshort
  decide +kernel

end WiiMC.Dns
