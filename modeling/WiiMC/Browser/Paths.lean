import WiiMC.Lib.Segments
import WiiMC.Player.Browser
import Mathlib.Data.List.Infix
import Mathlib.Data.List.TakeWhile
import Mathlib.Tactic.IntervalCases

/-!
# Cleaning up a path

`fileop.cpp`: `CleanupPath` works in the buffer of the path. It replaces backslashes and drops
doubled slashes; behind the shortened path the buffer still holds the end of the old one, and this
is read along until the end is written at last.

* `cleanupPath`: the function.
* `pathOf`, `Canonical`: a path below a device by its components.
* `Canonical.cleanupPath_quiet`, `Canonical.cleanupPath_dots`: what becomes of it.
-/

namespace WiiMC.Browser

open Bytes Player Segments

/-! ## The function -/

def dotDot : Text := ascii ".."

/-- A backslash is replaced. -/
def slash (c : UInt8) : UInt8 := if c = 92 then 47 else c

/-- The loop that drops doubled slashes; `last` is the byte that has been written last. -/
def squeezeFrom (last : Option UInt8) : Text → Text
  | [] => []
  | c :: s => if last = some 47 ∧ c = 47 then squeezeFrom last s else c :: squeezeFrom (some c) s

def squeeze (s : Text) : Text := squeezeFrom none s

/-- The texts that `strtok(path, "/")` returns. -/
def tokens (s : Text) : List Text := (s.splitOn 47).filter (· ≠ [])

/-- `parentCount`. -/
def parentCount (toks : List Text) : ℕ := toks.count dotDot

/-- `firstParent`. -/
def firstParent (toks : List Text) : ℕ := if dotDot ∈ toks then toks.idxOf dotDot else 0

/-- The token number `i` is removed. -/
def isRemoved (toks : List Text) (i : ℕ) : Prop :=
  (firstParent toks : ℤ) - parentCount toks - 1 < i ∧ i < firstParent toks + parentCount toks

/-- Whether a token is removed is decided by its place. -/
instance (toks : List Text) : DecidablePred (isRemoved toks) := fun _ => by
  unfold isRemoved
  infer_instance

/-- The token number `i` is copied between the first one and the last one. -/
def isCopied (toks : List Text) (i : ℕ) : Prop :=
  1 ≤ i ∧ i + 1 < toks.length ∧ ¬ isRemoved toks i

/-- Whether a token is copied is decided by its place. -/
instance (toks : List Text) : DecidablePred (isCopied toks) := fun _ => by
  unfold isCopied
  infer_instance

/-- The tokens between the first one and the last one that are copied. -/
def copied (toks : List Text) : List Text :=
  (toks.zipIdx.filter fun t => isCopied toks t.2).map Prod.fst

/-- What is made of a path with `../` in it; `none` where it is wiped. -/
def removeParents (toks : List Text) : Option Text :=
  if 20 < toks.length then none
  else if (toks.length : ℤ) - parentCount toks - 2 < parentCount toks then none
  else some (toks.headD [] ++ [47] ++ (copied toks).flatMap (· ++ [47]) ++ toks.getLastD [])

/-- The end of `CleanupPath`: `s` is what the buffer holds, and `j` the index of the end that is
written. Behind the end of `s` the writing changes nothing. -/
def finish (j : ℕ) (s : Text) : Text :=
  if s.length < j then s
  else if getExt s = [] ∧ s[j - 1]? ≠ some 47 then s.take j ++ [47]
  else s.take j

/-- The path with its backslashes replaced, where the loop gets to. -/
def mapped (path : Text) : Text := (path.take maxPathLen).map slash ++ path.drop maxPathLen

/-- The buffer behind the loop: the shortened path, and what was there before. -/
def buffer (path : Text) : Text :=
  squeeze ((path.take maxPathLen).map slash) ++
    (mapped path).drop (squeeze ((path.take maxPathLen).map slash)).length

/-- What is made of the shortened path, where `j` is its end. -/
def cleaned (j : ℕ) (buffer : Text) : Text :=
  if contains buffer (ascii "../") then
    match removeParents (tokens buffer) with
    | none => []
    | some s => finish j s
  else finish j buffer

/-- `CleanupPath`. -/
def cleanupPath (path : Text) : Text :=
  -- also an empty path has no device
  if findDevice path = false then []
  else if isAllowedProtocol path then
    match splitAt? 58 path with
    | none => path
    -- the search starts behind the first of the two slashes
    | some (_, rest) => if 47 ∈ rest.drop 1 then path else path ++ [47]
  else cleaned (squeeze ((path.take maxPathLen).map slash)).length (buffer path)

/-! ## The parts of a path -/

section Parts

variable {a b s t u : Text} {segs : List Text} {c : UInt8}

/-- `strstr` finds a text that is a part of the other one. -/
theorem contains_iff : contains s t = true ↔ t <:+: s := by
  rw [contains, List.any_eq_true, List.infix_iff_prefix_suffix]
  simp only [List.mem_tails, List.isPrefixOf_iff_prefix]
  exact exists_congr fun u => and_comm

/-- The tokens of a path are its parts that are not empty. -/
theorem tokens_append_join (hs : 47 ∉ s) (hsegs : Plain 47 segs) :
    tokens (s ++ join 47 segs) = (s :: segs).filter (· ≠ []) := by
  rw [tokens, splitOn_append_join hs hsegs]

/-- `../` ends at the first slash, or lies behind it. -/
theorem dots_infix_iff (ht : 47 ∉ t) :
    ascii "../" <:+: t ++ 47 :: u ↔ dotDot <:+ t ∨ ascii "../" <:+: u := by
  have hdots : ascii "../" = dotDot ++ [47] := rfl
  rw [hdots]
  constructor
  · rintro ⟨a, b, heq⟩
    rw [List.append_assoc, List.append_assoc, ← List.append_assoc, List.singleton_append] at heq
    rcases List.append_eq_append_iff.mp heq with ⟨m, hm, hrest⟩ | ⟨m, hm, hrest⟩
    · -- the slash that ends `../` is not in `t`
      cases m with
      | nil =>
          rw [List.append_nil] at hm
          exact .inl ⟨a, hm.symm⟩
      | cons x m =>
          obtain ⟨rfl, -⟩ := List.cons.inj hrest
          exact absurd (hm ▸ by simp) ht
    · cases m with
      | nil =>
          rw [List.append_nil] at hm
          exact .inl ⟨a, hm⟩
      | cons x m =>
          obtain ⟨rfl, rfl⟩ := List.cons.inj hrest
          have hsuffix : dotDot <:+ t ++ 47 :: m := ⟨a, hm⟩
          have hm2 : 2 ≤ m.length := by
            by_contra hlt
            have hslash : 47 :: m <:+ dotDot :=
              List.suffix_of_suffix_length_le (List.suffix_append t _) hsuffix (by
                rw [List.length_cons]
                exact not_le.mp hlt)
            exact absurd (hslash.subset List.mem_cons_self) (by decide)
          obtain ⟨a', rfl⟩ : dotDot <:+ m :=
            List.suffix_of_suffix_length_le hsuffix
              ((List.suffix_cons 47 m).trans (List.suffix_append t _)) hm2
          exact .inr ⟨a', b, by simp⟩
  · rintro (⟨a, rfl⟩ | ⟨a, b, rfl⟩)
    · exact ⟨a, u, by simp⟩
    · exact ⟨t ++ 47 :: a, b, by simp⟩

/-- Where `../` occurs, a segment before the last one ends with two dots. -/
theorem dots_infix_join_iff (hs : 47 ∉ s) (hsegs : Plain 47 segs) :
    ascii "../" <:+: s ++ join 47 segs ↔ ∃ t ∈ (s :: segs).dropLast, dotDot <:+ t := by
  induction segs generalizing s with
  | nil =>
      rw [join_nil, List.append_nil]
      constructor
      · intro h
        exact absurd (h.subset (by decide : (47 : UInt8) ∈ ascii "../")) hs
      · rintro ⟨t, ht, -⟩
        cases ht
  | cons x segs ih =>
      rw [join_cons, dots_infix_iff hs, ih (hsegs x List.mem_cons_self) hsegs.tail,
        List.dropLast_cons_of_ne_nil (List.cons_ne_nil x segs), List.exists_mem_cons_iff]

/-- What stands behind the last `c` of a text is decided by its second part, if that has one. -/
theorem afterLast?_append_of_mem (hb : c ∈ b) : afterLast? c (a ++ b) = afterLast? c b := by
  rw [afterLast?, afterLast?, if_pos hb, if_pos (List.mem_append_right a hb), List.reverse_append,
    List.takeWhile_append, if_neg]
  intro hall
  have hc : c ∈ b.reverse.takeWhile (· != c) := by
    rw [(List.takeWhile_prefix _).eq_of_length hall]
    exact List.mem_reverse.mpr hb
  exact absurd (List.mem_takeWhile_imp hc) (by simp)

/-- If the second part has none, it is the end of what stands behind the last `c` of the first part.
-/
theorem afterLast?_append_of_not_mem (hb : c ∉ b) :
    afterLast? c (a ++ b) = (afterLast? c a).map (· ++ b) := by
  rw [afterLast?, afterLast?]
  by_cases ha : c ∈ a
  · rw [if_pos ha, if_pos (List.mem_append_left b ha), List.reverse_append,
      List.takeWhile_append_of_pos]
    · rw [List.reverse_append, List.reverse_reverse, Option.map_some]
    · intro x hx
      have hxb := List.mem_reverse.mp hx
      simp only [bne_iff_ne, ne_eq]
      rintro rfl
      exact hb hxb
  · rw [if_neg ha, if_neg (by rw [List.mem_append, not_or]; exact ⟨ha, hb⟩), Option.map_none]

/-- A path that ends in a slash has no extension. -/
theorem getExt_of_getLast (h : s.getLast? = some 47) : getExt s = [] := if_pos h

/-- The extension is that of the last segment. -/
theorem getExt_append_slash (hb : 47 ∉ b) : getExt (a ++ 47 :: b) = getExt b := by
  rcases List.eq_nil_or_concat b with rfl | ⟨b, x, rfl⟩
  · rw [getExt_of_getLast List.getLast?_concat]
    rfl
  · rw [List.concat_eq_append] at hb ⊢
    have hx : x ≠ 47 := by
      rintro rfl
      exact hb (by simp)
    have hlast : (a ++ 47 :: (b ++ [x])).getLast? ≠ some 47 := by
      rw [← List.cons_append, ← List.append_assoc, List.getLast?_concat]
      exact fun heq => hx (Option.some.inj heq)
    have hlast' : (b ++ [x]).getLast? ≠ some 47 := by
      rw [List.getLast?_concat]
      exact fun heq => hx (Option.some.inj heq)
    rw [getExt, getExt, if_neg hlast, if_neg hlast']
    by_cases hdot : 46 ∈ b ++ [x]
    · rw [List.append_cons, afterLast?_append_of_mem hdot]
    · -- a dot further up is followed by the slash
      have hnone : afterLast? 46 (b ++ [x]) = none := if_neg hdot
      rw [List.append_cons, afterLast?_append_of_not_mem hdot, hnone,
        afterLast?_append_of_not_mem (by decide)]
      cases afterLast? 46 a with
      | none => rfl
      | some e =>
          rw [Option.map_some, Option.map_some]
          simp only
          rw [if_neg]
          rintro ⟨-, hall⟩
          have h47 := List.all_eq_true.mp hall 47 (by simp)
          exact absurd h47 (by decide)

/-- The segments that are left when doubled slashes are dropped: only the last one may be empty. -/
def clean : List Text → List Text
  | [] => []
  | [x] => [x]
  | x :: y :: segs => if x = [] then clean (y :: segs) else x :: clean (y :: segs)

/-- What stands in front of the first slash is kept. -/
theorem squeezeFrom_append {last : Option UInt8} {x : UInt8} (hs : 47 ∉ s ++ [x]) :
    squeezeFrom last (s ++ x :: t) = s ++ x :: squeezeFrom (some x) t := by
  induction s generalizing last with
  | nil =>
      have hx : x ≠ 47 := by
        rintro rfl
        exact hs (by simp)
      rw [List.nil_append, List.nil_append, squeezeFrom, if_neg fun hand => hx hand.2]
  | cons y s ih =>
      have hy : y ≠ 47 := by
        rintro rfl
        exact hs (by simp)
      rw [List.cons_append, List.cons_append, squeezeFrom, if_neg fun hand => hy hand.2,
        ih fun hmem => hs (.tail y hmem)]

/-- A text without slashes is kept. -/
theorem squeezeFrom_eq_self {last : Option UInt8} (hs : 47 ∉ s) : squeezeFrom last s = s := by
  rcases List.eq_nil_or_concat s with rfl | ⟨s, x, rfl⟩
  · rfl
  · rw [List.concat_eq_append] at hs ⊢
    rw [squeezeFrom_append hs]
    rfl

/-- Behind a slash the empty segments are skipped. -/
theorem squeezeFrom_join (hs : 47 ∉ s) (hsegs : Plain 47 segs) :
    47 :: squeezeFrom (some 47) (s ++ join 47 segs) = join 47 (clean (s :: segs)) := by
  induction segs generalizing s with
  | nil =>
      rw [join_nil, List.append_nil, squeezeFrom_eq_self hs]
      simp [clean]
  | cons y segs ih =>
      have hrest := ih (hsegs y List.mem_cons_self) hsegs.tail
      rw [join_cons, clean]
      rcases List.eq_nil_or_concat s with rfl | ⟨s, x, rfl⟩
      · rw [if_pos rfl, List.nil_append, squeezeFrom, if_pos ⟨rfl, rfl⟩, hrest]
      · rw [List.concat_eq_append] at hs ⊢
        have hx : x ≠ 47 := by
          rintro rfl
          exact hs (by simp)
        rw [if_neg (by simp), join_cons, List.append_assoc, List.singleton_append,
          squeezeFrom_append hs, squeezeFrom, if_neg fun hand => hx (Option.some.inj hand.1), hrest,
          List.append_assoc, List.singleton_append]

/-- Squeezing a path takes its empty parts out, but for a last one. -/
theorem squeeze_append_join (hs : 47 ∉ s) (hne : s ≠ []) (hsegs : Plain 47 segs) :
    squeeze (s ++ join 47 segs) = s ++ join 47 (clean segs) := by
  obtain ⟨s, x, rfl⟩ := (List.eq_nil_or_concat s).resolve_left hne
  rw [List.concat_eq_append] at hs ⊢
  have hx : x ≠ 47 := by
    rintro rfl
    exact hs (by simp)
  rw [squeeze, List.append_assoc, List.singleton_append, squeezeFrom_append hs]
  cases segs with
  | nil => simp [clean, squeezeFrom]
  | cons y segs =>
      rw [join_cons, squeezeFrom, if_neg fun hand => hx (Option.some.inj hand.1),
        squeezeFrom_join (hsegs y List.mem_cons_self) hsegs.tail, List.append_assoc,
        List.singleton_append]

/-- The last part is kept, even if it is empty. -/
theorem clean_concat (body : List Text) (x : Text) :
    clean (body ++ [x]) = body.filter (· ≠ []) ++ [x] := by
  induction body with
  | nil => rfl
  | cons y body ih =>
      have hcons : clean (y :: (body ++ [x])) =
          if y = [] then clean (body ++ [x]) else y :: clean (body ++ [x]) := by
        cases body <;> rfl
      rw [List.cons_append, hcons, ih]
      by_cases hy : y = []
      · rw [if_pos hy, List.filter_cons_of_neg (by simpa using hy)]
      · rw [if_neg hy, List.filter_cons_of_pos (by simpa using hy), List.cons_append]

/-! ## The tokens that are copied -/

/-- A predicate that is constant on the places of a list keeps all of it, or none. -/
theorem filter_zipIdx {P : ℕ → Prop} [DecidablePred P] {xs : List Text} {k : ℕ} (keep : Bool)
    (h : ∀ i, k ≤ i → i < k + xs.length → (P i ↔ keep = true)) :
    ((xs.zipIdx k).filter fun t => P t.2).map Prod.fst = if keep then xs else [] := by
  have hmem : ∀ t ∈ xs.zipIdx k, P t.2 ↔ keep = true := fun t ht =>
    h t.2 (List.mem_zipIdx ht).1 (List.mem_zipIdx ht).2.1
  cases keep with
  | true =>
      rw [List.filter_eq_self.mpr fun t ht => decide_eq_true ((hmem t ht).mpr rfl)]
      exact List.zipIdx_map_fst k xs
  | false =>
      rw [List.filter_eq_nil_iff.mpr fun t ht => by simpa using (hmem t ht).not.mpr nofun]
      rfl

/-- The tokens from the middle, where those that are removed are `mid`. -/
theorem copied_eq {toks : List Text} {h l : Text} {as mid bs : List Text}
    (htoks : toks = h :: (as ++ mid ++ bs) ++ [l])
    (hmid : ∀ i, 1 ≤ i → i + 1 < toks.length →
      (isRemoved toks i ↔ as.length + 1 ≤ i ∧ i < as.length + 1 + mid.length)) :
    copied toks = as ++ bs := by
  have hlen : toks.length = as.length + mid.length + bs.length + 2 := by
    rw [htoks]
    simp
    omega
  -- The tokens with their numbers fall into five pieces.
  have hsplit : toks.zipIdx = [h].zipIdx ++ as.zipIdx 1 ++ mid.zipIdx (1 + as.length) ++
      bs.zipIdx (1 + as.length + mid.length) ++
      [l].zipIdx (1 + as.length + mid.length + bs.length) := by
    rw [htoks]
    simp [List.zipIdx_append, List.zipIdx_cons, Nat.add_comm, Nat.add_left_comm]
  -- and the copied ones are those of the second and the fourth
  have hcopied : ∀ i, isCopied toks i ↔ 1 ≤ i ∧ i < as.length + 1 ∨
      as.length + 1 + mid.length ≤ i ∧ i + 1 < toks.length := fun i => by
    rw [isCopied]
    by_cases hi : 1 ≤ i ∧ i + 1 < toks.length
    · rw [hmid i hi.1 hi.2]
      omega
    · omega
  rw [copied, hsplit]
  simp only [List.filter_append, List.map_append]
  rw [filter_zipIdx false (P := isCopied toks), filter_zipIdx true (P := isCopied toks),
    filter_zipIdx false (P := isCopied toks), filter_zipIdx true (P := isCopied toks),
    filter_zipIdx false (P := isCopied toks)]
  · simp
  all_goals
    intro i hi hlt
    rw [hcopied]
    simp only [List.length_singleton, Bool.false_eq_true, iff_true, iff_false] at hlt ⊢
    omega

/-! ## The end of the path -/

/-- A path ends in `..` if its last part does. -/
theorem dots_suffix_iff : dotDot <:+ a ++ 47 :: b ↔ dotDot <:+ b := by
  constructor
  · intro h
    by_contra hb
    have hlt : b.length < 2 := by
      by_contra hge
      exact hb (List.suffix_of_suffix_length_le h
        ((List.suffix_cons 47 b).trans (List.suffix_append a _)) (not_lt.mp hge))
    -- otherwise the slash would be one of the dots
    have hslash : 47 :: b <:+ dotDot :=
      List.suffix_of_suffix_length_le (List.suffix_append a _) h hlt
    exact absurd (hslash.subset List.mem_cons_self) (by decide)
  · intro h
    exact h.trans ((List.suffix_cons 47 b).trans (List.suffix_append a _))

/-- A text that ends in `..` has no extension. -/
theorem getExt_of_dots (h : dotDot <:+ s) : getExt s = [] := by
  obtain ⟨a, rfl⟩ := h
  have hlast : (a ++ dotDot).getLast? = some 46 := by
    rw [List.getLast?_append]
    rfl
  have hafter : afterLast? 46 (a ++ dotDot) = some [] := afterLast?_append_of_mem (by decide)
  rw [getExt, hlast, if_neg (by decide), hafter]
  rfl

/-- A path that is shorter than the place of the test is left as it is. -/
theorem finish_of_lt {j : ℕ} (h : s.length < j) : finish j s = s := if_pos h

/-- The end is written behind `s`, whatever follows there. -/
theorem finish_append (hs : s ≠ []) :
    finish s.length (s ++ t) =
      if getExt (s ++ t) = [] ∧ s.getLast? ≠ some 47 then s ++ [47] else s := by
  have hlast : (s ++ t)[s.length - 1]? = s.getLast? := by
    have hpos := List.length_pos_iff.mpr hs
    rw [List.getElem?_append_left (by omega), List.getLast?_eq_getElem?]
  rw [finish, if_neg (by simp), hlast, List.take_left]

end Parts

/-! ## Canonical paths -/

/-- The path below the device `dev` through the directories `body` to `x`; an empty `x` is a slash
at the end. -/
def pathOf (dev : Text) (body : List Text) (x : Text) : Text := dev ++ join 47 (body ++ [x])

/-- The devices of a path: `sd1:` to `sd9:`, `smb1:` to `smb9:`, and `dav1:`. -/
def deviceNames : List Text :=
  ascii "dav1:" :: (List.range 9).flatMap fun n =>
    [ascii "sd" ++ [UInt8.ofNat (49 + n), 58], ascii "smb" ++ [UInt8.ofNat (49 + n), 58]]

/-- The paths that start with the component `dev` are below a device. -/
structure Device (dev : Text) : Prop where
  plain : 47 ∉ dev
  noBackslash : 92 ∉ dev
  found : ∀ rest, findDevice (dev ++ 47 :: rest) = true ∧
    isAllowedProtocol (dev ++ 47 :: rest) = false

theorem Device.ne_nil {dev : Text} (h : Device dev) : dev ≠ [] := by
  rintro rfl
  exact absurd (h.found []).1 (by decide)

/-- The name of a device is not `..`. -/
theorem Device.not_parent {dev : Text} (h : Device dev) : dotDot ≠ dev := by
  rintro rfl
  exact absurd (h.found []).1 (by decide)

/-- A path on a device is a path of a device, and of no protocol. -/
theorem findDevice_device {dev : Text} (h : dev ∈ deviceNames) (rest : Text) :
    findDevice (dev ++ 47 :: rest) = true ∧ isAllowedProtocol (dev ++ 47 :: rest) = false := by
  have hproto : isAllowedProtocol (dev ++ 47 :: rest) = false := by
    have hall : deviceNames.all fun dev => dev = dev.dropLast ++ [58] ∧ 58 ∉ dev.dropLast ∧
        validInternetProtocols.any (eqNoCase dev.dropLast) = false := by decide
    obtain ⟨hdev, hcolon, hany⟩ := of_decide_eq_true (List.all_eq_true.mp hall dev h)
    rw [hdev, List.append_assoc, List.singleton_append, isAllowedProtocol,
      splitAt?_append hcolon]
    simp only [hany, Bool.and_false]
  refine ⟨?_, hproto⟩
  rw [deviceNames, List.mem_cons, List.mem_flatMap] at h
  unfold findDevice
  rw [hproto]
  rcases h with rfl | ⟨n, hn, hdev⟩
  · rfl
  · -- the number of the device is read behind its prefix
    rw [List.mem_range] at hn
    rcases List.mem_pair.mp hdev with rfl | rfl
    · interval_cases n <;> rfl
    · interval_cases n <;> rfl

/-- The names in the table are names of devices. -/
theorem device_of_mem {dev : Text} (h : dev ∈ deviceNames) : Device dev := by
  have hall : deviceNames.all fun dev => 47 ∉ dev ∧ 92 ∉ dev := by decide
  obtain ⟨hplain, hback⟩ := of_decide_eq_true (List.all_eq_true.mp hall dev h)
  exact ⟨hplain, hback, findDevice_device h⟩

/-- None of the names in the table ends in `..`. -/
theorem not_dots_of_mem {dev : Text} (h : dev ∈ deviceNames) : ¬ dotDot <:+ dev := by
  have hall : deviceNames.all fun dev => ¬ dotDot <:+ dev := by decide
  exact of_decide_eq_true (List.all_eq_true.mp hall dev h)

/-- A path below a device, with its directories and its last part. -/
structure Canonical (dev : Text) (body : List Text) (x : Text) : Prop where
  device : Device dev
  plain : Plain 47 (body ++ [x])
  noBackslash : ∀ t ∈ body ++ [x], 92 ∉ t
  short : (pathOf dev body x).length ≤ maxPathLen

variable {dev x : Text} {body : List Text} {path rest : Text}

/-- The last part stands behind the last slash. -/
theorem pathOf_eq (dev : Text) (body : List Text) (x : Text) :
    pathOf dev body x = dev ++ join 47 body ++ 47 :: x := by
  rw [pathOf, join_append, join_cons, join_nil, List.append_nil, List.append_assoc]

/-- One more part stands behind one more slash. -/
theorem pathOf_concat (dev : Text) (body : List Text) (x y : Text) :
    pathOf dev (body ++ [x]) y = pathOf dev body x ++ 47 :: y := by
  rw [pathOf_eq, join_append, join_cons, join_nil, List.append_nil, pathOf_eq]
  simp

theorem pathOf_ne_nil (dev : Text) (body : List Text) (x : Text) : pathOf dev body x ≠ [] := by
  rw [pathOf_eq]
  simp

/-- A path ends in a slash if its last part is empty. -/
theorem getLast?_pathOf (dev : Text) (body : List Text) (hx : 47 ∉ x) :
    (pathOf dev body x).getLast? = some 47 ↔ x = [] := by
  rw [pathOf_eq, List.getLast?_append, List.getLast?_cons]
  rcases List.eq_nil_or_concat x with rfl | ⟨y, c, rfl⟩
  · exact ⟨fun _ => rfl, fun _ => rfl⟩
  · rw [List.concat_eq_append] at hx ⊢
    rw [List.getLast?_concat]
    constructor
    · intro heq
      obtain rfl : c = 47 := Option.some.inj heq
      exact absurd (by simp) hx
    · intro heq
      exact absurd heq (by simp)

/-- The extension of a path is that of its last part. -/
theorem getExt_pathOf (hx : 47 ∉ x) : getExt (pathOf dev body x) = getExt x := by
  rw [pathOf_eq, getExt_append_slash hx]

/-- A path without backslashes is left as it is. -/
theorem map_slash (h : 92 ∉ path) : path.map slash = path := by
  refine (List.map_congr_left fun c hc => ?_).trans (List.map_id path)
  rw [slash, if_neg (by rintro rfl; exact h hc)]
  rfl

/-- The buffer that is squeezed keeps its old bytes behind the end of the squeezed path. -/
theorem buffer_of_length (hlen : path.length ≤ maxPathLen) :
    buffer path = squeeze (path.map slash) ++
      (path.map slash).drop (squeeze (path.map slash)).length := by
  rw [buffer, mapped, List.take_of_length_le hlen, List.drop_of_length_le hlen, List.append_nil]

/-- What becomes of a path below a device. -/
theorem cleanupPath_found (hfind : findDevice path = true) (hproto : isAllowedProtocol path = false)
    (hlen : path.length ≤ maxPathLen) :
    cleanupPath path = cleaned (squeeze (path.map slash)).length (buffer path) := by
  rw [cleanupPath, hfind, hproto, if_neg nofun, if_neg nofun, List.take_of_length_le hlen]

namespace Canonical

/-- The parts in front of the last one have no slash in them. -/
theorem plain_body (h : Canonical dev body x) : Plain 47 body :=
  fun t ht => h.plain t (List.mem_append_left [x] ht)

theorem plain_last (h : Canonical dev body x) : 47 ∉ x := h.plain x (by simp)

/-- There is no backslash in a canonical path. -/
theorem not_mem_backslash (h : Canonical dev body x) : 92 ∉ pathOf dev body x := by
  intro hmem
  rw [pathOf, List.mem_append, Segments.join, List.mem_flatMap] at hmem
  rcases hmem with hdev | ⟨t, ht, hmem⟩
  · exact h.device.noBackslash hdev
  · rcases List.mem_cons.mp hmem with heq | hmem
    · exact absurd heq (by decide)
    · exact h.noBackslash t ht hmem

theorem eq_device (dev : Text) (body : List Text) (x : Text) :
    ∃ rest, pathOf dev body x = dev ++ 47 :: rest := by
  cases body with
  | nil => exact ⟨x, by rw [pathOf_eq]; simp⟩
  | cons t body => exact ⟨t ++ join 47 (body ++ [x]), by rw [pathOf]; simp⟩

/-- A canonical path is found on its device. -/
theorem found (h : Canonical dev body x) :
    findDevice (pathOf dev body x) = true ∧ isAllowedProtocol (pathOf dev body x) = false := by
  obtain ⟨rest, hrest⟩ := eq_device dev body x
  rw [hrest]
  exact h.device.found rest

/-- The tokens of a canonical path are its device and its parts that are not empty. -/
theorem tokens_eq (h : Canonical dev body x) :
    tokens (pathOf dev body x) = dev :: (body ++ [x]).filter (· ≠ []) := by
  rw [pathOf, tokens_append_join h.device.plain h.plain,
    List.filter_cons_of_pos (by simpa using h.device.ne_nil)]

/-- Squeezing a canonical path takes its empty parts out, but for the last one. -/
theorem squeeze_eq (h : Canonical dev body x) :
    squeeze (pathOf dev body x) = pathOf dev (body.filter (· ≠ [])) x := by
  rw [pathOf, squeeze_append_join h.device.plain h.device.ne_nil h.plain, clean_concat, pathOf]

/-- Where `../` occurs. -/
theorem contains_iff (h : Canonical dev body x) :
    contains (pathOf dev body x) (ascii "../") = true ↔ ∃ t ∈ dev :: body, dotDot <:+ t := by
  rw [Browser.contains_iff, pathOf, dots_infix_join_iff h.device.plain h.plain, ← List.cons_append,
    List.dropLast_concat]

/-- A path without doubled slashes is read as it is. -/
theorem cleanupPath_eq (h : Canonical dev body x) (hbody : [] ∉ body) :
    cleanupPath (pathOf dev body x) = cleaned (pathOf dev body x).length (pathOf dev body x) := by
  have hfilter : body.filter (· ≠ []) = body :=
    List.filter_eq_self.mpr fun t ht => by
      simp only [ne_eq, decide_eq_true_eq]
      rintro rfl
      exact hbody ht
  have hsqueeze : squeeze ((pathOf dev body x).map slash) = pathOf dev body x := by
    rw [map_slash h.not_mem_backslash, h.squeeze_eq, hfilter]
  obtain ⟨hfind, hproto⟩ := h.found
  rw [cleanupPath_found hfind hproto h.short, buffer_of_length h.short, hsqueeze,
    map_slash h.not_mem_backslash, List.drop_length, List.append_nil]

/-- No directory ends with two dots: at most a slash is added. -/
theorem cleanupPath_quiet (h : Canonical dev body x) (hbody : [] ∉ body)
    (hdots : ∀ t ∈ dev :: body, ¬ dotDot <:+ t) :
    cleanupPath (pathOf dev body x) =
      if x = [] ∨ getExt x ≠ [] then pathOf dev body x else pathOf dev (body ++ [x]) [] := by
  have hcontains : ¬ contains (pathOf dev body x) (ascii "../") = true := fun hand => by
    obtain ⟨t, ht, hsuffix⟩ := h.contains_iff.mp hand
    exact hdots t ht hsuffix
  have hfinish := finish_append (t := []) (pathOf_ne_nil dev body x)
  simp only [List.append_nil, getExt_pathOf h.plain_last, ne_eq, getLast?_pathOf _ _ h.plain_last]
    at hfinish
  rw [h.cleanupPath_eq hbody, cleaned, if_neg hcontains, hfinish, pathOf_concat]
  by_cases hx : x = []
  · rw [if_neg fun hand => hand.2 hx, if_pos (.inl hx)]
  · by_cases hext : getExt x = []
    · rw [if_pos ⟨hext, hx⟩, if_neg (by simp [hx, hext])]
    · rw [if_neg fun hand => hext hand.1, if_pos (.inr hext)]

/-- A directory ends with two dots: the path is taken apart. -/
theorem cleanupPath_dots (h : Canonical dev body x) (hbody : [] ∉ body)
    (hdots : ∃ t ∈ dev :: body, dotDot <:+ t) :
    cleanupPath (pathOf dev body x) =
      match removeParents (dev :: (body ++ [x]).filter (· ≠ [])) with
      | none => []
      | some s => finish (pathOf dev body x).length s := by
  rw [h.cleanupPath_eq hbody, cleaned, if_pos (h.contains_iff.mpr hdots), h.tokens_eq]

end Canonical

/-! ## Parents -/

/-- The copied tokens with their slashes, and the last one, are a path. -/
theorem join_concat_flatMap (mid : List Text) (l : Text) :
    [47] ++ mid.flatMap (· ++ [47]) ++ l = join 47 (mid ++ [l]) := by
  induction mid with
  | nil => simp
  | cons t mid ih =>
      simp only [List.flatMap_cons, List.cons_append, join_cons, ← ih]
      simp

/-- What the tokens become when they are not wiped. -/
theorem removeParents_eq {h l : Text} {mid : List Text} (hlen : mid.length + 2 ≤ 20)
    (hwipe : 2 * parentCount (h :: (mid ++ [l])) ≤ mid.length) :
    removeParents (h :: (mid ++ [l])) = some (pathOf h (copied (h :: (mid ++ [l]))) l) := by
  have hcount : (h :: (mid ++ [l])).length = mid.length + 2 := by simp
  have hlast : (h :: (mid ++ [l])).getLastD [] = l := by
    rw [← List.cons_append, List.getLastD_concat]
  rw [removeParents, hcount, if_neg (by omega), if_neg (by push_cast; omega), pathOf,
    ← join_concat_flatMap, hlast]
  simp

/-- More `..` than there are parts wipe the path. -/
theorem removeParents_wiped {toks : List Text} (h : toks.length < 2 * parentCount toks + 2) :
    removeParents toks = none := by
  rw [removeParents]
  split_ifs with hlen hwipe
  · rfl
  · rfl
  · omega

/-- The tokens that are removed are next to each other. -/
theorem copied_eq_take_append_drop (h l : Text) (mid : List Text) :
    copied (h :: (mid ++ [l])) =
      mid.take (firstParent (h :: (mid ++ [l])) - parentCount (h :: (mid ++ [l])) - 1) ++
        mid.drop (firstParent (h :: (mid ++ [l])) + parentCount (h :: (mid ++ [l])) - 1) := by
  generalize htoks : h :: (mid ++ [l]) = toks
  have hlen : toks.length = mid.length + 2 := by
    rw [← htoks]
    simp
  have hnone : parentCount toks = 0 → firstParent toks = 0 := fun hcount =>
    if_neg (List.count_eq_zero.mp hcount)
  -- counted from the second token
  generalize hlo : firstParent toks - parentCount toks - 1 = lo
  generalize hhi : firstParent toks + parentCount toks - 1 = hi
  have hle : lo ≤ hi := by omega
  have hmid : mid = mid.take lo ++ (mid.drop lo).take (hi - lo) ++ mid.drop hi := by
    have hdrop : mid.drop hi = (mid.drop lo).drop (hi - lo) := by
      rw [List.drop_drop, Nat.add_sub_cancel' hle]
    rw [hdrop, List.append_assoc, List.take_append_drop, List.take_append_drop]
  have hsplit : toks = h :: (mid.take lo ++ (mid.drop lo).take (hi - lo) ++ mid.drop hi) ++ [l] := by
    rw [← hmid, ← htoks, List.cons_append]
  refine copied_eq hsplit fun i hi1 hilt => ?_
  rw [isRemoved, List.length_take, List.length_take, List.length_drop]
  omega

/-! ## Paths that are left alone -/

/-- Without a `..` there is no first one. -/
theorem firstParent_of_not_mem {toks : List Text} (h : dotDot ∉ toks) : firstParent toks = 0 :=
  if_neg h

/-- Without a `..` none is counted. -/
theorem parentCount_of_not_mem {toks : List Text} (h : dotDot ∉ toks) : parentCount toks = 0 :=
  List.count_eq_zero.mpr h

/-- Without parents all tokens are copied. -/
theorem removeParents_of_not_mem {h l : Text} {mid : List Text} (hlen : mid.length + 2 ≤ 20)
    (hparent : dotDot ∉ h :: (mid ++ [l])) :
    removeParents (h :: (mid ++ [l])) = some (pathOf h mid l) := by
  have hcount := parentCount_of_not_mem hparent
  rw [removeParents_eq hlen (by rw [hcount]; exact Nat.zero_le _), copied_eq_take_append_drop,
    hcount, firstParent_of_not_mem hparent, List.take_zero, List.nil_append, List.drop_zero]

namespace Canonical

variable {y : Text}

theorem filter_concat (h : [] ∉ body) (hy : y ≠ []) :
    (body ++ [y]).filter (· ≠ []) = body ++ [y] := by
  refine List.filter_eq_self.mpr fun t ht => ?_
  rw [List.mem_append, List.mem_singleton] at ht
  simp only [ne_eq, decide_eq_true_eq]
  rintro rfl
  exact ht.elim h fun heq => hy heq.symm

/-- A file below directories that end with two dots. -/
theorem cleanupPath_dots_file (h : Canonical dev body y) (hbody : [] ∉ body) (hy : y ≠ [])
    (hdots : ∃ t ∈ dev :: body, dotDot <:+ t) (hparent : dotDot ∉ body ++ [y])
    (hlen : body.length + 2 ≤ 20) :
    cleanupPath (pathOf dev body y) =
      if getExt y ≠ [] then pathOf dev body y else pathOf dev (body ++ [y]) [] := by
  have hnot : dotDot ∉ dev :: (body ++ [y]) := fun hmem =>
    (List.mem_cons.mp hmem).elim h.device.not_parent hparent
  have hfinish := finish_append (t := []) (pathOf_ne_nil dev body y)
  simp only [List.append_nil, getExt_pathOf h.plain_last, ne_eq, getLast?_pathOf _ _ h.plain_last, hy,
    not_false_eq_true, and_true] at hfinish
  rw [h.cleanupPath_dots hbody hdots, filter_concat hbody hy, removeParents_of_not_mem hlen hnot]
  simp only
  rw [hfinish, pathOf_concat]
  by_cases hext : getExt y = []
  · rw [if_pos hext, if_neg (not_not.mpr hext)]
  · rw [if_neg hext, if_pos hext]

/-- A directory with a slash at its end, where there are directories that end with two dots: the
slash gets lost. -/
theorem cleanupPath_dots_slash (h : Canonical dev (body ++ [y]) []) (hbody : [] ∉ body)
    (hy : y ≠ []) (hdots : ∃ t ∈ dev :: (body ++ [y]), dotDot <:+ t) (hparent : dotDot ∉ body ++ [y])
    (hlen : body.length + 2 ≤ 20) :
    cleanupPath (pathOf dev (body ++ [y]) []) = pathOf dev body y := by
  have hnot : dotDot ∉ dev :: (body ++ [y]) := fun hmem =>
    (List.mem_cons.mp hmem).elim h.device.not_parent hparent
  have hnil : [] ∉ body ++ [y] := fun hmem => by
    rw [List.mem_append, List.mem_singleton] at hmem
    exact hmem.elim hbody fun heq => hy heq.symm
  rw [h.cleanupPath_dots hnil hdots, List.filter_append, List.filter_cons_of_neg (by simp),
    List.filter_nil, List.append_nil, filter_concat hbody hy, removeParents_of_not_mem hlen hnot]
  simp only
  rw [finish_of_lt]
  rw [pathOf_concat, List.length_append]
  exact Nat.lt_add_of_pos_right (Nat.succ_pos _)

/-- A path with an extension and without parents is left alone. -/
theorem cleanupPath_of_ext (h : Canonical dev body y) (hbody : [] ∉ body) (hext : getExt y ≠ [])
    (hparent : dotDot ∉ body) (hlen : body.length + 2 ≤ 20) :
    cleanupPath (pathOf dev body y) = pathOf dev body y := by
  have hy : y ≠ [] := by
    rintro rfl
    exact hext rfl
  by_cases hdots : ∃ t ∈ dev :: body, dotDot <:+ t
  · rw [h.cleanupPath_dots_file hbody hy hdots _ hlen, if_pos hext]
    rw [List.mem_append, List.mem_singleton, not_or]
    refine ⟨hparent, ?_⟩
    rintro rfl
    exact hext (getExt_of_dots List.suffix_rfl)
  · rw [h.cleanupPath_quiet hbody fun t ht hsuffix => hdots ⟨t, ht, hsuffix⟩, if_pos (.inr hext)]

end Canonical

end WiiMC.Browser
