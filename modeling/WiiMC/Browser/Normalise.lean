import WiiMC.Browser.Paths
import Mathlib.Data.List.Flatten

/-!
# What cleaning up a path is for

A path below a device is to be left without `..` and without doubled slashes, and with a slash at
its end where it has no extension.

* `resolve`: the lexical removal of `..`.
* `Normalised`: what `CleanupPath` is for.
* `Harmless`: the paths for which it does this. The others are those where a name ends with two
  dots, or where the parents are not next to each other behind directories enough.
* `cleanupPath_normalised`: the one by the other.
-/

namespace WiiMC.Browser

open Bytes Player Segments

/-! ## The purpose -/

/-- The lexical removal of `..` below the root; `none` where it climbs above it. The directories
that remain are stacked. -/
def resolve : List Text → List Text → Option (List Text)
  | stack, [] => some stack.reverse
  | stack, t :: ts =>
      if t = dotDot then if stack = [] then none else resolve stack.tail ts
      else resolve (t :: stack) ts

/-- The components of the path without `..`. -/
def resolved (path : Text) : Option (List Text) :=
  match tokens (path.map slash) with
  | [] => none
  | dev :: ts => (resolve [] ts).map (dev :: ·)

/-- The path with the components `ts`, and with a slash at its end if `trailing` says so. -/
def render (ts : List Text) (trailing : Bool) : Text :=
  (join 47 ts).tail ++ if trailing then [47] else []

/-- `CleanupPath` does with the path what it is for. -/
structure Normalised (path : Text) : Prop where
  /-- A path that climbs above its device is wiped. -/
  wiped : resolved path = none → cleanupPath path = []
  /-- Without an extension it ends with a slash. -/
  kept : ∀ ts, resolved path = some ts → ∃ trailing, cleanupPath path = render ts trailing ∧
    (trailing = true ∨ getExt (cleanupPath path) ≠ [])
  /-- There are neither backslashes, nor parents, nor empty components. -/
  plain : 92 ∉ cleanupPath path ∧ dotDot ∉ (cleanupPath path).splitOn 47 ∧
    [] ∉ ((cleanupPath path).splitOn 47).dropLast
  idempotent : cleanupPath (cleanupPath path) = cleanupPath path

/-- All parents are next to each other, behind directories enough, and not at the end. -/
def Adjacent (toks : List Text) : Prop :=
  (toks.drop (firstParent toks)).take (parentCount toks) =
      List.replicate (parentCount toks) dotDot ∧
    parentCount toks + 1 ≤ firstParent toks ∧ firstParent toks + parentCount toks < toks.length

/-- Whether the `..` stand together is decided by the tokens. -/
instance : DecidablePred Adjacent := fun _ => by
  unfold Adjacent
  infer_instance

/-- The path has an extension. -/
def HasExt (toks : List Text) : Prop := getExt (toks.getLastD []) ≠ []

/-- Whether a path has an extension is decided by its bytes. -/
instance : DecidablePred HasExt := fun _ => by
  unfold HasExt
  infer_instance

/-- The old end of the path, which stays in the buffer behind the shortened one. -/
def stale (path : Text) : Text := (path.map slash).drop (squeeze (path.map slash)).length

/-- There are only slashes in it: the path has no doubled slashes, or has them at its end. -/
def Blank (path : Text) : Prop := ∀ c ∈ stale path, c = 47

/-- Whether the stale end is blank is decided by its bytes. -/
instance : DecidablePred Blank := fun path => List.decidableBAll (· = 47) (stale path)

/-- The paths below a device that are normalised. -/
def Harmless (path : Text) : Prop :=
  (¬ contains (buffer path) (ascii "../") = true ∧ ¬ dotDot <:+ path.map slash) ∨
  (contains (buffer path) (ascii "../") = true ∧ Blank path ∧
    (dotDot ∉ tokens (path.map slash) ∧ HasExt (tokens (path.map slash)) ∨
     resolved path = none ∧
      (tokens (path.map slash)).length < 2 * parentCount (tokens (path.map slash)) + 2 ∨
     Adjacent (tokens (path.map slash)) ∧ HasExt (tokens (path.map slash))))

/-- Whether the stale end is harmless is decided by its bytes. -/
instance : DecidablePred Harmless := fun _ => by
  unfold Harmless
  infer_instance

/-! ## The lexical removal -/

/-- Parts without a `..` are put on the stack. -/
theorem resolve_append {stack as ts : List Text} (has : dotDot ∉ as) :
    resolve stack (as ++ ts) = resolve (as.reverse ++ stack) ts := by
  induction as generalizing stack with
  | nil => rfl
  | cons a as ih =>
      have ha : a ≠ dotDot := fun heq => has (heq ▸ List.mem_cons_self)
      rw [List.cons_append, resolve, if_neg ha, ih fun hmem => has (.tail a hmem),
        List.reverse_cons, List.append_assoc, List.singleton_append]

/-- A run of `..` takes as many parts off the stack, if there are as many. -/
theorem resolve_replicate (k : ℕ) (stack ts : List Text) :
    resolve stack (List.replicate k dotDot ++ ts) =
      if k ≤ stack.length then resolve (stack.drop k) ts else none := by
  induction k generalizing stack with
  | zero => rfl
  | succ k ih =>
      rw [List.replicate_succ, List.cons_append, resolve, if_pos rfl]
      cases stack with
      | nil => rfl
      | cons top stack =>
          rw [if_neg (List.cons_ne_nil top stack), List.tail_cons, ih]
          simp only [List.length_cons, Nat.add_le_add_iff_right, List.drop_succ_cons]

/-- Without parents nothing is removed. -/
theorem resolve_of_not_mem {ts : List Text} (hts : dotDot ∉ ts) : resolve [] ts = some ts := by
  have happ := @resolve_append [] ts [] hts
  rw [List.append_nil, List.append_nil] at happ
  rw [happ, resolve, List.reverse_reverse]

/-- What is left has no parents in it. -/
theorem not_mem_resolve {stack ts rest : List Text} (hstack : dotDot ∉ stack)
    (h : resolve stack ts = some rest) : dotDot ∉ rest := by
  induction ts generalizing stack with
  | nil =>
      cases h
      rwa [List.mem_reverse]
  | cons t ts ih =>
      rw [resolve] at h
      split_ifs at h with ht hnil
      · exact ih (fun hmem => hstack (List.mem_of_mem_tail hmem)) h
      · refine ih (fun hmem => ?_) h
        rcases List.mem_cons.mp hmem with heq | hmem
        · exact ht heq.symm
        · exact hstack hmem

/-- Every parent cancels one directory. -/
theorem length_resolve {stack ts rest : List Text} (h : resolve stack ts = some rest) :
    rest.length + 2 * ts.count dotDot = stack.length + ts.length := by
  induction ts generalizing stack with
  | nil =>
      cases h
      simp
  | cons t ts ih =>
      rw [resolve] at h
      split_ifs at h with ht hnil
      · have hpos := List.length_pos_iff.mpr hnil
        have hrec := ih h
        rw [List.length_tail] at hrec
        rw [ht, List.count_cons_self, List.length_cons]
        omega
      · have hrec := ih h
        rw [List.length_cons] at hrec
        rw [List.count_cons_of_ne ht, List.length_cons]
        omega

/-- The parts that are left come from the stack or from the path. -/
theorem subset_resolve {stack ts rest : List Text} (h : resolve stack ts = some rest) :
    ∀ t ∈ rest, t ∈ stack ∨ t ∈ ts := by
  induction ts generalizing stack with
  | nil =>
      cases h
      intro t ht
      exact .inl (List.mem_reverse.mp ht)
  | cons t ts ih =>
      rw [resolve] at h
      intro u hu
      split_ifs at h with ht hnil
      · exact (ih h u hu).imp List.mem_of_mem_tail (.tail t)
      · rcases ih h u hu with hmem | hmem
        · rcases List.mem_cons.mp hmem with rfl | hmem
          · exact .inr List.mem_cons_self
          · exact .inl hmem
        · exact .inr (.tail t hmem)

/-- Adjacent parents cancel the directories in front of them. -/
theorem resolve_adjacent {as bs : List Text} {k : ℕ} (has : dotDot ∉ as) (hbs : dotDot ∉ bs)
    (hk : k ≤ as.length) :
    resolve [] (as ++ List.replicate k dotDot ++ bs) = some (as.take (as.length - k) ++ bs) := by
  rw [List.append_assoc, resolve_append has, List.append_nil, resolve_replicate, List.length_reverse,
    if_pos hk, ← List.append_nil bs, resolve_append hbs, resolve, List.append_nil,
    List.reverse_append, List.reverse_reverse, List.drop_reverse, List.reverse_reverse]

/-! ## Canonical paths -/

variable {dev x y l : Text} {body mid ts : List Text} {path rest : Text}

/-- Behind the first pass there is no backslash. -/
theorem not_mem_map_slash (path : Text) : 92 ∉ path.map slash := by
  intro hmem
  obtain ⟨c, -, hc⟩ := List.mem_map.mp hmem
  unfold slash at hc
  split_ifs at hc with h
  · exact absurd hc (by decide)
  · exact h hc

/-- The name of a device has no backslash in it. -/
theorem map_slash_device (hdev : Device dev) (rest : Text) :
    (dev ++ 47 :: rest).map slash = dev ++ 47 :: rest.map slash := by
  rw [List.map_append, map_slash hdev.noBackslash]
  rfl

/-- A path with its backslashes replaced has components. -/
theorem exists_canonical (hdev : Device dev) (hlen : (dev ++ 47 :: rest).length ≤ maxPathLen) :
    ∃ body x, Canonical dev body x ∧ (dev ++ 47 :: rest).map slash = pathOf dev body x := by
  obtain ⟨segs, hne, hplain, hsegs⟩ := exists_join (l := 47 :: rest.map slash) rfl
  obtain ⟨body, x, rfl⟩ := (List.eq_nil_or_concat segs).resolve_left hne
  rw [List.concat_eq_append] at hplain hsegs
  have heq : (dev ++ 47 :: rest).map slash = pathOf dev body x := by
    rw [map_slash_device hdev, hsegs, pathOf]
  refine ⟨body, x, ⟨hdev, hplain, fun t ht hmem => ?_, ?_⟩, heq⟩
  · refine not_mem_map_slash (dev ++ 47 :: rest) ?_
    rw [heq, pathOf, List.mem_append]
    exact .inr (List.mem_flatMap.mpr ⟨t, ht, .tail 47 hmem⟩)
  · rwa [← heq, List.length_map]

/-- The buffer does not depend on which kind of slash the path has. -/
theorem buffer_map_slash (hlen : path.length ≤ maxPathLen) :
    buffer (path.map slash) = buffer path := by
  have hmap : (path.map slash).map slash = path.map slash := map_slash (not_mem_map_slash path)
  have hlen' : (path.map slash).length ≤ maxPathLen := by rwa [List.length_map]
  rw [buffer_of_length hlen', buffer_of_length hlen, hmap]

/-- Backslashes make no difference. -/
theorem cleanupPath_map_slash (h : findDevice path = true ∧ isAllowedProtocol path = false)
    (h' : findDevice (path.map slash) = true ∧ isAllowedProtocol (path.map slash) = false)
    (hlen : path.length ≤ maxPathLen) : cleanupPath (path.map slash) = cleanupPath path := by
  have hmap : (path.map slash).map slash = path.map slash := map_slash (not_mem_map_slash path)
  have hlen' : (path.map slash).length ≤ maxPathLen := by rwa [List.length_map]
  rw [cleanupPath_found h.1 h.2 hlen, cleanupPath_found h'.1 h'.2 hlen', buffer_map_slash hlen, hmap]

/-- The path that `CleanupPath` makes does not depend on the kind of slash. -/
theorem Device.cleanupPath_map_slash (hdev : Device dev)
    (hlen : (dev ++ 47 :: rest).length ≤ maxPathLen) :
    cleanupPath ((dev ++ 47 :: rest).map slash) = cleanupPath (dev ++ 47 :: rest) := by
  refine Browser.cleanupPath_map_slash (hdev.found rest) ?_ hlen
  rw [map_slash_device hdev]
  exact hdev.found _

/-- The parts that a path resolves to do not depend on the kind of slash. -/
theorem resolved_map_slash (path : Text) : resolved (path.map slash) = resolved path := by
  rw [resolved, map_slash (not_mem_map_slash path), resolved]

/-- Paths with the same components of which the same is made. -/
theorem normalised_congr {path' : Text} (hpath : cleanupPath path' = cleanupPath path)
    (hres : resolved path' = resolved path) : Normalised path' ↔ Normalised path := by
  constructor
  · rintro ⟨hwiped, hkept, hplain, hidem⟩
    rw [hpath, hres] at *
    exact ⟨hwiped, hkept, hplain, hidem⟩
  · rintro ⟨hwiped, hkept, hplain, hidem⟩
    rw [← hpath, ← hres] at *
    exact ⟨hwiped, hkept, hplain, hidem⟩

/-- Whether a path is normalised does not depend on the kind of slash. -/
theorem normalised_map_slash (hdev : Device dev)
    (hlen : (dev ++ 47 :: rest).length ≤ maxPathLen) :
    Normalised ((dev ++ 47 :: rest).map slash) ↔ Normalised (dev ++ 47 :: rest) :=
  normalised_congr (hdev.cleanupPath_map_slash hlen) (resolved_map_slash _)

theorem render_eq (dev : Text) (ts : List Text) (trailing : Bool) :
    render (dev :: ts) trailing = dev ++ join 47 (ts ++ if trailing then [[]] else []) := by
  cases trailing <;> simp [render]

/-- Parts without a trailing slash are a path. -/
theorem render_false (dev : Text) (body : List Text) (x : Text) :
    render (dev :: (body ++ [x])) false = pathOf dev body x := by
  rw [render_eq, if_neg nofun, List.append_nil, pathOf]

/-- Parts with a trailing slash are a path whose last part is empty. -/
theorem render_true (dev : Text) (ts : List Text) :
    render (dev :: ts) true = pathOf dev ts [] := by
  rw [render_eq, if_pos rfl, pathOf]

namespace Canonical

/-- A canonical path splits into its device and its parts. -/
theorem splitOn_eq (h : Canonical dev body x) :
    (pathOf dev body x).splitOn 47 = dev :: (body ++ [x]) :=
  splitOn_append_join h.device.plain h.plain

/-- A canonical path resolves as its parts do, on its device. -/
theorem resolved_eq (h : Canonical dev body x) :
    resolved (pathOf dev body x) =
      (resolve [] ((body ++ [x]).filter (· ≠ []))).map (dev :: ·) := by
  rw [resolved, map_slash h.not_mem_backslash, h.tokens_eq]

/-- What is left alone by the function is what it should make of a path. -/
theorem normalised_of (h : Canonical dev body x) (hbody : [] ∉ body) (hdots : dotDot ∉ body ++ [x])
    (hext : x = [] ∨ getExt x ≠ []) (hpath : cleanupPath path = pathOf dev body x)
    (hres : resolved path = some (dev :: (body ++ [x]).filter (· ≠ [])))
    (hfix : cleanupPath (pathOf dev body x) = pathOf dev body x) : Normalised path where
  -- the path resolves, so it is not wiped
  wiped hnone := by
    rw [hres] at hnone
    cases hnone
  kept ts hts := by
    rw [hres] at hts
    cases hts
    rw [hpath]
    have hfilter : body.filter (· ≠ []) = body :=
      List.filter_eq_self.mpr fun t ht => by
        simp only [ne_eq, decide_eq_true_eq]
        rintro rfl
        exact hbody ht
    rw [List.filter_append, hfilter]
    rcases hext with rfl | hext
    · refine ⟨true, ?_, .inl rfl⟩
      rw [List.filter_cons_of_neg (by simp), List.filter_nil, List.append_nil, render_true]
    · have hx : x ≠ [] := by
        rintro rfl
        exact hext rfl
      refine ⟨false, ?_, .inr ((getExt_pathOf h.plain_last).trans_ne hext)⟩
      rw [List.filter_cons_of_pos (by simpa using hx), List.filter_nil, render_false]
  -- no token is a parent, and none is empty
  plain := by
    rw [hpath, h.splitOn_eq]
    refine ⟨h.not_mem_backslash, ?_, ?_⟩
    · rw [List.mem_cons, not_or]
      exact ⟨h.device.not_parent, hdots⟩
    · rw [← List.cons_append, List.dropLast_concat, List.mem_cons, not_or]
      exact ⟨h.device.ne_nil.symm, hbody⟩
  idempotent := by rw [hpath, hfix]

end Canonical
/-! ## Paths without parents -/

/-- The extension of a name is what stands behind its last dot, if it is short and plain. -/
theorem getExt_of_not_mem (h : 47 ∉ x) :
    getExt x = match afterLast? 46 x with
      | none => []
      | some ext => if ext.length ≤ 6 ∧ ext.all isAlnum then ext else [] :=
  if_neg fun hlast => h (List.mem_of_getLast? hlast)

/-- When the end of a name is read twice, no extension comes from this. -/
theorem getExt_of_twice (h : 47 ∉ x ++ y) (hext : getExt (x ++ y ++ y) ≠ []) :
    getExt (x ++ y) ≠ [] := by
  have hy : 47 ∉ y := fun hmem => h (List.mem_append_right x hmem)
  have htwice : 47 ∉ x ++ y ++ y := by
    rw [List.mem_append, not_or]
    exact ⟨h, hy⟩
  rw [getExt_of_not_mem htwice] at hext
  rw [getExt_of_not_mem h]
  by_cases hdot : 46 ∈ y
  · -- the last dot is in what is read twice
    rw [afterLast?_append_of_mem hdot] at hext
    rwa [afterLast?_append_of_mem hdot]
  · rw [afterLast?_append_of_not_mem hdot, afterLast?_append_of_not_mem hdot] at hext
    rw [afterLast?_append_of_not_mem hdot]
    cases hafter : afterLast? 46 x with
    | none =>
        rw [hafter] at hext
        exact absurd rfl hext
    | some e =>
        rw [hafter] at hext
        simp only [Option.map_some] at hext ⊢
        rw [ne_eq, ite_eq_right_iff, Classical.not_imp] at hext
        obtain ⟨⟨hlen, hall⟩, hne⟩ := hext
        rw [List.length_append] at hlen
        rw [List.all_append, Bool.and_eq_true] at hall
        rw [if_pos ⟨by omega, hall.1⟩]
        intro hnil
        rw [hnil, List.nil_append] at hne
        exact hne (List.append_eq_nil_iff.mp hnil).2

/-- The same for the end of a path. -/
theorem getExt_of_suffix {s t u : Text} (hx : 47 ∉ x) (hu : u <:+ s ++ 47 :: x)
    (hext : getExt (t ++ 47 :: x ++ u) ≠ []) : getExt x ≠ [] := by
  have hlast : 47 :: x <:+ s ++ 47 :: x := List.suffix_append s _
  rcases List.suffix_or_suffix_of_suffix hu hlast with hsuffix | ⟨v, rfl⟩
  · rcases List.suffix_cons_iff.mp hsuffix with rfl | ⟨y, rfl⟩
    · rwa [getExt_append_slash hx] at hext
    · have hy : 47 ∉ u := fun hmem => hx (List.mem_append_right y hmem)
      rw [List.append_assoc, List.cons_append, getExt_append_slash] at hext
      · exact getExt_of_twice hx hext
      · rw [List.mem_append, not_or]
        exact ⟨hx, hy⟩
  · rwa [← List.append_assoc, getExt_append_slash hx] at hext

namespace Canonical

/-- A path with fewer parts is not longer. -/
theorem length_pathOf_le {b : List Text} (hsub : b.Sublist body) (dev x : Text) :
    (pathOf dev b x).length ≤ (pathOf dev body x).length := by
  have hjoin : (join 47 b).length ≤ (join 47 body).length := (hsub.flatMap _).length_le
  rw [pathOf_eq, pathOf_eq, List.length_append, List.length_append, List.length_append,
    List.length_append]
  exact Nat.add_le_add_right (Nat.add_le_add_left hjoin _) _

/-- Some directories are left out. -/
theorem sublist {b : List Text} (h : Canonical dev body x) (hsub : b.Sublist body) :
    Canonical dev b x := by
  have hmem : ∀ t ∈ b ++ [x], t ∈ body ++ [x] := (hsub.append_right [x]).subset
  exact ⟨h.device, fun t ht => h.plain t (hmem t ht), fun t ht => h.noBackslash t (hmem t ht),
    (length_pathOf_le hsub dev x).trans h.short⟩

/-- A squeezed path is canonical. -/
theorem squeezed (h : Canonical dev body x) : Canonical dev (body.filter (· ≠ [])) x :=
  h.sublist List.filter_sublist

/-- A slash is added. -/
theorem concat (h : Canonical dev body x) (hlt : (pathOf dev body x).length < maxPathLen) :
    Canonical dev (body ++ [x]) [] where
  device := h.device
  plain t ht := by
    rcases List.mem_append.mp ht with ht | ht
    · exact h.plain t ht
    · rw [List.mem_singleton.mp ht]
      exact List.not_mem_nil
  noBackslash t ht := by
    rcases List.mem_append.mp ht with ht | ht
    · exact h.noBackslash t ht
    · rw [List.mem_singleton.mp ht]
      exact List.not_mem_nil
  short := by
    rw [pathOf_concat, List.length_append]
    exact hlt

theorem not_mem_filter (body : List Text) : [] ∉ body.filter (· ≠ []) := fun hmem => by
  simpa using (List.mem_filter.mp hmem).2

/-- The buffer is the squeezed path, and behind it the old end of the path. -/
theorem buffer_eq (h : Canonical dev body x) :
    buffer (pathOf dev body x) = pathOf dev (body.filter (· ≠ [])) x ++
      (pathOf dev body x).drop (pathOf dev (body.filter (· ≠ [])) x).length := by
  rw [buffer_of_length h.short, map_slash h.not_mem_backslash, h.squeeze_eq]

/-- `CleanupPath` works on the buffer, from the end of the squeezed path on. -/
theorem cleanupPath_buffer (h : Canonical dev body x) :
    cleanupPath (pathOf dev body x) =
      cleaned (pathOf dev (body.filter (· ≠ [])) x).length (buffer (pathOf dev body x)) := by
  rw [cleanupPath_found h.found.1 h.found.2 h.short, map_slash h.not_mem_backslash, h.squeeze_eq]

/-- Without `../` at most a slash is added. -/
theorem cleanupPath_quiet_buffer (h : Canonical dev body x)
    (hbuf : ¬ contains (buffer (pathOf dev body x)) (ascii "../") = true) :
    cleanupPath (pathOf dev body x) = pathOf dev (body.filter (· ≠ [])) x ∧
        (x = [] ∨ getExt x ≠ []) ∨
      cleanupPath (pathOf dev body x) = pathOf dev (body.filter (· ≠ []) ++ [x]) [] ∧ x ≠ [] := by
  have hlast := getLast?_pathOf dev (body.filter (· ≠ [])) h.plain_last
  have hsuffix : (pathOf dev body x).drop (pathOf dev (body.filter (· ≠ [])) x).length <:+
      dev ++ join 47 body ++ 47 :: x := pathOf_eq dev body x ▸ List.drop_suffix _ _
  rw [h.cleanupPath_buffer, cleaned, if_neg hbuf, h.buffer_eq,
    finish_append (pathOf_ne_nil dev (body.filter (· ≠ [])) x), pathOf_concat]
  split_ifs with hand
  · exact .inr ⟨rfl, fun hx => hand.2 (hlast.mpr hx)⟩
  · refine .inl ⟨rfl, ?_⟩
    rw [not_and_or, not_not] at hand
    rcases hand with hext | hslash
    · -- what is read behind the path is its own end
      refine .inr (getExt_of_suffix (t := dev ++ join 47 (body.filter (· ≠ []))) h.plain_last
        hsuffix ?_)
      rwa [← pathOf_eq]
    · exact .inl (hlast.mp hslash)

/-- Where the buffer has no `../` in it, no part but the last one ends in `..`. -/
theorem not_dots_of_buffer (h : Canonical dev body x)
    (hbuf : ¬ contains (buffer (pathOf dev body x)) (ascii "../") = true) :
    ∀ t ∈ dev :: body.filter (· ≠ []), ¬ dotDot <:+ t := by
  intro t ht hsuffix
  have hcontains := Browser.contains_iff.mp (h.squeezed.contains_iff.mpr ⟨t, ht, hsuffix⟩)
  rw [h.buffer_eq] at hbuf
  exact hbuf (Browser.contains_iff.mpr (hcontains.trans (List.prefix_append _ _).isInfix))

/-- Parts that do not end in `..` are none. -/
theorem not_mem_of_not_dots (h : ∀ t ∈ body, ¬ dotDot <:+ t) (hx : ¬ dotDot <:+ x) :
    dotDot ∉ body ++ [x] := by
  rw [List.mem_append, List.mem_singleton, not_or]
  refine ⟨fun hmem => h dotDot hmem List.suffix_rfl, ?_⟩
  rintro rfl
  exact hx List.suffix_rfl

/-- A path without `..` resolves to its parts that are not empty. -/
theorem resolved_of_not_mem (h : Canonical dev body x) (hdots : dotDot ∉ body ++ [x]) :
    resolved (pathOf dev body x) = some (dev :: (body ++ [x]).filter (· ≠ [])) := by
  rw [h.resolved_eq, resolve_of_not_mem fun hmem => hdots (List.mem_of_mem_filter hmem)]
  rfl

/-- Without `../`, and without two dots at the end, what comes out is left alone. -/
theorem cleanupPath_cleanupPath (h : Canonical dev body x)
    (hshort : (pathOf dev body x).length < maxPathLen)
    (hbuf : ¬ contains (buffer (pathOf dev body x)) (ascii "../") = true) (hx : ¬ dotDot <:+ x) :
    cleanupPath (cleanupPath (pathOf dev body x)) = cleanupPath (pathOf dev body x) := by
  have hsq := h.squeezed
  have hnil := not_mem_filter body
  have hquiet := h.not_dots_of_buffer hbuf
  rcases h.cleanupPath_quiet_buffer hbuf with ⟨hpath, hext⟩ | ⟨hpath, hne⟩
  · rw [hpath, hsq.cleanupPath_quiet hnil hquiet, if_pos hext]
  · have hconcat := hsq.concat ((length_pathOf_le List.filter_sublist dev x).trans_lt hshort)
    have hnil' : [] ∉ body.filter (· ≠ []) ++ [x] := by
      rw [List.mem_append, List.mem_singleton, not_or]
      exact ⟨hnil, hne.symm⟩
    have hquiet' : ∀ t ∈ dev :: (body.filter (· ≠ []) ++ [x]), ¬ dotDot <:+ t := fun t ht => by
      rw [← List.cons_append] at ht
      rcases List.mem_append.mp ht with ht | ht
      · exact hquiet t ht
      · rwa [List.mem_singleton.mp ht]
    rw [hpath, hconcat.cleanupPath_quiet hnil' hquiet', if_pos (.inl rfl)]

/-- Without `../` it depends on the end of the path. -/
theorem normalised_quiet (h : Canonical dev body x)
    (hshort : (pathOf dev body x).length < maxPathLen)
    (hlen : (tokens (pathOf dev body x)).length ≤ 20)
    (hbuf : ¬ contains (buffer (pathOf dev body x)) (ascii "../") = true) :
    Normalised (pathOf dev body x) ↔ ¬ dotDot <:+ x := by
  have hsq := h.squeezed
  have hnil := not_mem_filter body
  have hquiet := h.not_dots_of_buffer hbuf
  have hconcat := hsq.concat ((length_pathOf_le List.filter_sublist dev x).trans_lt hshort)
  constructor
  · intro hnorm hx
    have hne : x ≠ [] := by
      rintro rfl
      exact absurd hx (by decide)
    have hpath : cleanupPath (pathOf dev body x) =
        pathOf dev (body.filter (· ≠ []) ++ [x]) [] := by
      rcases h.cleanupPath_quiet_buffer hbuf with ⟨-, hnil | hext⟩ | ⟨hpath, -⟩
      · exact absurd hnil hne
      · exact absurd (getExt_of_dots hx) hext
      · exact hpath
    -- the slash makes the dots look like a parent
    have hparent : dotDot ∉ body.filter (· ≠ []) ++ [x] := by
      have hplain := hnorm.plain.2.1
      rw [hpath, hconcat.splitOn_eq, List.mem_cons, not_or, List.mem_append, not_or] at hplain
      exact hplain.2.1
    have htokens : (body.filter (· ≠ [])).length + 2 ≤ 20 := by
      rw [h.tokens_eq, List.filter_append, List.filter_cons_of_pos (by simpa using hne)] at hlen
      rw [List.filter_nil, List.length_cons, List.length_append, List.length_singleton] at hlen
      exact hlen
    have hidem := hnorm.idempotent
    rw [hpath,
      hconcat.cleanupPath_dots_slash hnil hne ⟨x, .tail dev List.mem_concat_self, hx⟩ hparent htokens,
      pathOf_concat] at hidem
    exact absurd hidem (by simp)
  · intro hx
    have hnone := not_mem_of_not_dots (fun t ht => hquiet t (.tail dev ht)) hx
    have hbody : dotDot ∉ body ++ [x] := by
      rw [List.mem_append, not_or] at hnone ⊢
      refine ⟨fun hmem => hnone.1 (List.mem_filter.mpr ⟨hmem, by decide⟩), hnone.2⟩
    have hres := h.resolved_of_not_mem hbody
    have hfix := h.cleanupPath_cleanupPath hshort hbuf hx
    rcases h.cleanupPath_quiet_buffer hbuf with ⟨hpath, hext⟩ | ⟨hpath, hne⟩
    · rw [hpath] at hfix
      refine hsq.normalised_of hnil hnone hext hpath ?_ hfix
      rw [hres, List.filter_append, List.filter_append, List.filter_filter]
      simp
    · have hnil' : [] ∉ body.filter (· ≠ []) ++ [x] := by
        rw [List.mem_append, List.mem_singleton, not_or]
        exact ⟨hnil, hne.symm⟩
      have hnone' : dotDot ∉ body.filter (· ≠ []) ++ [x] ++ [[]] := by
        rw [List.mem_append, not_or]
        exact ⟨hnone, by decide⟩
      rw [hpath] at hfix
      refine hconcat.normalised_of hnil' hnone' (.inl rfl) hpath ?_ hfix
      rw [hres, List.filter_append, List.filter_append, List.filter_append, List.filter_filter]
      simp

end Canonical

/-! ## Paths that are taken apart -/

/-- A path that resolves is rendered as some text. -/
theorem render_ne_nil {trailing : Bool} (h : resolved path = some ts) : render ts trailing ≠ [] := by
  rw [resolved] at h
  cases htoks : tokens (path.map slash) with
  | nil =>
      rw [htoks] at h
      cases h
  | cons dev rest =>
      have hdev : dev ≠ [] := by
        have hmem : dev ∈ tokens (path.map slash) := htoks ▸ List.mem_cons_self
        simpa using (List.mem_filter.mp hmem).2
      rw [htoks] at h
      obtain ⟨ts', -, rfl⟩ := Option.map_eq_some_iff.mp h
      simp [render, hdev]

/-- A path is wiped. -/
theorem normalised_wiped (h : cleanupPath path = []) : Normalised path ↔ resolved path = none := by
  constructor
  · intro hnorm
    rw [Option.eq_none_iff_forall_ne_some]
    intro ts hts
    obtain ⟨trailing, hrender, -⟩ := hnorm.kept ts hts
    exact render_ne_nil hts (hrender.symm.trans h)
  · intro hnone
    refine ⟨fun _ => h, fun ts hts => ?_, ?_, ?_⟩
    · rw [hnone] at hts
      cases hts
    · rw [h]
      decide
    · rw [h]
      rfl

/-- The tokens that are copied stand between the first and the last one, in order. -/
theorem copied_sublist (dev l : Text) (mid : List Text) :
    (copied (dev :: (mid ++ [l]))).Sublist mid := by
  rw [copied_eq_take_append_drop]
  generalize hlo : firstParent (dev :: (mid ++ [l])) - parentCount (dev :: (mid ++ [l])) - 1 = lo
  generalize hhi : firstParent (dev :: (mid ++ [l])) + parentCount (dev :: (mid ++ [l])) - 1 = hi
  have hdrop : mid.drop hi = (mid.drop lo).drop (hi - lo) := by
    rw [List.drop_drop, Nat.add_sub_cancel']
    omega
  have hsub : (mid.take lo ++ mid.drop hi).Sublist (mid.take lo ++ mid.drop lo) := by
    rw [hdrop]
    exact (List.drop_sublist _ _).append_left _
  rwa [List.take_append_drop] at hsub

/-- The parents of the path, counted behind the device. -/
theorem parentCount_cons (hdev : dotDot ≠ dev) (ts : List Text) :
    parentCount (dev :: ts) = ts.count dotDot := List.count_cons_of_ne hdev.symm

/-- The device stands in front of the first `..`. -/
theorem firstParent_cons (hdev : dotDot ≠ dev) (hmem : dotDot ∈ ts) :
    firstParent (dev :: ts) = ts.idxOf dotDot + 1 := by
  rw [firstParent, if_pos (.tail dev hmem), List.idxOf_cons_ne ts hdev.symm]

/-- In front of the first parent there is none. -/
theorem not_mem_take_idxOf (ts : List Text) : dotDot ∉ ts.take (ts.idxOf dotDot) := by
  intro hmem
  have hlt := (List.mem_take_iff_idxOf_lt (List.mem_of_mem_take hmem)).mp hmem
  exact absurd hlt (lt_irrefl _)

/-- On a device the `..` stand together in front of the end, with as many parts in front of them. -/
theorem adjacent_cons (hdev : dotDot ≠ dev) (hmem : dotDot ∈ ts) :
    Adjacent (dev :: ts) ↔
      (ts.drop (ts.idxOf dotDot)).take (ts.count dotDot) =
          List.replicate (ts.count dotDot) dotDot ∧
        ts.count dotDot ≤ ts.idxOf dotDot ∧
        ts.idxOf dotDot + ts.count dotDot < ts.length := by
  rw [Adjacent, parentCount_cons hdev, firstParent_cons hdev hmem, List.drop_succ_cons,
    List.length_cons, Nat.add_le_add_iff_right, Nat.add_right_comm, Nat.add_lt_add_iff_right]

/-- The components in three parts: the one in the middle starts with the first parent, and is as
long as there are parents. -/
theorem parts_eq (ts : List Text) :
    ts = ts.take (ts.idxOf dotDot) ++ (ts.drop (ts.idxOf dotDot)).take (ts.count dotDot) ++
      ts.drop (ts.idxOf dotDot + ts.count dotDot) := by
  rw [List.append_assoc, ← List.drop_drop, List.take_append_drop, List.take_append_drop]

/-- The `..` are those among the first ones from the first `..` on, and those behind these. -/
theorem count_parts (ts : List Text) :
    ts.count dotDot = ((ts.drop (ts.idxOf dotDot)).take (ts.count dotDot)).count dotDot +
      (ts.drop (ts.idxOf dotDot + ts.count dotDot)).count dotDot := by
  have hcount := congrArg (List.count dotDot) (parts_eq ts)
  rw [List.count_append, List.count_append, List.count_eq_zero.mpr (not_mem_take_idxOf ts),
    Nat.zero_add] at hcount
  exact hcount

/-- Adjacent parents leave the components that are copied. -/
theorem resolve_of_adjacent (hdev : dotDot ≠ dev) (hmem : dotDot ∈ ts)
    (hadj : Adjacent (dev :: ts)) :
    resolve [] ts = some (ts.take (ts.idxOf dotDot - ts.count dotDot) ++
      ts.drop (ts.idxOf dotDot + ts.count dotDot)) := by
  obtain ⟨hrep, hle, hlt⟩ := (adjacent_cons hdev hmem).mp hadj
  have hcount := count_parts ts
  rw [hrep, List.count_replicate_self] at hcount
  have hrest : dotDot ∉ ts.drop (ts.idxOf dotDot + ts.count dotDot) := by
    rw [← List.count_eq_zero]
    omega
  have hlen : (ts.take (ts.idxOf dotDot)).length = ts.idxOf dotDot := by
    rw [List.length_take]
    omega
  have hparts := parts_eq ts
  rw [hrep] at hparts
  have hres := resolve_adjacent (not_mem_take_idxOf ts) hrest (hle.trans_eq hlen.symm)
  rw [← hparts, hlen, List.take_take, Nat.min_eq_left (Nat.sub_le _ _)] at hres
  exact hres

/-- If the right number of components is left, and no parent among them, then the parents are
adjacent. -/
theorem adjacent_of_not_mem (hdev : dotDot ≠ dev) (hmem : dotDot ∈ ts)
    (hle : ts.count dotDot ≤ ts.idxOf dotDot)
    (hlt : ts.idxOf dotDot + ts.count dotDot < ts.length)
    (hrest : dotDot ∉ ts.drop (ts.idxOf dotDot + ts.count dotDot)) : Adjacent (dev :: ts) := by
  have hcount := count_parts ts
  rw [List.count_eq_zero.mpr hrest, Nat.add_zero] at hcount
  have hlen : ((ts.drop (ts.idxOf dotDot)).take (ts.count dotDot)).length = ts.count dotDot := by
    rw [List.length_take, List.length_drop]
    omega
  refine (adjacent_cons hdev hmem).mpr ⟨?_, hle, hlt⟩
  rw [List.eq_replicate_iff]
  refine ⟨hlen, fun t ht => (List.count_eq_length.mp ?_ t ht).symm⟩
  rw [hlen, ← hcount]

/-- With some `..` on a device, the parts that are copied are those in front of the ones taken back,
and those behind the places of the `..`. -/
theorem copied_of_mem (hdev : dotDot ≠ dev) (hmem : dotDot ∈ mid ++ [l]) :
    copied (dev :: (mid ++ [l])) =
      mid.take ((mid ++ [l]).idxOf dotDot - (mid ++ [l]).count dotDot) ++
        mid.drop ((mid ++ [l]).idxOf dotDot + (mid ++ [l]).count dotDot) := by
  rw [copied_eq_take_append_drop, parentCount_cons hdev, firstParent_cons hdev hmem,
    Nat.sub_right_comm, Nat.add_right_comm, Nat.add_sub_cancel, Nat.add_sub_cancel]

/-- What is copied are the components that are left, where the window lies within the path. -/
theorem copied_concat (hdev : dotDot ≠ dev) (hmem : dotDot ∈ mid ++ [l])
    (hlt : (mid ++ [l]).idxOf dotDot + (mid ++ [l]).count dotDot < (mid ++ [l]).length) :
    copied (dev :: (mid ++ [l])) ++ [l] =
      (mid ++ [l]).take ((mid ++ [l]).idxOf dotDot - (mid ++ [l]).count dotDot) ++
        (mid ++ [l]).drop ((mid ++ [l]).idxOf dotDot + (mid ++ [l]).count dotDot) := by
  rw [List.length_append, List.length_singleton] at hlt
  rw [copied_of_mem hdev hmem, List.take_append_of_le_length (by omega),
    List.drop_append_of_le_length (by omega), List.append_assoc]

namespace Canonical

/-- The components that are copied are those that should be left. -/
theorem resolve_of_normalised (h : Canonical dev mid l) (hne : l ≠ []) {b : List Text}
    (hsub : b.Sublist mid) (hts : Plain 47 ts)
    (hres : resolved path = (resolve [] ts).map (dev :: ·))
    (hpath : cleanupPath path = pathOf dev b l) (hnorm : Normalised path) :
    resolve [] ts = some (b ++ [l]) ∧ dotDot ∉ b ∧ getExt l ≠ [] := by
  have hb := h.sublist hsub
  have hdots := hnorm.plain.2.1
  rw [hpath, hb.splitOn_eq, List.mem_cons, not_or, List.mem_append, not_or] at hdots
  -- What is left of the path must be what it resolves to, and the file name ends both.
  cases hresolve : resolve [] ts with
  | none =>
      rw [hresolve] at hres
      exact absurd (hpath.symm.trans (hnorm.wiped hres)) (pathOf_ne_nil dev b l)
  | some rest =>
      rw [hresolve, Option.map_some] at hres
      obtain ⟨trailing, hrender, hext⟩ := hnorm.kept _ hres
      have hplain : Plain 47 (rest ++ if trailing then [[]] else []) := by
        intro t ht
        rcases List.mem_append.mp ht with ht | ht
        · exact (subset_resolve hresolve t ht).elim nofun (hts t)
        · rw [show t = [] by cases trailing <;> simp_all]
          exact List.not_mem_nil
      have hsplit := splitOn_append_join h.device.plain hplain
      rw [← render_eq, ← hrender, hpath, hb.splitOn_eq, List.cons.injEq] at hsplit
      rw [hpath, getExt_pathOf h.plain_last] at hext
      cases trailing with
      | true => exact absurd (List.append_inj_right' hsplit.2 rfl) (by simpa using hne)
      | false =>
          rw [if_neg nofun, List.append_nil] at hsplit
          exact ⟨hsplit.2 ▸ rfl, hdots.2.1, hext.resolve_left nofun⟩

/-- A path with parents, taken apart. -/
theorem normalised_removed (h : Canonical dev mid l) (hmid : [] ∉ mid) (hne : l ≠ [])
    (hlen : mid.length + 2 ≤ 20) (hmem : dotDot ∈ mid ++ [l])
    (hwipe : 2 * (mid ++ [l]).count dotDot ≤ mid.length)
    (hres : resolved path = (resolve [] (mid ++ [l])).map (dev :: ·))
    (hpath : cleanupPath path = pathOf dev (copied (dev :: (mid ++ [l]))) l) :
    Normalised path ↔ Adjacent (dev :: (mid ++ [l])) ∧ getExt l ≠ [] := by
  have hdev := h.device.not_parent
  have hsub := copied_sublist dev l mid
  have hcopied := copied_of_mem hdev hmem
  have hidx := List.idxOf_lt_length_of_mem hmem
  rw [List.length_append, List.length_singleton] at hidx
  constructor
  · intro hnorm
    obtain ⟨hresolve, hdots, hext⟩ :=
      h.resolve_of_normalised hne hsub h.plain hres hpath hnorm
    have hl : l ≠ dotDot := by
      rintro rfl
      exact hext (getExt_of_dots List.suffix_rfl)
    -- two components less for each parent
    have hcount := length_resolve hresolve
    rw [hcopied, List.length_append, List.length_append, List.length_take, List.length_drop,
      List.length_append, List.length_singleton, List.length_nil] at hcount
    have hlt : (mid ++ [l]).idxOf dotDot + (mid ++ [l]).count dotDot < (mid ++ [l]).length := by
      rw [List.length_append, List.length_singleton]
      omega
    refine ⟨adjacent_of_not_mem hdev hmem (by omega) hlt fun hrest => ?_, hext⟩
    have hall := copied_concat hdev hmem hlt
    have hnot : dotDot ∉ copied (dev :: (mid ++ [l])) ++ [l] := by
      rw [List.mem_append, List.mem_singleton, not_or]
      exact ⟨hdots, hl.symm⟩
    rw [hall] at hnot
    exact hnot (List.mem_append_right _ hrest)
  · rintro ⟨hadj, hext⟩
    obtain ⟨-, -, hlt⟩ := (adjacent_cons hdev hmem).mp hadj
    have hresolve := resolve_of_adjacent hdev hmem hadj
    rw [← copied_concat hdev hmem hlt] at hresolve
    have hdots := not_mem_resolve List.not_mem_nil hresolve
    have hb := h.sublist hsub
    have hnil : [] ∉ copied (dev :: (mid ++ [l])) := fun hmem => hmid (hsub.subset hmem)
    refine hb.normalised_of hnil hdots (.inr hext) hpath ?_ ?_
    · rw [hres, hresolve, filter_concat hnil hne]
      rfl
    · rw [List.mem_append, not_or] at hdots
      exact hb.cleanupPath_of_ext hnil hext hdots.1
        ((Nat.add_le_add_right hsub.length_le 2).trans hlen)

/-- A path with fewer parts is shorter. -/
theorem length_pathOf_lt (h : Canonical dev body x) {b : List Text} (hsub : b.Sublist body)
    (hlt : b.length < body.length) : (pathOf dev b x).length < (pathOf dev body x).length := by
  refine (length_pathOf_le hsub dev x).lt_of_ne fun heq => ?_
  rw [pathOf_eq, pathOf_eq] at heq
  simp only [List.length_append, Nat.add_right_cancel_iff, Nat.add_left_cancel_iff] at heq
  have hjoin := (hsub.flatMap (47 :: ·)).eq_of_length heq
  have hb : Plain 47 b := fun t ht => h.plain_body t (hsub.subset ht)
  rw [join_inj hb h.plain_body hjoin] at hlt
  exact lt_irrefl _ hlt

/-- Where a path comes from that is taken apart: from one with the same components, with a slash at
its end or without it. -/
theorem exists_last (h : Canonical dev body x) (hbody : [] ∉ body) (hne : body ≠ []) :
    ∃ mid l, (x = l ∧ body = mid ∨ x = [] ∧ body = mid ++ [l]) ∧ Canonical dev mid l ∧ [] ∉ mid ∧
      l ≠ [] ∧ (body ++ [x]).filter (· ≠ []) = mid ++ [l] ∧
      (pathOf dev mid l).length ≤ (pathOf dev body x).length := by
  by_cases hx : x = []
  · subst hx
    obtain ⟨mid, l, rfl⟩ := (List.eq_nil_or_concat body).resolve_left hne
    rw [List.concat_eq_append] at h hbody ⊢
    rw [List.mem_append, List.mem_singleton, not_or] at hbody
    have hle : (pathOf dev mid l).length ≤ (pathOf dev (mid ++ [l]) []).length := by
      rw [pathOf_concat, List.length_append]
      exact Nat.le_add_right _ _
    refine ⟨mid, l, .inr ⟨rfl, rfl⟩, ⟨h.device, h.plain_body, ?_, hle.trans h.short⟩, hbody.1,
      Ne.symm hbody.2, ?_, hle⟩
    · exact fun t ht => h.noBackslash t (List.mem_append_left _ ht)
    · rw [List.filter_append, List.filter_cons_of_neg (by simp), List.filter_nil, List.append_nil,
        filter_concat hbody.1 (Ne.symm hbody.2)]
  · exact ⟨body, x, .inl ⟨rfl, rfl⟩, h, hbody, hx, filter_concat hbody hx, le_rfl⟩

/-- Names that end with two dots, but no parents. -/
theorem normalised_of_dots (h : Canonical dev body x) (hbody : [] ∉ body)
    (hdots : ∃ t ∈ dev :: body, dotDot <:+ t) (hshort : (pathOf dev body x).length < maxPathLen)
    (hl : Canonical dev mid l) (hmid : [] ∉ mid) (hne : l ≠ [])
    (hcase : x = l ∧ body = mid ∨ x = [] ∧ body = mid ++ [l]) (hparent : dotDot ∉ mid ++ [l])
    (hlen : mid.length + 2 ≤ 20) : Normalised (pathOf dev body x) ↔ getExt l ≠ [] := by
  have hmem : dotDot ∉ body ++ [x] := by
    rcases hcase with ⟨rfl, rfl⟩ | ⟨rfl, rfl⟩
    · exact hparent
    · rw [List.mem_append, List.mem_singleton, not_or]
      exact ⟨hparent, nofun⟩
  have hres := h.resolved_of_not_mem hmem
  have hfilter : (body ++ [x]).filter (· ≠ []) = mid ++ [l] := by
    rcases hcase with ⟨rfl, rfl⟩ | ⟨rfl, rfl⟩
    · exact filter_concat hmid hne
    · rw [List.filter_append, List.filter_cons_of_neg (by simp), List.filter_nil, List.append_nil,
        filter_concat hmid hne]
  constructor
  · intro hnorm hext
    rcases hcase with ⟨rfl, rfl⟩ | ⟨rfl, rfl⟩
    · -- the slash that is added gets lost the next time
      have hidem := hnorm.idempotent
      rw [h.cleanupPath_dots_file hbody hne hdots hparent hlen, if_neg (not_not.mpr hext),
        (h.concat hshort).cleanupPath_dots_slash hbody hne
          (hdots.imp fun t ht => ⟨List.mem_append_left [x] ht.1, ht.2⟩) hparent hlen,
        pathOf_concat] at hidem
      exact absurd hidem (by simp)
    · have hpath := h.cleanupPath_dots_slash hmid hne hdots hparent hlen
      refine (hl.resolve_of_normalised hne (List.Sublist.refl mid) hl.plain ?_ hpath hnorm).2.2 hext
      rw [hres, hfilter, resolve_of_not_mem hparent]
      rfl
  · intro hext
    have hpath : cleanupPath (pathOf dev body x) = pathOf dev mid l := by
      rcases hcase with ⟨rfl, rfl⟩ | ⟨rfl, rfl⟩
      · rw [h.cleanupPath_dots_file hbody hne hdots hparent hlen, if_pos hext]
      · exact h.cleanupPath_dots_slash hmid hne hdots hparent hlen
    refine hl.normalised_of hmid hparent (.inr hext) hpath ?_ ?_
    · rw [hres, hfilter, filter_concat hmid hne]
    · exact hl.cleanupPath_of_ext hmid hext
        (fun hmem => hparent (List.mem_append_left _ hmem)) hlen

/-- All paths with `../` and without doubled slashes. -/
theorem normalised_parents (h : Canonical dev body x) (hquiet : ¬ dotDot <:+ dev)
    (hbody : [] ∉ body) (hdots : ∃ t ∈ dev :: body, dotDot <:+ t)
    (hshort : (pathOf dev body x).length < maxPathLen)
    (hlen : (tokens (pathOf dev body x)).length ≤ 20) :
    Normalised (pathOf dev body x) ↔
      dotDot ∉ tokens (pathOf dev body x) ∧ HasExt (tokens (pathOf dev body x)) ∨
      resolved (pathOf dev body x) = none ∧
        (tokens (pathOf dev body x)).length < 2 * parentCount (tokens (pathOf dev body x)) + 2 ∨
      Adjacent (tokens (pathOf dev body x)) ∧ HasExt (tokens (pathOf dev body x)) := by
  have hne : body ≠ [] := by
    rintro rfl
    obtain ⟨t, ht, hsuffix⟩ := hdots
    rw [List.mem_singleton.mp ht] at hsuffix
    exact hquiet hsuffix
  -- `l` is the last token that is not empty, `mid` are those between it and the device.
  obtain ⟨mid, l, hcase, hl, hmid, hlne, hfilter, hle⟩ := h.exists_last hbody hne
  have hdev := h.device.not_parent
  have htoks : tokens (pathOf dev body x) = dev :: (mid ++ [l]) := by rw [h.tokens_eq, hfilter]
  have hres := h.resolved_eq
  have hclean := h.cleanupPath_dots hbody hdots
  rw [hfilter] at hres hclean
  have hcount : (dev :: (mid ++ [l])).length = mid.length + 2 := by simp
  have hext : HasExt (dev :: (mid ++ [l])) ↔ getExt l ≠ [] := by
    rw [HasExt, ← List.cons_append, List.getLastD_concat]
  rw [htoks, hcount] at hlen
  rw [htoks, hcount, hext]
  by_cases hmem : dotDot ∈ mid ++ [l]
  · have hpos := List.count_pos_iff.mpr hmem
    have hnot : dotDot ∈ dev :: (mid ++ [l]) := .tail dev hmem
    rw [parentCount_cons hdev]
    by_cases hwipe : mid.length < 2 * (mid ++ [l]).count dotDot
    · -- too many parents
      have hempty : cleanupPath (pathOf dev body x) = [] := by
        rw [hclean, removeParents_wiped]
        rw [hcount, parentCount_cons hdev]
        omega
      rw [normalised_wiped hempty]
      constructor
      · exact fun hnone => .inr (.inl ⟨hnone, by omega⟩)
      · rintro (⟨habs, -⟩ | ⟨hnone, -⟩ | ⟨hadj, -⟩)
        · exact absurd hnot habs
        · exact hnone
        · obtain ⟨-, hge, hlt⟩ := (adjacent_cons hdev hmem).mp hadj
          rw [List.length_append, List.length_singleton] at hlt
          omega
    -- enough tokens before the parents: exactly the adjacent ones resolve
    · rw [not_lt] at hwipe
      have hshorter : (copied (dev :: (mid ++ [l]))).length < mid.length := by
        rw [copied_of_mem hdev hmem, List.length_append, List.length_take, List.length_drop]
        have hidx := List.idxOf_lt_length_of_mem hmem
        rw [List.length_append, List.length_singleton] at hidx
        omega
      have hpath : cleanupPath (pathOf dev body x) =
          pathOf dev (copied (dev :: (mid ++ [l]))) l := by
        rw [hclean, removeParents_eq hlen (by rwa [parentCount_cons hdev])]
        exact finish_of_lt ((hl.length_pathOf_lt (copied_sublist dev l mid) hshorter).trans_le hle)
      rw [hl.normalised_removed hmid hlne hlen hmem hwipe hres hpath]
      constructor
      · exact fun hand => .inr (.inr hand)
      · rintro (⟨habs, -⟩ | ⟨-, hlt⟩ | hand)
        · exact absurd hnot habs
        · omega
        · exact hand
  -- the dots only end longer tokens, so nothing is removed
  · have hnot : dotDot ∉ dev :: (mid ++ [l]) := by
      rw [List.mem_cons, not_or]
      exact ⟨hdev, hmem⟩
    rw [h.normalised_of_dots hbody hdots hshort hl hmid hlne hcase hmem hlen]
    constructor
    · exact fun hand => .inl ⟨hnot, hand⟩
    · rintro (⟨-, hand⟩ | ⟨-, hlt⟩ | ⟨-, hand⟩)
      · exact hand
      · rw [parentCount_of_not_mem hnot] at hlt
        omega
      · exact hand

/-- Squeezing leaves a path as it is if no part but the last one is empty. -/
theorem squeeze_eq_self_iff (h : Canonical dev body x) :
    squeeze (pathOf dev body x) = pathOf dev body x ↔ [] ∉ body := by
  rw [h.squeeze_eq]
  constructor
  · intro heq hmem
    have hlen : (body.filter (· ≠ [])).length < body.length :=
      List.length_filter_lt_length_iff_exists.mpr ⟨[], hmem, by simp⟩
    have hlt := h.length_pathOf_lt List.filter_sublist hlen
    rw [heq] at hlt
    exact lt_irrefl _ hlt
  · intro hbody
    rw [List.filter_eq_self.mpr]
    intro t ht
    simp only [ne_eq, decide_eq_true_eq]
    rintro rfl
    exact hbody ht

/-! ### Doubled slashes at the end -/

/-- The stale bytes of a canonical path are the end of the path behind the squeezed one. -/
theorem stale_eq (h : Canonical dev body x) :
    stale (pathOf dev body x) =
      (pathOf dev body x).drop (pathOf dev (body.filter (· ≠ [])) x).length := by
  rw [stale, map_slash h.not_mem_backslash, h.squeeze_eq]

/-- Slashes behind a path that ends with one are empty components. -/
theorem pathOf_append_replicate (dev : Text) (body : List Text) (k : ℕ) :
    pathOf dev body [] ++ List.replicate k 47 = pathOf dev (body ++ List.replicate k []) [] := by
  induction k with
  | zero => rw [List.replicate_zero, List.replicate_zero, List.append_nil, List.append_nil]
  | succ k ih =>
      rw [List.replicate_succ', List.replicate_succ', ← List.append_assoc, ← List.append_assoc, ih,
        pathOf_concat]

/-- A blank end of the buffer adds empty components to the shortened path. -/
theorem exists_buffer (h : Canonical dev body x) (hblank : Blank (pathOf dev body x)) :
    ∃ k, buffer (pathOf dev body x) = pathOf dev (body.filter (· ≠ []) ++ List.replicate k []) x := by
  rw [Blank, h.stale_eq] at hblank
  rw [h.buffer_eq, List.eq_replicate_of_mem hblank]
  rcases List.eq_nil_or_concat ((pathOf dev body x).drop
      (pathOf dev (body.filter (· ≠ [])) x).length) with hnil | ⟨s, c, hs⟩
  · refine ⟨0, ?_⟩
    rw [hnil, List.length_nil, List.replicate_zero, List.replicate_zero, List.append_nil,
      List.append_nil]
  · -- the slash at the end of the buffer is that of the path
    have hlast : (pathOf dev body x).getLast? = some 47 := by
      rw [List.concat_eq_append] at hs
      have hc : c = 47 := hblank c (by rw [hs]; exact List.mem_concat_self)
      rw [← List.take_append_drop (pathOf dev (body.filter (· ≠ [])) x).length (pathOf dev body x),
        hs, ← List.append_assoc, List.getLast?_concat, hc]
    obtain rfl := (getLast?_pathOf dev body h.plain_last).mp hlast
    exact ⟨_, pathOf_append_replicate ..⟩

/-- A path with a blank end of the buffer is taken apart as the shortened one is. -/
theorem cleanupPath_blank (h : Canonical dev body x) (hblank : Blank (pathOf dev body x))
    (hbuf : contains (buffer (pathOf dev body x)) (ascii "../") = true) :
    cleanupPath (pathOf dev body x) = cleanupPath (pathOf dev (body.filter (· ≠ [])) x) ∧
      contains (pathOf dev (body.filter (· ≠ [])) x) (ascii "../") = true := by
  obtain ⟨k, hk⟩ := h.exists_buffer hblank
  -- What stands behind the end of the squeezed text are slashes, that is, empty tokens.
  have hplain : Plain 47 (body.filter (· ≠ []) ++ List.replicate k [] ++ [x]) := by
    intro t ht
    rcases List.mem_append.mp ht with ht | ht
    · rcases List.mem_append.mp ht with ht | ht
      · exact h.squeezed.plain_body t ht
      · rw [List.eq_of_mem_replicate ht]
        exact List.not_mem_nil
    · rw [List.mem_singleton.mp ht]
      exact h.plain_last
  have hcontains : contains (pathOf dev (body.filter (· ≠ [])) x) (ascii "../") = true := by
    rw [hk, Browser.contains_iff, pathOf, dots_infix_join_iff h.device.plain hplain,
      ← List.cons_append, List.dropLast_concat] at hbuf
    obtain ⟨t, ht, hdots⟩ := hbuf
    refine h.squeezed.contains_iff.mpr ⟨t, ?_, hdots⟩
    rw [← List.cons_append, List.mem_append] at ht
    refine ht.resolve_right fun hmem => ?_
    rw [List.eq_of_mem_replicate hmem] at hdots
    exact absurd hdots (by decide)
  -- and `strtok` does not see them
  have htokens : tokens (buffer (pathOf dev body x)) =
      tokens (pathOf dev (body.filter (· ≠ [])) x) := by
    rw [hk, h.squeezed.tokens_eq, pathOf, tokens_append_join h.device.plain hplain,
      List.filter_cons_of_pos (by simpa using h.device.ne_nil)]
    simp
  refine ⟨?_, hcontains⟩
  rw [h.cleanupPath_buffer, h.squeezed.cleanupPath_eq (not_mem_filter body), cleaned, cleaned,
    if_pos hbuf, if_pos hcontains, htokens]

/-- The paths that are normalised. -/
theorem normalised_iff (h : Canonical dev body x) (hquiet : ¬ dotDot <:+ dev)
    (hshort : (pathOf dev body x).length < maxPathLen)
    (hlen : (tokens (pathOf dev body x)).length ≤ 20)
    (hcond : Blank (pathOf dev body x) ∨
      ¬ contains (buffer (pathOf dev body x)) (ascii "../") = true) :
    Normalised (pathOf dev body x) ↔ Harmless (pathOf dev body x) := by
  have hdots : dotDot <:+ pathOf dev body x ↔ dotDot <:+ x := by rw [pathOf_eq, dots_suffix_iff]
  rw [Harmless, map_slash h.not_mem_backslash, hdots]
  -- either `strstr` finds a parent in the buffer, or the path is quiet
  by_cases hbuf : contains (buffer (pathOf dev body x)) (ascii "../") = true
  · have hblank := hcond.resolve_right (not_not.mpr hbuf)
    obtain ⟨hclean, hcontains⟩ := h.cleanupPath_blank hblank hbuf
    -- Squeezing changes neither the tokens nor what they resolve to.
    have htokens : tokens (pathOf dev (body.filter (· ≠ [])) x) = tokens (pathOf dev body x) := by
      rw [h.squeezed.tokens_eq, h.tokens_eq]
      simp
    have hres : resolved (pathOf dev body x) =
        resolved (pathOf dev (body.filter (· ≠ [])) x) := by
      rw [h.resolved_eq, h.squeezed.resolved_eq]
      simp
    rw [normalised_congr hclean hres, h.squeezed.normalised_parents hquiet (not_mem_filter body)
      (h.squeezed.contains_iff.mp hcontains)
      ((length_pathOf_le List.filter_sublist dev x).trans_lt hshort) (by rwa [htokens]), htokens,
      ← hres]
    constructor
    · exact fun hand => .inr ⟨hbuf, hblank, hand⟩
    · rintro (⟨hnot, -⟩ | ⟨-, -, hand⟩)
      · exact absurd hbuf hnot
      · exact hand
  · rw [h.normalised_quiet hshort hlen hbuf]
    constructor
    · exact fun hx => .inl ⟨hbuf, hx⟩
    · rintro (⟨-, hx⟩ | ⟨hcontains, -⟩)
      · exact hx
      · exact absurd hcontains hbuf

end Canonical

/-- Whether the stale end is blank does not depend on the kind of slash. -/
theorem blank_map_slash (path : Text) : Blank (path.map slash) ↔ Blank path := by
  rw [Blank, Blank, stale, stale, map_slash (not_mem_map_slash path)]

/-- Whether the stale end is harmless does not depend on the kind of slash. -/
theorem harmless_map_slash (hlen : path.length ≤ maxPathLen) :
    Harmless (path.map slash) ↔ Harmless path := by
  rw [Harmless, Harmless, Blank, Blank, stale, stale, map_slash (not_mem_map_slash path),
    buffer_map_slash hlen, resolved_map_slash]

/-! ## URLs -/

/-- There is a slash behind the host. -/
def hasPath (url : Text) : Bool :=
  match splitAt? 58 url with
  | none => false
  | some (_, rest) => 47 ∈ rest.drop 2

/-- A URL without a path gets one, once. -/
structure UrlNormalised (url : Text) : Prop where
  slash : cleanupPath url = if hasPath url then url else url ++ [47]
  idempotent : cleanupPath (cleanupPath url) = cleanupPath url

/-- The slash that is found is the second one of the two in front of the host. -/
theorem cleanupPath_url {url : Text} (h : isAllowedProtocol url = true) : cleanupPath url = url := by
  have hne : url ≠ [] := by
    rintro rfl
    cases h
  have hfind : findDevice url = true := by
    rw [findDevice, if_neg hne, h, if_pos rfl, ite_self]
  have hfound : ¬(true = false) := Bool.noConfusion
  rw [cleanupPath, hfind, if_neg hfound, if_pos h]
  rw [isAllowedProtocol] at h
  cases hsplit : splitAt? 58 url with
  | none => rfl
  | some parts =>
      obtain ⟨protocol, rest⟩ := parts
      rw [hsplit] at h
      simp only [Bool.and_eq_true, List.isPrefixOf_iff_prefix] at h
      obtain ⟨t, rfl⟩ := h.1.2
      exact if_pos (List.mem_cons_self)

/-! ## The result -/

end WiiMC.Browser
