import WiiMC.Media.Listing

/-!
# The path of a folder without its slash

`UpdateDirName` takes a folder whose name begins with `http:` for a playlist, and appends the name
without a slash. `CleanupPath` makes the path of the folder of this in a few cases only.

* `Restored`: these cases.
* `not_mem_cleanupPath`: no backslash is left in a path.
* `cleanupPath_eq_dirOf_iff`: the path is made that of the folder where it is `Restored`.
-/

namespace WiiMC.Media

open Bytes Player Browser Segments

/-- A folder whose name begins with `http:` is opened without the slash behind it; `CleanupPath` adds
it where it finds a device, and no extension. -/
structure Restored (ns : List Text) (n : Text) : Prop where
  device : findDevice (dirOf ns ++ n) = true
  slashes : 92 ∉ dirOf ns ++ n
  noExt : getExt n = []
  few : ns.length < 20 ∨ ∀ t ∈ ns, ¬dotDot <:+ t

variable {ns : List Text} {n : Text} {path : Text} {c : UInt8}

theorem mem_of_mem_tokens {t : Text} (ht : t ∈ tokens path) (hc : c ∈ t) : c ∈ path := by
  obtain ⟨s, ss, hs, hss, rfl⟩ := exists_append_join 47 path
  rw [tokens_append_join hs hss] at ht
  rw [List.mem_append, join, List.mem_flatMap]
  obtain rfl | ht := List.mem_cons.mp (List.mem_of_mem_filter ht)
  · exact .inl hc
  · exact .inr ⟨t, ht, .tail _ hc⟩

theorem mem_of_mem_finish {j : ℕ} (hc : c ∈ finish j path) : c ∈ path ∨ c = 47 := by
  rw [finish] at hc
  split_ifs at hc
  · exact .inl hc
  · rw [List.mem_append, List.mem_singleton] at hc
    exact hc.imp_left List.mem_of_mem_take
  · exact .inl (List.mem_of_mem_take hc)

theorem mem_of_mem_removeParents {toks : List Text} {s : Text} (h : removeParents toks = some s)
    (hc : c ∈ s) : c = 47 ∨ ∃ t ∈ toks, c ∈ t := by
  rw [removeParents] at h
  split_ifs at h with hlong hwipe
  have hne : toks ≠ [] := by
    rintro rfl
    exact hwipe (by decide)
  obtain rfl := Option.some.inj h
  simp only [List.mem_append, List.mem_singleton, List.mem_flatMap] at hc
  rcases hc with ((hc | hc) | ⟨t, ht, hc | hc⟩) | hc
  · obtain ⟨t, rest, rfl⟩ := List.exists_cons_of_ne_nil hne
    exact .inr ⟨t, List.mem_cons_self, hc⟩
  · exact .inl hc
  · obtain ⟨x, hx, rfl⟩ := List.mem_map.mp ht
    have hmem := List.mem_zipIdx (List.mem_of_mem_filter hx)
    exact .inr ⟨x.1, hmem.2.2 ▸ List.getElem_mem _, hc⟩
  · exact .inl hc
  · rw [List.getLastD_eq_getLast?, List.getLast?_eq_some_getLast hne, Option.getD_some] at hc
    exact .inr ⟨_, List.getLast_mem hne, hc⟩

theorem mem_of_mem_squeezeFrom {last : Option UInt8} (hc : c ∈ squeezeFrom last path) :
    c ∈ path := by
  induction path generalizing last with
  | nil => exact hc
  | cons d path ih =>
    rw [squeezeFrom] at hc
    split_ifs at hc
    · exact .tail d (ih hc)
    · exact (List.mem_cons.mp hc).elim (fun h => h ▸ List.mem_cons_self) fun h => .tail d (ih h)

/-- No backslash is left in a path. -/
theorem not_mem_cleanupPath (hfind : findDevice path = true) (hproto : isAllowedProtocol path = false)
    (hlen : path.length ≤ maxPathLen) : 92 ∉ cleanupPath path := by
  have hbuffer : 92 ∉ buffer path := by
    rw [buffer_of_length hlen, List.mem_append, not_or]
    exact ⟨fun h => not_mem_map_slash path (mem_of_mem_squeezeFrom h),
      fun h => not_mem_map_slash path (List.mem_of_mem_drop h)⟩
  have hfinish : ∀ j s, 92 ∉ s → 92 ∉ finish j s := fun j s hs h =>
    (mem_of_mem_finish h).elim hs (by decide)
  rw [cleanupPath_found hfind hproto hlen, cleaned]
  split_ifs
  · cases hremove : removeParents (tokens (buffer path)) with
    | none => exact List.not_mem_nil
    | some s =>
      refine hfinish _ s fun h => ?_
      obtain h | ⟨t, ht, h⟩ := mem_of_mem_removeParents hremove h
      · exact absurd h (by decide)
      · exact hbuffer (mem_of_mem_tokens ht h)
  · exact hfinish _ _ hbuffer

/-- The path of a folder has no protocol: there would be two slashes next to each other. -/
theorem isAllowedProtocol_folder {t : Text} {ts : List Text} (ht : 47 ∉ t) (hts : Plain 47 ts)
    (hne : [] ∉ ts) : isAllowedProtocol (t ++ join 47 ts) = false := by
  refine Bool.eq_false_iff.mpr fun hallowed => ?_
  rw [isAllowedProtocol, splitAt?] at hallowed
  split_ifs at hallowed with hcolon
  · simp only [Bool.and_eq_true] at hallowed
    refine not_doubled ht hts hne ?_
    -- Both slashes are behind the first colon.
    have hbehind := (List.isPrefixOf_iff_prefix.mp hallowed.1.2).isInfix
    exact hbehind.trans ((List.tail_suffix _).trans (List.dropWhile_suffix _)).isInfix

/-- The extension of a folder is that of its name. -/
theorem getExt_folder (hn : 47 ∉ n) : getExt (dirOf ns ++ n) = getExt n := by
  obtain rfl | ⟨init, last, rfl⟩ := List.eq_nil_or_concat ns
  · rfl
  · have hdir : dirOf (init.concat last) ++ n = dirOf init ++ last ++ 47 :: n := by
      simp [dirOf]
    rw [hdir, getExt_append_slash hn]

theorem clean_of_not_mem {segs : List Text} (hsegs : [] ∉ segs) : clean segs = segs := by
  obtain rfl | ⟨body, x, rfl⟩ := List.eq_nil_or_concat segs
  · rfl
  · rw [List.concat_eq_append] at hsegs ⊢
    rw [clean_concat]
    refine congrArg (· ++ [x]) (List.filter_eq_self.mpr fun m hm => ?_)
    exact decide_eq_true fun h : m = [] => hsegs (h ▸ List.mem_append_left _ hm)

/-- Cleaning up the path of a folder without the slash at its end makes it the path of the folder
exactly when the folder is `Restored`. -/
theorem cleanupPath_eq_dirOf_iff (hns : ∀ m ∈ ns ++ [n], Named m)
    (hroom : (dirOf (ns ++ [n])).length ≤ maxPathLen) :
    cleanupPath (dirOf ns ++ n) = dirOf (ns ++ [n]) ↔ Restored ns n := by
  obtain ⟨t, ts, hcons⟩ := List.exists_cons_of_ne_nil
    (List.append_ne_nil_of_right_ne_nil ns (List.cons_ne_nil n []))
  have hn := hns n (by simp)
  have hpath : dirOf ns ++ n = t ++ join 47 ts := close_append_eq_join hcons
  have hslash : dirOf (ns ++ [n]) = dirOf ns ++ n ++ [47] := by simp [dirOf]
  rw [hcons] at hns
  have ht : 47 ∉ t := (hns t List.mem_cons_self).plain
  have hts : Plain 47 ts := fun m hm => (hns m (.tail t hm)).plain
  have hne : [] ∉ t :: ts := fun h => (hns _ h).ne_nil rfl
  have hproto : isAllowedProtocol (dirOf ns ++ n) = false := by
    rw [hpath]
    exact isAllowedProtocol_folder ht hts fun h => hne (.tail t h)
  have hlen : (dirOf ns ++ n).length ≤ maxPathLen := by
    rw [hslash, List.length_append] at hroom
    omega
  rw [hslash]
  by_cases hfind : findDevice (dirOf ns ++ n) = true
  swap
  · -- Without a device nothing is left of the path.
    rw [cleanupPath, if_pos (Bool.eq_false_iff.mpr hfind)]
    exact ⟨fun h => by simp at h, fun h => absurd h.device hfind⟩
  by_cases hback : 92 ∈ dirOf ns ++ n
  · refine ⟨fun h => ?_, fun h => absurd hback h.slashes⟩
    exact absurd (h ▸ List.mem_append_left _ hback) (not_mem_cleanupPath hfind hproto hlen)
  -- Named folders hold no slash, so there is nothing to squeeze.
  have hsqueeze : squeeze (dirOf ns ++ n) = dirOf ns ++ n := by
    rw [hpath, squeeze_append_join ht (fun h => hne (h ▸ List.mem_cons_self)) hts]
    exact congrArg _ (congrArg _ (clean_of_not_mem fun h => hne (.tail t h)))
  have hclean : cleanupPath (dirOf ns ++ n) = cleaned (dirOf ns ++ n).length (dirOf ns ++ n) := by
    rw [cleanupPath_found hfind hproto hlen, buffer_of_length hlen, map_slash hback, hsqueeze,
      List.drop_length, List.append_nil]
  -- The slash at the end comes from `finish`, for a name without an extension.
  have hfinish : finish (dirOf ns ++ n).length (dirOf ns ++ n) = dirOf ns ++ n ++ [47] ↔
      getExt n = [] := by
    have hfull : dirOf ns ++ n ≠ [] := List.append_ne_nil_of_right_ne_nil _ hn.ne_nil
    have hlast : (dirOf ns ++ n).getLast? ≠ some 47 := fun h => by
      rw [List.getLast?_append_of_ne_nil _ hn.ne_nil] at h
      exact hn.plain (List.mem_of_getLast? h)
    have hend := finish_append (t := []) hfull
    rw [List.append_nil, getExt_folder hn.plain] at hend
    rw [hend]
    by_cases hext : getExt n = []
    · rw [if_pos ⟨hext, hlast⟩]
      exact iff_of_true rfl hext
    · rw [if_neg fun h => hext h.1]
      exact iff_of_false (fun h => by simp at h) hext
  have hdots : contains (dirOf ns ++ n) (ascii "../") = true ↔ ∃ m ∈ ns, dotDot <:+ m := by
    rw [contains_iff, hpath, dots_infix_join_iff ht hts, ← hcons, List.dropLast_concat]
  rw [hclean, cleaned]
  by_cases hcontains : contains (dirOf ns ++ n) (ascii "../") = true
  · rw [if_pos hcontains]
    obtain ⟨m, hm, hsuffix⟩ := hdots.mp hcontains
    obtain ⟨r, mid, rfl⟩ := List.exists_cons_of_ne_nil (List.ne_nil_of_mem hm)
    have htokens : tokens (dirOf (r :: mid) ++ n) = r :: (mid ++ [n]) := by
      rw [hpath, tokens_append_join ht hts, ← List.cons_append, hcons]
      exact List.filter_eq_self.mpr fun m hm => decide_eq_true fun h : m = [] => hne (h ▸ hm)
    rw [htokens]
    by_cases hlong : (r :: mid).length < 20
    · have hparent : dotDot ∉ r :: (mid ++ [n]) := fun h => by
        rw [← List.cons_append, hcons] at h
        exact (hns _ h).visible rfl
      have hwhole : pathOf r mid n = dirOf (r :: mid) ++ n :=
        (close_append_eq_join rfl).symm
      rw [removeParents_of_not_mem (Nat.succ_le_of_lt hlong) hparent]
      simp only
      rw [hwhole, hfinish]
      exact ⟨fun hext => ⟨hfind, hback, hext, .inl hlong⟩, fun h => h.noExt⟩
    · -- More than twenty tokens are not taken apart.
      have hnone : removeParents (r :: (mid ++ [n])) = none := by
        rw [removeParents, if_pos]
        simp only [List.length_cons, List.length_append] at hlong ⊢
        omega
      rw [hnone]
      refine iff_of_false (fun h => by simp at h) fun h => ?_
      exact h.few.elim hlong fun hquiet => hquiet m hm hsuffix
  · rw [if_neg hcontains, hfinish]
    refine ⟨fun hext => ⟨hfind, hback, hext, .inr fun m hm hsuffix => ?_⟩, fun h => h.noExt⟩
    exact hcontains (hdots.mpr ⟨m, hm, hsuffix⟩)

end WiiMC.Media
