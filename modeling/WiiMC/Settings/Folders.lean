import WiiMC.Browser.Folders

/-!
# The folders of the settings

The folders are cleaned up when the settings are saved, and again when they are loaded. They are
any texts that fit into their fields: they need not be below a device.

* `Neat`: what comes out of the cleaning.
* `Settled`, `Returns`: the cleaned folders that another cleaning leaves alone, and those that come
  back when they have been cut off to the size of their field.
* `cleanupPath_settled_iff`, `cleanupPath_returns_iff`: these and no others do.
-/

namespace WiiMC.Settings

open Browser Bytes Player Segments

/-! ## Any path below a device -/

variable {path s t x l dev : Text} {body mid : List Text} {c : UInt8}

/-- `FindDevice` reads the first component only. -/
theorem atoi_append (ht : ∀ c ∈ t.head?, c = 47 ∨ c = 92) (s : Text) : atoi (s ++ t) = atoi s := by
  have hnumber : ∀ c ∈ t.head?, inNumber c = false := fun c hc => by
    rcases ht c hc with rfl | rfl
    · rfl
    · rfl
  rw [atoi, atoi, scanInt_append hnumber, Option.map_map]
  rfl

theorem isPrefixOf_append_iff {p : Text} (hp : ∀ c ∈ p, c ≠ 47 ∧ c ≠ 92)
    (ht : ∀ c ∈ t.head?, c = 47 ∨ c = 92) : p.isPrefixOf (s ++ t) = p.isPrefixOf s := by
  rw [Bool.eq_iff_iff, List.isPrefixOf_iff_prefix, List.isPrefixOf_iff_prefix]
  constructor
  · rintro ⟨u, hu⟩
    rcases List.append_eq_append_iff.mp hu with ⟨m, hm, -⟩ | ⟨m, hm, hrest⟩
    · exact ⟨m, hm.symm⟩
    · cases m with
      | nil => exact ⟨[], by rw [List.append_nil, hm, List.append_nil]⟩
      | cons c m =>
          -- the byte behind the component would be one of `p`
          rw [hrest] at ht
          have hc := hp c (hm ▸ by simp)
          exact ((ht c rfl).elim hc.1 hc.2).elim
  · exact fun hpre => hpre.trans (List.prefix_append s t)

/-- A text that does not start with an `h` is no URL. -/
theorem isAllowedProtocol_of_head (hc : toLower c ≠ 104) (s : Text) :
    isAllowedProtocol (c :: s) = false := by
  rw [isAllowedProtocol, splitAt?]
  split_ifs with hmem
  · refine Bool.and_eq_false_iff.mpr (.inr ?_)
    rw [List.takeWhile_cons]
    split_ifs
    · have hh : toLower 104 = 104 := rfl
      simp [validInternetProtocols, eqNoCase, ascii, hc, hh]
    · rfl
  · rfl

/-- A path below a device starts with its name. -/
theorem found_iff (ht : ∀ c ∈ t.head?, c = 47 ∨ c = 92) :
    (findDevice (s ++ t) = true ∧ isAllowedProtocol (s ++ t) = false) ↔
      (ascii "dav1:").isPrefixOf s = true ∨
      (ascii "sd").isPrefixOf s = true ∧ 0 < atoi (s.drop 2) ∧ atoi (s.drop 2) < 10 ∨
      (ascii "smb").isPrefixOf s = true ∧ 0 < atoi (s.drop 3) ∧ atoi (s.drop 3) < 10 := by
  -- The device is read before the first slash, so what follows it does not matter.
  have hdrop : ∀ p : Text, p.isPrefixOf s = true →
      atoi ((s ++ t).drop p.length) = atoi (s.drop p.length) := fun p hp => by
    rw [List.drop_append_of_le_length (List.isPrefixOf_iff_prefix.mp hp).length_le, atoi_append ht]
  have hdrop2 : (ascii "sd").isPrefixOf s = true → atoi ((s ++ t).drop 2) = atoi (s.drop 2) :=
    hdrop (ascii "sd")
  have hdrop3 : (ascii "smb").isPrefixOf s = true → atoi ((s ++ t).drop 3) = atoi (s.drop 3) :=
    hdrop (ascii "smb")
  have hdav := isPrefixOf_append_iff (s := s) (p := ascii "dav1:") (by decide +kernel) ht
  have hsd := isPrefixOf_append_iff (s := s) (p := ascii "sd") (by decide +kernel) ht
  have hsmb := isPrefixOf_append_iff (s := s) (p := ascii "smb") (by decide +kernel) ht
  -- The tests of `FindDevice` in their order: WebDAV, card, share.
  constructor
  · rintro ⟨hfind, hproto⟩
    rw [findDevice, hproto, hdav, hsd, hsmb, if_neg Bool.false_ne_true] at hfind
    split_ifs at hfind with hnil h1 h2
    · exact .inl h1
    · simp only [Bool.and_eq_true, decide_eq_true_eq, hdrop2 h2] at hfind
      exact .inr (.inl ⟨h2, hfind⟩)
    · simp only [Bool.and_eq_true, decide_eq_true_eq] at hfind
      obtain ⟨hnum, hpre⟩ := hfind
      rw [hdrop3 hpre] at hnum
      exact .inr (.inr ⟨hpre, hnum⟩)
  · intro hand
    -- none of the three begins like a protocol
    have hproto : isAllowedProtocol (s ++ t) = false := by
      rcases hand with hpre | ⟨hpre, -⟩ | ⟨hpre, -⟩
      all_goals
        obtain ⟨u, rfl⟩ := List.isPrefixOf_iff_prefix.mp hpre
        exact isAllowedProtocol_of_head (by decide) _
    have hne : s ++ t ≠ [] := by
      intro hnil
      obtain ⟨rfl, -⟩ := List.append_eq_nil_iff.mp hnil
      exact absurd hand (by decide)
    refine ⟨?_, hproto⟩
    rw [findDevice, hproto, hdav, hsd, hsmb, if_neg hne, if_neg Bool.false_ne_true]
    rcases hand with hpre | ⟨hpre, hnum⟩ | ⟨hpre, hnum⟩
    · rw [if_pos hpre]
    · rw [if_pos hpre, hdrop2 hpre, decide_eq_true hnum.1, decide_eq_true hnum.2]
      exact ite_self true
    · have hnot : ¬ (ascii "sd").isPrefixOf s = true := by
        obtain ⟨u, rfl⟩ := List.isPrefixOf_iff_prefix.mp hpre
        exact Bool.false_ne_true
      rw [if_neg hnot, hdrop3 hpre, decide_eq_true hnum.1, decide_eq_true hnum.2, hpre]
      exact ite_self true

/-- The first component of a path below a device. -/
theorem exists_device (hfound : findDevice path = true ∧ isAllowedProtocol path = false) :
    ∃ dev t, Device dev ∧ path.map slash = dev ++ t ∧ (t = [] ∨ ∃ u, t = 47 :: u) ∧
      (findDevice (path.map slash) = true ∧ isAllowedProtocol (path.map slash) = false) := by
  -- The device is what stands in front of the first slash of either kind.
  let isPlain : UInt8 → Bool := fun c => c ≠ 47 ∧ c ≠ 92
  have hsplit := List.takeWhile_append_dropWhile (p := isPlain) (l := path)
  generalize hdev : path.takeWhile isPlain = dev at hsplit
  generalize hrest : path.dropWhile isPlain = rest at hsplit
  have hplain : ∀ c ∈ dev, c ≠ 47 ∧ c ≠ 92 := fun c hc => by
    have hall : isPlain c = true := List.mem_takeWhile_imp (hdev ▸ hc)
    exact of_decide_eq_true hall
  have hhead : ∀ c ∈ rest.head?, c = 47 ∨ c = 92 := fun c hc => by
    rw [← hrest] at hc
    have hnot := List.head?_dropWhile_not isPlain path
    rw [Option.mem_def.mp hc] at hnot
    simp only [isPlain, ne_eq, decide_eq_false_iff_not, not_and_or, not_not] at hnot
    exact hnot
  rw [← hsplit] at hfound
  -- whether it is found does not depend on what follows
  have hnamed := (found_iff hhead).mp hfound
  have hback : 92 ∉ dev := fun hmem => (hplain 92 hmem).2 rfl
  have hmap : path.map slash = dev ++ rest.map slash := by
    rw [← hsplit, List.map_append, map_slash hback]
  have hend : rest.map slash = [] ∨ ∃ u, rest.map slash = 47 :: u := by
    cases rest with
    | nil => exact .inl rfl
    | cons c rest =>
        refine .inr ⟨rest.map slash, ?_⟩
        rcases hhead c rfl with rfl | rfl
        · rfl
        · rfl
  refine ⟨dev, rest.map slash, ⟨fun hmem => (hplain 47 hmem).1 rfl, hback, fun u => ?_⟩, hmap, hend,
    ?_⟩
  · exact (found_iff (t := 47 :: u) fun c hc => .inl (Option.some.inj hc).symm).mpr hnamed
  · rw [hmap]
    refine (found_iff fun c hc => ?_).mpr hnamed
    rcases hend with hnil | ⟨u, hu⟩
    · rw [hnil] at hc
      cases hc
    · rw [hu] at hc
      exact .inl (Option.some.inj hc).symm

/-! ## What comes out of the cleaning -/

/-- A path below a device without backslashes and without doubled slashes. -/
def Neat (path : Text) : Prop :=
  ∃ dev, Device dev ∧
    (path = dev ∧ dev.length ≤ maxPathLen ∧ findDevice dev = true ∧ isAllowedProtocol dev = false ∨
      ∃ body x, path = pathOf dev body x ∧ Canonical dev body x ∧ [] ∉ body)

/-- Its `../`, if it has any, leaves the path as it is. -/
def Whole (path : Text) : Prop :=
  contains path (ascii "../") = true →
    path.getLast? ≠ some 47 ∧ dotDot ∉ tokens path ∧ (tokens path).length ≤ 20

instance : DecidablePred Whole := fun _ => by
  unfold Whole
  infer_instance

/-- The cleaned folders that another cleaning leaves alone. -/
def Settled (path : Text) : Prop :=
  path = [] ∨ isAllowedProtocol path = true ∨
    Whole path ∧ (path.getLast? = some 47 ∨ getExt path ≠ [])

instance : DecidablePred Settled := fun _ => by
  unfold Settled
  infer_instance

/-- The cleaned folders that come back. One that fills its field loses the slash at its end, and has
to get it again. -/
def Returns (path : Text) : Prop :=
  if path.length < maxPathLen then Settled path
  else Whole path.dropLast ∧ getExt path.dropLast = []

instance : DecidablePred Returns := fun _ => by
  unfold Returns
  infer_instance

/-- A device without a slash. -/
theorem cleanupPath_device (hfound : findDevice dev = true ∧ isAllowedProtocol dev = false)
    (hdev : Device dev) (hlen : dev.length ≤ maxPathLen) :
    cleanupPath dev = if getExt dev = [] then dev ++ [47] else dev := by
  have hsqueeze : squeeze dev = dev := squeezeFrom_eq_self hdev.plain
  have hmap := map_slash hdev.noBackslash
  have hbuf : buffer dev = dev := by
    rw [buffer_of_length hlen, hmap, hsqueeze, List.drop_length, List.append_nil]
  have hcontains : ¬ contains dev (ascii "../") = true := fun hand =>
    hdev.plain ((contains_iff.mp hand).subset (by decide))
  have hlast : dev.getLast? ≠ some 47 := fun heq => hdev.plain (List.mem_of_getLast? heq)
  have hfinish := finish_append (t := []) hdev.ne_nil
  rw [List.append_nil] at hfinish
  rw [cleanupPath_found hfound.1 hfound.2 hlen, hbuf, hmap, hsqueeze, cleaned, if_neg hcontains,
    hfinish]
  simp only [hlast, ne_eq, not_false_eq_true, and_true]

/-- Parents take directories with them. -/
theorem length_copied_lt (hdev : dotDot ≠ dev) (hparent : dotDot ∈ mid ++ [l]) :
    (copied (dev :: (mid ++ [l]))).length < mid.length ∨
      removeParents (dev :: (mid ++ [l])) = none := by
  have hmem : dotDot ∈ dev :: (mid ++ [l]) := .tail dev hparent
  have hcount : 0 < parentCount (dev :: (mid ++ [l])) := List.count_pos_iff.mpr hmem
  have hfirst : firstParent (dev :: (mid ++ [l])) = (mid ++ [l]).idxOf dotDot + 1 := by
    rw [firstParent, if_pos hmem, List.idxOf_cons_ne _ hdev.symm]
  have hlt : (mid ++ [l]).idxOf dotDot < (mid ++ [l]).length := List.idxOf_lt_length_of_mem hparent
  rw [List.length_append, List.length_singleton] at hlt
  by_cases hwipe : (dev :: (mid ++ [l])).length < 2 * parentCount (dev :: (mid ++ [l])) + 2
  · exact .inr (removeParents_wiped hwipe)
  · left
    rw [List.length_cons, List.length_append, List.length_singleton] at hwipe
    rw [copied_eq_take_append_drop, List.length_append, List.length_take, List.length_drop]
    omega

/-- A path that is taken apart comes out whole only if it has no parents and no slash at its end. -/
theorem cleanupPath_of_dots (h : Canonical dev body x) (hbody : [] ∉ body)
    (hdots : ∃ t ∈ dev :: body, dotDot <:+ t) :
    (cleanupPath (pathOf dev body x)).length < (pathOf dev body x).length ∨
      x ≠ [] ∧ dotDot ∉ body ++ [x] ∧ body.length + 2 ≤ 20 := by
  have hpos : 0 < (pathOf dev body x).length := List.length_pos_iff.mpr (pathOf_ne_nil dev body x)
  have hclean := h.cleanupPath_dots hbody hdots
  cases hremove : removeParents (dev :: (body ++ [x]).filter (· ≠ [])) with
  -- all is wiped
  | none =>
      rw [hremove] at hclean
      rw [hclean]
      exact .inl hpos
  | some W =>
      rw [hremove] at hclean
      obtain ⟨mid, l, hfilter, rfl⟩ := removeParents_cons hremove
      have hle := Canonical.length_pathOf_le (copied_sublist dev l mid) dev l
      by_cases hx : x = []
      · -- the slash at the end is lost
        have hself : body.filter (· ≠ []) = body := List.filter_eq_self.mpr fun t ht => by
          simp only [ne_eq, decide_eq_true_eq]
          rintro rfl
          exact hbody ht
        rw [hx, List.filter_append, List.filter_cons_of_neg (by simp), List.filter_nil,
          List.append_nil, hself] at hfilter
        have hlt : (pathOf dev (copied (dev :: (mid ++ [l]))) l).length <
            (pathOf dev body x).length := by
          rw [hx, hfilter, pathOf_concat, List.length_append]
          exact hle.trans_lt (Nat.lt_add_of_pos_right (Nat.succ_pos _))
        simp only at hclean
        rw [hclean, finish_of_lt hlt]
        exact .inl hlt
      -- a file at the end: a parent among the tokens shortens the path
      · rw [Canonical.filter_concat hbody hx] at hfilter hremove
        obtain ⟨rfl, hl⟩ := List.append_inj' hfilter rfl
        cases hl
        by_cases hparent : dotDot ∈ body ++ [x]
        · rcases length_copied_lt h.device.not_parent hparent with hlt | hnone
          · have hshorter := h.length_pathOf_lt (copied_sublist dev x body) hlt
            simp only at hclean
            rw [hclean, finish_of_lt hshorter]
            exact .inl hshorter
          · rw [hremove] at hnone
            cases hnone
        · refine .inr ⟨hx, hparent, ?_⟩
          -- more tokens than the array holds wipe the path
          by_contra hlong
          rw [removeParents, if_pos (by simp; omega)] at hremove
          cases hremove

/-- What the cleaning makes of a path without doubled slashes. -/
theorem Neat.cleanupPath_iff (h : Neat path) :
    (cleanupPath path = path ↔ Whole path ∧ (path.getLast? = some 47 ∨ getExt path ≠ [])) ∧
      (cleanupPath path = path ++ [47] ↔
        Whole path ∧ path.getLast? ≠ some 47 ∧ getExt path = []) := by
  obtain ⟨dev, hdev, ⟨rfl, hlen, hfound⟩ | ⟨body, x, rfl, h, hbody⟩⟩ := h
  · have hlast : path.getLast? ≠ some 47 := fun heq => hdev.plain (List.mem_of_getLast? heq)
    have hwhole : Whole path := fun hand =>
      absurd ((contains_iff.mp hand).subset (by decide)) hdev.plain
    rw [cleanupPath_device hfound hdev hlen]
    by_cases hext : getExt path = [] <;> simp [hext, hlast, hwhole]
  simp only [ne_eq, getLast?_pathOf dev body h.plain_last, getExt_pathOf h.plain_last]
  -- With dots at the end of a token the path is shortened, or is whole.
  by_cases hdots : ∃ t ∈ dev :: body, dotDot <:+ t
  · have htokens : x ≠ [] → tokens (pathOf dev body x) = dev :: (body ++ [x]) := fun hx => by
      rw [h.tokens_eq, Canonical.filter_concat hbody hx]
    rcases cleanupPath_of_dots h hbody hdots with hshort | ⟨hx, hparent, hlen⟩
    · have hnot : ¬ Whole (pathOf dev body x) := by
        intro hwhole
        obtain ⟨hlast, hparent, hlen⟩ := hwhole (h.contains_iff.mpr hdots)
        have hx : x ≠ [] := fun hx => hlast ((getLast?_pathOf dev body h.plain_last).mpr hx)
        rw [htokens hx, List.mem_cons, not_or] at hparent
        rw [htokens hx, List.length_cons, List.length_append, List.length_singleton] at hlen
        rw [h.cleanupPath_dots_file hbody hx hdots hparent.2 hlen, pathOf_concat] at hshort
        split_ifs at hshort
        · exact lt_irrefl _ hshort
        · rw [List.length_append] at hshort
          omega
      constructor
      · exact ⟨fun heq => absurd (congrArg List.length heq) hshort.ne, fun hand => absurd hand.1 hnot⟩
      · refine ⟨fun heq => ?_, fun hand => absurd hand.1 hnot⟩
        rw [heq, List.length_append] at hshort
        omega
    · have hwhole : Whole (pathOf dev body x) := by
        intro _
        rw [ne_eq, getLast?_pathOf dev body h.plain_last, htokens hx, List.mem_cons, not_or]
        refine ⟨hx, ⟨h.device.not_parent, hparent⟩, ?_⟩
        rwa [List.length_cons, List.length_append, List.length_singleton]
      rw [h.cleanupPath_dots_file hbody hx hdots hparent hlen, pathOf_concat]
      by_cases hext : getExt x = [] <;> simp [hext, hx, hwhole]
  -- without them only the slash at the end is in question
  · have hwhole : Whole (pathOf dev body x) := fun hand => absurd (h.contains_iff.mp hand) hdots
    rw [h.cleanupPath_quiet hbody fun t ht hsuffix => hdots ⟨t, ht, hsuffix⟩, pathOf_concat]
    by_cases hx : x = []
    · subst hx
      simp [hwhole]
    · by_cases hext : getExt x = [] <;> simp [hext, hx, hwhole]

theorem Neat.ne_nil (h : Neat path) : path ≠ [] := by
  obtain ⟨dev, hdev, ⟨rfl, -⟩ | ⟨body, x, rfl, -⟩⟩ := h
  · exact hdev.ne_nil
  · exact pathOf_ne_nil dev body x

theorem Neat.isAllowedProtocol (h : Neat path) : isAllowedProtocol path = false := by
  obtain ⟨dev, hdev, ⟨rfl, -, -, hproto⟩ | ⟨body, x, rfl, hcan, -⟩⟩ := h
  · exact hproto
  · exact hcan.found.2

/-- A cleaned path may have got a slash at its end, and nothing else. -/
theorem cleanupPath_length (path : Text) :
    (cleanupPath path).length ≤ path.length + 1 ∧
      (path.length < (cleanupPath path).length → (cleanupPath path).getLast? = some 47) := by
  -- Squeezing shortens, and only the final slash lengthens.
  have hsqueeze : ∀ (l : Text) (last : Option UInt8), (squeezeFrom last l).length ≤ l.length := by
    intro l
    induction l with
    | nil => exact fun _ => Nat.le_refl 0
    | cons c l ih =>
        intro last
        rw [squeezeFrom]
        split_ifs
        · exact (ih last).trans (Nat.le_succ _)
        · exact Nat.succ_le_succ (ih (some c))
  have hlen : (squeeze ((path.take maxPathLen).map slash)).length ≤ path.length := by
    refine (hsqueeze _ none).trans ?_
    rw [List.length_map, List.length_take]
    exact Nat.min_le_right _ _
  have hfinish : ∀ (j : ℕ) (t : Text), j ≤ path.length → (finish j t).length ≤ path.length + 1 ∧
      (path.length < (finish j t).length → (finish j t).getLast? = some 47) := by
    intro j t hj
    rw [finish]
    split_ifs
    · exact ⟨by omega, fun hlt => by omega⟩
    · rw [List.length_append, List.length_take, List.length_singleton]
      exact ⟨by omega, fun _ => List.getLast?_concat⟩
    · rw [List.length_take]
      exact ⟨by omega, fun hlt => by omega⟩
  rw [cleanupPath]
  split_ifs with hfind hproto
  · exact ⟨Nat.zero_le _, fun hlt => absurd hlt (Nat.not_lt_zero _)⟩
  · split
    · exact ⟨Nat.le_succ _, fun hlt => absurd hlt (lt_irrefl _)⟩
    · split_ifs
      · exact ⟨Nat.le_succ _, fun hlt => absurd hlt (lt_irrefl _)⟩
      · rw [List.length_append]
        exact ⟨Nat.le_refl _, fun _ => List.getLast?_concat⟩
  · rw [cleaned]
    split_ifs
    · split
      · exact ⟨Nat.zero_le _, fun hlt => absurd hlt (Nat.not_lt_zero _)⟩
      · exact hfinish _ _ hlen
    · exact hfinish _ _ hlen

theorem length_cleanupPath_le (path : Text) : (cleanupPath path).length ≤ path.length + 1 :=
  (cleanupPath_length path).1

/-- The cleaning wipes a path or makes it neat. -/
theorem neat_cleanupPath (hfound : findDevice path = true ∧ isAllowedProtocol path = false)
    (hlen : path.length < maxPathLen) : cleanupPath path = [] ∨ Neat (cleanupPath path) := by
  obtain ⟨dev, t, hdev, hmap, hend, hfound'⟩ := exists_device hfound
  have hle := length_cleanupPath_le path
  rw [← cleanupPath_map_slash hfound hfound' hlen.le] at hle ⊢
  rw [← List.length_map slash] at hlen
  rcases hend with rfl | ⟨u, rfl⟩
  · rw [List.append_nil] at hmap
    rw [hmap] at hfound' hlen ⊢
    rw [cleanupPath_device hfound' hdev hlen.le]
    right
    split_ifs
    · refine ⟨dev, hdev, .inr ⟨[], [], by rw [pathOf_eq]; simp, ?_, List.not_mem_nil⟩⟩
      exact ⟨hdev, by simp [Plain], by simp, by rw [pathOf_eq]; simpa [Nat.succ_le_iff] using hlen⟩
    · exact ⟨dev, hdev, .inl ⟨rfl, hlen.le, hfound'⟩⟩
  · rw [hmap] at hlen hle ⊢
    rcases tidy_cleanupPath hdev hlen.le with hnil | ⟨b, y, hpath, hplain, hnil, hback⟩
    · exact .inl hnil
    · refine .inr ⟨dev, hdev, .inr ⟨b, y, hpath, ⟨hdev, hplain, fun t ht hmem => hback ?_, ?_⟩, hnil⟩⟩
      · rw [hpath, pathOf, List.mem_append]
        exact .inr (List.mem_flatMap.mpr ⟨t, ht, .tail 47 hmem⟩)
      · rw [← hpath]
        rw [← hmap, List.length_map] at hlen
        omega

/-- A slash at the end may be left out. -/
theorem Neat.dropLast (h : Neat path) (hlast : path.getLast? = some 47) :
    Neat path.dropLast ∧ path.dropLast.getLast? ≠ some 47 := by
  obtain ⟨dev, hdev, ⟨rfl, -, -⟩ | ⟨body, x, rfl, h, hbody⟩⟩ := h
  · exact absurd (List.mem_of_getLast? hlast) hdev.plain
  obtain rfl := (getLast?_pathOf dev body h.plain_last).mp hlast
  have hshort := h.short
  rcases List.eq_nil_or_concat body with rfl | ⟨body, y, rfl⟩
  · have hdrop : (pathOf dev [] []).dropLast = dev := by
      rw [pathOf_eq, join_nil, List.append_nil, List.dropLast_concat]
    rw [hdrop]
    rw [pathOf_eq, join_nil, List.append_nil, List.length_append, List.length_singleton] at hshort
    have hnamed := (found_iff (s := dev) (t := [47]) fun c hc => .inl (Option.some.inj hc).symm).mp
      (hdev.found [])
    have hfound := (found_iff (s := dev) (t := []) nofun).mpr hnamed
    rw [List.append_nil] at hfound
    exact ⟨⟨dev, hdev, .inl ⟨rfl, by omega, hfound⟩⟩, fun heq =>
      hdev.plain (List.mem_of_getLast? heq)⟩
  · rw [List.concat_eq_append] at h hbody hshort ⊢
    rw [List.mem_append, List.mem_singleton, not_or] at hbody
    have hdrop : (pathOf dev (body ++ [y]) []).dropLast = pathOf dev body y := by
      rw [pathOf_concat, List.dropLast_concat]
    have hcan : Canonical dev body y :=
      ⟨hdev, h.plain_body, fun t ht => h.noBackslash t (List.mem_append_left _ ht), by
        rw [pathOf_concat, List.length_append] at hshort
        omega⟩
    rw [hdrop, ne_eq, getLast?_pathOf dev body hcan.plain_last]
    exact ⟨⟨dev, hdev, .inr ⟨body, y, rfl, hcan, hbody.1⟩⟩, Ne.symm hbody.2⟩

/-! ## The folders that are left alone -/

/-- Another cleaning leaves exactly the settled ones of the cleaned folders alone. -/
theorem cleanupPath_settled_iff (hlen : path.length < maxPathLen) :
    cleanupPath (cleanupPath path) = cleanupPath path ↔ Settled (cleanupPath path) := by
  by_cases hfind : findDevice path = true
  swap
  · have hwiped : cleanupPath path = [] := by rw [cleanupPath, if_pos (Bool.eq_false_iff.mpr hfind)]
    rw [hwiped]
    exact ⟨fun _ => .inl rfl, fun _ => rfl⟩
  by_cases hproto : isAllowedProtocol path = true
  · rw [cleanupPath_url hproto, cleanupPath_url hproto]
    exact ⟨fun _ => .inr (.inl hproto), fun _ => rfl⟩
  rcases neat_cleanupPath ⟨hfind, Bool.eq_false_iff.mpr hproto⟩ hlen with hnil | hneat
  · rw [hnil]
    exact ⟨fun _ => .inl rfl, fun _ => rfl⟩
  have hnot : ¬ isAllowedProtocol (cleanupPath path) = true :=
    Bool.not_eq_true _ ▸ hneat.isAllowedProtocol
  rw [hneat.cleanupPath_iff.1, Settled, or_iff_right hneat.ne_nil, or_iff_right hnot]

/-- What has been cut off to the size of its field is cleaned up to the folder that was saved for
exactly those that return. -/
theorem cleanupPath_returns_iff (hlen : path.length < maxPathLen) :
    cleanupPath ((cleanupPath path).take (maxPathLen - 1)) = cleanupPath path ↔
      Returns (cleanupPath path) := by
  unfold Returns
  split_ifs with hfits
  · rw [List.take_of_length_le (Nat.le_sub_one_of_lt hfits), cleanupPath_settled_iff hlen]
  · -- the slash at the end is the byte too many
    obtain ⟨hle, hlast⟩ := cleanupPath_length path
    have hgrown : path.length < (cleanupPath path).length := hlen.trans_le (not_lt.mp hfits)
    have hlength : (cleanupPath path).length = maxPathLen := by omega
    have hne : cleanupPath path ≠ [] := List.ne_nil_of_length_pos (by omega)
    have hfound : findDevice path = true ∧ isAllowedProtocol path = false := by
      constructor
      · by_contra hfind
        exact hne (by rw [cleanupPath, if_pos (Bool.eq_false_iff.mpr hfind)])
      · rw [← Bool.not_eq_true]
        intro hproto
        rw [cleanupPath_url hproto] at hgrown
        exact lt_irrefl _ hgrown
    have hneat := (neat_cleanupPath hfound hlen).resolve_left hne
    obtain ⟨hdrop, hdropLast⟩ := hneat.dropLast (hlast hgrown)
    have hwhole : (cleanupPath path).dropLast ++ [47] = cleanupPath path :=
      List.dropLast_append_getLast? 47 (hlast hgrown)
    have htake : (cleanupPath path).take (maxPathLen - 1) = (cleanupPath path).dropLast := by
      rw [List.dropLast_eq_take, hlength]
    have hiff := hdrop.cleanupPath_iff.2
    rw [hwhole] at hiff
    rw [htake, hiff]
    exact ⟨fun h => ⟨h.1, h.2.2⟩, fun h => ⟨h.1, hdropLast, h.2⟩⟩

end WiiMC.Settings
