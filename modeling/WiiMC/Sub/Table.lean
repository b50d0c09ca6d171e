import Mathlib.Data.List.Induction
import WiiMC.Lib.StableSort
import WiiMC.Sub.Screen

/-!
# The table of a subtitle file

`sub_read_file` puts each subtitle that it has read into its place in the table, and
`adjust_subs_time` then mends their times: a subtitle that does not end after it begins lasts six
seconds, two that overlap by less than 0.2 s share the overlap, and one that still overlaps with the
next one is cut off. Then the times are scaled by `sub_fps / fps`, but for those of the last subtitle.

* `readSubs_eq`: the table is the file sorted by the beginnings, in a stable way.
* `Paced.timed`: if the subtitles begin more than 0.1 s apart and last longer than that, they
  follow each other in the table.
* `cue_shown`: in every run, `find_sub` shows the subtitle of the file.

Two subtitles that begin at the same time are left overlapping, because the end of the first one
wraps around. The lengths of six seconds and 0.2 s are parameters, since a file may count frames, and
so is the product with `sub_fps / fps`, a floating-point number. What the overlapping mode makes of
the mended table is a parameter as well.
-/

namespace WiiMC.Sub

open StableSort Transition

/-! ## Sorting -/

/-- The subtitles are sorted by their beginnings. -/
def byStart (v w : Subtitle) : Bool := v.start ≤ w.start

/-- `first[j].end = stop`; `none` in front of the table. -/
def setStop (first : List Subtitle) (j : ℤ) (stop : ℕ) : Option (List Subtitle) :=
  if j < 0 then none else some (first.set j.toNat { nth first j with stop })

/-- The loop of `sub_read_file` over `j` from the end, with the free place behind it. -/
def shiftIn (sub : Subtitle) (previousSubEnd : ℕ) (first : List Subtitle) :
    ℕ → Option (List Subtitle)
  | 0 => some first
  | j + 1 =>
    let first := first.set (j + 1) (nth first j)
    if j = 0 ∨ (nth first (j - 1 : ℤ)).start ≤ sub.start then
      let first := first.set j sub
      if previousSubEnd = 0 then some first
      else (setStop first j (nth first (j - 1 : ℤ)).stop).bind fun first =>
        setStop first (j - 1) previousSubEnd
    else shiftIn sub previousSubEnd first j

/-- `sub_read_file` stores the subtitle that has been read. With it stands `previous_sub_end`, which
the formats set that have no ends of their own. -/
def insertSub (first : List Subtitle) (cue : Subtitle × ℕ) : Option (List Subtitle) :=
  if first = [] ∨ (nth first (first.length - 1)).start ≤ cue.1.start then
    if cue.2 = 0 then some (first ++ [cue.1])
    else setStop (first ++ [cue.1]) (first.length - 1) cue.2
  else shiftIn cue.1 cue.2 (first ++ [cue.1]) first.length

/-- The table before the times are adjusted; `none` where the end of a subtitle is stored in front of
the first one. -/
def readSubs (cues : List (Subtitle × ℕ)) : Option (List Subtitle) := cues.foldlM insertSub []

/-- Subtitles that have ends of their own. -/
def ownEnds (cues : List Subtitle) : List (Subtitle × ℕ) := cues.map fun sub => (sub, 0)

/-- The order by the start is total. -/
theorem byStart_totalOn (cues : List Subtitle) : TotalOn byStart cues := by
  refine ⟨fun a _ b _ c _ hab hbc => ?_, fun a _ b _ => ?_⟩
  · unfold byStart at hab hbc ⊢
    rw [decide_eq_true_eq] at hab hbc ⊢
    exact hab.trans hbc
  · unfold byStart
    rw [Bool.or_eq_true, decide_eq_true_eq, decide_eq_true_eq]
    exact le_total _ _

/-- The text behind a part of the table is at its length. -/
theorem nth_append (front back : List Subtitle) (sub : Subtitle) :
    nth (front ++ sub :: back) front.length = sub := by
  rw [nth, Int.toNat_natCast, List.getD_eq_getElem?_getD, List.getElem?_append_right le_rfl,
    Nat.sub_self, List.getElem?_cons_zero, Option.getD_some]

/-- The loop carries what begins later by one place, down to the place of the new subtitle. -/
theorem shiftIn_eq {sub x : Subtitle} (front back : List Subtitle) (free : Subtitle)
    (hsorted : (front ++ [x]).Pairwise fun v w => byStart v w) (hx : ¬ byStart x sub = true) :
    shiftIn sub 0 (front ++ x :: free :: back) (front.length + 1) =
      some (List.merge front [sub] byStart ++ x :: back) := by
  have hset : ∀ (l : List Subtitle) (y z w : Subtitle) (m : List Subtitle),
      (l ++ y :: z :: m).set (l.length + 1) w = l ++ y :: w :: m := by
    intro l y z w m
    have hle : l.length ≤ l.length + 1 := by omega
    rw [List.set_append_right _ _ hle, Nat.add_sub_cancel_left]
    rfl
  -- the induction is on what is in front of the place that has just been freed
  induction front using List.reverseRecOn generalizing x free back with
  | nil =>
    rw [List.nil_append, List.length_nil, shiftIn]
    rw [if_pos (Or.inl rfl), if_pos rfl, List.nil_merge]
    rfl
  | append_singleton front y ih =>
    rw [shiftIn, nth_append, hset]
    have hlen : (front ++ [y]).length = front.length + 1 := by
      rw [List.length_append, List.length_singleton]
    have hprev : nth (front ++ [y] ++ x :: x :: back) ((front ++ [y]).length - 1 : ℤ) = y := by
      rw [hlen, Nat.cast_succ, add_sub_cancel_right, List.append_assoc]
      exact nth_append front (x :: x :: back) y
    have hpos : (front ++ [y]).length ≠ 0 := by
      rw [hlen]
      exact Nat.succ_ne_zero _
    simp only [hprev, hpos, false_or, if_true]
    have hsorted' : (front ++ [y]).Pairwise fun v w => byStart v w :=
      (List.pairwise_append.mp hsorted).1
    split_ifs with hy
    · -- the place is found
      have hall : ∀ a b, a ∈ front ++ [y] → b ∈ [sub] → byStart a b = true := by
        intro a b ha hb
        rw [List.mem_singleton.mp hb, byStart, decide_eq_true_eq]
        rcases List.mem_append.mp ha with hfront | hlast
        · have hay := (List.pairwise_append.mp hsorted').2.2 a hfront y (List.mem_singleton_self y)
          rw [byStart, decide_eq_true_eq] at hay
          exact hay.trans hy
        · rw [List.mem_singleton.mp hlast]
          exact hy
      rw [List.merge_of_le hall, List.set_append_right _ _ le_rfl, Nat.sub_self, List.set_cons_zero,
        List.append_assoc (front ++ [y])]
      rfl
    · have hy' : ¬ byStart y sub = true := by
        rw [byStart, decide_eq_true_eq]
        exact hy
      rw [hlen, List.append_assoc, List.singleton_append, ih (x :: back) x hsorted' hy',
        merge_concat _ hy', List.append_assoc, List.singleton_append]

/-- Inserting a text merges it into the sorted table. -/
theorem insertSub_eq {first : List Subtitle} (sub : Subtitle)
    (hsorted : first.Pairwise fun v w => byStart v w) :
    insertSub first (sub, 0) = some (List.merge first [sub] byStart) := by
  rcases List.eq_nil_or_concat first with rfl | ⟨front, x, rfl⟩
  · rw [insertSub, if_pos (Or.inl rfl), if_pos rfl, List.nil_merge]
    rfl
  · rw [List.concat_eq_append] at hsorted ⊢
    have hlast : nth (front ++ [x]) ((front ++ [x]).length - 1 : ℤ) = x := by
      rw [List.length_append, List.length_singleton, Nat.cast_succ, add_sub_cancel_right]
      exact nth_append front [] x
    have hne : front ++ [x] ≠ [] := List.append_ne_nil_of_right_ne_nil _ (List.cons_ne_nil _ _)
    unfold insertSub
    rw [hlast]
    simp only [hne, false_or, if_true]
    -- it goes to the end, or is shifted in front of the later ones
    split_ifs with hx
    · refine congrArg some (List.merge_of_le fun a b ha hb => ?_).symm
      rw [List.mem_singleton.mp hb, byStart, decide_eq_true_eq]
      rcases List.mem_append.mp ha with hfront | hend
      · have hax := (List.pairwise_append.mp hsorted).2.2 a hfront x (List.mem_singleton_self x)
        rw [byStart, decide_eq_true_eq] at hax
        exact hax.trans hx
      · rw [List.mem_singleton.mp hend]
        exact hx
    · have hx' : ¬ byStart x sub = true := by
        rw [byStart, decide_eq_true_eq]
        exact hx
      have hshift := shiftIn_eq front [] sub hsorted hx'
      rw [List.length_append, List.length_singleton, List.append_assoc, List.singleton_append, hshift,
        merge_concat _ hx']

/-- The table is the file sorted by the beginnings; subtitles that begin at the same time stay in
the order of the file. -/
theorem readSubs_eq (cues : List Subtitle) :
    readSubs (ownEnds cues) = some (cues.mergeSort byStart) := by
  induction cues using List.reverseRecOn with
  | nil => rw [List.mergeSort_nil]; rfl
  | append_singleton cues sub ih =>
    have hfold : (ownEnds cues).foldlM insertSub [] = some (cues.mergeSort byStart) := ih
    rw [readSubs, ownEnds, List.map_append, List.map_singleton, List.foldlM_append]
    change ((ownEnds cues).foldlM insertSub []).bind _ = _
    rw [hfold, Option.bind_some, List.foldlM_cons,
      insertSub_eq sub (StableSort.pairwise_mergeSort (byStart_totalOn cues)),
      ← merge_mergeSort (byStart_totalOn _), List.mergeSort_singleton]
    rfl

/-! ## The times -/

/-- The difference of two `unsigned long`s. -/
def minus (x y : ℕ) : ℕ := (x + 2 ^ 32 - y) % 2 ^ 32

/-- The sum of two `unsigned long`s. -/
def plus (x y : ℕ) : ℕ := (x + y) % 2 ^ 32

/-- A subtitle that does not end after it begins. -/
def ended (subfms : ℕ) (sub : Subtitle) : Subtitle :=
  if sub.stop ≤ sub.start then { sub with stop := plus sub.start subfms } else sub

/-- A subtitle and the next one, if they overlap for a short time. -/
def parted (overlap : ℕ) (sub next : Subtitle) : Subtitle × Subtitle :=
  if sub.stop > next.start ∧ sub.stop ≤ plus next.start overlap then
    let delta := minus sub.stop next.start
    let half := delta / 2
    ({ sub with stop := minus sub.stop (half + 1) },
      { next with start := plus next.start (delta - half) })
  else (sub, next)

/-- A subtitle that reaches into the next one. -/
def cutOff (subfms : ℕ) (sub next : Subtitle) : Subtitle :=
  if sub.stop ≥ next.start then
    let stop := minus next.start 1
    if minus stop sub.start > subfms then { sub with stop := plus sub.start subfms }
    else { sub with stop := stop }
  else sub

/-- What `adjust_subs_time` computes its numbers from: the lengths of six seconds and of 0.2 s, and the
product with `sub_fps / fps`, where the file counts time and `sub_fps` is set. -/
structure Rates where
  subfms : ℕ
  overlap : ℕ
  scale : Option (ℕ → ℕ)

/-- A subtitle with its times scaled. -/
def Rates.scaled (r : Rates) (sub : Subtitle) : Subtitle :=
  match r.scale with
  | none => sub
  | some f => { sub with start := f sub.start, stop := f sub.stop }

/-- The loop of `adjust_subs_time` from a subtitle on. It ends in front of the scaling. -/
def adjustFrom (r : Rates) (block : Bool) (sub : Subtitle) : List Subtitle → List Subtitle
  | [] => [ended r.subfms sub]
  | next :: rest =>
    if block then
      let p := parted r.overlap (ended r.subfms sub) next
      r.scaled (cutOff r.subfms p.1 p.2) :: adjustFrom r block p.2 rest
    else r.scaled (ended r.subfms sub) :: adjustFrom r block next rest

/-- `adjust_subs_time`. -/
def adjustSubsTime (r : Rates) (block : Bool) : List Subtitle → List Subtitle
  | [] => []
  | sub :: rest => adjustFrom r block sub rest

/-- `suboverlap_enabled`, and whether `sub_format` is `SUB_JACOSUB` or `SUB_SSA`. -/
structure Overlapping where
  enabled : ℕ
  jacosubOrSsa : Bool

/-- The subtitles may stand on the screen together. -/
def Overlapping.on (o : Overlapping) : Bool := o.enabled = 2 || o.enabled ≠ 0 && o.jacosubOrSsa

/-- The table that `sub_read_file` makes of the subtitles of a file; `none` where it makes none.
`second` is what the overlapping mode makes of the table. -/
def subReadFile (r : Rates) (o : Overlapping) (second : List Subtitle → List Subtitle)
    (cues : List (Subtitle × ℕ)) : Option (List Subtitle) :=
  (readSubs cues).bind fun first =>
    if first = [] then none
    else if o.on then some (second (adjustSubsTime r false first))
    else some (adjustSubsTime r true first)

/-- The subtitles of a file begin more than half an overlap apart and last longer than that, their
times are not near the end of the `unsigned long`s, and these are not changed where they are scaled,
as by the rate of the movie itself. -/
structure Paced (r : Rates) (cues : List Subtitle) : Prop where
  apart : cues.Pairwise fun v w =>
    v.start + (r.overlap + 1) / 2 < w.start ∨ w.start + (r.overlap + 1) / 2 < v.start
  lasts : ∀ v ∈ cues, v.start + (r.overlap + 1) / 2 < v.stop
  small : ∀ v ∈ cues, v.stop + r.subfms + r.overlap < 2 ^ 31
  unscaled : ∀ f ∈ r.scale, ∀ v ∈ cues, ∀ x ≤ v.stop, f x = x

/-- A subtitle of the loop and those behind it. -/
structure Sorted (r : Rates) (sub : Subtitle) (rest : List Subtitle) : Prop where
  /-- The beginning of the first one may have been moved. -/
  lasts : sub.start < sub.stop
  small : sub.stop + r.subfms + r.overlap < 2 ^ 31
  before : ∀ w ∈ rest, sub.start < w.start
  apart : rest.Pairwise fun v w => v.start + (r.overlap + 1) / 2 < w.start
  restLasts : ∀ v ∈ rest, v.start + (r.overlap + 1) / 2 < v.stop
  restSmall : ∀ v ∈ rest, v.stop + r.subfms + r.overlap < 2 ^ 31
  unscaled : ∀ f ∈ r.scale, ∀ v ∈ rest, ∀ x ≤ v.stop, f x = x

/-- What a turn of the loop makes of a subtitle and of the next one. -/
structure Turned (r : Rates) (sub next sub' next' : Subtitle) : Prop where
  start : sub'.start = sub.start
  text : sub'.text = sub.text ∧ sub'.alignment = sub.alignment
  lasts : sub'.start ≤ sub'.stop
  before : sub'.stop < next'.start
  kept : ∀ key, key ≤ sub.stop → key < next.start →
    key ≤ sub.start + r.subfms ∨ sub.stop < next.start → key ≤ sub'.stop
  nextText : next'.text = next.text ∧ next'.alignment = next.alignment
  nextStop : next'.stop = next.stop
  moved : next.start ≤ next'.start ∧ next'.start ≤ next.start + (r.overlap + 1) / 2
  /-- The next one begins later only if this one has reached into it. -/
  reached : next'.start ≤ max next.start sub.stop

variable {r : Rates} {sub next v : Subtitle} {rest cues : List Subtitle} {key : ℕ}

/-- An end that lies behind the start is kept. -/
theorem ended_eq {subfms : ℕ} (h : sub.start < sub.stop) : ended subfms sub = sub := by
  rw [ended, if_neg (Nat.not_le.mpr h)]

/-- Small times are added as they are. -/
theorem plus_eq {x y : ℕ} (h : x + y < 2 ^ 32) : plus x y = x + y := by
  rw [plus, Nat.mod_eq_of_lt h]

/-- A smaller time is subtracted as it is. -/
theorem minus_eq {x y : ℕ} (hy : y ≤ x) (hx : x < 2 ^ 32) : minus x y = x - y := by
  unfold minus
  omega

/-- A turn of the loop. -/
theorem turned (hlasts : sub.start < sub.stop) (hsmall : sub.stop + r.subfms + r.overlap < 2 ^ 31)
    (hbefore : sub.start < next.start) (hnext : next.start + r.overlap < 2 ^ 31) :
    Turned r sub next
      (cutOff r.subfms (parted r.overlap (ended r.subfms sub) next).1
        (parted r.overlap (ended r.subfms sub) next).2)
      (parted r.overlap (ended r.subfms sub) next).2 := by
  rw [ended_eq hlasts]
  have hplus : plus next.start r.overlap = next.start + r.overlap := plus_eq (by omega)
  unfold parted
  rw [hplus]
  split_ifs with hshort
  · -- they share the overlap, and this one ends right before the next one
    have hdelta : minus sub.stop next.start = sub.stop - next.start :=
      minus_eq (by omega) (by omega)
    have hhalf : minus sub.stop ((sub.stop - next.start) / 2 + 1) =
        sub.stop - ((sub.stop - next.start) / 2 + 1) := minus_eq (by omega) (by omega)
    have hstart : plus next.start (sub.stop - next.start - (sub.stop - next.start) / 2) =
        next.start + (sub.stop - next.start - (sub.stop - next.start) / 2) := plus_eq (by omega)
    simp only [hdelta, hhalf, hstart]
    rw [cutOff, if_neg (by simp only; omega)]
    refine ⟨rfl, ⟨rfl, rfl⟩, ?_, ?_, fun key hstop hkey _ => ?_, ⟨rfl, rfl⟩, rfl, ⟨?_, ?_⟩, ?_⟩
    all_goals simp only
    all_goals omega
  -- they are not parted; each bound below is one line of the source's arithmetic
  · unfold cutOff
    simp only
    split_ifs with hlong hsix
    · -- it overlaps for longer, and for more than six seconds
      have hminus : minus next.start 1 = next.start - 1 := minus_eq (by omega) (by omega)
      rw [hminus, minus_eq (by omega) (by omega)] at hsix
      have hsum : plus sub.start r.subfms = sub.start + r.subfms := plus_eq (by omega)
      rw [hsum]
      refine ⟨rfl, ⟨rfl, rfl⟩, ?_, ?_, fun key hstop hkey hor => ?_, ⟨rfl, rfl⟩, rfl,
        ⟨le_rfl, by omega⟩, le_max_left _ _⟩
      all_goals simp only
      all_goals omega
    -- up to six seconds: it ends right before the next one
    · have hminus : minus next.start 1 = next.start - 1 := minus_eq (by omega) (by omega)
      rw [hminus]
      refine ⟨rfl, ⟨rfl, rfl⟩, ?_, ?_, fun key hstop hkey _ => ?_, ⟨rfl, rfl⟩, rfl,
        ⟨le_rfl, by omega⟩, le_max_left _ _⟩
      all_goals simp only
      all_goals omega
    -- it ends before the next one starts, and stays
    · exact ⟨rfl, ⟨rfl, rfl⟩, hlasts.le, by omega, fun key hstop _ _ => hstop, ⟨rfl, rfl⟩, rfl,
        ⟨le_rfl, by omega⟩, le_max_left _ _⟩

/-- The first turn, if there is a next subtitle. -/
theorem Sorted.turned (h : Sorted r sub (next :: rest)) :
    Turned r sub next
      (cutOff r.subfms (parted r.overlap (ended r.subfms sub) next).1
        (parted r.overlap (ended r.subfms sub) next).2)
      (parted r.overlap (ended r.subfms sub) next).2 := by
  have hlasts := h.restLasts next List.mem_cons_self
  have hsmall := h.restSmall next List.mem_cons_self
  exact Sub.turned h.lasts h.small (h.before next List.mem_cons_self) (by omega)

/-- Times that are not changed where they are scaled. -/
theorem Rates.scaled_eq {v : Subtitle}
    (h : ∀ f ∈ r.scale, f v.start = v.start ∧ f v.stop = v.stop) : r.scaled v = v := by
  unfold scaled
  split
  · rfl
  · rename_i f hf
    obtain ⟨hstart, hstop⟩ := h f hf
    rw [hstart, hstop]

/-- The loop leaves the times as the first turn has mended them: they are before the end of the next
subtitle, and so the scaling does not change them. -/
theorem Sorted.adjustFrom_eq (h : Sorted r sub (next :: rest)) :
    adjustFrom r true sub (next :: rest) =
      cutOff r.subfms (parted r.overlap (ended r.subfms sub) next).1
          (parted r.overlap (ended r.subfms sub) next).2 ::
        adjustFrom r true (parted r.overlap (ended r.subfms sub) next).2 rest := by
  have ht := h.turned
  have hlasts := h.restLasts next List.mem_cons_self
  have hmoved := ht.moved
  have hbefore := ht.before
  have hstart := ht.lasts
  have hstop := hbefore.le.trans (hmoved.2.trans hlasts.le)
  rw [adjustFrom, if_pos rfl]
  refine congrArg₂ List.cons (Rates.scaled_eq fun f hf => ?_) rfl
  have hsame := h.unscaled f hf next List.mem_cons_self
  exact ⟨hsame _ (hstart.trans hstop), hsame _ hstop⟩

/-- The loop goes on with the next subtitle. -/
theorem Sorted.forward (h : Sorted r sub (next :: rest)) {sub' next' : Subtitle}
    (ht : Turned r sub next sub' next') : Sorted r next' rest := by
  have hlasts := h.restLasts next List.mem_cons_self
  have hsmall := h.restSmall next List.mem_cons_self
  obtain ⟨hapart, hrest⟩ := List.pairwise_cons.mp h.apart
  refine ⟨?_, ?_, fun w hw => ?_, hrest, fun v hv => h.restLasts v (List.mem_cons_of_mem next hv),
    fun v hv => h.restSmall v (List.mem_cons_of_mem next hv),
    fun f hf v hv => h.unscaled f hf v (List.mem_cons_of_mem next hv)⟩
  · rw [ht.nextStop]
    have := ht.moved.2
    omega
  · rw [ht.nextStop]
    exact hsmall
  · have := ht.moved.2
    have := hapart w hw
    omega

/-- The adjusted times follow each other without overlapping. -/
theorem adjustFrom_timed (h : Sorted r sub rest) :
    Timed (adjustFrom r true sub rest) ∧
      ∀ u ∈ adjustFrom r true sub rest, sub.start ≤ u.start := by
  -- The induction is on the entries behind; the turned pair is sorted again.
  induction rest generalizing sub with
  | nil =>
    have hlasts := h.lasts
    have hsmall := h.small
    rw [adjustFrom, ended_eq hlasts]
    refine ⟨⟨List.pairwise_singleton _ _, fun v hv => ?_, fun v hv => ?_⟩, fun u hu => ?_⟩
    · rw [List.mem_singleton.mp hv]
      exact hlasts.le
    · rw [List.mem_singleton.mp hv]
      omega
    · rw [List.mem_singleton.mp hu]
  | cons next rest ih =>
    have ht := h.turned
    obtain ⟨htimed, hstarts⟩ := ih (h.forward ht)
    have hlasts := h.restLasts next List.mem_cons_self
    have hsmall := h.restSmall next List.mem_cons_self
    have hstart := ht.start
    have hbefore := ht.before
    have hmoved := ht.moved
    rw [h.adjustFrom_eq]
    refine ⟨⟨List.pairwise_cons.mpr ⟨fun w hw => ?_, htimed.pairwise⟩, fun v hv => ?_,
      fun v hv => ?_⟩, fun u hu => ?_⟩
    · exact lt_of_lt_of_le hbefore (hstarts w hw)
    · rcases List.mem_cons.mp hv with rfl | hv
      · exact ht.lasts
      · exact htimed.lasts v hv
    · rcases List.mem_cons.mp hv with rfl | hv
      · omega
      · exact htimed.small v hv
    · rcases List.mem_cons.mp hu with rfl | hu
      · exact hstart.ge
      · have := hstarts u hu
        have := ht.lasts
        omega

/-- A time at which a subtitle lasts, the next ones have not begun and those before are over. -/
structure At (subfms : ℕ) (v : Subtitle) (cues : List Subtitle) (key : ℕ) : Prop where
  begun : v.start ≤ key
  lasts : key ≤ v.stop
  before : ∀ w ∈ cues, v.start < w.start → key < w.start
  past : ∀ w ∈ cues, w.start < v.start → w.stop < key
  /-- A subtitle that reaches into another one is cut off after six seconds. -/
  six : key ≤ v.start + subfms ∨ ∀ w ∈ cues, v.start < w.start → v.stop < w.start

/-- For the next subtitle the time stays such a one: if it begins later now, then not later than the
first one has ended. -/
theorem At.forward (hat : At r.subfms v (sub :: v :: rest) key)
    (h : Sorted r sub (v :: rest)) {sub' next' : Subtitle}
    (ht : Turned r sub v sub' next') : At r.subfms next' (next' :: rest) key := by
  -- The key lies behind this entry, so the turning does not touch what it finds.
  have hpast := hat.past sub List.mem_cons_self (h.before v List.mem_cons_self)
  have hnext := h.forward ht
  have hmoved := ht.moved
  obtain ⟨hapart, -⟩ := List.pairwise_cons.mp h.apart
  have hmem : ∀ {w}, w ∈ rest → w ∈ sub :: v :: rest := fun hw =>
    List.mem_cons_of_mem sub (List.mem_cons_of_mem v hw)
  refine ⟨ht.reached.trans (max_le hat.begun hpast.le), ?_, fun w hw hlt => ?_, fun w hw hlt => ?_,
    ?_⟩
  · rw [ht.nextStop]
    exact hat.lasts
  · rcases List.mem_cons.mp hw with rfl | hw
    · exact absurd hlt (lt_irrefl _)
    · have := hapart w hw
      exact hat.before w (hmem hw) (by omega)
  · rcases List.mem_cons.mp hw with rfl | hw
    · exact absurd hlt (lt_irrefl _)
    · have := hnext.before w hw
      omega
  · rcases hat.six with hsix | hall
    · exact Or.inl (by omega)
    · refine Or.inr fun w hw hlt => ?_
      rcases List.mem_cons.mp hw with rfl | hw
      · exact absurd hlt (lt_irrefl _)
      · rw [ht.nextStop]
        have := hapart w hw
        exact hall w (hmem hw) (by omega)

/-- So it does for those behind it. -/
theorem At.later (hat : At r.subfms v (sub :: next :: rest) key) (hv : v ∈ rest)
    (h : Sorted r sub (next :: rest)) {sub' next' : Subtitle}
    (ht : Turned r sub next sub' next') : At r.subfms v (next' :: rest) key := by
  have hlater := (h.forward ht).before v hv
  obtain ⟨hapart, -⟩ := List.pairwise_cons.mp h.apart
  have hbehind := hapart v hv
  have hmem : ∀ {w}, w ∈ rest → w ∈ sub :: next :: rest := fun hw =>
    List.mem_cons_of_mem sub (List.mem_cons_of_mem next hw)
  refine ⟨hat.begun, hat.lasts, fun w hw hlt => ?_, fun w hw hlt => ?_, ?_⟩
  · rcases List.mem_cons.mp hw with rfl | hw
    · omega
    · exact hat.before w (hmem hw) hlt
  · rcases List.mem_cons.mp hw with rfl | hw
    · rw [ht.nextStop]
      exact hat.past next (List.mem_cons_of_mem sub List.mem_cons_self) (by omega)
    · exact hat.past w (hmem hw) hlt
  · refine hat.six.imp id fun hall w hw hlt => ?_
    rcases List.mem_cons.mp hw with rfl | hw
    · omega
    · exact hall w (hmem hw) hlt

/-- A cue is shown by some text of the adjusted table at each of its times. -/
theorem adjustFrom_shows (h : Sorted r sub rest) (hv : v ∈ sub :: rest)
    (hat : At r.subfms v (sub :: rest) key) :
    ∃ u ∈ adjustFrom r true sub rest,
      (u.text = v.text ∧ u.alignment = v.alignment) ∧ u.start ≤ key ∧ key ≤ u.stop := by
  induction rest generalizing sub v with
  | nil =>
    rw [List.mem_singleton] at hv
    rw [hv] at hat ⊢
    rw [adjustFrom, ended_eq h.lasts]
    exact ⟨sub, List.mem_singleton_self sub, ⟨rfl, rfl⟩, hat.begun, hat.lasts⟩
  | cons next rest ih =>
    have ht := h.turned
    have hbefore := h.before next List.mem_cons_self
    have hmem : next ∈ sub :: next :: rest := List.mem_cons_of_mem sub List.mem_cons_self
    rw [h.adjustFrom_eq]
    rcases List.mem_cons.mp hv with rfl | hv
    · -- the subtitle of this turn
      refine ⟨_, List.mem_cons_self, ht.text, ?_, ?_⟩
      · rw [ht.start]
        exact hat.begun
      · apply ht.kept key hat.lasts (hat.before next hmem hbefore)
        exact hat.six.imp id fun hall => hall next hmem hbefore
    · rcases List.mem_cons.mp hv with rfl | hv
      · -- the next one, whose beginning this turn may move
        obtain ⟨u, hu, htext, hshows⟩ := ih (h.forward ht) List.mem_cons_self (hat.forward h ht)
        exact ⟨u, List.mem_cons_of_mem _ hu,
          ⟨htext.1.trans ht.nextText.1, htext.2.trans ht.nextText.2⟩, hshows⟩
      · obtain ⟨u, hu, htext, hshows⟩ :=
          ih (h.forward ht) (List.mem_cons_of_mem _ hv) (hat.later hv h ht)
        exact ⟨u, List.mem_cons_of_mem _ hu, htext, hshows⟩

/-! ## The table -/

/-- The file sorted by its beginnings is ready for the loop. -/
theorem Paced.sorted (h : Paced r cues) (heq : cues.mergeSort byStart = sub :: rest) :
    Sorted r sub rest := by
  have hperm : (sub :: rest).Perm cues := by
    rw [← heq]
    exact List.mergeSort_perm _ _
  have hsorted : (sub :: rest).Pairwise fun v w => byStart v w := by
    rw [← heq]
    exact StableSort.pairwise_mergeSort (byStart_totalOn cues)
  have hapart : (sub :: rest).Pairwise fun v w => v.start + (r.overlap + 1) / 2 < w.start := by
    have hboth := hsorted.and ((hperm.pairwise_iff fun hvw => hvw.symm).mpr h.apart)
    refine hboth.imp fun hvw => ?_
    obtain ⟨hle, hlt | hgt⟩ := hvw
    · exact hlt
    · rw [byStart, decide_eq_true_eq] at hle
      omega
  obtain ⟨hfirst, hrest⟩ := List.pairwise_cons.mp hapart
  have hmem : ∀ v ∈ rest, v ∈ cues := fun v hv => hperm.mem_iff.mp (List.mem_cons_of_mem sub hv)
  have hsub := hperm.mem_iff.mp List.mem_cons_self
  have hlasts := h.lasts sub hsub
  refine ⟨by omega, h.small sub hsub, fun w hw => ?_, hrest, fun v hv => h.lasts v (hmem v hv),
    fun v hv => h.small v (hmem v hv), fun f hf v hv => h.unscaled f hf v (hmem v hv)⟩
  have := hfirst w hw
  omega

/-- Of a file whose subtitles do not stand on the screen together and have ends of their own there
is a table. -/
theorem subReadFile_eq {o : Overlapping} (second : List Subtitle → List Subtitle)
    (hne : cues ≠ []) (ho : o.on = false) :
    subReadFile r o second (ownEnds cues) = some (adjustSubsTime r true (cues.mergeSort byStart)) := by
  have hfirst : cues.mergeSort byStart ≠ [] := by
    intro heq
    have hperm := List.mergeSort_perm cues byStart
    rw [heq] at hperm
    exact hne hperm.nil_eq.symm
  rw [subReadFile, readSubs_eq, Option.bind_some, if_neg hfirst, ho, if_neg Bool.false_ne_true]

/-- The subtitles of the table follow each other. -/
theorem Paced.timed (h : Paced r cues) (hne : cues ≠ []) :
    Timed (adjustSubsTime r true (cues.mergeSort byStart)) ∧
      adjustSubsTime r true (cues.mergeSort byStart) ≠ [] := by
  cases heq : cues.mergeSort byStart with
  | nil =>
    have hperm := List.mergeSort_perm cues byStart
    rw [heq] at hperm
    exact absurd hperm.nil_eq.symm hne
  | cons sub rest =>
    have hsorted := h.sorted heq
    refine ⟨(adjustFrom_timed hsorted).1, ?_⟩
    rw [adjustSubsTime]
    cases rest with
    | nil => exact List.cons_ne_nil _ _
    | cons next rest =>
      rw [hsorted.adjustFrom_eq]
      exact List.cons_ne_nil _ _

/-- A cue of the file is shown by some text of the table. -/
theorem Paced.table_shows (h : Paced r cues) (hv : v ∈ cues)
    (hat : At r.subfms v cues key) : ∃ u ∈ adjustSubsTime r true (cues.mergeSort byStart),
      (u.text = v.text ∧ u.alignment = v.alignment) ∧ u.start ≤ key ∧ key ≤ u.stop := by
  have hperm : (cues.mergeSort byStart).Perm cues := List.mergeSort_perm _ _
  have hmem : v ∈ cues.mergeSort byStart := hperm.mem_iff.mpr hv
  cases heq : cues.mergeSort byStart with
  | nil =>
    rw [heq] at hmem
    cases hmem
  | cons sub rest =>
    rw [heq] at hmem hperm
    have hsame : ∀ {w}, w ∈ sub :: rest → w ∈ cues := fun hw => hperm.mem_iff.mp hw
    exact adjustFrom_shows (h.sorted heq) hmem ⟨hat.begun, hat.lasts,
      fun w hw => hat.before w (hsame hw), fun w hw => hat.past w (hsame hw),
      hat.six.imp id fun hall w hw => hall w (hsame hw)⟩

/-! ## The screen -/

/-- `sub_read_file` makes the table of a file whose subtitles are paced, have ends of their own, and do
not stand on the screen together. -/
structure Made (r : Rates) (cues : List Subtitle) (subs : List Subtitle) : Prop where
  paced : Paced r cues
  made : ∃ (o : Overlapping) (second : List Subtitle → List Subtitle), o.on = false ∧
    subReadFile r o second (ownEnds cues) = some subs

/-- A table comes from some cues. -/
theorem Made.ne_nil {subs : List Subtitle} (h : Made r cues subs) : cues ≠ [] := by
  obtain ⟨o, second, -, hread⟩ := h.made
  rintro rfl
  cases hread

/-- The table is the adjusted one of the sorted cues. -/
theorem Made.eq {subs : List Subtitle} (h : Made r cues subs) :
    subs = adjustSubsTime r true (cues.mergeSort byStart) := by
  obtain ⟨o, second, ho, hread⟩ := h.made
  rw [subReadFile_eq second h.ne_nil ho] at hread
  exact (Option.some.inj hread).symm

/-- The tables are those of such files; the other conditions are those of `Fresh`. -/
def FromFiles (s : Screen) : ScreenAction → Prop
  | .read addr subs => (∃ r cues, Made r cues subs) ∧ s.find.lastSubData ≠ some addr
  | a => Fresh s a

/-- A table that comes from a file is one that the search can rely on. -/
theorem fresh_of_fromFiles (s : Screen) (a : ScreenAction) (h : FromFiles s a) : Fresh s a := by
  cases a with
  | read addr subs =>
    obtain ⟨⟨r, cues, hmade⟩, hother⟩ := h
    rw [hmade.eq]
    exact ⟨(hmade.paced.timed hmade.ne_nil).1, (hmade.paced.timed hmade.ne_nil).2, hother⟩
  | select => exact h
  | reset => exact h
  | find => exact h
  | step => exact h
  | uninit => exact h

/-- `find_sub` shows the subtitle of the file, however the files were read, selected, searched and
freed before. -/
theorem cue_shown {s t : Screen} {addr : ℕ} {subs : List Subtitle} {key : ℤ}
    (hs : screen.Reachable FromFiles s) (htable : s.table = some (addr, subs))
    (hmade : Made r cues subs) (hv : v ∈ cues) (hkey : 0 < key) (hsmall : key < 2 ^ 31)
    (hat : At r.subfms v cues key.toNat) (hstep : screenStep s (.find key) = some t) :
    ∃ u ∈ t.find.voSub, u.text = v.text ∧ u.alignment = v.alignment := by
  have hreach := hs.mono fresh_of_fromFiles
  obtain rfl := hmade.eq
  obtain ⟨u, hu, htext, hbegun, hlasts⟩ := hmade.paced.table_shows hv hat
  have hunsigned := unsigned_of_nonneg hkey.le hsmall
  have hshows : u.shows key = true := by
    rw [Subtitle.shows, decide_eq_true_eq]
    omega
  have hvo := (kept_of_reachable hreach).find_shows htable hkey hsmall hstep
  rw [hvo, subtitleAt_of_shows (hmade.paced.timed hmade.ne_nil).1 hu hshows]
  exact ⟨u, rfl, htext⟩

private def swapped : List Subtitle := [⟨300, 400, [[66, 121, 101]], 0⟩, ⟨100, 310, [[72, 105]], 0⟩]

/-- A file that counts time, with `sub_fps` of a movie with the same rate. -/
private def sameRates : Rates := ⟨600, 20, some id⟩

/-- The two share the overlap. -/
private def mended : List Subtitle := [⟨100, 304, [[72, 105]], 0⟩, ⟨305, 400, [[66, 121, 101]], 0⟩]

theorem cue_shown_swapped : Made sameRates swapped mended ∧ ∃ v ∈ swapped, ∃ s t : Screen,
    screen.Reachable FromFiles s ∧ screenStep s (.find 350) = some t ∧
      ∃ u ∈ t.find.voSub, u.text = v.text ∧ u.alignment = v.alignment := by
  have hpaced : Paced sameRates swapped := by
    refine ⟨by decide, by decide, by decide, fun f hf v _ x _ => ?_⟩
    cases hf
    rfl
  have hmade : Made sameRates swapped mended := ⟨hpaced, ⟨1, false⟩, id, rfl, by decide⟩
  have hread : screen.Reachable FromFiles _ :=
    .step (a := .read 4096 mended) (.init rfl) ⟨⟨_, _, hmade⟩, by decide⟩ rfl
  have hselect : screen.Reachable FromFiles _ := .step (a := .select (some 4096)) hread trivial rfl
  have hv : (⟨300, 400, [[66, 121, 101]], 0⟩ : Subtitle) ∈ swapped := List.mem_cons_self
  have hat : At sameRates.subfms ⟨300, 400, [[66, 121, 101]], 0⟩ swapped 350 :=
    ⟨by decide, by decide, by decide, by decide, by decide⟩
  exact ⟨hmade, _, hv, _, _, hselect, rfl,
    @cue_shown sameRates _ swapped _ _ 4096 mended 350 hselect rfl hmade hv (by decide) (by decide)
      hat rfl⟩

/-- Two that begin at the same time stay on top of each other. -/
example : (adjustSubsTime ⟨600, 20, none⟩ true [⟨100, 200, [], 0⟩, ⟨100, 150, [], 0⟩]) =
    [⟨100, 700, [], 0⟩, ⟨100, 150, [], 0⟩] := by decide

-- `sub_fps` is that of a movie with 25 frames a second, and this one has 30
example : adjustSubsTime ⟨600, 20, some fun x => x * 25 / 30⟩ true
    [⟨3000, 3300, [], 0⟩, ⟨6000, 6300, [], 0⟩] = [⟨2500, 2750, [], 0⟩, ⟨6000, 6300, [], 0⟩] := by
  decide

end WiiMC.Sub
