import Mathlib.Data.List.Basic
import Mathlib.Data.Nat.Init
import Mathlib.Order.Nat
import Mathlib.Tactic.Common

/-!
# Stable sorting from the bottom up

The merge sort of the standard library for a comparison that is a total preorder on the elements of
the list only, and the merge sort that starts with runs of one element and merges neighbouring runs
until one is left.

* `merge_mergeSort`: sorting two parts and merging them sorts the whole.
* `merge_concat`: where one element is merged, what comes after it stays behind.
* `mergeSort_append`: what has been sorted before more was appended need not be sorted again.
* `pairUp`, `sortRuns`: a pass over the runs, and the passes until one run is left.
* `sortRuns_map_mergeSort`: the last run is the sorted list.
* `sortRuns_append`: a part in front that the comparison never puts behind anything stays there.
-/

namespace StableSort

open List

variable {α : Type*} {le : α → α → Bool}

/-- The comparison is a total preorder on the elements of the list. -/
structure TotalOn (le : α → α → Bool) (l : List α) : Prop where
  trans : ∀ a ∈ l, ∀ b ∈ l, ∀ c ∈ l, le a b → le b c → le a c
  total : ∀ a ∈ l, ∀ b ∈ l, le a b || le b a

/-- A comparison that is total on a list is total on a part of it. -/
theorem TotalOn.mono {l l' : List α} (h : TotalOn le l) (hsub : ∀ a ∈ l', a ∈ l) :
    TotalOn le l' where
  trans a ha b hb c hc := h.trans a (hsub a ha) b (hsub b hb) c (hsub c hc)
  total a ha b hb := h.total a (hsub a ha) b (hsub b hb)

/-! ## The merge sort of the standard library -/

section Everywhere

variable (trans : ∀ a b c, le a b → le b c → le a c) (total : ∀ a b, le a b || le b a)

/-- The numbers of the elements may start anywhere. -/
theorem mergeSort_zipIdx_from (l : List α) (n : ℕ) :
    (mergeSort (l.zipIdx n) (zipIdxLE le)).map Prod.fst = mergeSort l le := by
  have hshift : ∀ a b : α × ℕ,
      zipIdxLE le a b = zipIdxLE le (a.1, n + a.2) (b.1, n + b.2) := fun a b => by
    simp only [zipIdxLE, Nat.add_le_add_iff_left]
  rw [zipIdx_eq_map_add, ← map_mergeSort fun a _ b _ => hshift a b, List.map_map]
  exact mergeSort_zipIdx

/-- Two elements of which neither comes before the other have the same number. -/
theorem snd_eq_of_zipIdxLE {a b : α × ℕ} (hab : zipIdxLE le a b) (hba : zipIdxLE le b a) :
    a.2 = b.2 := by
  unfold zipIdxLE at hab hba
  by_cases h : le a.1 b.1 = true
  · by_cases h' : le b.1 a.1 = true
    · rw [if_pos h, if_pos h', decide_eq_true_iff] at hab
      rw [if_pos h', if_pos h, decide_eq_true_iff] at hba
      exact Nat.le_antisymm hab hba
    · rw [if_neg h'] at hba
      exact absurd hba Bool.false_ne_true
  · rw [if_neg h] at hab
    exact absurd hab Bool.false_ne_true

include trans total in

/-- Merging two sorted lists sorts both, where the comparison is total everywhere. -/
theorem merge_mergeSort_everywhere (l l' : List α) :
    merge (mergeSort l le) (mergeSort l' le) le = mergeSort (l ++ l') le := by
  -- with their numbers, no two elements of the list are equal
  have htrans := zipIdxLE_trans trans
  have htotal := zipIdxLE_total total
  have hpairwise : mergeSort ((l ++ l').zipIdx) (zipIdxLE le) =
      merge (mergeSort l.zipIdx (zipIdxLE le)) (mergeSort (l'.zipIdx l.length) (zipIdxLE le))
        (zipIdxLE le) := by
    refine Perm.eq_of_pairwise (fun a b ha hb hab hba => ?_)
      (pairwise_mergeSort htrans htotal _)
      (pairwise_merge htrans htotal _ _ (pairwise_mergeSort htrans htotal _)
        (pairwise_mergeSort htrans htotal _)) ?_
    · have hmem := mem_mergeSort.mp ha
      have hmem' : b ∈ (l ++ l').zipIdx := by
        rw [zipIdx_append, Nat.zero_add, mem_append]
        rw [mem_merge, mem_mergeSort, mem_mergeSort] at hb
        exact hb
      have hsnd := snd_eq_of_zipIdxLE hab hba
      rw [mem_zipIdx_iff_getElem?] at hmem hmem'
      rw [hsnd, hmem'] at hmem
      exact Prod.ext (Option.some.inj hmem).symm hsnd
    · rw [zipIdx_append, Nat.zero_add]
      exact (mergeSort_perm _ _).trans (((mergeSort_perm _ _).symm.append
        (mergeSort_perm _ _).symm).trans (merge_perm_append _).symm)
  have hmap := congrArg (List.map Prod.fst) hpairwise
  rw [mergeSort_zipIdx, merge_stable, mergeSort_zipIdx, mergeSort_zipIdx_from] at hmap
  · exact hmap.symm
  · intro x y hx hy
    have hxlt := (mem_zipIdx (mem_mergeSort.mp hx)).2.1
    have hyle := (mem_zipIdx (mem_mergeSort.mp hy)).1
    omega

end Everywhere

/-! ## A comparison that is a total preorder on the list -/

section On

variable {l l' : List α}

/-- The comparison on the elements of the list. -/
def leOn (le : α → α → Bool) (l : List α) (a b : { a // a ∈ l }) : Bool := le a b

/-- On the list, the comparison is transitive. -/
theorem TotalOn.leOn_trans (h : TotalOn le l) (a b c) :
    leOn le l a b → leOn le l b c → leOn le l a c :=
  h.trans a a.2 b b.2 c c.2

/-- On the list, the comparison is total. -/
theorem TotalOn.leOn_total (h : TotalOn le l) (a b) : leOn le l a b || leOn le l b a :=
  h.total a a.2 b b.2

/-- Sorting the elements of a list as such elements. -/
theorem map_mergeSort_leOn (le : α → α → Bool) (k : List { a // a ∈ l }) :
    (mergeSort k (leOn le l)).map Subtype.val = mergeSort (k.map Subtype.val) le :=
  map_mergeSort fun _ _ _ _ => rfl

/-- Merging with the restricted comparison is merging. -/
theorem map_merge_leOn (le : α → α → Bool) (k k' : List { a // a ∈ l }) :
    (merge k k' (leOn le l)).map Subtype.val = merge (k.map Subtype.val) (k'.map Subtype.val) le :=
  map_merge fun _ _ _ _ => rfl

/-- A part of a list is one of elements of the list. -/
theorem exists_map_val (hsub : ∀ a ∈ l', a ∈ l) :
    ∃ k : List { a // a ∈ l }, k.map Subtype.val = l' :=
  ⟨l'.attachWith (· ∈ l) hsub, attachWith_map_subtype_val ..⟩

/-- Sorting two parts and merging them sorts the whole. -/
theorem merge_mergeSort (h : TotalOn le (l ++ l')) :
    merge (mergeSort l le) (mergeSort l' le) le = mergeSort (l ++ l') le := by
  obtain ⟨k, hk⟩ := exists_map_val fun a (ha : a ∈ l) => mem_append_left l' ha
  obtain ⟨k', hk'⟩ := exists_map_val fun a (ha : a ∈ l') => mem_append_right l ha
  have hmerge := merge_mergeSort_everywhere h.leOn_trans h.leOn_total k k'
  have hmap := congrArg (List.map Subtype.val) hmerge
  rwa [map_merge_leOn, map_mergeSort_leOn, map_mergeSort_leOn, map_mergeSort_leOn, map_append, hk,
    hk'] at hmap

/-- The merge sort sorts. -/
theorem pairwise_mergeSort (h : TotalOn le l) :
    (mergeSort l le).Pairwise fun a b => le a b := by
  obtain ⟨k, hk⟩ := exists_map_val fun a (ha : a ∈ l) => ha
  have hsorted := List.pairwise_mergeSort h.leOn_trans h.leOn_total k
  rw [← hk, ← map_mergeSort_leOn, pairwise_map]
  exact hsorted

/-- The merge sort is stable: elements that stand in order stay in their order. -/
theorem sublist_mergeSort (h : TotalOn le l) {c : List α} (hc : c.Pairwise fun a b => le a b)
    (hsub : c <+ l) : c <+ mergeSort l le := by
  rw [← attach_map_subtype_val l, sublist_map_iff] at hsub
  obtain ⟨k, hk, rfl⟩ := hsub
  have hsorted : k <+ mergeSort l.attach (leOn le l) :=
    List.sublist_mergeSort h.leOn_trans h.leOn_total (pairwise_map.mp hc) hk
  have hmap := hsorted.map Subtype.val
  rwa [map_mergeSort_leOn, attach_map_subtype_val] at hmap

/-- What the comparison says of other elements does not matter. -/
theorem mergeSort_congr {le' : α → α → Bool} (h : ∀ a ∈ l, ∀ b ∈ l, le a b = le' a b) :
    mergeSort l le = mergeSort l le' := by
  have hmap := map_mergeSort (f := id) h
  rwa [map_id, map_id] at hmap

/-- What has been sorted before more was appended need not be sorted again. -/
theorem mergeSort_append (h : TotalOn le (l ++ l')) :
    mergeSort (mergeSort l le ++ l') le = mergeSort (l ++ l') le := by
  have hl : TotalOn le l := h.mono fun a => mem_append_left l'
  have hsorted : mergeSort (mergeSort l le) le = mergeSort l le :=
    mergeSort_of_pairwise (pairwise_mergeSort hl)
  rw [← merge_mergeSort h, ← merge_mergeSort, hsorted]
  refine h.mono fun a ha => ?_
  rw [mem_append, mem_mergeSort] at ha
  exact mem_append.mpr ha

end On

/-- An element that the one to insert comes before stays at the end. -/
theorem merge_concat {a x : α} (l : List α) (h : ¬ le x a = true) :
    merge (l ++ [x]) [a] le = merge l [a] le ++ [x] := by
  induction l with
  | nil =>
    rw [nil_append, cons_merge_cons_neg _ _ _ h, merge_right, nil_merge]
    rfl
  | cons b l ih =>
    by_cases hb : le b a = true
    · rw [cons_append, cons_merge_cons_pos _ _ _ hb, cons_merge_cons_pos _ _ _ hb, ih,
        cons_append]
    · rw [cons_append, cons_merge_cons_neg _ _ _ hb, cons_merge_cons_neg _ _ _ hb,
        merge_right, merge_right, cons_append, cons_append]

/-! ## Runs -/

/-- A pass over the runs joins the first one with the second one, and so on. -/
def pairUp (join : List α → List α → List α) : List (List α) → List (List α)
  | a :: b :: runs => join a b :: pairUp join runs
  | [a] => [a]
  | [] => []

/-- Joining the runs two by two does not make more of them. -/
theorem length_pairUp_le (join : List α → List α → List α) (runs : List (List α)) :
    (pairUp join runs).length ≤ runs.length := by
  induction runs using pairUp.induct with
  | case1 a b runs ih =>
      rw [pairUp, length_cons, length_cons, length_cons]
      omega
  | case2 a => exact le_rfl
  | case3 => exact le_rfl

/-- Joining the runs two by two makes fewer of them, as long as more than one is left. -/
theorem length_pairUp_lt {join : List α → List α → List α} {runs : List (List α)}
    (h : 1 < (pairUp join runs).length) : (pairUp join runs).length < runs.length := by
  match runs with
  | [] => exact absurd h (Nat.not_lt_zero 1)
  | [a] => exact absurd h (lt_irrefl 1)
  | a :: b :: runs =>
      have hle := length_pairUp_le join runs
      rw [pairUp, length_cons, length_cons, length_cons]
      omega

/-- The passes until one run is left. -/
def sortRuns (le : α → α → Bool) (runs : List (List α)) : List α :=
  if 1 < (pairUp (merge · · le) runs).length then sortRuns le (pairUp (merge · · le) runs)
  else (pairUp (merge · · le) runs).flatten
termination_by runs.length
decreasing_by exact length_pairUp_lt ‹_›

/-- Merging the runs two by two keeps the elements. -/
theorem flatten_pairUp_perm (le : α → α → Bool) (runs : List (List α)) :
    (pairUp (merge · · le) runs).flatten ~ runs.flatten := by
  induction runs using pairUp.induct with
  | case1 a b runs ih =>
      rw [pairUp, flatten_cons, flatten_cons, flatten_cons, ← append_assoc]
      exact (merge_perm_append le).append ih
  | case2 a => exact .rfl
  | case3 => exact .rfl

/-- Whatever the comparison answers, nothing is lost and nothing is added. -/
theorem sortRuns_perm (le : α → α → Bool) (runs : List (List α)) :
    sortRuns le runs ~ runs.flatten := by
  induction runs using sortRuns.induct le with
  | case1 runs h ih =>
      rw [sortRuns, if_pos h]
      exact ih.trans (flatten_pairUp_perm le runs)
  | case2 runs h =>
      rw [sortRuns, if_neg h]
      exact flatten_pairUp_perm le runs

/-- Appending the runs two by two keeps the list. -/
theorem flatten_pairUp_append (runs : List (List α)) :
    (pairUp (· ++ ·) runs).flatten = runs.flatten := by
  induction runs using pairUp.induct with
  | case1 a b runs ih =>
      rw [pairUp, flatten_cons, flatten_cons, flatten_cons, ← append_assoc, ih]
  | case2 a => rfl
  | case3 => rfl

/-- A pass over sorted runs leaves sorted runs. -/
theorem pairUp_map_mergeSort {runs : List (List α)} (h : TotalOn le runs.flatten) :
    pairUp (merge · · le) (runs.map (mergeSort · le)) =
      (pairUp (· ++ ·) runs).map (mergeSort · le) := by
  induction runs using pairUp.induct with
  | case1 a b runs ih =>
      rw [flatten_cons, flatten_cons, ← append_assoc] at h
      have hab := merge_mergeSort (h.mono fun _ => mem_append_left _)
      have hrest := ih (h.mono fun _ => mem_append_right _)
      rw [map_cons, map_cons, pairUp, pairUp, map_cons, hab, hrest]
  | case2 a => rfl
  | case3 => rfl

/-- The last run is the sorted list. -/
theorem sortRuns_map_mergeSort {runs : List (List α)} (h : TotalOn le runs.flatten) :
    sortRuns le (runs.map (mergeSort · le)) = mergeSort runs.flatten le := by
  induction hn : runs.length using Nat.strong_induction_on generalizing runs with
  | _ n ih =>
      rw [sortRuns, pairUp_map_mergeSort h, length_map]
      split_ifs with hlen
      · have hflat := flatten_pairUp_append runs
        rw [ih _ (hn ▸ length_pairUp_lt hlen) (hflat ▸ h) rfl, hflat]
      · have hflat := flatten_pairUp_append runs
        match hpair : pairUp (· ++ ·) runs with
        | [] =>
            rw [hpair] at hflat
            rw [← hflat]
            exact mergeSort_nil.symm
        | [a] =>
            rw [hpair] at hflat
            rw [← hflat, map_singleton, flatten_singleton, flatten_singleton]
        | a :: b :: rest =>
            rw [hpair, length_cons, length_cons] at hlen
            omega

/-- The runs of one element each. -/
theorem map_mergeSort_singletons (l : List α) :
    (l.map ([·])).map (mergeSort · le) = l.map ([·]) := by
  rw [map_map]
  exact map_congr_left fun a _ => mergeSort_singleton a

/-- A list is put together from its elements. -/
theorem flatten_singletons (l : List α) : (l.map ([·])).flatten = l := by
  induction l with
  | nil => rfl
  | cons a l ih => rw [map_cons, flatten_cons, ih, singleton_append]

/-- Merging from runs of one element on is the merge sort. -/
theorem sortRuns_singletons {l : List α} (h : TotalOn le l) :
    sortRuns le (l.map ([·])) = mergeSort l le := by
  have hsingle : TotalOn le (l.map ([·])).flatten := by
    rwa [flatten_singletons]
  have hsort := sortRuns_map_mergeSort hsingle
  rwa [map_mergeSort_singletons, flatten_singletons] at hsort

/-- All runs have `width` elements, but the last one may have fewer. -/
def Filled (width : ℕ) : List (List α) → Prop
  | [] => True
  | [a] => 0 < a.length ∧ a.length ≤ width
  | a :: b :: runs => a.length = width ∧ Filled width (b :: runs)

/-- Single elements are runs of length one. -/
theorem filled_singletons (l : List α) : Filled 1 (l.map ([·])) := by
  match l with
  | [] => trivial
  | [a] => exact ⟨Nat.one_pos, le_rfl⟩
  | a :: b :: l => exact ⟨rfl, filled_singletons (b :: l)⟩

variable {width : ℕ} {a : List α} {runs : List (List α)}

/-- No run is empty. -/
theorem Filled.head_pos (h : Filled width (a :: runs)) : 0 < a.length ∧ a.length ≤ width := by
  induction runs generalizing a with
  | nil => exact h
  | cons b runs ih =>
      have hb := ih h.2
      have ha := h.1
      omega

/-- Behind the first run the runs are filled too. -/
theorem Filled.tail (h : Filled width (a :: runs)) : Filled width runs := by
  cases runs with
  | nil => trivial
  | cons b runs => exact h.2

/-- A run that is not full is the last one. -/
theorem Filled.head_length (h : Filled width (a :: runs)) :
    a.length = width ∨ a.length < width ∧ runs.flatten = [] := by
  cases runs with
  | nil => exact (Nat.lt_or_eq_of_le h.2).elim (fun hlt => .inr ⟨hlt, rfl⟩) .inl
  | cons b runs => exact .inl h.1

/-- Merging the runs two by two doubles their length. -/
theorem filled_pairUp {width : ℕ} {runs : List (List α)} (h : Filled width runs) :
    Filled (2 * width) (pairUp (merge · · le) runs) := by
  match runs with
  | [] => trivial
  | [a] => exact ⟨h.1, h.2.trans (by omega)⟩
  | [a, b] =>
      obtain ⟨ha, hb, hle⟩ := h
      refine ⟨?_, ?_⟩ <;> rw [length_merge] <;> omega
  | [a, b, c] =>
      obtain ⟨ha, hb, hc, hle⟩ := h
      exact ⟨by rw [length_merge]; omega, hc, hle.trans (by omega)⟩
  | a :: b :: c :: d :: runs =>
      obtain ⟨ha, hb, hrest⟩ := h
      exact ⟨by rw [length_merge]; omega, filled_pairUp hrest⟩

/-! ## A part in front that stays -/

section Front

variable {fixed : α → Prop} {l l' : List α}

/-- The elements that stay stand before the others. -/
def Front (fixed : α → Prop) (l : List α) : Prop := l.Pairwise fun a b => fixed b → fixed a

/-- A merge does not carry an element before one that stays. -/
theorem Front.merge (hfixed : ∀ a, fixed a → ∀ b, le a b = true) (h : Front fixed (l ++ l')) :
    Front fixed (merge l l' le) := by
  induction l generalizing l' with
  | nil =>
      rw [nil_merge]
      exact h
  | cons a l ih =>
      induction l' with
      | nil =>
          rw [append_nil] at h
          rw [merge_right]
          exact h
      | cons b l' ih' =>
          rw [cons_append, Front, pairwise_cons] at h
          by_cases hle : le a b = true
          · rw [cons_merge_cons_pos _ _ _ hle, Front, pairwise_cons]
            refine ⟨fun c hc => h.1 c ?_, ih h.2⟩
            exact (merge_perm_append le).mem_iff.mp hc
          · have ha : ¬ fixed a := fun ha => hle (hfixed a ha b)
            rw [cons_merge_cons_neg _ _ _ hle, Front, pairwise_cons]
            -- no element of either list stays, because `a` does not
            refine ⟨fun c hc hfix => absurd ?_ ha, ih' ?_⟩
            · rw [mem_merge, mem_cons] at hc
              rcases hc with (rfl | hc) | hc
              · exact hfix
              · exact h.1 c (mem_append_left _ hc) hfix
              · exact h.1 c (mem_append_right _ (mem_cons_of_mem b hc)) hfix
            · rw [cons_append, Front, pairwise_cons]
              refine ⟨fun c hc => h.1 c ?_, ?_⟩
              · rw [mem_append] at hc ⊢
                exact hc.imp id (mem_cons_of_mem b)
              · exact h.2.sublist ((sublist_cons_self b l').append_left l)

/-- Two comparisons that agree on each element of the first list and each of the second one. -/
theorem merge_congr {le' : α → α → Bool} (h : ∀ a ∈ l, ∀ b ∈ l', le a b = le' a b) :
    merge l l' le = merge l l' le' := by
  induction l generalizing l' with
  | nil => rw [nil_merge, nil_merge]
  | cons a l ih =>
      induction l' with
      | nil => rw [merge_right, merge_right]
      | cons b l' ih' =>
          have hab := h a mem_cons_self b mem_cons_self
          by_cases hle : le a b = true
          · rw [cons_merge_cons_pos _ _ _ hle, cons_merge_cons_pos _ _ _ (hab ▸ hle),
              ih fun c hc => h c (mem_cons_of_mem a hc)]
          · rw [cons_merge_cons_neg _ _ _ hle, cons_merge_cons_neg _ _ _ (hab ▸ hle),
              ih' fun c hc d hd => h c hc d (mem_cons_of_mem b hd)]

/-- A pass keeps what stays in front. -/
theorem Front.pairUp (hfixed : ∀ a, fixed a → ∀ b, le a b = true) {runs : List (List α)}
    (h : Front fixed runs.flatten) : Front fixed (pairUp (List.merge · · le) runs).flatten := by
  induction runs using pairUp.induct with
  | case1 a b runs ih =>
      rw [flatten_cons, flatten_cons, ← append_assoc, Front, pairwise_append] at h
      rw [StableSort.pairUp, flatten_cons, Front, pairwise_append]
      refine ⟨Front.merge hfixed h.1, ih h.2.1, fun x hx y hy => h.2.2 x ?_ y ?_⟩
      · exact (merge_perm_append le).mem_iff.mp hx
      · exact (flatten_pairUp_perm le runs).mem_iff.mp hy
  | case2 a => exact h
  | case3 => exact h

/-- Two comparisons that agree but on an element before one that stays. -/
theorem sortRuns_congr {le' : α → α → Bool} (hfixed : ∀ a, fixed a → ∀ b, le a b = true)
    (h : ∀ a b, (fixed b → fixed a) → le a b = le' a b) {runs : List (List α)}
    (hfront : Front fixed runs.flatten) : sortRuns le runs = sortRuns le' runs := by
  have hpass : ∀ {runs : List (List α)}, Front fixed runs.flatten →
      StableSort.pairUp (List.merge · · le) runs = StableSort.pairUp (List.merge · · le') runs := by
    intro runs hfront
    induction runs using pairUp.induct with
    | case1 a b runs ih =>
        rw [flatten_cons, flatten_cons, ← append_assoc, Front, pairwise_append] at hfront
        have hab := (pairwise_append.mp hfront.1).2.2
        rw [StableSort.pairUp, StableSort.pairUp, ih hfront.2.1,
          merge_congr fun x hx y hy => h x y (hab x hx y hy)]
    | case2 a => rfl
    | case3 => rfl
  induction runs using sortRuns.induct le with
  | case1 runs hlen ih =>
      rw [sortRuns, if_pos hlen, ih (hfront.pairUp hfixed), hpass hfront, eq_comm, sortRuns,
        if_pos (hpass hfront ▸ hlen)]
  | case2 runs hlen =>
      rw [sortRuns, if_neg hlen, hpass hfront, eq_comm, sortRuns, if_neg (hpass hfront ▸ hlen)]

/-- Elements in front that compare with everything as if they came first stay as they are, and what
comes behind them is sorted. -/
theorem sortRuns_append [DecidableEq α] (hdisj : ∀ a ∈ l, a ∉ l')
    (hfixed : ∀ a ∈ l, ∀ b, le a b = true) (htotal : TotalOn le l') :
    sortRuns le ((l ++ l').map ([·])) = l ++ mergeSort l' le := by
  -- the order in which no element of `l'` comes before one of `l`
  let le' : α → α → Bool := fun a b => if b ∈ l then decide (a ∈ l) else le a b
  have hfront : Front (· ∈ l) ((l ++ l').map ([·])).flatten := by
    rw [flatten_singletons, Front, pairwise_append]
    refine ⟨?_, ?_, fun a ha b _ _ => ha⟩
    · exact pairwise_of_forall_mem_list fun a ha b _ _ => ha
    · exact pairwise_of_forall_mem_list fun a _ b hb hbl => absurd hb (hdisj b hbl)
  have hcongr : ∀ a b, (b ∈ l → a ∈ l) → le a b = le' a b := fun a b hab => by
    by_cases hb : b ∈ l
    · simp only [le', if_pos hb, hfixed a (hab hb) b, hab hb, decide_true]
    · simp only [le', if_neg hb]
  rw [sortRuns_congr (fun a ha b => hfixed a ha b) hcongr hfront]
  have hl : ∀ a ∈ l, ∀ b, le' a b = true := fun a ha b => by
    rw [← hcongr a b fun _ => ha]
    exact hfixed a ha b
  have hl' : ∀ a ∈ l', ∀ b ∈ l', le' a b = le a b := fun a _ b hb =>
    (hcongr a b fun hbl => absurd hb (hdisj b hbl)).symm
  have hno : ∀ a ∈ l', ∀ b ∈ l, le' a b = false := fun a ha b hb => by
    have hal : a ∉ l := fun hal => hdisj a hal ha
    simp only [le', if_pos hb, hal, decide_false]
  have htotal' : TotalOn le' (l ++ l') := by
    refine ⟨fun a ha b hb c hc hab hbc => ?_, fun a ha b hb => ?_⟩
    · rcases mem_append.mp ha with ha | ha
      · exact hl a ha c
      rcases mem_append.mp hb with hb | hb
      · exact absurd (hab.symm.trans (hno a ha b hb)) nofun
      rcases mem_append.mp hc with hc | hc
      · exact absurd (hbc.symm.trans (hno b hb c hc)) nofun
      rw [hl' a ha b hb] at hab
      rw [hl' b hb c hc] at hbc
      rw [hl' a ha c hc]
      exact htotal.trans a ha b hb c hc hab hbc
    · rcases mem_append.mp ha with ha | ha
      · rw [hl a ha b, Bool.true_or]
      rcases mem_append.mp hb with hb | hb
      · rw [hl b hb a, Bool.or_true]
      rw [hl' a ha b hb, hl' b hb a ha]
      exact htotal.total a ha b hb
  have hsorted : mergeSort l le' = l :=
    mergeSort_of_pairwise (pairwise_of_forall_mem_list fun a ha b _ => hl a ha b)
  rw [sortRuns_singletons htotal', ← merge_mergeSort htotal', hsorted, mergeSort_congr hl']
  refine merge_of_le fun a b ha _ => ?_
  exact hl a ha b

end Front

end StableSort
