import WiiMC.Browser.Chain
import WiiMC.Lib.StableSort

/-!
# Sorting a browser

`filebrowser.cpp`: `SortBrowser` merges runs of entries of doubling width by relinking them. The
variables of its loops are passed on explicitly; the runs of a pass are the chunks of the list.

* `mergeLoop_spec`: merging two runs is the merge of two lists.
* `passLoop_spec`, `sortLoop_spec`: a pass, and all passes.
* `sortBrowser_spec`: the list behind `SortBrowser`.
-/

namespace WiiMC.Browser

open Linked StableSort

/-- What a pass has linked so far. -/
structure Pass where
  links : Links Ptr
  newHead : Option Ptr
  tail : Option Ptr

/-- `entry` is linked behind `tail`. -/
def Pass.append (r : Pass) (entry : Ptr) : Pass where
  links := r.links.hang r.tail entry
  newHead := if r.tail = none then some entry else r.newHead
  tail := some entry

/-- The loop `while(pCount || (qCount && q))`; `q` is where the next run begins. -/
def mergeLoop (cmp : Ptr → Ptr → ℤ) :
    ℕ → Option Ptr → ℕ → Option Ptr → ℕ → Pass → Option (Option Ptr × Pass)
  | _, _, 0, q, 0, r => some (q, r)
  | _, _, 0, none, _ + 1, r => some (none, r)
  | 0, _, _, _, _, _ => none
  | n + 1, p, 0, some q, qCount + 1, r =>
      mergeLoop cmp n p 0 (r.links.next q) qCount (r.append q)
  -- there is no entry behind the run of `p`, although it has not ended
  | _ + 1, none, _ + 1, _, _, _ => none
  | n + 1, some p, pCount + 1, q, 0, r =>
      mergeLoop cmp n (r.links.next p) pCount q 0 (r.append p)
  | n + 1, some p, pCount + 1, none, qCount + 1, r =>
      mergeLoop cmp n (r.links.next p) pCount none (qCount + 1) (r.append p)
  | n + 1, some p, pCount + 1, some q, qCount + 1, r =>
      if cmp p q ≤ 0 then mergeLoop cmp n (r.links.next p) pCount (some q) (qCount + 1) (r.append p)
      else mergeLoop cmp n (some p) (pCount + 1) (r.links.next q) qCount (r.append q)

/-- The loop that looks for the end of a run: `pCount` and `q`. -/
def advance (next : Ptr → Option Ptr) : ℕ → Option Ptr → ℕ × Option Ptr
  | 0, q => (0, q)
  | _ + 1, none => (0, none)
  | width + 1, some q => ((advance next width (next q)).1 + 1, (advance next width (next q)).2)

/-- The loop `while(p)`, with the number of merges. -/
def passLoop (cmp : Ptr → Ptr → ℤ) (width : ℕ) : ℕ → Option Ptr → ℕ → Pass → Option (ℕ × Pass)
  | _, none, merges, r => some (merges, r)
  | 0, some _, _, _ => none
  | n + 1, some p, merges, r =>
      let run := advance r.links.next width (some p)
      (mergeLoop cmp (run.1 + width) (some p) run.1 run.2 width r).bind fun m =>
        passLoop cmp width n m.1 (merges + 1) m.2

/-- The loop over the passes. -/
def sortLoop (cmp : Ptr → Ptr → ℤ) (entries : ℕ) : ℕ → ℕ → Option Ptr → Links Ptr → Option Pass
  | 0, _, _, _ => none
  | n + 1, width, head, links =>
      (passLoop cmp width entries head 0 ⟨links, none, none⟩).bind fun (merges, r) =>
        r.tail.bind fun tail =>
          let links := r.links.setNext tail none
          if merges ≤ 1 then some ⟨links, r.newHead, r.tail⟩
          else sortLoop cmp entries n (width * 2) r.newHead links

/-- The loop that numbers the entries. -/
def renumber (next : Ptr → Option Ptr) :
    ℕ → Option Ptr → ℤ → (Ptr → Entry) → Option (Ptr → Entry)
  | _, none, _, entry => some entry
  | 0, some _, _, _ => none
  | n + 1, some p, pos, entry =>
      renumber next n (next p) (pos + 1) (Function.update entry p { entry p with pos })

/-- `SortBrowser`. -/
def sortBrowser (comparator : Entry → Entry → ℤ) (s : Browser) : Option Browser :=
  match s.first with
  | none => some s
  | some head =>
      if s.links.next head = none then some s
      else
        (sortLoop (fun p q => comparator (s.entry p) (s.entry q)) s.live.length s.live.length 1
          (some head) s.links).bind fun r =>
        (renumber r.links.next s.live.length r.newHead 0 s.entry).map fun entry =>
          { s with links := r.links, first := r.newHead, last := r.tail, entry }

/-! ## A merge -/

/-- The order in which a comparator puts two entries. -/
def le (cmp : Ptr → Ptr → ℤ) (p q : Ptr) : Bool := decide (cmp p q ≤ 0)

variable {cmp : Ptr → Ptr → ℤ} {r : Pass} {out : List Ptr} {x : Ptr}

/-- What the pass has linked is `out`. -/
def Pass.Holds (r : Pass) (out : List Ptr) : Prop := Built r.links r.newHead r.tail out

theorem Pass.Holds.append (h : r.Holds out) (hx : x ∉ out) : (r.append x).Holds (out ++ [x]) :=
  Built.hang h hx

/-- The entries that are still to come are not touched. -/
theorem Pass.Holds.seg_append {p q : Option Ptr} {l : List Ptr} (h : r.Holds out)
    (hseg : Seg r.links.next p l q) (hdisj : ∀ y ∈ l, y ∉ out) (x : Ptr) :
    Seg (r.append x).links.next p l q := by
  refine hseg.hang (fun y hy hlast => hdisj y hy ?_) x
  rw [h.last_eq] at hlast
  exact List.mem_of_getLast? hlast

/-- Before a step of the merge: `out` is linked, the rest of the first run is `a`, the rest of the
second one is `b`, and `rest` comes behind them. -/
structure Merging (r : Pass) (p q : Option Ptr) (out a b rest : List Ptr) : Prop where
  holds : r.Holds out
  first : ∃ e, Seg r.links.next p a e
  second : Seg r.links.next q (b ++ rest) none
  nodup : (out ++ (a ++ (b ++ rest))).Nodup

namespace Merging

variable {p q : Option Ptr} {a b rest : List Ptr} {y : Ptr}

/-- An entry of the first run is taken. -/
theorem takeFirst (h : Merging r p q out (x :: a) b rest) :
    p = some x ∧ Merging (r.append x) (r.links.next x) q (out ++ [x]) a b rest := by
  obtain ⟨hholds, ⟨e, hp, ha⟩, hq, hnodup⟩ := h
  obtain ⟨-, htodo, hdisj⟩ := List.nodup_append.mp hnodup
  have hnew : ∀ z ∈ x :: a ++ (b ++ rest), z ∉ out := fun z hz hout => hdisj z hout z hz rfl
  refine ⟨hp, hholds.append (hnew x (by simp)), ⟨e, ?_⟩, ?_, ?_⟩
  · exact hholds.seg_append ha (fun z hz => hnew z (by simp [hz])) x
  · exact hholds.seg_append hq (fun z hz => hnew z (List.mem_append_right _ hz)) x
  · rwa [List.append_assoc]

/-- An entry of the second run is taken. -/
theorem takeSecond (h : Merging r p q out a (y :: b) rest) :
    q = some y ∧ Merging (r.append y) p (r.links.next y) (out ++ [y]) a b rest := by
  obtain ⟨hholds, ⟨e, ha⟩, ⟨hq, hb⟩, hnodup⟩ := h
  obtain ⟨-, htodo, hdisj⟩ := List.nodup_append.mp hnodup
  have hnew : ∀ z ∈ a ++ (y :: b ++ rest), z ∉ out := fun z hz hout => hdisj z hout z hz rfl
  refine ⟨hq, hholds.append (hnew y (by simp)), ⟨e, ?_⟩, ?_, ?_⟩
  · exact hholds.seg_append ha (fun z hz => hnew z (List.mem_append_left _ hz)) y
  · exact hholds.seg_append hb (fun z hz => hnew z (List.mem_append_right _ (.tail y hz))) y
  · rw [List.append_assoc]
    have hperm : (a ++ (y :: b ++ rest)).Perm ([y] ++ (a ++ (b ++ rest))) := List.perm_middle
    exact (hperm.append_left out).nodup_iff.mp hnodup

end Merging

/-- Merging two runs. -/
theorem mergeLoop_spec (cmp : Ptr → Ptr → ℤ) {n m : ℕ} {a b rest : List Ptr} {p q : Option Ptr}
    (h : Merging r p q out a b rest)
    (hb : b.length = m ∨ b.length < m ∧ rest = []) (hn : a.length + m ≤ n) :
    ∃ r', mergeLoop cmp n p a.length q m r = some (rest.head?, r') ∧
      r'.Holds (out ++ a.merge b (le cmp)) ∧ Seg r'.links.next rest.head? rest none := by
  -- `n` counts the entries that may still be taken
  induction n generalizing r p q m out a b with
  | zero =>
      obtain rfl : a = [] := List.eq_nil_of_length_eq_zero (by omega)
      obtain rfl : b = [] := List.eq_nil_of_length_eq_zero (by omega)
      obtain rfl : m = 0 := by omega
      have hq := h.second.head
      refine ⟨r, ?_, ?_, ?_⟩
      · rw [hq]
        rfl
      · simpa using h.holds
      · exact hq ▸ h.second
  | succ n ih =>
      match a, b, m, hb with
      | [], [], 0, _ =>
          have hq := h.second.head
          refine ⟨r, ?_, ?_, ?_⟩
          · rw [hq]
            rfl
          · simpa using h.holds
          · exact hq ▸ h.second
      | [], [], m + 1, hb =>
          obtain rfl : rest = [] := by simpa using hb
          have hq : q = none := h.second.head
          refine ⟨r, ?_, ?_, rfl⟩
          · rw [hq]
            rfl
          · simpa using h.holds
      | [], y :: b, m + 1, hb =>
          obtain ⟨rfl, hnext⟩ := h.takeSecond
          obtain ⟨r', hloop, hholds, hrest⟩ := ih (m := m) hnext (by simpa using hb)
            (by simp at hn ⊢; omega)
          refine ⟨r', hloop, ?_, hrest⟩
          rw [List.nil_merge] at hholds ⊢
          rwa [List.append_assoc] at hholds
      | x :: a, [], 0, _ =>
          obtain ⟨rfl, hnext⟩ := h.takeFirst
          obtain ⟨r', hloop, hholds, hrest⟩ := ih (m := 0) hnext (.inl rfl)
            (by simp at hn ⊢; omega)
          refine ⟨r', hloop, ?_, hrest⟩
          rw [List.merge_right] at hholds ⊢
          rwa [List.append_assoc] at hholds
      | x :: a, [], m + 1, hb =>
          obtain ⟨rfl, hnext⟩ := h.takeFirst
          have hq : q = none := by
            obtain rfl : rest = [] := by simpa using hb
            exact h.second.head
          obtain ⟨r', hloop, hholds, hrest⟩ := ih (m := m + 1) hnext hb
            (by simp at hn ⊢; omega)
          refine ⟨r', ?_, ?_, hrest⟩
          · rw [hq] at hloop ⊢
            exact hloop
          · rw [List.merge_right] at hholds ⊢
            rwa [List.append_assoc] at hholds
      | x :: a, y :: b, m + 1, hb =>
          have hp := h.takeFirst.1
          have hq := h.takeSecond.1
          rw [hp, hq]
          by_cases hcmp : cmp x y ≤ 0
          · obtain ⟨r', hloop, hholds, hrest⟩ := ih (m := m + 1) h.takeFirst.2 hb
              (by simp at hn ⊢; omega)
            refine ⟨r', ?_, ?_, hrest⟩
            · rw [List.length_cons, mergeLoop, if_pos hcmp, ← hq]
              exact hloop
            · rw [List.cons_merge_cons_pos _ _ _ (decide_eq_true hcmp)]
              rwa [List.append_assoc] at hholds
          · obtain ⟨r', hloop, hholds, hrest⟩ := ih (m := m) h.takeSecond.2
              (by simpa using hb) (by simp at hn ⊢; omega)
            refine ⟨r', ?_, ?_, hrest⟩
            · rw [List.length_cons, mergeLoop, if_neg hcmp, ← hp]
              exact hloop
            · rw [List.cons_merge_cons_neg _ _ _ (by simpa [le] using hcmp)]
              rwa [List.append_assoc] at hholds

/-! ## Passes -/

/-- The end of a run: `a` is as long as the width, or nothing comes behind it. -/
theorem advance_spec {next : Ptr → Option Ptr} {width : ℕ} {a rest : List Ptr} {p : Option Ptr}
    (hseg : Seg next p (a ++ rest) none)
    (ha : a.length = width ∨ a.length < width ∧ rest = []) :
    advance next width p = (a.length, rest.head?) := by
  induction a generalizing p width with
  | nil =>
      cases width with
      | zero => rw [advance, hseg.head]; rfl
      | succ width =>
          obtain rfl : rest = [] := by simpa using ha
          rw [hseg.head]
          rfl
  | cons x a ih =>
      obtain ⟨rfl, hseg⟩ := hseg
      obtain ⟨width, rfl⟩ : ∃ w, width = w + 1 := ⟨width - 1, by simp at ha; omega⟩
      rw [advance, ih hseg (by simpa using ha)]
      rfl

/-- The first run and the run behind it are merged. -/
theorem passLoop_merge (cmp : Ptr → Ptr → ℤ) {width : ℕ} (n merges : ℕ) {x : Ptr}
    {a b rest : List Ptr}
    (hr : r.Holds out) (hp : Seg r.links.next (some x) (a ++ (b ++ rest)) none)
    (ha : a.length = width ∨ a.length < width ∧ b ++ rest = [])
    (hb : b.length = width ∨ b.length < width ∧ rest = [])
    (hnodup : (out ++ (a ++ (b ++ rest))).Nodup) :
    ∃ r', passLoop cmp width (n + 1) (some x) merges r =
        passLoop cmp width n rest.head? (merges + 1) r' ∧
      r'.Holds (out ++ a.merge b (le cmp)) ∧ Seg r'.links.next rest.head? rest none := by
  obtain ⟨e, hfirst, hsecond⟩ := seg_append.mp hp
  have hmerging : Merging r (some x) (b ++ rest).head? out a b rest :=
    ⟨hr, ⟨e, hfirst⟩, hsecond.head ▸ hsecond, hnodup⟩
  obtain ⟨r', hloop, hholds, hrest⟩ := mergeLoop_spec cmp hmerging hb le_rfl
  refine ⟨r', ?_, hholds, hrest⟩
  rw [passLoop, advance_spec hp ha]
  simp only [hloop, Option.bind_some]

theorem exists_of_seg {next : Ptr → Option Ptr} {a rest : List Ptr} {p : Option Ptr}
    (hseg : Seg next p (a ++ rest) none) (hpos : 0 < a.length) : ∃ x, p = some x := by
  obtain ⟨x, a, rfl⟩ := List.exists_cons_of_length_pos hpos
  exact ⟨x, hseg.1⟩

/-- A pass joins the runs two by two. -/
theorem passLoop_spec (cmp : Ptr → Ptr → ℤ) {width n : ℕ} (m : ℕ) {runs : List (List Ptr)} {p : Option Ptr}
    (hr : r.Holds out) (hp : Seg r.links.next p runs.flatten none) (hruns : Filled width runs)
    (hnodup : (out ++ runs.flatten).Nodup) (hn : runs.length ≤ n) :
    ∃ r', passLoop cmp width n p m r =
        some (m + (pairUp (List.merge · · (le cmp)) runs).length, r') ∧
      r'.Holds (out ++ (pairUp (List.merge · · (le cmp)) runs).flatten) := by
  induction runs using pairUp.induct generalizing r p out m n with
  | case1 a b runs ih =>
      rw [List.flatten_cons, List.flatten_cons] at hp hnodup
      obtain ⟨x, rfl⟩ := exists_of_seg hp hruns.head_pos.1
      obtain ⟨n, rfl⟩ : ∃ m, n = m + 1 := ⟨n - 1, by simp at hn; omega⟩
      obtain ⟨r₁, hstep, hholds, hrest⟩ := passLoop_merge cmp n m hr
        hp (.inl hruns.1) hruns.tail.head_length hnodup
      have hnodup₁ : (out ++ a.merge b (le cmp) ++ runs.flatten).Nodup := by
        have hmerge : (a.merge b (le cmp)).Perm (a ++ b) := List.merge_perm_append (le cmp)
        have hperm := hmerge.append_right runs.flatten
        rw [List.append_assoc] at hperm ⊢
        exact (hperm.append_left out).nodup_iff.mpr hnodup
      obtain ⟨r', hloop, hout⟩ := ih (m + 1) (n := n) hholds hrest hruns.tail.tail
        hnodup₁ (by simp at hn; omega)
      refine ⟨r', ?_, ?_⟩
      · rw [hstep, hloop, pairUp, List.length_cons, Nat.add_assoc, Nat.add_comm 1]
      · rwa [pairUp, List.flatten_cons, ← List.append_assoc]
  | case2 a =>
      rw [List.flatten_singleton] at hp hnodup
      rw [← List.append_nil a] at hp
      replace hnodup : (out ++ (a ++ ([] ++ []))).Nodup := by rwa [List.append_nil, List.append_nil]
      obtain ⟨x, rfl⟩ := exists_of_seg hp hruns.1
      obtain ⟨n, rfl⟩ : ∃ m, n = m + 1 := ⟨n - 1, by simp at hn; omega⟩
      -- a single run is merged with an empty one
      obtain ⟨r', hstep, hholds, -⟩ := passLoop_merge cmp n m hr hp
        hruns.head_length (.inr ⟨hruns.1.trans_le hruns.2, rfl⟩) hnodup
      refine ⟨r', ?_, ?_⟩
      · rw [hstep]
        cases n <;> rfl
      · rw [List.merge_right] at hholds
        rwa [pairUp, List.flatten_singleton]
  | case3 =>
      obtain rfl : p = none := hp.head
      exact ⟨r, by cases n <;> rfl, by simpa [pairUp] using hr⟩

/-- All passes. -/
theorem sortLoop_spec (cmp : Ptr → Ptr → ℤ) {entries n width : ℕ} {runs : List (List Ptr)} {p : Option Ptr}
    {links : Links Ptr} (hp : Seg links.next p runs.flatten none) (hruns : Filled width runs)
    (hne : runs ≠ []) (hentries : runs.length ≤ entries) (hn : runs.length ≤ n) :
    ∃ r, sortLoop cmp entries n width p links = some r ∧
      Chain r.links r.newHead r.tail (sortRuns (le cmp) runs) := by
  induction n generalizing runs width p links with
  | zero => exact absurd (List.eq_nil_of_length_eq_zero (Nat.le_zero.mp hn)) hne
  | succ n ih =>
      obtain ⟨r, hpass, hholds⟩ := passLoop_spec cmp 0
        (r := ⟨links, none, none⟩) (built_nil links) hp hruns hp.nodup hentries
      rw [List.nil_append] at hholds
      rw [Nat.zero_add] at hpass
      -- something has been linked, because no run is empty
      obtain ⟨tail, htail⟩ : ∃ tail, r.tail = some tail := by
        obtain ⟨a, rest, rfl⟩ := List.exists_cons_of_ne_nil hne
        have hlen := (flatten_pairUp_perm (le cmp) (a :: rest)).length_eq
        have hpos := hruns.head_pos.1
        rw [List.flatten_cons, List.length_append] at hlen
        rw [hholds.last_eq]
        exact Option.isSome_iff_exists.mp (List.getLast?_isSome.mpr fun hnil => by
          rw [hnil, List.length_nil] at hlen
          omega)
      rw [Pass.Holds, htail] at hholds
      have hchain := hholds.terminate
      rw [sortLoop, hpass, Option.bind_some]
      simp only [htail, Option.bind_some]
      rw [sortRuns]
      by_cases hlen : (pairUp (List.merge · · (le cmp)) runs).length ≤ 1
      · rw [if_pos hlen, if_neg hlen.not_gt]
        exact ⟨_, rfl, hchain⟩
      · have hlt := length_pairUp_lt (not_le.mp hlen)
        rw [if_neg hlen, if_pos (not_le.mp hlen), mul_comm]
        refine ih hchain.forward (filled_pairUp hruns) (fun hnil => ?_) (by omega) (by omega)
        rw [hnil] at hlen
        exact hlen (Nat.zero_le 1)

/-! ## The whole function -/

/-- The entries are numbered in the order of the list. -/
theorem renumber_spec {next : Ptr → Option Ptr} {l : List Ptr} {p : Option Ptr} {n : ℕ} (pos : ℤ)
    (entry : Ptr → Entry) (hseg : Seg next p l none) (hn : l.length ≤ n) :
    ∃ entry', renumber next n p pos entry = some entry' ∧
      (∀ (k : ℕ) (x : Ptr), l[k]? = some x → entry' x = { entry x with pos := pos + k }) ∧
      ∀ x, x ∉ l → entry' x = entry x := by
  -- The induction is on the rest of the chain; what is numbered is not met again.
  induction l generalizing p n pos entry with
  | nil =>
      cases hseg
      exact ⟨entry, by cases n <;> rfl, nofun, fun x _ => rfl⟩
  | cons y l ih =>
      have hy := (List.nodup_cons.mp hseg.nodup).1
      obtain ⟨rfl, hseg⟩ := hseg
      obtain ⟨n, rfl⟩ : ∃ m, n = m + 1 := ⟨n - 1, by simp at hn; omega⟩
      obtain ⟨entry', hloop, hin, hout⟩ := ih (n := n) (pos + 1)
        (Function.update entry y { entry y with pos }) hseg (by simpa using hn)
      refine ⟨entry', hloop, fun k x hk => ?_, fun x hx => ?_⟩
      · cases k with
        | zero =>
            obtain rfl : y = x := Option.some.inj hk
            rw [hout y hy, Function.update_self]
            simp
        | succ k =>
            have hxl : x ∈ l := List.mem_of_getElem? hk
            rw [hin k x hk, Function.update_of_ne (by rintro rfl; exact hy hxl)]
            simp only [Nat.cast_succ]
            rw [add_assoc, add_comm 1]
      · rw [hout x fun hmem => hx (.tail y hmem), Function.update_of_ne]
        rintro rfl
        exact hx List.mem_cons_self

/-- The order of the entries of a browser. -/
def leOf (comparator : Entry → Entry → ℤ) (s : Browser) : Ptr → Ptr → Bool :=
  le fun p q => comparator (s.entry p) (s.entry q)

/-- The list of a browser after sorting. -/
def sorted (comparator : Entry → Entry → ℤ) (s : Browser) (l : List Ptr) : List Ptr :=
  sortRuns (leOf comparator s) (l.map ([·]))

variable {comparator : Entry → Entry → ℤ} {s : Browser} {l : List Ptr}

theorem sorted_perm (comparator : Entry → Entry → ℤ) (s : Browser) (l : List Ptr) :
    (sorted comparator s l).Perm l := by
  have hperm := sortRuns_perm (leOf comparator s) (l.map ([·]))
  rwa [flatten_singletons] at hperm

theorem sorted_eq_self (h : l.length ≤ 1) : sorted comparator s l = l := by
  have hperm := sorted_perm comparator s l
  match l with
  | [] => exact hperm.eq_nil
  | [x] => exact List.perm_singleton.mp hperm
  | x :: y :: l => exact absurd h (by simp)

/-- `SortBrowser` sorts the list, and numbers the entries if there are two of them. -/
theorem sortBrowser_spec (comparator : Entry → Entry → ℤ) (h : Listed s l) :
    ∃ t, sortBrowser comparator s = some t ∧ Listed t (sorted comparator s l) ∧
      t.numEntries = s.numEntries ∧ t.selIndex = s.selIndex ∧ t.pageIndex = s.pageIndex ∧
      if 2 ≤ l.length then
        (∀ (k : ℕ) (p : Ptr), (sorted comparator s l)[k]? = some p →
          t.entry p = { s.entry p with pos := k }) ∧ ∀ p, p ∉ l → t.entry p = s.entry p
      else t = s := by
  match l with
  -- the two early returns of the source
  | [] =>
      have hfirst : s.first = none := h.chain.first_eq
      refine ⟨s, by rw [sortBrowser, hfirst], ?_, rfl, rfl, rfl, ?_⟩
      · rwa [sorted_eq_self (l := []) (Nat.zero_le 1)]
      · rfl
  | [x] =>
      have hfirst : s.first = some x := h.chain.first_eq
      have hnext : s.links.next x = none := h.chain.forward.2
      refine ⟨s, ?_, ?_, rfl, rfl, rfl, ?_⟩
      · rw [sortBrowser, hfirst]
        exact if_pos hnext
      · rwa [sorted_eq_self (l := [x]) le_rfl]
      · rfl
  -- the merge passes start from runs of one entry
  | x :: y :: l =>
      have hfirst : s.first = some x := h.chain.first_eq
      have hnext : s.links.next x = some y := h.chain.forward.2.1
      have hlen : ((x :: y :: l).map ([·])).length ≤ s.live.length := by
        rw [List.length_map, h.length_live]
      have hforward : Seg s.links.next s.first ((x :: y :: l).map ([·])).flatten none := by
        rw [flatten_singletons]
        exact h.chain.forward
      obtain ⟨r, hloop, hchain⟩ := sortLoop_spec
        (fun p q => comparator (s.entry p) (s.entry q)) hforward (filled_singletons _) nofun hlen
        hlen
      have hperm := sorted_perm comparator s (x :: y :: l)
      -- the last loop renumbers along the new chain
      obtain ⟨entry, hentry, hin, hout⟩ := renumber_spec (n := s.live.length) 0
        s.entry hchain.forward (by rw [h.length_live]; exact hperm.length_eq.le)
      refine ⟨{ s with links := r.links, first := r.newHead, last := r.tail, entry }, ?_,
        ⟨hchain, h.live.trans hperm.symm⟩, rfl, rfl, rfl, ?_⟩
      · rw [hfirst] at hloop
        rw [sortBrowser, hfirst]
        simp only [hnext, reduceCtorEq, if_false, hloop, Option.bind_some, hentry, Option.map_some]
      · rw [if_pos (by simp)]
        refine ⟨fun k p hk => ?_, fun p hp => hout p fun hmem => hp (hperm.mem_iff.mp hmem)⟩
        have heq := hin k p hk
        rwa [zero_add] at heq

end WiiMC.Browser
