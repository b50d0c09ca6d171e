import WiiMC.Lib.Linked
import WiiMC.Player.Browser

/-!
# The list of a browser

`filebrowser.cpp` and `musicplaylist.cpp`: a browser keeps its entries in a doubly linked list, with
their number, their positions and the selected one beside it. Here are the operations that change
the list, but for the sorting. A result `none` is a use of memory that is not allocated, or a loop
that does not end.

* `Listed`: the list behind the pointers of a browser.
* `addEntry_spec`, `deleteEntry_spec`, `remove_spec`, `reset_spec`: what an operation does to it.
* `Represents`: the number, the positions and the selection fit the list.
-/

namespace WiiMC

open Linked Player

namespace Browser

/-- The address of an entry. -/
abbrev Ptr := ℕ

/-- `BROWSERENTRY`, without its links. The fields that no function below reads are left out. -/
structure Entry where
  type : EntryType
  file : Option Text
  display : Option Text
  pos : ℤ
  deriving DecidableEq

/-- What `calloc` returns; `TYPE_FILE` is 0. -/
def Entry.zero : Entry := ⟨.file, none, none, 0⟩

end Browser

open Browser

/-- `BROWSER`, with the memory of its entries. -/
structure Browser where
  links : Links Ptr
  entry : Ptr → Entry
  /-- The allocated entries. -/
  live : List Ptr
  numEntries : ℕ
  selIndex : Option Ptr
  pageIndex : ℤ
  first : Option Ptr
  last : Option Ptr

namespace Browser

/-- `BrowserInit`, with the memory as it is. -/
def init (links : Links Ptr) (entry : Ptr → Entry) : Browser :=
  { links, entry, live := [], numEntries := 0, selIndex := none, pageIndex := 0, first := none,
    last := none }

/-- `AddEntry`, where `calloc` returns `new`. -/
def addEntry (new : Option Ptr) (s : Browser) : Option (Option Ptr × Browser) :=
  match new with
  | none => some (none, s)
  | some p =>
      if p ∈ s.live then none
      else some (some p,
        { s with
          links := ((s.links.setNext p none).setPrior p none).hang s.last p
          entry := Function.update s.entry p { Entry.zero with pos := s.numEntries }
          live := p :: s.live
          first := if s.last = none then some p else s.first
          last := some p
          numEntries := s.numEntries + 1 })

/-- What `DeleteEntry` does with the entry it has found. -/
def unlinkFound (i : Ptr) (s : Browser) : Browser :=
  { s with
    links := s.links.unlink i
    first := if s.links.prior i = none then s.links.next i else s.first
    last := if s.links.next i = none then s.links.prior i else s.last
    live := s.live.erase i }

/-- The loop of `DeleteEntry`. -/
def deleteLoop (entry : Ptr) (s : Browser) : ℕ → Option Ptr → Option (Bool × Browser)
  | _, none => some (false, s)
  | 0, some _ => none
  | n + 1, some i =>
      if i = entry then some (true, s.unlinkFound i) else deleteLoop entry s n (s.links.next i)

/-- `DeleteEntry`. -/
def deleteEntry (entry : Option Ptr) (s : Browser) : Option (Bool × Browser) :=
  match entry with
  | none => some (false, s)
  | some e => deleteLoop e s s.live.length s.first

/-- `Remove`, but for the shuffle. -/
def remove (i : Option Ptr) (s : Browser) : Option Browser :=
  match i with
  | none => some s
  | some i =>
      if i ∈ s.live then
        some { s with
          links := s.links.unlink i
          first := if s.first = some i then s.links.next i else s.first
          last := if s.last = some i then s.links.prior i else s.last
          selIndex := if s.selIndex = some i then none else s.selIndex
          numEntries := if 0 < s.numEntries then s.numEntries - 1 else s.numEntries
          live := s.live.erase i }
      else none

/-- The loop of `Reset`: an entry is freed after its `next` has been read. -/
def resetLoop (s : Browser) : ℕ → Option Ptr → List Ptr → Option (List Ptr)
  | _, none, live => some live
  | 0, some _, _ => none
  | n + 1, some i, live =>
      if i ∈ live then resetLoop s n (s.links.next i) (live.erase i) else none

/-- `Reset`. -/
def reset (s : Browser) : Option Browser :=
  (resetLoop s s.live.length s.first s.live).map fun live =>
    { s with live, numEntries := 0, selIndex := none, pageIndex := 0, first := none, last := none }

/-- The menu selects an entry. -/
def select (p : Option Ptr) (s : Browser) : Option Browser :=
  if ∀ i ∈ p, i ∈ s.live then some { s with selIndex := p } else none

/-- The caller of `AddEntry` fills the entry in. -/
def fill (p : Ptr) (type : EntryType) (file display : Option Text) (s : Browser) :
    Option Browser :=
  if p ∈ s.live then
    some { s with entry := Function.update s.entry p { s.entry p with type, file, display } }
  else none

/-! ## The list behind the pointers -/

/-- The list of the browser is `l`, and these are all entries that are allocated. -/
structure Listed (s : Browser) (l : List Ptr) : Prop where
  chain : Chain s.links s.first s.last l
  live : s.live.Perm l

variable {s t : Browser} {l xs ys : List Ptr} {p i : Ptr} {r : Option Ptr}

theorem listed_init (links : Links Ptr) (entry : Ptr → Entry) : Listed (init links entry) [] where
  chain := ⟨rfl, trivial, rfl⟩
  live := .nil

theorem Listed.mem_live (h : Listed s l) : p ∈ s.live ↔ p ∈ l := h.live.mem_iff

theorem Listed.length_live (h : Listed s l) : s.live.length = l.length := h.live.length_eq

/-- A browser has one list. -/
theorem Listed.unique {l' : List Ptr} (h : Listed s l) (h' : Listed s l') : l = l' :=
  h.chain.unique h'.chain

/-- A new entry stands behind the others. -/
theorem addEntry_spec (h : Listed s l) (hadd : s.addEntry (some p) = some (r, t)) :
    p ∉ l ∧ r = some p ∧ Listed t (l ++ [p]) ∧ t.numEntries = s.numEntries + 1 ∧
      t.selIndex = s.selIndex ∧
      t.entry = Function.update s.entry p { Entry.zero with pos := s.numEntries } := by
  obtain ⟨hlive, heq⟩ := Option.ite_none_left_eq_some.mp hadd
  obtain ⟨rfl, rfl⟩ := Prod.mk.inj (Option.some.inj heq)
  have hp : p ∉ l := fun hmem => hlive (h.mem_live.mpr hmem)
  -- the new entry is cleared before it is hung behind the last one
  have hclear : Built ((s.links.setNext p none).setPrior p none) s.first s.last l :=
    { h.chain.built with
      forward := h.chain.built.forward.setNext (fun hmem => hp (List.dropLast_subset l hmem)) none
      backward := h.chain.backward.setPrior hp none }
  refine ⟨hp, rfl, ⟨(hclear.hang hp).chain ?_, ?_⟩, rfl, rfl, rfl⟩
  · rintro x ⟨⟩
    rw [Links.hang_next_of_ne, Links.setPrior_next, Links.setNext_next_self]
    rw [h.chain.last_eq]
    exact fun hlast => hp (List.mem_of_getLast? hlast)
  · exact (h.live.cons p).trans (List.perm_append_singleton p l).symm

/-- The loop of `DeleteEntry` goes along the list. -/
theorem deleteLoop_spec {e : Ptr} {q : Option Ptr} {n : ℕ} (hseg : Seg s.links.next q l none)
    (hn : l.length ≤ n) :
    deleteLoop e s n q = some (if e ∈ l then (true, s.unlinkFound e) else (false, s)) := by
  induction l generalizing q n with
  | nil =>
      cases hseg
      cases n <;> rfl
  | cons x l ih =>
      obtain ⟨rfl, hseg⟩ := hseg
      obtain ⟨n, rfl⟩ := Nat.exists_eq_succ_of_ne_zero (Nat.ne_of_gt (Nat.lt_of_lt_of_le
        (Nat.succ_pos l.length) hn))
      rw [deleteLoop]
      by_cases hxe : x = e
      · rw [if_pos hxe, if_pos (List.mem_cons.mpr (.inl hxe.symm)), hxe]
      · have hmem : e ∈ x :: l ↔ e ∈ l := by
          rw [List.mem_cons, or_iff_right fun heq => hxe heq.symm]
        rw [if_neg hxe, ih hseg (Nat.le_of_succ_le_succ hn)]
        simp only [hmem]

/-- `DeleteEntry` deletes what it finds in the list. -/
theorem deleteEntry_eq (h : Listed s l) (e : Ptr) :
    s.deleteEntry (some e) = some (if e ∈ l then (true, s.unlinkFound e) else (false, s)) :=
  deleteLoop_spec h.chain.forward h.length_live.ge

theorem Listed.perm_erase (h : Listed s (xs ++ i :: ys)) : (s.live.erase i).Perm (xs ++ ys) := by
  have hperm := (h.live.trans List.perm_middle).erase i
  rwa [List.erase_cons_head] at hperm

/-- The list behind a deletion. -/
theorem listed_unlinkFound (h : Listed s (xs ++ i :: ys)) : Listed (s.unlinkFound i) (xs ++ ys) where
  chain := h.chain.unlink
  live := h.perm_erase

theorem Listed.first_eq_iff (h : Listed s (xs ++ i :: ys)) :
    s.first = some i ↔ s.links.prior i = none := by
  have hnodup := h.chain.nodup
  rw [h.chain.first_eq, h.chain.prior_eq]
  cases xs with
  | nil => exact ⟨fun _ => rfl, fun _ => rfl⟩
  | cons x xs =>
      constructor
      · intro heq
        cases heq
        exact absurd (List.mem_append_right xs List.mem_cons_self) (List.nodup_cons.mp hnodup).1
      · intro heq
        exact absurd (List.getLast?_eq_none_iff.mp heq) nofun

theorem Listed.last_eq_iff (h : Listed s (xs ++ i :: ys)) :
    s.last = some i ↔ s.links.next i = none := by
  have hnodup := (List.nodup_append.mp h.chain.nodup).2.1
  rw [h.chain.last_eq, h.chain.next_eq]
  rcases List.eq_nil_or_concat ys with rfl | ⟨ys, y, rfl⟩
  · rw [List.getLast?_concat]
    exact ⟨fun _ => rfl, fun _ => rfl⟩
  · rw [List.concat_eq_append, ← List.cons_append, ← List.append_assoc, List.getLast?_concat]
    constructor
    · intro heq
      cases heq
      exact absurd (by simp) (List.nodup_cons.mp hnodup).1
    · intro heq
      exact absurd (List.head?_eq_none_iff.mp heq) (by simp)

/-- What `Remove` does with an entry of the list. -/
theorem remove_spec (h : Listed s (xs ++ i :: ys)) (hremove : s.remove (some i) = some t) :
    Listed t (xs ++ ys) ∧ t.numEntries = s.numEntries - 1 ∧ t.entry = s.entry ∧
      t.selIndex = if s.selIndex = some i then none else s.selIndex := by
  obtain ⟨-, ⟨⟩⟩ := Option.ite_none_right_eq_some.mp hremove
  refine ⟨⟨?_, h.perm_erase⟩, ?_, rfl, rfl⟩
  · simp only [h.first_eq_iff, h.last_eq_iff]
    exact h.chain.unlink
  · show (if _ then _ else _) = _
    split_ifs with hpos
    · rfl
    · omega

theorem resetLoop_spec {q : Option Ptr} {n : ℕ} {live : List Ptr}
    (hseg : Seg s.links.next q l none) (hperm : live.Perm l) (hn : l.length ≤ n) :
    resetLoop s n q live = some [] := by
  induction l generalizing q n live with
  | nil =>
      cases hseg
      rw [hperm.eq_nil]
      cases n <;> rfl
  | cons x l ih =>
      obtain ⟨rfl, hseg⟩ := hseg
      obtain ⟨n, rfl⟩ := Nat.exists_eq_succ_of_ne_zero (Nat.ne_of_gt (Nat.lt_of_lt_of_le
        (Nat.succ_pos l.length) hn))
      have herase := hperm.erase x
      rw [List.erase_cons_head] at herase
      rw [resetLoop, if_pos (hperm.mem_iff.mpr List.mem_cons_self)]
      exact ih hseg herase (Nat.le_of_succ_le_succ hn)

/-- `Reset` frees every entry. -/
theorem reset_eq (h : Listed s l) :
    s.reset = some { s with
      live := [], numEntries := 0, selIndex := none, pageIndex := 0, first := none,
      last := none } := by
  rw [reset, resetLoop_spec h.chain.forward h.live h.length_live.ge]
  rfl

/-! ## What is kept beside the list -/

/-- The number of entries, their positions and the selection fit the list. -/
structure Represents (s : Browser) (l : List Ptr) : Prop extends Listed s l where
  numEntries_eq : s.numEntries = l.length
  pos_eq : ∀ (k : ℕ) (p : Ptr), l[k]? = some p → (s.entry p).pos = k
  selIndex_mem : ∀ p ∈ s.selIndex, p ∈ l

end Browser

end WiiMC
