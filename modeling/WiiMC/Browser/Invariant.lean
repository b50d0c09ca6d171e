import WiiMC.Browser.Sort
import WiiMC.Lib.Transition

/-!
# The invariant of a browser

The operations on the list of a browser, in any order. `DeleteEntry` neither counts its entry out,
nor numbers the entries behind it, nor takes the selection away; `Remove` does not number them.

* `system`: the runs of the operations.
* `Regular`: the steps that leave what is kept beside the list right.
* `represents_of_reachable`: it is right in every state that these steps reach.
* `represents_step_iff`: any other step leaves it wrong.
-/

namespace WiiMC.Browser

open Linked Player Transition

/-- An operation, with what it is given. -/
inductive Op
  | add (new : Option Ptr)
  | delete (entry : Option Ptr)
  | remove (i : Option Ptr)
  | sort (comparator : Entry → Entry → ℤ)
  | reset
  | select (p : Option Ptr)
  | fill (p : Ptr) (type : EntryType) (file display : Option Text)

/-- The effect of an operation. -/
def step (s : Browser) : Op → Option Browser
  | .add new => (s.addEntry new).map Prod.snd
  | .delete entry => (s.deleteEntry entry).map Prod.snd
  | .remove i => s.remove i
  | .sort comparator => s.sortBrowser comparator
  | .reset => s.reset
  | .select p => s.select p
  | .fill p type file display => s.fill p type file display

/-- A browser from `BrowserInit` on, whatever its memory holds. -/
def system : System Browser Op where
  init s := ∃ links entry, s = init links entry
  step := step

/-- `DeleteEntry` does not find its entry, and `Remove` takes the last one. -/
def Regular (s : Browser) : Op → Prop
  | .delete (some e) => e ∉ s.live
  | .remove (some i) => s.last = some i
  | _ => True

instance (s : Browser) : DecidablePred (Regular s) := fun a => by
  unfold Regular
  split <;> infer_instance

variable {s t : Browser} {l xs ys : List Ptr} {p : Ptr}

namespace Represents

theorem init (links : Links Ptr) (entry : Ptr → Entry) : Represents (init links entry) [] where
  toListed := listed_init links entry
  numEntries_eq := rfl
  pos_eq := nofun
  selIndex_mem := nofun

theorem addEntry {new : Option Ptr} (h : Represents s l)
    (hadd : (s.addEntry new).map Prod.snd = some t) : ∃ l, Represents t l := by
  cases new with
  | none =>
      cases hadd
      exact ⟨l, h⟩
  | some p =>
      obtain ⟨⟨r, t⟩, hnew, rfl⟩ := Option.map_eq_some_iff.mp hadd
      obtain ⟨hp, -, hlisted, hnum, hsel, hentry⟩ := addEntry_spec h.toListed hnew
      refine ⟨l ++ [p], hlisted, ?_, fun k q hk => ?_, fun q hq => ?_⟩
      · rw [hnum, h.numEntries_eq, List.length_append, List.length_singleton]
      · rw [hentry]
        rcases Nat.lt_or_ge k l.length with hlt | hge
        · rw [List.getElem?_append_left hlt] at hk
          rw [Function.update_of_ne (by rintro rfl; exact hp (List.mem_of_getElem? hk))]
          exact h.pos_eq k q hk
        · rw [List.getElem?_append_right hge, List.getElem?_singleton] at hk
          obtain ⟨hk0, ⟨⟩⟩ := Option.ite_none_right_eq_some.mp hk
          rw [Function.update_self, h.numEntries_eq]
          simp only
          omega
      · rw [hsel] at hq
        exact List.mem_append_left _ (h.selIndex_mem q hq)

/-- The last entry may be removed. -/
theorem remove_last (h : Represents s (xs ++ [p])) (hremove : s.remove (some p) = some t) :
    Represents t xs := by
  obtain ⟨hlisted, hnum, hentry, hsel⟩ := remove_spec h.toListed hremove
  rw [List.append_nil] at hlisted
  refine ⟨hlisted, ?_, fun k q hk => ?_, fun q hq => ?_⟩
  · rw [hnum, h.numEntries_eq, List.length_append, List.length_singleton, Nat.add_sub_cancel]
  · rw [hentry]
    have hlt := (List.getElem?_eq_some_iff.mp hk).1
    exact h.pos_eq k q (by rwa [List.getElem?_append_left hlt])
  · rw [hsel] at hq
    obtain ⟨hne, hq⟩ := Option.ite_none_left_eq_some.mp hq
    have hmem := h.selIndex_mem q hq
    rw [List.mem_append, List.mem_singleton] at hmem
    exact hmem.resolve_right fun heq => hne (heq ▸ hq)

theorem sortBrowser {comparator : Entry → Entry → ℤ} (h : Represents s l)
    (hsort : s.sortBrowser comparator = some t) : Represents t (sorted comparator s l) := by
  obtain ⟨t', hsort', hlisted, hnum, hsel, -, hentry⟩ := sortBrowser_spec comparator
    h.toListed
  obtain rfl : t' = t := Option.some.inj (hsort'.symm.trans hsort)
  have hperm := sorted_perm comparator s l
  refine ⟨hlisted, ?_, ?_, fun q hq => ?_⟩
  · rw [hnum, h.numEntries_eq, hperm.length_eq]
  · split_ifs at hentry with hlen
    · intro k q hk
      rw [hentry.1 k q hk]
    · rw [hentry, sorted_eq_self (by omega)]
      exact h.pos_eq
  · rw [hsel] at hq
    exact hperm.mem_iff.mpr (h.selIndex_mem q hq)

theorem fill {type : EntryType} {file display : Option Text} (h : Represents s l)
    (hfill : s.fill p type file display = some t) : Represents t l := by
  obtain ⟨-, ⟨⟩⟩ := Option.ite_none_right_eq_some.mp hfill
  refine ⟨⟨h.chain, h.live⟩, h.numEntries_eq, fun k q hk => ?_, h.selIndex_mem⟩
  have hpos := h.pos_eq k q hk
  by_cases hqp : q = p
  · subst hqp
    simpa using hpos
  · simpa [Function.update_of_ne hqp] using hpos

/-- A regular step leaves what is kept beside the list right. -/
theorem step {a : Op} (h : Represents s l) (hok : Regular s a) (hstep : step s a = some t) :
    ∃ l, Represents t l := by
  -- Each operation has its lemma; a removal is regular at the last entry only.
  cases a with
  | add new => exact h.addEntry hstep
  | delete entry =>
      cases entry with
      | none =>
          cases hstep
          exact ⟨l, h⟩
      | some e =>
          have hdelete : (s.deleteEntry (some e)).map Prod.snd = some t := hstep
          rw [deleteEntry_eq h.toListed, if_neg fun hmem => hok (h.mem_live.mpr hmem)] at hdelete
          cases hdelete
          exact ⟨l, h⟩
  | remove i =>
      cases i with
      | none =>
          cases hstep
          exact ⟨l, h⟩
      | some i =>
          obtain ⟨xs, rfl⟩ := List.getLast?_eq_some_iff.mp (h.chain.last_eq.symm.trans hok)
          exact ⟨xs, h.remove_last hstep⟩
  | sort comparator => exact ⟨_, h.sortBrowser hstep⟩
  | reset =>
      have hreset := reset_eq h.toListed
      cases hreset.symm.trans hstep
      exact ⟨[], ⟨⟨rfl, trivial, rfl⟩, .nil⟩, rfl, nofun, nofun⟩
  | select p =>
      obtain ⟨hlive, ⟨⟩⟩ := Option.ite_none_right_eq_some.mp hstep
      exact ⟨l, ⟨h.chain, h.live⟩, h.numEntries_eq, h.pos_eq,
        fun q hq => h.mem_live.mp (hlive q hq)⟩
  | fill p type file display => exact ⟨l, h.fill hstep⟩

end Represents

/-- A deletion leaves one entry too many counted. -/
theorem not_represents_of_delete {e : Ptr} (h : Represents s l) (he : e ∈ l)
    (hstep : step s (.delete (some e)) = some t) : ¬ ∃ l, Represents t l := by
  rintro ⟨l', h'⟩
  have hdelete : (s.deleteEntry (some e)).map Prod.snd = some t := hstep
  rw [deleteEntry_eq h.toListed, if_pos he] at hdelete
  cases hdelete
  obtain ⟨xs, ys, rfl⟩ := List.append_of_mem he
  obtain rfl := (listed_unlinkFound h.toListed).unique h'.toListed
  have hcount := h'.numEntries_eq.symm.trans h.numEntries_eq
  rw [List.length_append, List.length_append, List.length_cons] at hcount
  omega

/-- Behind a removed entry the positions are one too high. -/
theorem not_represents_of_remove {i : Ptr} (h : Represents s l) (hi : i ∈ l)
    (hlast : s.last ≠ some i) (hstep : step s (.remove (some i)) = some t) :
    ¬ ∃ l, Represents t l := by
  rintro ⟨l', h'⟩
  obtain ⟨xs, ys, rfl⟩ := List.append_of_mem hi
  obtain ⟨hlisted, -, hentry, -⟩ := remove_spec h.toListed hstep
  obtain rfl := hlisted.unique h'.toListed
  cases ys with
  | nil =>
      rw [h.chain.last_eq, List.getLast?_concat] at hlast
      exact hlast rfl
  | cons y ys =>
      have hbefore := h.pos_eq (xs.length + 1) y (by simp)
      have hafter := h'.pos_eq xs.length y (by simp)
      rw [hentry, hbefore] at hafter
      omega

/-- The steps that are not regular are those that leave it wrong. -/
theorem represents_step_iff {a : Op} (h : Represents s l) (hstep : step s a = some t) :
    (∃ l, Represents t l) ↔ Regular s a := by
  refine ⟨fun ht => ?_, fun hok => h.step hok hstep⟩
  match a with
  | .delete (some e) =>
      exact fun hlive => not_represents_of_delete h (h.mem_live.mp hlive) hstep ht
  | .remove (some i) =>
      have hlive := (Option.ite_none_right_eq_some.mp hstep).1
      by_contra hlast
      exact not_represents_of_remove h (h.mem_live.mp hlive) hlast hstep ht
  | .delete none | .remove none | .add _ | .sort _ | .reset | .select _ | .fill .. => trivial

theorem represents_of_reachable (hs : system.Reachable Regular s) : ∃ l, Represents s l := by
  refine hs.invariant (I := fun s => ∃ l, Represents s l) ?_ ?_
  · rintro s ⟨links, entry, rfl⟩
    exact ⟨[], .init links entry⟩
  · rintro s a t - ⟨l, h⟩ hok hstep
    exact h.step hok hstep

/-- After regular steps the list is linked both ways between its ends, its entries are counted and
numbered, and the selection is one of them; and no step but a regular one leaves it so. -/
theorem browser_invariant (hs : system.Reachable Regular s) :
    ∃ l, Represents s l ∧
      (∀ p ∈ l, ∀ q ∈ l, s.links.next p = some q ↔ s.links.prior q = some p) ∧
      s.first = l.head? ∧ s.last = l.getLast? ∧
      ∀ a t, step s a = some t → ((∃ l, Represents t l) ↔ Regular s a) := by
  obtain ⟨l, h⟩ := represents_of_reachable hs
  exact ⟨l, h, fun p hp q hq => h.chain.next_iff_prior hp hq, h.chain.first_eq, h.chain.last_eq,
    fun a t hstep => represents_step_iff h hstep⟩

/-- A memory that holds nothing. -/
def blank : Browser := init ⟨fun _ => none, fun _ => none⟩ fun _ => .zero

/-- Two entries are added, the second one is selected and removed, and the rest is sorted. -/
def sampleOps : List Op :=
  [.add (some 1), .add (some 2), .select (some 2), .remove (some 2), .sort fun _ _ => 0]

theorem browser_invariant_sample : ∃ s, system.exec blank sampleOps = some s ∧
    ∃ l, Represents s l ∧
      (∀ p ∈ l, ∀ q ∈ l, s.links.next p = some q ↔ s.links.prior q = some p) ∧
      s.first = l.head? ∧ s.last = l.getLast? ∧
      ∀ a t, step s a = some t → ((∃ l, Represents t l) ↔ Regular s a) := by
  have hok : system.OkAlong Regular blank sampleOps := by decide
  obtain ⟨s, hexec⟩ := Option.isSome_iff_exists.mp
    (show (system.exec blank sampleOps).isSome by decide)
  have hblank : system.Reachable Regular blank := .init ⟨_, _, rfl⟩
  exact ⟨s, hexec, browser_invariant (hblank.exec hok hexec)⟩

/-- An entry is added, and deleted because its name cannot be allocated. -/
theorem browser_invariant_deleted : ∃ s,
    system.exec blank [.add (some 1), .delete (some 1)] = some s ∧
      s.first = none ∧ s.numEntries = 1 ∧ ¬ ∃ l, Represents s l := by
  refine ⟨_, rfl, rfl, rfl, ?_⟩
  rintro ⟨l, h⟩
  have hnil : l = [] := List.head?_eq_none_iff.mp (h.chain.first_eq.symm.trans rfl)
  have hcount := h.numEntries_eq
  rw [hnil] at hcount
  exact absurd hcount Nat.one_ne_zero

end WiiMC.Browser
