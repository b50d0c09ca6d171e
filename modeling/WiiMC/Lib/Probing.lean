import Mathlib.Data.Fintype.Card
import Mathlib.Tactic.Common
import Mathlib.Data.List.Nodup

/-!
# A set of keys with linear probing

The keys of the set are numbered in the order of their insertion. A table of `n` slots finds the
number of a key: `slots s` is 0 at an empty slot, and `i + 1` at the slot of the key number `i`. The
search for a key starts at its hash value modulo `n` and stops at the key or at an empty slot.

* `search`: the search for a key.
* `Holds`: the table belongs to the keys.
* `Holds.search_spec`: the search stops, and finds exactly the keys of the set.
* `Holds.insert`: a new key goes to the slot at which the search for it has stopped.
* `firsts`: the elements of a list whose key has not occurred before.
-/

namespace Probing

variable {α : Type*}

/-- The slots from `h` on that `d` steps pass are taken. -/
def Taken (n : ℕ) (slots : ℕ → ℕ) (h d : ℕ) : Prop := ∀ k < d, slots ((h + k) % n) ≠ 0

/-- The table belongs to the keys: its numbers are numbers of keys, no number stands twice, and
every key is found from its hash value on without passing an empty slot. -/
structure Holds (n : ℕ) (hash : α → ℕ) (slots : ℕ → ℕ) (keys : List α) : Prop where
  le : ∀ s, slots s ≤ keys.length
  inj : ∀ s < n, ∀ t < n, slots s ≠ 0 → slots s = slots t → s = t
  chain : ∀ i key, keys[i]? = some key →
    ∃ d, slots ((hash key + d) % n) = i + 1 ∧ Taken n slots (hash key) d

variable {n : ℕ} {hash : α → ℕ} {slots : ℕ → ℕ} {keys : List α} {key : α}

/-- The empty table belongs to no keys. -/
theorem holds_empty (n : ℕ) (hash : α → ℕ) : Holds n hash (fun _ => 0) [] where
  le _ := le_rfl
  inj _ _ _ _ h := absurd rfl h
  chain _ _ h := nomatch h

/-- A table with more slots than keys has an empty slot. -/
theorem Holds.exists_empty (h : Holds n hash slots keys) (hlen : keys.length < n) :
    ∃ s < n, slots s = 0 := by
  by_contra hfull
  push Not at hfull
  -- otherwise the numbers of the keys are `n` different ones
  let number : Fin n → Fin keys.length := fun s =>
    ⟨slots s - 1, by
      have hle := h.le s
      have hne := hfull s s.isLt
      omega⟩
  have hinj : Function.Injective number := by
    intro s t hst
    have hval : slots s - 1 = slots t - 1 := congrArg Fin.val hst
    have hs := hfull s s.isLt
    have ht := hfull t t.isLt
    exact Fin.ext (h.inj s s.isLt t t.isLt hs (by omega))
  have hcard := Fintype.card_le_of_injective number hinj
  rw [Fintype.card_fin, Fintype.card_fin] at hcard
  omega

/-- Every slot is met within `n` steps. -/
theorem exists_steps {s : ℕ} (hs : s < n) (h : ℕ) : ∃ d < n, (h + d) % n = s := by
  have hlt := Nat.mod_lt h (Nat.zero_lt_of_lt hs)
  by_cases hle : h % n ≤ s
  · refine ⟨s - h % n, by omega, ?_⟩
    rw [← Nat.mod_add_mod, Nat.add_sub_cancel' hle, Nat.mod_eq_of_lt hs]
  · refine ⟨s + n - h % n, by omega, ?_⟩
    rw [← Nat.mod_add_mod, Nat.add_sub_cancel' (by omega), Nat.add_mod_right, Nat.mod_eq_of_lt hs]

theorem Taken.succ {h d : ℕ} (htaken : Taken n slots h d) (hd : slots ((h + d) % n) ≠ 0) :
    Taken n slots h (d + 1) := fun k hk => by
  rcases Nat.lt_succ_iff_lt_or_eq.mp hk with hk | rfl
  · exact htaken k hk
  · exact hd

/-- Where the search for a key that is not in the set ends. -/
structure Free (n : ℕ) (hash : α → ℕ) (slots : ℕ → ℕ) (key : α) (s : ℕ) : Prop where
  lt : s < n
  empty : slots s = 0
  steps : ∃ d, (hash key + d) % n = s ∧ Taken n slots (hash key) d

/-- A new key goes to the slot at which the search for it has ended. -/
theorem Holds.insert {s : ℕ} (h : Holds n hash slots keys) (hfree : Free n hash slots key s) :
    Holds n hash (Function.update slots s (keys.length + 1)) (keys ++ [key]) := by
  have htaken : ∀ {k d}, Taken n slots k d →
      Taken n (Function.update slots s (keys.length + 1)) k d := fun hk i hi => by
    rw [Function.update_apply]
    split_ifs
    · exact Nat.succ_ne_zero _
    · exact hk i hi
  have hold : ∀ t, slots t ≠ keys.length + 1 := fun t => by
    have hle := h.le t
    omega
  refine ⟨fun t => ?_, fun t ht u hu hne heq => ?_, fun i k hk => ?_⟩
  · rw [Function.update_apply, List.length_append, List.length_singleton]
    split_ifs
    · exact le_rfl
    · exact (h.le t).trans (Nat.le_succ _)
  · simp only [Function.update_apply] at hne heq
    split_ifs at hne heq with hts hus hus
    · rw [hts, hus]
    · exact absurd heq.symm (hold u)
    · exact absurd heq (hold t)
    · exact h.inj t ht u hu hne heq
  · rcases Nat.lt_or_ge i keys.length with hi | hi
    · -- the way to a key of old leads past taken slots, which `s` is not
      rw [List.getElem?_append_left hi] at hk
      obtain ⟨d, hd, hway⟩ := h.chain i k hk
      refine ⟨d, ?_, htaken hway⟩
      rw [Function.update_of_ne, hd]
      intro heq
      rw [heq, hfree.empty] at hd
      exact absurd hd.symm (Nat.succ_ne_zero i)
    · rw [List.getElem?_append_right hi, List.getElem?_singleton] at hk
      obtain ⟨hi0, hkey⟩ := Option.ite_none_right_eq_some.mp hk
      cases hkey
      obtain ⟨d, rfl, hway⟩ := hfree.steps
      refine ⟨d, ?_, htaken hway⟩
      rw [Function.update_self]
      omega

section Search

variable [DecidableEq α]

/-- The search for `key` from `slot` on: `some none` when it is found, and the empty slot at which
the search ends when it is not. -/
def search (n : ℕ) (slots : ℕ → ℕ) (keys : List α) (key : α) : ℕ → ℕ → Option (Option ℕ)
  | 0, _ => none
  | fuel + 1, slot =>
      if slots slot = 0 then some (some slot)
      else if keys[slots slot - 1]? = some key then some none
      else search n slots keys key fuel ((slot + 1) % n)

/-- The search goes on until it meets the key or an empty slot. -/
theorem search_from {d k fuel : ℕ} (hd : d < k + fuel) (hkd : k ≤ d)
    (hempty : slots ((hash key + d) % n) = 0) (htaken : Taken n slots (hash key) k)
    (hother : ∀ i < k, keys[slots ((hash key + i) % n) - 1]? ≠ some key) :
    (search n slots keys key fuel ((hash key + k) % n) = some none ∧ key ∈ keys) ∨
    ∃ e, search n slots keys key fuel ((hash key + k) % n) = some (some ((hash key + e) % n)) ∧
      slots ((hash key + e) % n) = 0 ∧ Taken n slots (hash key) e ∧
      ∀ i < e, keys[slots ((hash key + i) % n) - 1]? ≠ some key := by
  induction fuel generalizing k with
  | zero => omega
  | succ fuel ih =>
      rw [search]
      by_cases hzero : slots ((hash key + k) % n) = 0
      · rw [if_pos hzero]
        exact Or.inr ⟨k, rfl, hzero, htaken, hother⟩
      rw [if_neg hzero]
      by_cases hkey : keys[slots ((hash key + k) % n) - 1]? = some key
      · rw [if_pos hkey]
        exact Or.inl ⟨rfl, List.mem_of_getElem? hkey⟩
      rw [if_neg hkey, Nat.mod_add_mod, Nat.add_assoc]
      have hne : k ≠ d := by
        rintro rfl
        exact hzero hempty
      refine ih (by omega) (by omega) (htaken.succ hzero) fun i hi => ?_
      rcases Nat.lt_succ_iff_lt_or_eq.mp hi with hi | rfl
      · exact hother i hi
      · exact hkey

/-- The search stops. It finds a key of the set, and for any other key the slot to put it. -/
theorem Holds.search_spec (h : Holds n hash slots keys) (hlen : keys.length < n) (key : α) :
    (search n slots keys key n (hash key % n) = some none ∧ key ∈ keys) ∨
    ∃ s, search n slots keys key n (hash key % n) = some (some s) ∧ key ∉ keys ∧
      Free n hash slots key s := by
  obtain ⟨s, hs, hempty⟩ := h.exists_empty hlen
  obtain ⟨d, hd, rfl⟩ := exists_steps hs (hash key)
  have hsteps : d < 0 + n := by omega
  have hnone : ∀ i < 0, keys[slots ((hash key + i) % n) - 1]? ≠ some key := nofun
  rcases search_from hsteps (Nat.zero_le d) hempty nofun hnone with
    hfound | ⟨e, hsearch, hzero, htaken, hother⟩
  · exact Or.inl hfound
  · refine Or.inr ⟨_, hsearch, fun hmem => ?_, Nat.mod_lt _ (Nat.zero_lt_of_lt hs), hzero,
      e, rfl, htaken⟩
    -- a key of the set would have been met before the empty slot
    obtain ⟨i, hi⟩ := List.mem_iff_getElem?.mp hmem
    obtain ⟨d', hd', hway⟩ := h.chain i key hi
    rcases lt_trichotomy d' e with hlt | rfl | hgt
    · refine hother d' hlt ?_
      rw [hd', Nat.add_sub_cancel]
      exact hi
    · rw [hzero] at hd'
      exact absurd hd'.symm (Nat.succ_ne_zero i)
    · exact hway e hgt hzero

end Search

/-! ## First occurrences -/

section Firsts

variable {β : Type*} [DecidableEq β] (f : α → β)

/-- The elements of `l` whose key does not occur among those of `seen` and of the elements before,
behind `seen`. -/
def firsts (seen l : List α) : List α :=
  l.foldl (fun acc a => if f a ∈ acc.map f then acc else acc ++ [a]) seen

variable {f}

theorem firsts_append (seen l l' : List α) :
    firsts f seen (l ++ l') = firsts f (firsts f seen l) l' := List.foldl_append

theorem firsts_cons_of_mem {seen : List α} {a : α} (h : f a ∈ seen.map f) (l : List α) :
    firsts f seen (a :: l) = firsts f seen l := by
  rw [firsts, List.foldl_cons, if_pos h, firsts]

theorem firsts_cons_of_not_mem {seen : List α} {a : α} (h : f a ∉ seen.map f) (l : List α) :
    firsts f seen (a :: l) = firsts f (seen ++ [a]) l := by
  rw [firsts, List.foldl_cons, if_neg h, firsts]

/-- The keys of first occurrences are pairwise distinct. -/
theorem nodup_firsts {seen : List α} (hseen : (seen.map f).Nodup) (l : List α) :
    ((firsts f seen l).map f).Nodup := by
  induction l generalizing seen with
  | nil => exact hseen
  | cons a l ih =>
      by_cases ha : f a ∈ seen.map f
      · rw [firsts_cons_of_mem ha]
        exact ih hseen
      · rw [firsts_cons_of_not_mem ha]
        refine ih ?_
        rw [List.map_append, List.map_singleton]
        exact hseen.append (List.nodup_singleton _) (List.disjoint_singleton.mpr ha)

/-- The elements of old stay in front. -/
theorem prefix_firsts (seen l : List α) : seen <+: firsts f seen l := by
  induction l generalizing seen with
  | nil => exact List.prefix_refl seen
  | cons a l ih =>
      by_cases ha : f a ∈ seen.map f
      · rw [firsts_cons_of_mem ha]
        exact ih seen
      · rw [firsts_cons_of_not_mem ha]
        exact (List.prefix_append seen [a]).trans (ih (seen ++ [a]))

theorem mem_of_mem_firsts {seen l : List α} {a : α} (h : a ∈ firsts f seen l) :
    a ∈ seen ∨ a ∈ l := by
  induction l generalizing seen with
  | nil => exact Or.inl h
  | cons b l ih =>
      by_cases hb : f b ∈ seen.map f
      · rw [firsts_cons_of_mem hb] at h
        exact (ih h).imp id (List.mem_cons_of_mem b)
      · rw [firsts_cons_of_not_mem hb] at h
        rcases ih h with hmem | hmem
        · rcases List.mem_append.mp hmem with hmem | hmem
          · exact Or.inl hmem
          · exact Or.inr (List.mem_singleton.mp hmem ▸ List.mem_cons_self)
        · exact Or.inr (List.mem_cons_of_mem b hmem)

end Firsts

end Probing
