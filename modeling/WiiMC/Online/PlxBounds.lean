import WiiMC.Online.PlxText

/-!
# Where the reader of playlists leaves its arrays

* `InBounds`: the files with which it does not.
* `parsePLXPlaylist_returns_iff`: it returns without having left an array exactly for these.
* `parsePLXPlaylist_blank`: an empty line is enough.
-/

namespace WiiMC.Online

open Bytes Buffer Player

variable {alloc : ℕ → Bool} {c : Collected} {l : Text} {ls : List Text}

/-- There is memory for lists of up to `n` entries and one more. -/
def Enough (alloc : ℕ → Bool) (n : ℕ) : Prop := ∀ m, 0 < m → m ≤ n → alloc (m + 1) = true

/-- Every line that the loop comes to fits into the arrays, and there is memory for the first entry
if there is one. The loop does not come to a line when there has been no memory for the entries that
were finished in front of it. -/
def InBounds (alloc : ℕ → Bool) (ls : List Text) : Prop :=
  (∀ pre l, pre ++ [l] <+: ls →
    Enough alloc (finished .code (assignments (pre.map lineText))).length → FitsLine l) ∧
    (alloc 1 = true ∨ entries .code (assignments (ls.map lineText)) = [])

/-- The same from a state of the loop on. -/
def Within (alloc : ℕ → Bool) (c : Collected) (ls : List Text) : Prop :=
  (∀ pre l, pre ++ [l] <+: ls → Enough alloc (pre.foldl Collected.feed c).list.length →
    FitsLine l) ∧
    (alloc 1 = true ∨ (ls.foldl Collected.feed c).added = [])

theorem within_start : Within alloc .start ls ↔ InBounds alloc ls := by
  unfold Within InBounds
  simp only [foldl_feed, foldl_start, List.length_map, List.map_eq_nil_iff]

/-! ## The list grows -/

theorem assign_list (c : Collected) (attr value : Text) :
    (c.assign attr value).list = c.list ∨ (c.assign attr value).list = c.added := by
  unfold Collected.assign
  rcases attrOf attr with _ | a
  · exact .inl rfl
  cases a with
  | type => exact .inr rfl
  | _ => exact .inl rfl

/-- A line makes the list longer by at most one entry. -/
theorem feed_length (c : Collected) (l : Text) :
    (c.feed l).list.length = c.list.length ∨ (c.feed l).list.length = c.list.length + 1 := by
  unfold Collected.feed
  split_ifs
  · exact .inl rfl
  rcases assign_list c (attrPart (lineText l)) (valuePart (lineText l)) with h | h <;> rw [h]
  · exact .inl rfl
  · unfold Collected.added
    split_ifs
    · exact .inr List.length_append
    · exact .inl rfl

theorem length_le_foldl (c : Collected) (ls : List Text) :
    c.list.length ≤ (ls.foldl Collected.feed c).list.length := by
  induction ls generalizing c with
  | nil => exact le_rfl
  | cons l ls ih =>
      have hfeed := feed_length c l
      have hrest := ih (c.feed l)
      rw [List.foldl_cons]
      omega

theorem length_le_added (c : Collected) : c.list.length ≤ c.added.length := by
  unfold Collected.added
  split_ifs
  · rw [List.length_append]
    exact Nat.le_add_right _ _
  · exact le_rfl

/-! ## The run -/

/-- What the function does behind the loop, without its result. -/
def Collected.ends (alloc : ℕ → Bool) : Option Collected → Option Unit
  | none => some ()
  | some c => if c.newEntry.complete ∧ alloc (c.list.length + 1) = false then none else some ()

/-- Behind the last line only the first entry of the list can be missing. -/
theorem ends_ne_none_iff (henough : Enough alloc c.list.length)
    (hfirst : 0 < c.list.length → alloc 1 = true) :
    Collected.ends alloc c ≠ none ↔ Within alloc c [] := by
  have hnone : ∀ pre l, ¬pre ++ [l] <+: ([] : List Text) := fun pre l h => by
    simpa using h.length_le
  rw [Collected.ends]
  have hend : (c.newEntry.complete = true ∧ alloc (c.list.length + 1) = false) ↔
      ¬(alloc 1 = true ∨ c.added = []) := by
    unfold Collected.added
    rcases Nat.eq_zero_or_pos c.list.length with hlen | hlen
    · rw [List.eq_nil_of_length_eq_zero hlen, List.length_nil, Nat.zero_add, List.nil_append]
      by_cases hcomplete : c.newEntry.complete = true <;> simp [hcomplete]
    · have hne : c.list ≠ [] := List.ne_nil_of_length_pos hlen
      simp [henough c.list.length hlen le_rfl, hfirst hlen]
  constructor
  · intro h
    refine ⟨fun pre l hpre => absurd hpre (hnone pre l), not_not.mp fun hno => h ?_⟩
    rw [if_pos (hend.mpr hno)]
  · rintro ⟨-, hor⟩
    rw [if_neg fun h => hend.mp h hor]
    exact Option.some_ne_none _

/-- The prefixes of the lines are the first line alone, and those that go on behind it. -/
theorem within_cons (henough : Enough alloc c.list.length) :
    Within alloc c (l :: ls) ↔ FitsLine l ∧ Within alloc (c.feed l) ls := by
  constructor
  · rintro ⟨hfits, hor⟩
    refine ⟨hfits [] l (List.prefix_append [l] ls) henough, fun pre l' hpre => ?_, hor⟩
    exact hfits (l :: pre) l' (by simpa using hpre)
  · rintro ⟨hline, hfits, hor⟩
    refine ⟨fun pre l' hpre hpre' => ?_, hor⟩
    rcases pre with _ | ⟨x, pre⟩
    · obtain ⟨rfl, -⟩ := List.cons_prefix_cons.mp hpre
      exact hline
    · rw [List.cons_append] at hpre
      obtain ⟨rfl, hrest⟩ := List.cons_prefix_cons.mp hpre
      exact hfits pre l' hrest hpre'

/-- From a state with memory for its list on. -/
theorem runLines_ends_iff (henough : Enough alloc c.list.length)
    (hfirst : 0 < c.list.length → alloc 1 = true) :
    (runLines alloc c ls).bind (Collected.ends alloc) ≠ none ↔ Within alloc c ls := by
  induction ls generalizing c with
  | nil =>
      rw [runLines, Option.bind_some]
      exact ends_ne_none_iff henough hfirst
  | cons l ls ih =>
      rw [within_cons henough, runLines, Collected.step]
      by_cases hline : FitsLine l
      swap
      · rw [if_neg hline]
        exact ⟨fun h => absurd rfl h, fun h => absurd h.1 hline⟩
      rw [if_pos hline, Collected.grow]
      -- either the line leaves the list as it is, or it has ended an entry
      by_cases hsame : (c.feed l).list.length = c.list.length
      · have henough' : Enough alloc (c.feed l).list.length := by
          rwa [hsame]
        rw [if_pos hsame, Option.bind_some]
        show (runLines alloc (c.feed l) ls).bind (Collected.ends alloc) ≠ none ↔ _
        rw [ih henough' (by rwa [hsame])]
        exact ⟨fun h => ⟨hline, h⟩, fun h => h.2⟩
      have hlen := (feed_length c l).resolve_left hsame
      rw [if_neg hsame, hlen]
      by_cases hroom : alloc (c.list.length + 1) = false
      · -- the list is not there at all
        have hzero : c.list.length = 0 := by
          by_contra hne
          have htrue := henough c.list.length (Nat.pos_of_ne_zero hne) le_rfl
          rw [hroom] at htrue
          cases htrue
        rw [if_pos hroom]
        refine ⟨fun h => absurd rfl h, fun h => absurd h.2.2 (not_or.mpr ⟨?_, fun hnil => ?_⟩)⟩
        · rw [hzero] at hroom
          rw [hroom]
          exact Bool.noConfusion
        · have hle := (length_le_foldl (c.feed l) ls).trans (length_le_added _)
          rw [hnil, hlen] at hle
          exact absurd hle (by simp)
      have hroom : alloc (c.list.length + 1) = true := by simpa using hroom
      have hfirst' : alloc 1 = true := by
        rcases Nat.eq_zero_or_pos c.list.length with hzero | hpos
        · rwa [hzero] at hroom
        · exact hfirst hpos
      rw [if_neg (by rw [hroom]; exact Bool.noConfusion)]
      by_cases hmore : alloc (c.list.length + 1 + 1) = false
      · -- the function returns, and the loop comes to no other line
        rw [if_pos hmore]
        refine ⟨fun _ => ⟨hline, fun pre l' _ henough' => ?_, .inl hfirst'⟩,
          fun _ => Option.some_ne_none _⟩
        have htrue := henough' (c.list.length + 1) (Nat.succ_pos _)
          (hlen.ge.trans (length_le_foldl (c.feed l) pre))
        rw [hmore] at htrue
        cases htrue
      · have henough' : Enough alloc (c.feed l).list.length := by
          intro n hpos hle
          rw [hlen] at hle
          rcases Nat.lt_or_eq_of_le hle with hlt | rfl
          · exact henough n hpos (Nat.le_of_lt_succ hlt)
          · simpa using hmore
        rw [if_neg hmore, Option.bind_some]
        show (runLines alloc (c.feed l) ls).bind (Collected.ends alloc) ≠ none ↔ _
        rw [ih henough' fun _ => hfirst']
        exact ⟨fun h => ⟨hline, h⟩, fun h => h.2⟩

/-- `ParsePLXPlaylist` returns, without a read or a write beside an array or the list, if and only
if the lines that it comes to fit and `malloc` gives it a list for a first entry. -/
theorem parsePLXPlaylist_returns_iff (alloc : ℕ → Bool) (stack : Arrays) (search http : Bool)
    (content : List UInt8) :
    (∃ r, parsePLXPlaylist alloc stack search http content = some r) ↔
      InBounds alloc (lines (loadPlx http content)) := by
  have hends : (runLines alloc .start (lines (loadPlx http content))).bind (Collected.ends alloc) ≠
      none ↔ InBounds alloc (lines (loadPlx http content)) :=
    (runLines_ends_iff (c := .start) (fun n hpos hle => absurd hpos (Nat.not_lt.mpr hle))
      fun h => absurd h (Nat.lt_irrefl 0)).trans within_start
  rw [← hends, parsePLXPlaylist_eq, ← Option.ne_none_iff_exists']
  by_cases hempty : loadPlx http content = []
  · rw [if_pos hempty, hempty]
    exact ⟨fun _ => nofun, fun _ => nofun⟩
  rw [if_neg hempty]
  rcases runLines alloc .start (lines (loadPlx http content)) with _ | _ | c
  · exact ⟨fun h => absurd rfl h, fun h => absurd rfl h⟩
  · exact ⟨fun _ => nofun, fun _ => nofun⟩
  · rw [Option.bind_some, Option.bind_some, Collected.ends]
    simp only
    by_cases hend : c.newEntry.complete = true ∧ alloc (c.list.length + 1) = false
    · rw [if_pos hend, if_pos hend]
      exact ⟨fun h => absurd rfl h, fun h => absurd rfl h⟩
    · rw [if_neg hend, if_neg hend]
      exact ⟨fun _ => nofun, fun _ => nofun⟩

/-- Arrays with zeros. -/
def zeroed : Arrays where
  line := List.replicate 4096 0
  line_length := List.length_replicate
  attr := List.replicate 1024 0
  attr_length := List.length_replicate
  value := List.replicate 1024 0
  value_length := List.length_replicate

/-- A file with a single empty line. -/
theorem parsePLXPlaylist_blank : parsePLXPlaylist (fun _ => true) zeroed false false [10] = none := by
  rw [parsePLXPlaylist_eq]
  decide +kernel

end WiiMC.Online
