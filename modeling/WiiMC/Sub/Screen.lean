import WiiMC.Lib.Transition
import WiiMC.Sub.Find

/-!
# The subtitle on the screen

Subtitle files are read into tables, one of the tables is selected, and `update_subtitles` calls
`find_sub` with the times of the movie, while `step_sub` moves the place in the table and the end of
a file frees all tables. The variables of `find_sub` outlive the tables.

* `screen`: the system.
* `findSub_shows`: in every run, `find_sub` leaves on the screen the subtitle of the time.
* `findSub_reused`: it does not, if a table comes to lie where the one searched last was.

The floating-point times of the movie, from which `update_subtitles` computes the key, are left out,
and so are `MP_CMD_SUB_REMOVE`, which frees single tables, and the demuxers that set `vo_sub`.
-/

namespace WiiMC.Sub

open Transition

/-- The tables and what is on the screen. -/
structure Screen where
  find : FindState
  /-- The tables that have been read and not been freed, `set_of_subtitles`, by address. -/
  tables : ℕ → Option (List Subtitle)
  subdata : Option ℕ

/-- What happens to the subtitles. -/
inductive ScreenAction
  /-- `add_subtitles`: `sub_read_file` returns a table at an address. -/
  | read (addr : ℕ) (subs : List Subtitle)
  /-- `mp_property_sub` selects a table, or none, and calls `update_subtitles` with `reset`. -/
  | select (addr : Option ℕ)
  /-- `update_subtitles` with `reset`, after a seek. -/
  | reset
  /-- `update_subtitles` calls `find_sub`. -/
  | find (key : ℤ)
  /-- `MP_CMD_SUB_STEP`. -/
  | step (key movement : ℤ)
  /-- `uninit_player` frees all tables. -/
  | uninit

/-- The table that is selected, with its address. -/
def Screen.table (s : Screen) : Option (ℕ × List Subtitle) :=
  s.subdata.bind fun addr => (s.tables addr).map fun subs => (addr, subs)

/-- One step; `malloc` returns no address that is in use. -/
def screenStep (s : Screen) : ScreenAction → Option Screen
  | .read addr subs =>
    if s.tables addr = none then
      some { s with tables := Function.update s.tables addr (some subs) }
    else none
  | .select none => some { s with find := { s.find with voSub := none }, subdata := none }
  | .select (some addr) =>
    if s.tables addr = none then none
    else some { s with find := { s.find with voSub := none }, subdata := some addr }
  | .reset => some { s with find := { s.find with voSub := none } }
  | .find key =>
    match s.table with
    | some (addr, subs) => some { s with find := findSub s.find addr subs key }
    | none => some s
  | .step key movement =>
    match s.table with
    | some (_, subs) => some { s with find := stepSub s.find subs key movement }
    | none => some s
  | .uninit =>
    some ⟨{ s.find with voSub := none }, fun _ => none, none⟩

/-- The subtitles of a program that starts without tables. -/
def screen : System Screen ScreenAction where
  init s := s = ⟨.fresh, fun _ => none, none⟩
  step := screenStep

/-- A table that is read is in order and lies elsewhere than the one searched last, the key is an
`int`, and `step_sub` is called with the place in the table. -/
def Fresh (s : Screen) : ScreenAction → Prop
  | .read addr subs => Timed subs ∧ subs ≠ [] ∧ s.find.lastSubData ≠ some addr
  | .find key => -2 ^ 31 ≤ key ∧ key < 2 ^ 31
  | .step _ _ => ∀ addr subs, s.table = some (addr, subs) → s.find.currentSub < subs.length
  | _ => True

variable {s t u : Screen} {addr : ℕ} {subs : List Subtitle} {key : ℤ} {as : List ScreenAction}

/-- The table in use is the one at the address of `subdata`. -/
theorem table_eq_some : s.table = some (addr, subs) ↔
    s.subdata = some addr ∧ s.tables addr = some subs := by
  unfold Screen.table
  constructor
  · intro h
    obtain ⟨addr', hdata, hmap⟩ := Option.bind_eq_some_iff.mp h
    obtain ⟨subs', htable, hpair⟩ := Option.map_eq_some_iff.mp hmap
    cases hpair
    exact ⟨hdata, htable⟩
  · rintro ⟨hdata, htable⟩
    rw [hdata, Option.bind_some, htable, Option.map_some]

/-- The tables are in order, and what is kept of the last search is true of the table. -/
structure Kept (s : Screen) : Prop where
  place : 0 ≤ s.find.currentSub
  timed : ∀ addr subs, s.tables addr = some subs → Timed subs ∧ subs ≠ []
  range : ∀ addr subs, s.tables addr = some subs → s.find.lastSubData = some addr →
    RangeOk s.find subs
  shown : ∀ v ∈ s.find.voSub, ∃ addr subs, s.table = some (addr, subs) ∧ v ∈ subs

/-- A call of `find_sub` shows what it should, and keeps its range. -/
theorem Kept.find_spec (h : Kept s) (htable : s.table = some (addr, subs)) (hsmall : key < 2 ^ 31) :
    (findSub s.find addr subs key).voSub = display s.find.voSub subs key ∧
      RangeOk (findSub s.find addr subs key) subs ∧
      (findSub s.find addr subs key).lastSubData = some addr ∧
      0 ≤ (findSub s.find addr subs key).currentSub := by
  have hlive := (table_eq_some.mp htable).2
  obtain ⟨htimed, hne⟩ := h.timed addr subs hlive
  exact findSub_spec htimed hne hsmall h.place (h.range addr subs hlive)

/-- Stepping stays in the table. -/
theorem currentSub_stepSub {f : FindState} {movement : ℤ} (h0 : 0 ≤ f.currentSub)
    (hi : f.currentSub < subs.length) : 0 ≤ (stepSub f subs key movement).currentSub ∧
      (stepSub f subs key movement).currentSub < subs.length := by
  simp only [stepSub]
  constructor <;> split_ifs <;> omega

/-- What is on the screen comes from the table. -/
theorem mem_of_mem_display {old : Option Subtitle} {v : Subtitle}
    (hold : ∀ v ∈ old, v ∈ subs) (hv : v ∈ display old subs key) : v ∈ subs := by
  unfold display at hv
  split at hv
  · rename_i w hw
    cases hv
    exact hold _ (Option.mem_filter_iff.mp hw).1
  · split_ifs at hv
    · cases hv
    · exact List.mem_of_find?_eq_some hv

/-- What is on the screen comes from the table in use. -/
theorem Kept.subs_of_shown (h : Kept s) (htable : s.table = some (addr, subs)) :
    ∀ v ∈ s.find.voSub, v ∈ subs := by
  intro v hv
  obtain ⟨addr', subs', htable', hmem⟩ := h.shown v hv
  rw [htable] at htable'
  cases htable'
  exact hmem

/-- Reading a file keeps the invariant. -/
theorem Kept.read (h : Kept s) (htimed : Timed subs) (hne : subs ≠ [])
    (hother : s.find.lastSubData ≠ some addr) (hfree : s.tables addr = none) :
    Kept { s with tables := Function.update s.tables addr (some subs) } := by
  refine ⟨h.place, fun addr' subs' hlive => ?_, fun addr' subs' hlive hlast => ?_, fun v hv => ?_⟩
  · simp only [Function.update_apply] at hlive
    split_ifs at hlive
    · cases hlive
      exact ⟨htimed, hne⟩
    · exact h.timed addr' subs' hlive
  · have hne' : addr' ≠ addr := by
      rintro rfl
      exact hother hlast
    simp only [Function.update_apply, if_neg hne'] at hlive
    exact h.range addr' subs' hlive hlast
  · obtain ⟨addr', subs', htable, hmem⟩ := h.shown v hv
    obtain ⟨hdata, hlive⟩ := table_eq_some.mp htable
    -- the table on the screen is not at the address that was free
    have hne' : addr' ≠ addr := by
      rintro rfl
      rw [hfree] at hlive
      cases hlive
    refine ⟨addr', subs', table_eq_some.mpr ⟨hdata, ?_⟩, hmem⟩
    simp only [Function.update_apply, if_neg hne', hlive]

/-- A search keeps the invariant. -/
theorem Kept.find (h : Kept s) (htable : s.table = some (addr, subs)) (hsmall : key < 2 ^ 31) :
    Kept { s with find := findSub s.find addr subs key } := by
  obtain ⟨hvo, hrange, hlast, hplace⟩ := h.find_spec htable hsmall
  refine ⟨hplace, h.timed, fun addr' subs' hlive hlast' => ?_, fun v hv => ?_⟩
  · -- the table searched last is the one that is selected
    have heq : addr' = addr := Option.some.inj (hlast'.symm.trans hlast)
    rw [heq, (table_eq_some.mp htable).2] at hlive
    cases hlive
    exact hrange
  · simp only [hvo] at hv
    exact ⟨addr, subs, htable, mem_of_mem_display (h.subs_of_shown htable) hv⟩

/-- The screen is empty, and the place and the range are as they were. -/
theorem Kept.clear (h : Kept s) {subdata : Option ℕ} :
    Kept { s with find := { s.find with voSub := none }, subdata := subdata } :=
  ⟨h.place, h.timed, h.range, fun v hv => by cases hv⟩

/-- A step keeps the invariant. -/
theorem Kept.screenStep {a : ScreenAction} (h : Kept s) (hok : Fresh s a)
    (hstep : screenStep s a = some t) : Kept t := by
  cases a with
  -- a table read from a file is a new one, in order
  | read addr subs =>
    obtain ⟨htimed, hne, hother⟩ := hok
    rw [Sub.screenStep] at hstep
    split_ifs at hstep with hfree
    cases hstep
    exact h.read htimed hne hother hfree
  | select addr =>
    cases addr with
    | none =>
      cases hstep
      exact h.clear
    | some addr =>
      rw [Sub.screenStep] at hstep
      split_ifs at hstep
      cases hstep
      exact h.clear
  | reset =>
    cases hstep
    exact h.clear
  -- without a table nothing is shown
  | find key =>
    rw [Sub.screenStep] at hstep
    cases htable : s.table with
    | none =>
      rw [htable] at hstep
      cases hstep
      exact h
    | some p =>
      rw [htable] at hstep
      cases hstep
      exact h.find htable hok.2
  | step key movement =>
    rw [Sub.screenStep] at hstep
    cases htable : s.table with
    | none =>
      rw [htable] at hstep
      cases hstep
      exact h
    | some p =>
      rw [htable] at hstep
      cases hstep
      exact ⟨(currentSub_stepSub h.place (hok p.1 p.2 htable)).1, h.timed, h.range, h.shown⟩
  -- nothing is left to be shown
  | uninit =>
    cases hstep
    refine ⟨h.place, fun _ _ hlive => ?_, fun _ _ hlive => ?_, fun v hv => ?_⟩
    · cases hlive
    · cases hlive
    · cases hv

/-- The invariant holds in every state of a run. -/
theorem kept_of_reachable (hs : screen.Reachable Fresh s) : Kept s := by
  refine hs.invariant (fun s hinit => ?_) fun s a t _ h hok hstep => h.screenStep hok hstep
  rw [hinit]
  refine ⟨le_rfl, fun _ _ hlive => ?_, fun _ _ hlive => ?_, fun v hv => ?_⟩
  · cases hlive
  · cases hlive
  · cases hv

/-- A search shows the text of its time. -/
theorem Kept.find_shows (h : Kept s) (htable : s.table = some (addr, subs)) (hkey : 0 < key)
    (hsmall : key < 2 ^ 31) (hstep : Sub.screenStep s (.find key) = some t) :
    t.find.voSub = subtitleAt subs key := by
  have hspec := (h.find_spec htable hsmall).1
  rw [Sub.screenStep, htable] at hstep
  cases hstep
  simp only [hspec]
  cases hold : s.find.voSub.filter fun v => v.shows key with
  | none => simp only [display, hold, if_neg (not_le.mpr hkey)]
  | some v =>
    -- what is still on the screen is of this table, and the table has one subtitle for the time
    obtain ⟨hv, hshows⟩ := Option.mem_filter_iff.mp hold
    have htimed := (h.timed addr subs (table_eq_some.mp htable).2).1
    rw [subtitleAt_of_shows htimed (h.subs_of_shown htable v hv) hshows]
    simp only [display, hold]

/-- After `find_sub` the subtitle of the time is on the screen, however the tables were read,
selected, searched and freed before. -/
theorem findSub_shows (hs : screen.Reachable Fresh s) (htable : s.table = some (addr, subs))
    (hkey : 0 < key) (hsmall : key < 2 ^ 31) (hstep : screenStep s (.find key) = some t) :
    t.find.voSub = subtitleAt subs key := by
  have hkept := kept_of_reachable hs
  exact hkept.find_shows htable hkey hsmall hstep

private def early : List Subtitle := [⟨10, 20, [[72, 105]], 0⟩, ⟨300, 400, [[66, 121, 101]], 0⟩]

private def late : List Subtitle := [⟨50, 60, [[72, 109]], 0⟩, ⟨300, 400, [[66, 121, 101]], 0⟩]

theorem findSub_shows_second :
    Timed early ∧ early ≠ [] ∧ ∃ s t : Screen, screen.Reachable Fresh s ∧
      screenStep s (.find 350) = some t ∧ t.find.voSub = subtitleAt early 350 := by
  have htimed : Timed early := ⟨by decide, by decide, by decide⟩
  have hne : early ≠ [] := by decide
  have hread : screen.Reachable Fresh _ :=
    .step (a := .read 4096 early) (.init rfl) ⟨htimed, hne, by decide⟩ rfl
  have hselect : screen.Reachable Fresh _ := .step (a := .select (some 4096)) hread trivial rfl
  exact ⟨htimed, hne, _, _, hselect, rfl,
    @findSub_shows _ _ 4096 early 350 hselect rfl (by decide) (by decide) rfl⟩

/-- The range without a subtitle is kept for the address of a table, not for the table: if the next
file's table comes to lie there, a subtitle in that range stays away. -/
theorem findSub_reused :
    ((screen.exec ⟨.fresh, fun _ => none, none⟩
      [.read 4096 early, .select (some 4096), .find 100, .uninit,
        .read 4096 late, .select (some 4096), .find 55]).map fun t => t.find.voSub) = some none ∧
      Timed late ∧ subtitleAt late 55 = late[0]? := by
  exact ⟨by decide, ⟨by decide, by decide, by decide⟩, by decide⟩

end WiiMC.Sub
