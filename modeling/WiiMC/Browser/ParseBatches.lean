import WiiMC.Browser.ParseThread

/-!
# Batches of a directory

A call of `ParseDirEntries`, step by step and with `parseHalt` set at any time, is a batch of
`parseAll`.

* `SoFar`, `Ended`: which batches are over.
* `Amid`: what has been done of the batch under way.
* `Amid.step`: a step of `ParseDirEntries` goes on with the batch, or ends it.
-/

namespace WiiMC.Browser

open Player ParseState

variable {menu : Menu} {l : Listing} {s t : ParseState} {e : Entries} {rest : List (Dirent × Memory)}

/-- The batches that are over, by what `parseHalt` was in them; all were full where nothing has
disturbed the listing. -/
structure Batches (disturbed : Bool) (halts : List (ℕ → Bool)) : Prop where
  quiet : disturbed = false → ∀ halt ∈ halts, halt = fun _ => false

/-- Some batches of the listing are over, and the others are made of `rest`. -/
def SoFar (menu : Menu) (l : Listing) (disturbed : Bool) (rest : List (Dirent × Memory))
    (browser : Browser) : Prop :=
  ∃ halts, Batches disturbed halts ∧
    ∀ more, parseAll true menu (halts ++ more) l.entries l.up = parseAll true menu more rest browser

/-- All batches of the listing are over: no other call of `ParseDirEntries` adds to it. -/
def Ended (menu : Menu) (l : Listing) (disturbed : Bool) (browser : Browser) : Prop :=
  ∃ halts, Batches disturbed halts ∧
    ∀ more, parseAll true menu (halts ++ more) l.entries l.up = some browser

/-- Between two calls of `ParseDirEntries`. -/
def Between (menu : Menu) (l : Listing) (s : ParseState) : Prop :=
  match s.dirHandle with
  | some h => SoFar menu l s.disturbed h.rest s.browser
  | none => Ended menu l s.disturbed s.browser

/-- What `parseHalt` may have been in the batch under way: it was zero up to the `k`-th look, where
it was `b`. -/
structure Looked (k : ℕ) (b : Bool) (halt : ℕ → Bool) : Prop where
  before : ∀ j < k, halt j = false
  at_k : halt k = b

/-- In a call of `ParseDirEntries`. -/
def Amid (menu : Menu) (l : Listing) (s : ParseState) : Entries → Prop
  | .loop i ended => ∃ rest browser h, SoFar menu l s.disturbed rest browser ∧
      s.dirHandle = some h ∧ ∃ k, ∀ halt : ℕ → Bool, (∀ j < k, halt j = false) →
        readLoop menu halt rest 0 0 true browser = readLoop menu halt h.rest k i ended s.browser
  | .sort i ended => ∃ rest browser h, SoFar menu l s.disturbed rest browser ∧
      s.dirHandle = some h ∧ ∃ k b, (s.disturbed = false → b = false) ∧ ∀ halt, Looked k b halt →
        readLoop menu halt rest 0 0 true browser =
          some ⟨i, !(ended || halt (k + 1)), h.rest, s.browser⟩
  | .last ended => ∃ rest browser h, SoFar menu l s.disturbed rest browser ∧
      s.dirHandle = some h ∧ ∃ k b i, (s.disturbed = false → b = false) ∧ ∀ halt, Looked k b halt →
        parseDirEntries true menu halt rest browser =
          some ⟨i, !(ended || halt (k + 1)), h.rest, s.browser⟩
  | .close => Ended menu l s.disturbed s.browser

theorem Batches.append {disturbed : Bool} {halts : List (ℕ → Bool)} {halt : ℕ → Bool}
    (h : Batches disturbed halts) (hhalt : disturbed = false → halt = fun _ => false) :
    Batches disturbed (halts ++ [halt]) where
  quiet hd x hx := by
    rcases List.mem_append.mp hx with hx | hx
    · exact h.quiet hd x hx
    · rw [List.mem_singleton.mp hx, hhalt hd]

/-- A batch that leaves more entries is one of those that are over. -/
theorem SoFar.batch {disturbed : Bool} {browser : Browser} {halt : ℕ → Bool} {b : Batch}
    (h : SoFar menu l disturbed rest browser) (hhalt : disturbed = false → halt = fun _ => false)
    (hparse : parseDirEntries true menu halt rest browser = some b) :
    if b.more then SoFar menu l disturbed b.rest b.browser
    else Ended menu l disturbed b.browser := by
  obtain ⟨halts, hbatches, heq⟩ := h
  split_ifs with hmore
  · refine ⟨halts ++ [halt], hbatches.append hhalt, fun more => ?_⟩
    rw [List.append_assoc, heq, List.singleton_append, parseAll, hparse, Option.bind_some,
      if_pos hmore]
  · refine ⟨halts ++ [halt], hbatches.append hhalt, fun more => ?_⟩
    rw [List.append_assoc, heq, List.singleton_append, parseAll, hparse, Option.bind_some,
      if_neg hmore]

/-- `ParseDirEntries` uses nothing but the directory and the list. -/
theorem entriesStep_frame {r : Entries ⊕ Bool} (h : s.entriesStep menu e = some (t, r)) :
    t = { s with browser := t.browser, dirHandle := t.dirHandle } := by
  -- A step of the batch stores to the browser and the directory handle only.
  cases e with
  | loop i ended =>
    simp only [entriesStep] at h
    split_ifs at h with hstop
    · cases h
      rfl
    · obtain ⟨handle, -, h⟩ := Option.bind_eq_some_iff.mp h
      obtain ⟨⟨t', e'⟩, hread, heq⟩ := Option.map_eq_some_iff.mp h
      cases heq
      unfold readEntry at hread
      split at hread
      · cases hread
        rfl
      · dsimp only at hread
        split_ifs at hread
        · cases hread
          rfl
        · cases hread
          rfl
        · cases hread
          rfl
        · obtain ⟨⟨added, browser⟩, -, heq⟩ := Option.map_eq_some_iff.mp hread
          cases added <;> cases heq <;> rfl
  | sort i ended =>
    simp only [entriesStep] at h
    split_ifs at h
    · obtain ⟨browser, -, heq⟩ := Option.map_eq_some_iff.mp h
      cases heq
      rfl
    · cases h
      rfl
  | last ended =>
    simp only [entriesStep] at h
    split_ifs at h <;> cases h <;> rfl
  | close =>
    cases h
    rfl

/-- It says that there are no more entries behind `closedir` only. -/
theorem entriesStep_closed (h : s.entriesStep menu e = some (t, .inr false)) :
    t.dirHandle = none := by
  cases e with
  | loop i ended =>
    simp only [entriesStep] at h
    split_ifs at h
    · cases h
    · obtain ⟨handle, -, h⟩ := Option.bind_eq_some_iff.mp h
      obtain ⟨r, -, heq⟩ := Option.map_eq_some_iff.mp h
      cases heq
  | sort i ended =>
    simp only [entriesStep] at h
    split_ifs at h
    · obtain ⟨browser, -, heq⟩ := Option.map_eq_some_iff.mp h
      cases heq
    · cases h
  | last ended =>
    simp only [entriesStep] at h
    split_ifs at h <;> cases h
  | close =>
    cases h
    rfl

/-- Where a step of `ParseDirEntries` leads. -/
def Follows (menu : Menu) (l : Listing) (s : ParseState) : Entries ⊕ Bool → Prop
  | .inl e => Amid menu l s e
  | .inr _ => Between menu l s

/-- An iteration of the loop. -/
theorem Amid.readEntry {i : ℕ} {ended : Bool} {h : DirHandle} {r : ParseState × Entries}
    (hamid : Amid menu l s (.loop i ended)) (hi : ¬ 20 ≤ i) (hhandle : s.dirHandle = some h)
    (hread : s.readEntry menu h i = some r) : Amid menu l r.1 r.2 := by
  obtain ⟨rest, browser, h', hsofar, hhandle', k, heq⟩ := hamid
  obtain rfl : h' = h := Option.some.inj (hhandle'.symm.trans hhandle)
  -- the loop looked once more, and saw zero
  have hlook : ∀ halt : ℕ → Bool, (∀ j < k + 1, halt j = false) →
      ¬ (20 ≤ i ∨ halt k = true) ∧ ∀ j < k, halt j = false := fun halt hhalt =>
    ⟨by simp [hi, hhalt k (Nat.lt_succ_self k)], fun j hj => hhalt j (Nat.lt_succ_of_lt hj)⟩
  have hended : ∀ {halt : ℕ → Bool}, Looked k false halt → ¬ (20 ≤ i ∨ halt k = true) := by
    intro halt hlooked
    simp [hi, hlooked.at_k]
  rcases hrest : h'.rest with _ | ⟨⟨d, m⟩, tail⟩
  · simp only [ParseState.readEntry, hrest, Option.some.injEq] at hread
    subst hread
    refine ⟨rest, browser, h', hsofar, hhandle, k, false, fun _ => rfl, fun halt hlooked => ?_⟩
    rw [heq halt hlooked.before, hrest, readLoop, if_neg (hended hlooked)]
    rfl
  simp only [ParseState.readEntry, hrest] at hread
  split_ifs at hread with hdot hsubs hskip
  · cases hread
    refine ⟨rest, browser, _, hsofar, rfl, k + 1, fun halt hhalt => ?_⟩
    obtain ⟨hgo, hbefore⟩ := hlook halt hhalt
    rw [heq halt hbefore, hrest, readLoop, if_neg hgo]
    simp only [if_pos hdot]
  · cases hread
    refine ⟨rest, browser, _, hsofar, rfl, k, false, fun _ => rfl, fun halt hlooked => ?_⟩
    rw [heq halt hlooked.before, hrest, readLoop, if_neg (hended hlooked)]
    simp only [if_neg hdot, if_pos hsubs, Bool.true_or, Bool.not_true]
  · cases hread
    refine ⟨rest, browser, _, hsofar, rfl, k + 1, fun halt hhalt => ?_⟩
    obtain ⟨hgo, hbefore⟩ := hlook halt hhalt
    rw [heq halt hbefore, hrest, readLoop, if_neg hgo]
    simp only [if_neg hdot, if_neg hsubs, if_pos hskip]
  · obtain ⟨⟨added, browser'⟩, hadd, heq'⟩ := Option.map_eq_some_iff.mp hread
    cases added with
    | true =>
      cases heq'
      refine ⟨rest, browser, _, hsofar, rfl, k + 1, fun halt hhalt => ?_⟩
      obtain ⟨hgo, hbefore⟩ := hlook halt hhalt
      rw [heq halt hbefore, hrest, readLoop, if_neg hgo]
      simp only [if_neg hdot, if_neg hsubs, if_neg hskip, hadd, Option.bind_some]
    | false =>
      cases heq'
      refine ⟨rest, browser, _, hsofar, rfl, k, false, fun _ => rfl, fun halt hlooked => ?_⟩
      rw [heq halt hlooked.before, hrest, readLoop, if_neg (hended hlooked)]
      simp only [if_neg hdot, if_neg hsubs, if_neg hskip, hadd, Option.bind_some, Bool.true_or,
        Bool.not_true]

/-- A step of `ParseDirEntries` goes on with the batch, or ends it. -/
theorem Amid.step {r : Entries ⊕ Bool} (hamid : Amid menu l s e)
    (hflag : s.parseHalt ≠ 0 → s.disturbed = true) (hstep : s.entriesStep menu e = some (t, r)) :
    Follows menu l t r := by
  cases e with
  | loop i ended =>
    simp only [entriesStep] at hstep
    split_ifs at hstep with hstop
    · cases hstep
      obtain ⟨rest, browser, h, hsofar, hhandle, k, heq⟩ := hamid
      refine ⟨rest, browser, h, hsofar, hhandle, k, decide (s.parseHalt ≠ 0), fun hquiet => ?_,
        fun halt hlooked => ?_⟩
      · by_contra hne
        rw [hflag (by simpa using hne)] at hquiet
        cases hquiet
      · have hlook : 20 ≤ i ∨ halt k = true :=
          hstop.imp_right fun hset => hlooked.at_k.trans (decide_eq_true hset)
        rw [heq halt hlooked.before]
        rcases h.rest with _ | ⟨⟨d, m⟩, tail⟩ <;> rw [readLoop, if_pos hlook]
    · obtain ⟨h, hhandle, hstep⟩ := Option.bind_eq_some_iff.mp hstep
      obtain ⟨⟨t', e'⟩, hread, heq⟩ := Option.map_eq_some_iff.mp hstep
      cases heq
      exact hamid.readEntry (fun hi => hstop (Or.inl hi)) hhandle hread
  | sort i ended =>
    obtain ⟨rest, browser, h, hsofar, hhandle, k, b, hb, heq⟩ := hamid
    simp only [entriesStep] at hstep
    split_ifs at hstep with hi
    · obtain ⟨browser', hsort, heq'⟩ := Option.map_eq_some_iff.mp hstep
      cases heq'
      refine ⟨rest, browser, h, hsofar, hhandle, k, b, i, hb, fun halt hlooked => ?_⟩
      rw [parseDirEntries, heq halt hlooked, Option.bind_some, if_pos ⟨rfl, hi⟩]
      simp only [hsort, Option.map_some]
    · cases hstep
      refine ⟨rest, browser, h, hsofar, hhandle, k, b, i, hb, fun halt hlooked => ?_⟩
      rw [parseDirEntries, heq halt hlooked, Option.bind_some, if_neg fun hand => hi hand.2]
  | last ended =>
    obtain ⟨rest, browser, h, hsofar, hhandle, k, b, i, hb, heq⟩ := hamid
    -- what was seen in this call: nothing up to `k`, then `b`, and now the last look
    have hbatch : ∀ seen : Bool, (s.disturbed = false → seen = false) →
        ∃ halt : ℕ → Bool, halt (k + 1) = seen ∧ Looked k b halt ∧
          (s.disturbed = false → halt = fun _ => false) := by
      intro seen hseen
      refine ⟨fun j => if j = k then b else if j = k + 1 then seen else false, ?_, ⟨?_, ?_⟩, ?_⟩
      · simp
      · intro j hj
        simp [Nat.ne_of_lt hj, Nat.ne_of_lt (Nat.lt_succ_of_lt hj)]
      · simp
      · intro hquiet
        funext j
        simp [hb hquiet, hseen hquiet]
    have hseen : s.disturbed = false → decide (s.parseHalt ≠ 0) = false := by
      intro hquiet
      by_contra hne
      rw [hflag (by simpa using hne)] at hquiet
      cases hquiet
    obtain ⟨halt, hlast, hlooked, hquiet⟩ := hbatch _ hseen
    have hover := hsofar.batch hquiet (heq halt hlooked)
    simp only [entriesStep] at hstep
    split_ifs at hstep with hend
    · cases hstep
      rw [hlast, if_neg] at hover
      · exact hover
      · rcases hend with hended | hset
        · simp [hended]
        · simp [hset]
    · cases hstep
      rw [hlast, if_pos] at hover
      · simp only [Follows, Between, hhandle]
        exact hover
      · simpa [not_or] using hend
  | close =>
    cases hstep
    exact hamid

end WiiMC.Browser
