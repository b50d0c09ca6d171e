import WiiMC.Dav.Listing

/-!
# The names of a listing

A server may name a resource more than once. `query` keeps the first entry of a name, and finds the
name again in a table of 2048 slots. The folder is refused at its 1025th name.

* `storeAll`: the entries put into the table one after the other.
* `store_cases`: what one entry does.
* `KeepsFirsts`: the table does what a scan of the entries would, and says when there are too many.
* `responseLoop_eq`: the walk over a tree is such a run.
-/

namespace WiiMC.Dav

open Bytes Http

variable {κ : Type}

/-! ## A run of the table -/

/-- What `query` says of a folder that has too many entries. -/
def folderOverflow : Failure := (.eoverflow, "WebDAV folder exceeds 1024 entries")

/-- What `query` says when `realloc` fails. -/
def outOfMemory : Failure := (.enomem, "Out of memory")

/-- What `query` says of a name that `gc_dav_entry` cannot hold. -/
def nameOverflow : Failure := (.enametoolong, "WebDAV filename exceeds 255 bytes")

/-- Store entries one after the other, each with memory as it is then, until one fails. -/
def storeAll (t : Table) : List (GcDavEntry × Net κ) → Except Failure Table
  | [] => .ok t
  | (entry, net) :: rest =>
      match (t.store entry net).1 with
      | .error e => .error e
      | .ok t => storeAll t rest

/-- A naive scan: every entry whose name is not among the entries kept so far. -/
def scan (es : List (GcDavEntry × Net κ)) : List GcDavEntry :=
  Probing.firsts (·.name) [] (es.map (·.1))

/-- The names in the table. -/
def Table.names (t : Table) : List (List UInt8) := t.entries.map (·.name)

/-- The search of `query` for a name. -/
def Table.search (t : Table) (name : List UInt8) : Option (Option ℕ) :=
  Probing.search 2048 t.slots t.names name 2048 (nameHash name % 2048)

/-- The table finds its names, and its entries have their room. -/
structure Table.Sound (t : Table) : Prop extends t.Ok where
  room : t.entries.length ≤ t.capacity
  capacity : t.capacity ≤ gcDavMaxEntries

/-- The empty table is sound. -/
theorem Table.sound_empty : Table.empty.Sound where
  toOk := Table.ok_empty
  room := Nat.le_refl 0
  capacity := Nat.zero_le _

variable {t t' : Table} {entry : GcDavEntry} {net : Net κ}

/-- A name is found in the table, or a slot for it is. -/
theorem Table.Ok.search_spec (hok : t.Ok) (name : List UInt8) :
    (t.search name = some none ∧ name ∈ t.names) ∨
      ∃ slot, t.search name = some (some slot) ∧ name ∉ t.names ∧
        Probing.Free 2048 nameHash t.slots name slot := by
  refine hok.holds.search_spec ?_ name
  rw [List.length_map]
  exact hok.length.trans_lt (by decide)

/-- What room `query` makes for one more entry, as long as there may be one. -/
theorem Table.Sound.grow_cases (hsound : t.Sound) (hlen : t.entries.length < gcDavMaxEntries)
    (net : Net κ) :
    ((t.grow net).1 = none ∧ net.alloc.1 = false) ∨
      ∃ capacity, (t.grow net).1 = some capacity ∧ t.entries.length < capacity ∧
        capacity ≤ gcDavMaxEntries := by
  have hroom := hsound.room
  have hcapacity := hsound.capacity
  unfold Table.grow
  by_cases hfull : t.entries.length = t.capacity
  · rw [if_pos hfull]
    rcases net.alloc with ⟨_ | _, net₁⟩
    · exact Or.inl ⟨rfl, rfl⟩
    · -- twice the room, or the first 32 entries, but never more than 1024
      refine Or.inr ⟨_, rfl, ?_, Nat.min_le_right _ _⟩
      refine lt_min ?_ hlen
      split_ifs <;> omega
  · rw [if_neg hfull]
    exact Or.inr ⟨_, rfl, by omega, hcapacity⟩

/-- What is left of `store` when the search has found a free slot. -/
theorem Table.store_of_free {slot : ℕ} (entry : GcDavEntry) (net : Net κ)
    (hsearch : t.search entry.name = some (some slot)) : t.store entry net =
      if gcDavMaxEntries ≤ t.entries.length then (.error folderOverflow, net)
      else match t.grow net with
        | (none, net) => (.error outOfMemory, net)
        | (some capacity, net) =>
            (.ok { entries := t.entries ++ [entry], capacity,
                   slots := Function.update t.slots slot ((t.entries.length + 1) % 2 ^ 16) }, net) := by
  unfold Table.store
  rw [show Probing.search 2048 t.slots (t.entries.map (·.name)) entry.name 2048
    (nameHash entry.name % 2048) = some (some slot) from hsearch]
  rfl

/-- What one entry does: its name is there, or it is one too many, or there is no memory for it, or
it is stored behind the others. -/
theorem Table.Sound.store_cases (hsound : t.Sound) (entry : GcDavEntry) (net : Net κ) :
    (entry.name ∈ t.names ∧ (t.store entry net).1 = .ok t) ∨
    (entry.name ∉ t.names ∧ t.entries.length = gcDavMaxEntries ∧
      (t.store entry net).1 = .error folderOverflow) ∨
    (entry.name ∉ t.names ∧ t.entries.length < gcDavMaxEntries ∧ net.alloc.1 = false ∧
      (t.store entry net).1 = .error outOfMemory) ∨
    (entry.name ∉ t.names ∧ t.entries.length < gcDavMaxEntries ∧
      ∃ t', (t.store entry net).1 = .ok t' ∧ t'.Sound) := by
  -- The search finds the name or a free slot.
  rcases hsound.search_spec entry.name with ⟨hsearch, hmem⟩ | ⟨slot, hsearch, hmem, -⟩
  · refine Or.inl ⟨hmem, ?_⟩
    unfold Table.store
    rw [show Probing.search 2048 t.slots (t.entries.map (·.name)) entry.name 2048
      (nameHash entry.name % 2048) = some none from hsearch]
  have hstore := Table.store_of_free entry net hsearch
  refine Or.inr ?_
  by_cases hfull : gcDavMaxEntries ≤ t.entries.length
  · refine Or.inl ⟨hmem, hsound.length.antisymm hfull, ?_⟩
    rw [hstore, if_pos hfull]
  have hlen := not_le.mp hfull
  rw [if_neg hfull] at hstore
  refine Or.inr ?_
  rcases hgrow : t.grow net with ⟨_ | capacity, net₁⟩
  · rcases hsound.grow_cases hlen net with ⟨-, hnone⟩ | ⟨_, hsome, -⟩
    · refine Or.inl ⟨hmem, hlen, hnone, ?_⟩
      rw [hstore, hgrow]
    · rw [hgrow] at hsome
      cases hsome
  -- the table has room for one more
  · rcases hsound.grow_cases hlen net with ⟨hnone, -⟩ | ⟨_, hsome, hroom, hcapacity⟩
    · rw [hgrow] at hnone
      cases hnone
    · rw [hgrow] at hsome hstore
      cases hsome
      refine Or.inr ⟨hmem, hlen, _, congrArg Prod.fst hstore, (Table.store_spec hsound.toOk hstore).2,
        ?_, hcapacity⟩
      rw [List.length_append]
      exact hroom

/-- The entries are stored one by one. -/
theorem storeAll_cons (t : Table) (entry : GcDavEntry) (net : Net κ)
    (rest : List (GcDavEntry × Net κ)) :
    storeAll t ((entry, net) :: rest) =
      match (t.store entry net).1 with
      | .error e => .error e
      | .ok t => storeAll t rest := rfl

/-- The rest is stored behind what has been stored. -/
theorem storeAll_append {pre : List (GcDavEntry × Net κ)} (h : storeAll t pre = .ok t')
    (rest : List (GcDavEntry × Net κ)) : storeAll t (pre ++ rest) = storeAll t' rest := by
  induction pre generalizing t with
  | nil =>
      cases h
      rfl
  | cons p pre ih =>
      obtain ⟨entry, net⟩ := p
      rw [storeAll_cons] at h
      rw [List.cons_append, storeAll_cons]
      rcases hstore : (t.store entry net).1 with e | t₁
      · rw [hstore] at h
        cases h
      · rw [hstore] at h
        exact ih h

/-- A run stores the first entries of their names, or ends at one that cannot be stored. -/
def Ends (t : Table) (es : List (GcDavEntry × Net κ)) : Prop :=
  (∃ t', storeAll t es = .ok t' ∧ t'.Sound ∧
    t'.entries = Probing.firsts (·.name) t.entries (es.map (·.1))) ∨
  ∃ pre p post t', es = pre ++ p :: post ∧ storeAll t pre = .ok t' ∧ p.1.name ∉ t'.names ∧
    (t'.entries.length = gcDavMaxEntries ∧ storeAll t es = .error folderOverflow ∨
      p.2.alloc.1 = false ∧ storeAll t es = .error outOfMemory)

/-- An entry that does not fail leaves it to the rest how the run ends. -/
theorem Ends.cons {es : List (GcDavEntry × Net κ)} (hstore : (t.store entry net).1 = .ok t')
    (hentries : t'.entries = Probing.firsts (·.name) t.entries [entry]) (h : Ends t' es) :
    Ends t ((entry, net) :: es) := by
  have hrun : ∀ l, storeAll t ((entry, net) :: l) = storeAll t' l := fun l => by
    rw [storeAll_cons, hstore]
  rcases h with ⟨t₁, hall, hsound, hkept⟩ | ⟨pre, p, post, t₁, rfl, hpre, hnew, hend⟩
  · refine Or.inl ⟨t₁, (hrun es).trans hall, hsound, ?_⟩
    rw [hkept, hentries, ← Probing.firsts_append]
    rfl
  · refine Or.inr ⟨(entry, net) :: pre, p, post, t₁, rfl, (hrun pre).trans hpre, hnew, ?_⟩
    rw [hrun]
    exact hend

/-- Storing ends, with a table or an error. -/
theorem storeAll_ends (hsound : t.Sound) (es : List (GcDavEntry × Net κ)) : Ends t es := by
  induction es generalizing t with
  | nil => exact Or.inl ⟨t, rfl, hsound, rfl⟩
  | cons p es ih =>
      obtain ⟨entry, net⟩ := p
      have hstop : ∀ {e}, (t.store entry net).1 = .error e →
          storeAll t ((entry, net) :: es) = .error e := fun he => by rw [storeAll_cons, he]
      rcases hsound.store_cases entry net with ⟨hmem, hok⟩ | ⟨hnew, hfull, herror⟩ |
        ⟨hnew, -, hmemory, herror⟩ | ⟨hnew, -, t₁, hok, hsound₁⟩
      · exact (ih hsound).cons hok (Probing.firsts_cons_of_mem hmem []).symm
      · exact Or.inr ⟨[], _, es, t, rfl, rfl, hnew, Or.inl ⟨hfull, hstop herror⟩⟩
      · exact Or.inr ⟨[], _, es, t, rfl, rfl, hnew, Or.inr ⟨hmemory, hstop herror⟩⟩
      · have hstore : t.store entry net = (.ok t₁, (t.store entry net).2) := Prod.ext hok rfl
        exact (ih hsound₁).cons hok (Table.store_spec hsound.toOk hstore).1

/-! ## The table and the scan -/

/-- What the table does with the entries `es`, in terms of a naive scan. -/
structure KeepsFirsts (es : List (GcDavEntry × Net κ)) : Prop where
  /-- The entries of a run that does not fail are those that the scan keeps. -/
  kept : ∀ t, storeAll .empty es = .ok t → t.entries = scan es ∧ (scan es).length ≤ 1024
  /-- The folder is refused at the 1025th distinct name. -/
  overflow : storeAll .empty es = .error folderOverflow ↔
    ∃ pre p post, es = pre ++ p :: post ∧ (∃ t, storeAll .empty pre = .ok t) ∧
      (scan pre).length = 1024 ∧ p.1.name ∉ (scan pre).map (·.name)
  /-- There is no other failure but a lack of memory. -/
  failure : ∀ e, storeAll .empty es = .error e →
    e = folderOverflow ∨ e = outOfMemory ∧ ∃ p ∈ es, p.2.alloc.1 = false
  /-- With memory, the number of distinct names is what counts. -/
  memory : (∀ p ∈ es, p.2.alloc.1 = true) →
    if (scan es).length ≤ 1024 then ∃ t, storeAll .empty es = .ok t
    else storeAll .empty es = .error folderOverflow
  /-- The search for a name ends, and says whether it is there. -/
  search : ∀ t, storeAll .empty es = .ok t → ∀ name,
    if name ∈ (scan es).map (·.name) then t.search name = some none
    else ∃ slot < 2048, t.search name = some (some slot)
  /-- A slot is empty, or has the number of an entry that has been stored in its room. -/
  stored : ∀ t, storeAll .empty es = .ok t → ∀ slot, t.slots slot ≠ 0 →
    t.slots slot - 1 < t.entries.length ∧ t.entries.length ≤ t.capacity

/-- Entries that are stored are those that the scan keeps. -/
theorem storeAll_ok {es : List (GcDavEntry × Net κ)} (h : storeAll .empty es = .ok t) :
    t.Sound ∧ t.entries = scan es := by
  rcases storeAll_ends Table.sound_empty es with ⟨t', hall, hsound, hkept⟩ |
    ⟨_, _, _, _, _, _, _, ⟨-, herror⟩ | ⟨-, herror⟩⟩
  · rw [hall] at h
    cases h
    exact ⟨hsound, hkept⟩
  · rw [herror] at h
    cases h
  · rw [herror] at h
    cases h

/-- The scan goes on behind what it has kept. -/
theorem scan_append (pre post : List (GcDavEntry × Net κ)) :
    scan (pre ++ post) = Probing.firsts (·.name) (scan pre) (post.map (·.1)) := by
  rw [scan, List.map_append, Probing.firsts_append]
  rfl

/-- A new name behind `pre` makes one more distinct name. -/
theorem scan_length_lt {pre : List (GcDavEntry × Net κ)} (post : List (GcDavEntry × Net κ)) {p : GcDavEntry × Net κ}
    (hnew : p.1.name ∉ (scan pre).map (·.name)) :
    (scan pre).length < (scan (pre ++ p :: post)).length := by
  rw [scan_append, List.map_cons, Probing.firsts_cons_of_not_mem hnew]
  have hle := (Probing.prefix_firsts (f := GcDavEntry.name) (scan pre ++ [p.1])
    (post.map (·.1))).length_le
  rw [List.length_append] at hle
  exact hle

/-- The table keeps the first entry of each name. -/
theorem keepsFirsts (es : List (GcDavEntry × Net κ)) : KeepsFirsts es := by
  have hcases := storeAll_ends Table.sound_empty es
  refine ⟨fun t h => ?_, ⟨fun h => ?_, ?_⟩, fun e h => ?_, fun hmemory => ?_, fun t h name => ?_,
    fun t h slot hslot => ?_⟩
  · obtain ⟨hsound, hentries⟩ := storeAll_ok h
    exact ⟨hentries, hentries ▸ hsound.length⟩
  · rcases hcases with ⟨_, hall, -⟩ |
      ⟨pre, p, post, t', heq, hpre, hnew, ⟨hfull, -⟩ | ⟨-, herror⟩⟩
    · rw [hall] at h
      cases h
    · have hentries := (storeAll_ok hpre).2
      unfold Table.names at hnew
      rw [hentries] at hnew hfull
      exact ⟨pre, p, post, heq, ⟨t', hpre⟩, hfull, hnew⟩
    · rw [herror] at h
      cases h
  · rintro ⟨pre, ⟨entry, net⟩, post, rfl, ⟨t, hpre⟩, hfull, hnew⟩
    obtain ⟨hsound, hentries⟩ := storeAll_ok hpre
    rw [← hentries] at hfull hnew
    rw [storeAll_append hpre, storeAll_cons]
    -- the table is full, and the name is not in it
    rcases hsound.store_cases entry net with ⟨hmem, -⟩ | ⟨-, -, herror⟩ | ⟨-, hlen, -⟩ | ⟨-, hlen, -⟩
    · exact absurd hmem hnew
    · rw [herror]
    · exact absurd hfull (Nat.ne_of_lt hlen)
    · exact absurd hfull (Nat.ne_of_lt hlen)
  · rcases hcases with ⟨_, hall, -⟩ |
      ⟨pre, p, post, t', heq, -, -, ⟨-, herror⟩ | ⟨hnone, herror⟩⟩
    · rw [hall] at h
      cases h
    · rw [herror] at h
      cases h
      exact Or.inl rfl
    · rw [herror] at h
      cases h
      exact Or.inr ⟨rfl, p, by rw [heq]; exact List.mem_append_cons_self, hnone⟩
  · rcases hcases with ⟨t', hall, -⟩ |
      ⟨pre, p, post, t', heq, hpre, hnew, ⟨hfull, herror⟩ | ⟨hnone, -⟩⟩
    · obtain ⟨hsound, hentries⟩ := storeAll_ok hall
      rw [if_pos (show (scan es).length ≤ 1024 from hentries ▸ hsound.length)]
      exact ⟨t', hall⟩
    · have hentries := (storeAll_ok hpre).2
      unfold Table.names at hnew
      rw [hentries] at hnew hfull
      have hmore := scan_length_lt post hnew
      rw [← heq, hfull] at hmore
      rw [if_neg (show ¬(scan es).length ≤ 1024 from not_le.mpr hmore)]
      exact herror
    · have hsome := hmemory p (by rw [heq]; exact List.mem_append_cons_self)
      rw [hnone] at hsome
      cases hsome
  · obtain ⟨hsound, hentries⟩ := storeAll_ok h
    rw [← hentries]
    rcases hsound.search_spec name with ⟨hsearch, hmem⟩ | ⟨slot, hsearch, hmem, hfree⟩
    · rw [if_pos (show name ∈ t.entries.map (·.name) from hmem)]
      exact hsearch
    · rw [if_neg (show name ∉ t.entries.map (·.name) from hmem)]
      exact ⟨slot, hfree.lt, hsearch⟩
  · obtain ⟨hsound, -⟩ := storeAll_ok h
    have hle := hsound.holds.le slot
    rw [List.length_map] at hle
    exact ⟨by omega, hsound.room⟩

/-! ## The walk -/

section Walk

variable (effective : List UInt8) (url : GcHttpUrl) (basepath : List UInt8) (depth : ℤ)

/-- The entries that the loop over the responses puts into the table. -/
def handed : List Place → Table → Net κ → List (GcDavEntry × Net κ)
  | [], _, _ => []
  | response :: responses, t, net =>
      match readResponse effective url basepath depth response net with
      | (.error _, _) => []
      | (.ok none, net) => handed responses t net
      | (.ok (some entry), net) =>
          (entry, net) ::
            match t.store entry net with
            | (.error _, _) => []
            | (.ok t, net) => handed responses t net

/-- A response fails only for a name that is too long. -/
theorem readResponse_error {response : Place} {net net' : Net κ} {e : Failure}
    (h : readResponse effective url basepath depth response net = (.error e, net')) :
    e = nameOverflow := by
  unfold readResponse at h
  split_ifs at h
  · cases h
  · split at h
    · cases h
    · split at h
      · cases h
      · split at h
        · cases h
        · split_ifs at h
          · cases h
            rfl
          · cases h

/-- The loop over the responses is a run of the table, unless a name is too long. -/
theorem responseLoop_eq (responses : List Place) (t : Table) (net : Net κ) :
    responseLoop effective url basepath depth responses t net =
        (storeAll t (handed effective url basepath depth responses t net)).map (·.entries) ∨
      responseLoop effective url basepath depth responses t net = .error nameOverflow ∧
        ∃ t', storeAll t (handed effective url basepath depth responses t net) = .ok t' := by
  induction responses generalizing t net with
  | nil => exact Or.inl rfl
  | cons response responses ih =>
      rw [responseLoop, handed]
      rcases hread : readResponse effective url basepath depth response net with ⟨e | _ | entry, net₁⟩
      · rw [readResponse_error effective url basepath depth hread]
        exact Or.inr ⟨rfl, t, rfl⟩
      · exact ih t net₁
      · simp only [storeAll_cons]
        rcases hstore : t.store entry net₁ with ⟨e | t₁, net₂⟩
        · exact Or.inl rfl
        · exact ih t₁ net₂

end Walk

/-- For every sequence of entries the table keeps the first one of each name, as a naive scan would,
and refuses the folder at the 1025th distinct name. The listing is such a run. -/
theorem query_keepsFirsts :
    (∀ es : List (GcDavEntry × Net κ), KeepsFirsts es) ∧
    ∀ effective url basepath depth responses (net : Net κ),
      let es := handed effective url basepath depth responses .empty net
      responseLoop effective url basepath depth responses .empty net =
          (storeAll .empty es).map (·.entries) ∨
        responseLoop effective url basepath depth responses .empty net = .error nameOverflow ∧
          ∃ t, storeAll .empty es = .ok t :=
  ⟨keepsFirsts, fun effective url basepath depth responses net =>
    responseLoop_eq effective url basepath depth responses .empty net⟩

end WiiMC.Dav
