import DetGuest.Protocol.Regions

/-!
# The turns of a sweep

A sweep gives each live record of the ledger a turn.  A region whose range translates to the same
extents is held, one with other extents gets them where there is room for them, and any other
region dies, in the ledger and in the manifest.  One turn keeps the manifest and the ledger in
agreement and leaves the other regions as they are.
-/

namespace Protocol.Regions

open Wire Wire.Regionipc Agent

/-! ### Replacing a region -/

section Replace

variable {τ : Type} {s : RegionIpc τ} {done rest : List RegionRecord} {r : RegionRecord}

/-- What the manifest lists. -/
def listing (m : ByteMem) : List Listing :=
  ((entries m).filter fun e => e.isLive).map (ofEntry m)

/-- What the manifest lists in slots `lo` to `lo + n`. -/
def listingFrom (m : ByteMem) (lo n : Nat) : List Listing :=
  ((List.range' lo n).filter fun j => (RegionEntry.ofMem m j).isLive).map
    fun j => ofEntry m (RegionEntry.ofMem m j)

theorem listing_eq (m : ByteMem) :
  listing m = listingFrom m 0 (ManifestHeader.ofMem m).regionCount.toNat
  := by
  rw [listing, listingFrom, entries, List.filter_map, List.map_map, List.range_eq_range']
  rfl

theorem listingFrom_append (m : ByteMem) (lo n k : Nat) :
  listingFrom m lo (n + k) = listingFrom m lo n ++ listingFrom m (lo + n) k
  := by
  rw [listingFrom, ← List.range'_append_1, List.filter_append, List.map_append]
  rfl

theorem listingFrom_one (m : ByteMem) (i : Nat) :
  listingFrom m i 1
    = if (RegionEntry.ofMem m i).isLive then [ofEntry m (RegionEntry.ofMem m i)] else []
  := by
  rw [listingFrom]
  cases hlive : (RegionEntry.ofMem m i).isLive <;> simp [hlive]

theorem extentsOf_congr {m m' : ByteMem} {e : RegionEntry}
    (h : ∀ k, Uses e k → Extent.ofMem m' k = Extent.ofMem m k) :
  extentsOf m' e = extentsOf m e
  := by
  apply List.map_congr_left
  intro k hk
  have hlt := List.mem_range.mp hk
  apply h
  exact ⟨Nat.le_add_right .., Nat.add_lt_add_left hlt _⟩

theorem ofEntry_congr {m m' : ByteMem} {e : RegionEntry}
    (h : ∀ k, Uses e k → Extent.ofMem m' k = Extent.ofMem m k) :
  ofEntry m' e = ofEntry m e
  := by
  rw [ofEntry, ofEntry, extentsOf_congr h]

/-- Slots whose entries and extents are the same list the same. -/
theorem listingFrom_congr {m m' : ByteMem} {lo n : Nat}
    (hentry : ∀ j, lo ≤ j → j < lo + n → RegionEntry.ofMem m' j = RegionEntry.ofMem m j)
    (hextents : ∀ j, lo ≤ j → j < lo + n → (RegionEntry.ofMem m j).isLive = true →
      ∀ k, Uses (RegionEntry.ofMem m j) k → Extent.ofMem m' k = Extent.ofMem m k) :
  listingFrom m' lo n = listingFrom m lo n
  := by
  have hfilter : (List.range' lo n).filter (fun j => (RegionEntry.ofMem m' j).isLive)
      = (List.range' lo n).filter fun j => (RegionEntry.ofMem m j).isLive := by
    apply List.filter_congr
    intro j hj
    rw [List.mem_range'_1] at hj
    rw [hentry j hj.1 hj.2]
  rw [listingFrom, listingFrom, hfilter]
  apply List.map_congr_left
  intro j hj
  obtain ⟨hrange, hlive⟩ := List.mem_filter.mp hj
  rw [List.mem_range'_1] at hrange
  rw [hentry j hrange.1 hrange.2]
  apply ofEntry_congr
  exact hextents j hrange.1 hrange.2 hlive

/-- A region is listed once. -/
theorem Agrees.nodup (hs : Agrees s) :
  (listing s.manifest.mem).Nodup
  := by
  rw [listing_eq, listingFrom]
  apply List.Nodup.map_on
  · intro j hj k hk heq
    have hid := congrArg (fun l => l.regionId.toNat) heq
    have hj' := List.mem_range'_1.mp (List.mem_filter.mp hj).1
    have hk' := List.mem_range'_1.mp (List.mem_filter.mp hk).1
    dsimp only [ofEntry] at hid
    rwa [hs.ids j (by omega), hs.ids k (by omega)] at hid
  · apply List.Nodup.filter
    exact List.nodup_range'

/-- The records of the ledger that are live. -/
def liveRecords (records : List RegionRecord) : List RegionRecord :=
  records.filter fun r => r.dead = false

theorem liveRecords_append (xs ys : List RegionRecord) :
  liveRecords (xs ++ ys) = liveRecords xs ++ liveRecords ys
  := List.filter_append ..

theorem liveRecords_cons (r : RegionRecord) (rs : List RegionRecord) :
  liveRecords (r :: rs) = if r.dead then liveRecords rs else r :: liveRecords rs
  := by
  cases hdead : r.dead <;> simp [liveRecords, hdead]

/-- A live record has a slot, the slots before it are those of the records before it, and the slots
behind it those of the records behind it. -/
theorem Agrees.split (hs : Agrees { s with records := done ++ r :: rest })
    (hlive : r.dead = false) :
  ∃ i k, (ManifestHeader.ofMem s.manifest.mem).regionCount.toNat = i + 1 + k ∧
    r.regionId = UInt32.ofNat i ∧ (RegionEntry.ofMem s.manifest.mem i).isLive = true ∧
    ofRecord r = ofEntry s.manifest.mem (RegionEntry.ofMem s.manifest.mem i) ∧
    (liveRecords done).map ofRecord = listingFrom s.manifest.mem 0 i ∧
    (liveRecords rest).map ofRecord = listingFrom s.manifest.mem (i + 1) k
  := by
  have hlisted : (liveRecords (done ++ r :: rest)).map ofRecord = listing s.manifest.mem :=
    hs.listed
  have hnodup : (listing s.manifest.mem).Nodup := hs.nodup
  rw [liveRecords_append, liveRecords_cons, hlive, if_neg Bool.false_ne_true, List.map_append,
    List.map_cons] at hlisted
  have hmem : ofRecord r ∈ listing s.manifest.mem := by
    rw [← hlisted]
    simp
  rw [listing] at hmem
  obtain ⟨e, he, heq⟩ := List.mem_map.mp hmem
  obtain ⟨hentry, helive⟩ := List.mem_filter.mp he
  obtain ⟨i, hi, rfl⟩ := List.mem_map.mp hentry
  have hlt := List.mem_range.mp hi
  obtain ⟨k, hk⟩ := Nat.exists_eq_add_of_lt hlt
  have hcount : (ManifestHeader.ofMem s.manifest.mem).regionCount.toNat = i + (1 + k) := by omega
  have hid : (RegionEntry.ofMem s.manifest.mem i).regionId.toNat = i := hs.ids i hlt
  have hrid : (RegionEntry.ofMem s.manifest.mem i).regionId = r.regionId :=
    congrArg Listing.regionId heq
  refine ⟨i, k, by omega, ?_, helive, heq.symm, ?_⟩
  · rw [← hrid, ← hid, UInt32.ofNat_toNat]
    rw [hid]
  · rw [← hlisted] at hnodup
    have hsplit := hlisted
    rw [listing_eq, hcount, listingFrom_append, listingFrom_append, listingFrom_one, Nat.zero_add,
      helive, if_pos rfl, heq, List.singleton_append] at hsplit
    have hnotin := List.nodup_middle.mp hnodup
    rw [List.nodup_cons, List.mem_append, not_or] at hnotin
    obtain ⟨hdone, -, hrest⟩ :=
      (List.append_cons_inj_of_notMem hnotin.1.1 hnotin.1.2).mp hsplit
    exact ⟨hdone, hrest⟩

/-- The live records behind a live record have slots behind its slot. -/
theorem Agrees.behind (hs : Agrees { s with records := done ++ r :: rest }) {i k : Nat}
    (hcount : (ManifestHeader.ofMem s.manifest.mem).regionCount.toNat = i + 1 + k)
    (hrest : (liveRecords rest).map ofRecord = listingFrom s.manifest.mem (i + 1) k) :
  ∀ r' ∈ liveRecords rest, i < r'.regionId.toNat ∧
    r'.regionId.toNat < (ManifestHeader.ofMem s.manifest.mem).regionCount.toNat ∧
    (RegionEntry.ofMem s.manifest.mem r'.regionId.toNat).isLive = true
  := by
  intro r' hr'
  have hmem : ofRecord r' ∈ listingFrom s.manifest.mem (i + 1) k := by
    rw [← hrest]
    exact List.mem_map_of_mem hr'
  obtain ⟨j, hj, heq⟩ := List.mem_map.mp hmem
  obtain ⟨hslot, hlive⟩ := List.mem_filter.mp hj
  have hrange := List.mem_range'_1.mp hslot
  have hid : (RegionEntry.ofMem s.manifest.mem j).regionId = r'.regionId :=
    congrArg Listing.regionId heq
  have hself : (RegionEntry.ofMem s.manifest.mem j).regionId.toNat = j :=
    hs.ids j (show j < (ManifestHeader.ofMem s.manifest.mem).regionCount.toNat by omega)
  rw [hid] at hself
  rw [hself]
  exact ⟨by omega, by omega, hlive⟩

end Replace

/-! ### Turns -/

/-- What becomes of a region. -/
inductive Fate where
  | held
  | drifted (extents : List Extent)
  | died
  deriving DecidableEq

/-- The turn of a live record: the answer of the translator, and the used pool and the generation
in front of it. -/
structure Turn where
  record : RegionRecord
  answer : Except BuildExtentsError (List Extent)
  pool : Nat
  generation : UInt64

namespace Turn

/-- A region dies when its range does not translate, and when it has more extents than before and
there is no room for them. -/
def fate (t : Turn) : Fate :=
  match t.answer with
  | .error _ => .died
  | .ok xs =>
      if xs = t.record.extents then .held
      else if xs.length ≤ t.record.extents.length ∨ t.pool + xs.length ≤ extentCapacity then
        .drifted xs
      else .died

/-- The record behind the turn. -/
def settled (t : Turn) : RegionRecord :=
  match t.fate with
  | .held => t.record
  | .drifted xs => { t.record with extents := xs }
  | .died => { t.record with dead := true }

/-- The used pool behind the turn. -/
def poolBehind (t : Turn) : Nat :=
  match t.fate with
  | .drifted xs => if xs.length ≤ t.record.extents.length then t.pool else t.pool + xs.length
  | _ => t.pool

/-- The generation behind the turn. -/
def generationBehind (t : Turn) : UInt64 :=
  match t.fate with
  | .held => t.generation
  | _ => t.generation + 2

/-- The text about a region that drifted or died. -/
def alarm (t : Turn) : Option Bytes :=
  match t.answer with
  | .error _ => some (RegionIpc.alarm t.record "no longer translates; marking dead")
  | .ok xs =>
      if xs = t.record.extents then none
      else some (RegionIpc.alarm t.record "extents drifted under pinning")

/-- The event about the region. -/
def event (t : Turn) : RegionEvent :=
  { regionId := t.record.regionId
    nameId := t.record.nameId
    layoutVersion := t.record.layoutVersion
    manifestGeneration := t.generationBehind.toUInt32 }

/-- There is room for other extents of the region. -/
def Room (t : Turn) (xs : List Extent) : Prop :=
  xs.length ≤ t.record.extents.length ∨ t.pool + xs.length ≤ extentCapacity

instance (t : Turn) (xs : List Extent) : Decidable (t.Room xs) :=
  inferInstanceAs (Decidable (_ ∨ _))

/-- Why a region has its fate. -/
theorem fate_cases (t : Turn) :
  (t.answer = .ok t.record.extents ∧ t.fate = .held) ∨
    (∃ xs, t.answer = .ok xs ∧ xs ≠ t.record.extents ∧ t.Room xs ∧ t.fate = .drifted xs) ∨
    (∃ xs, t.answer = .ok xs ∧ xs ≠ t.record.extents ∧ ¬ t.Room xs ∧ t.fate = .died) ∨
    ∃ e, t.answer = .error e ∧ t.fate = .died
  := by
  cases hanswer : t.answer with
  | error e =>
      right; right; right
      exact ⟨e, rfl, by rw [fate, hanswer]⟩
  | ok xs =>
      by_cases hsame : xs = t.record.extents
      · left
        rw [hsame]
        exact ⟨rfl, by rw [fate, hanswer]; exact if_pos hsame⟩
      · right
        have hfate : t.fate = if t.Room xs then .drifted xs else .died := by
          rw [fate, hanswer]
          exact if_neg hsame
        by_cases hroom : t.Room xs
        · left
          exact ⟨xs, rfl, hsame, hroom, by rw [hfate, if_pos hroom]⟩
        · right; left
          exact ⟨xs, rfl, hsame, hroom, by rw [hfate, if_neg hroom]⟩

/-- A region dies exactly when its range does not translate, or it has grown and there is no room
for it. -/
theorem fate_eq_died (t : Turn) :
  t.fate = .died ↔ (∃ e, t.answer = .error e) ∨
    ∃ xs, t.answer = .ok xs ∧ t.record.extents.length < xs.length ∧
      extentCapacity < t.pool + xs.length
  := by
  constructor
  · intro hdied
    rcases t.fate_cases with ⟨_, h⟩ | ⟨xs, _, _, _, h⟩ | ⟨xs, hok, _, hfull, _⟩ | ⟨e, herr, _⟩
    · rw [hdied] at h
      cases h
    · rw [hdied] at h
      cases h
    · rw [Room, not_or, Nat.not_le, Nat.not_le] at hfull
      exact Or.inr ⟨xs, hok, hfull.1, hfull.2⟩
    · exact Or.inl ⟨e, herr⟩
  · rintro (⟨e, herr⟩ | ⟨xs, hok, hgrown, hfull⟩)
    · rw [fate, herr]
    · have hne : xs ≠ t.record.extents := by
        rintro rfl
        exact Nat.lt_irrefl _ hgrown
      rw [fate, hok]
      dsimp only
      rw [if_neg hne, if_neg (by omega)]

/-- The used pool does not shrink. -/
theorem pool_le (t : Turn) :
  t.pool ≤ t.poolBehind
  := by
  rw [poolBehind]
  cases t.fate with
  | held => exact Nat.le_refl _
  | died => exact Nat.le_refl _
  | drifted xs =>
      dsimp only
      split
      · exact Nat.le_refl _
      · exact Nat.le_add_right ..

/-- There is an alarm about a region exactly when it drifted or died. -/
theorem alarm_eq_none (t : Turn) :
  t.alarm = none ↔ t.fate = .held
  := by
  rcases t.fate_cases with ⟨hok, h⟩ | ⟨xs, hok, hne, _, h⟩ | ⟨xs, hok, hne, _, h⟩ | ⟨e, herr, h⟩
  · rw [alarm, hok, h]
    simp
  · rw [alarm, hok, h]
    simp [hne]
  · rw [alarm, hok, h]
    simp [hne]
  · rw [alarm, herr, h]
    simp

end Turn

/-- The translator, the used pool and the generation. -/
structure Progress (τ : Type) where
  translator : τ
  pool : Nat
  generation : UInt64

section Turns

variable {τ : Type}

/-- The turn of a record. -/
def turnOf (f : Translator τ) (q : Progress τ) (r : RegionRecord) : Turn :=
  { record := r
    answer := (f q.translator r.pid r.gva r.len).2
    pool := q.pool
    generation := q.generation }

/-- The progress behind the turn of a record. -/
def turned (f : Translator τ) (q : Progress τ) (r : RegionRecord) : Progress τ :=
  { translator := (f q.translator r.pid r.gva r.len).1
    pool := (turnOf f q r).poolBehind
    generation := (turnOf f q r).generationBehind }

/-- The turns of a sweep, one for each live record in the order of the ledger. -/
def turns (f : Translator τ) : Progress τ → List RegionRecord → Progress τ × List Turn
  | q, [] => (q, [])
  | q, r :: rs =>
      if r.dead then turns f q rs
      else ((turns f (turned f q r) rs).1, turnOf f q r :: (turns f (turned f q r) rs).2)

/-- The ledger behind the turns of its live records. -/
def settle : List RegionRecord → List Turn → List RegionRecord
  | r :: rs, t :: ts => if r.dead then r :: settle rs (t :: ts) else t.settled :: settle rs ts
  | rs, _ => rs

end Turns

/-! ### One turn -/

/-- What a turn does to the manifest: the entry of its region has other extents or the flag of a
dead region, and only its place in the pool is written. -/
structure Turned (m m' : Slice) (n i : Nat) (t : Turn) : Prop where
  headed : Headed m' t.generationBehind n t.poolBehind
  entry : RegionEntry.ofMem m'.mem i =
    match t.fate with
    | .held => RegionEntry.ofMem m.mem i
    | .drifted xs => movedEntry t.pool (RegionEntry.ofMem m.mem i) xs
    | .died => deadEntry m i
  entries : ∀ j < regionCapacity, j ≠ i → RegionEntry.ofMem m'.mem j = RegionEntry.ofMem m.mem j
  moved : ∀ xs, t.fate = .drifted xs → ∀ (k : Nat) (x : Extent), xs[k]? = some x →
    Extent.ofMem m'.mem (placeAt t.pool (RegionEntry.ofMem m.mem i) xs + k) = x
  beside : ∀ k, (∀ xs, t.fate = .drifted xs →
      k < placeAt t.pool (RegionEntry.ofMem m.mem i) xs ∨
        placeAt t.pool (RegionEntry.ofMem m.mem i) xs + xs.length ≤ k) →
    Extent.ofMem m'.mem k = Extent.ofMem m.mem k

section Step

variable {τ : Type} {f : Translator τ} {dbg : Bool} {s : RegionIpc τ} {g : UInt64} {n p i : Nat}
  {r : RegionRecord} {t : Turn}

/-- A generation of less than 32 bits is told whole. -/
theorem regionEvent_eq (r : RegionRecord) (h : g.toNat < 2 ^ 32) :
  regionEvent r g
    = { regionId := r.regionId, nameId := r.nameId, layoutVersion := r.layoutVersion
        manifestGeneration := g.toUInt32 }
  := by
  rw [regionEvent, if_pos h]

theorem run_bury (dbg : Bool) (h : Headed s.manifest g n p) (hi : i < regionCapacity)
    (hr : r.regionId = UInt32.ofNat i) (hg : g + 2 ≠ 0) :
  (RegionIpc.bury dbg r).run s
    = (s.wrote (sealedWrites g (Slice.fieldsAt (RegionEntry.offset i)
        (deadEntry s.manifest i).fields)), .ok (g + 2))
  := by
  rcases RegionIpc.run_onManifest_of_seals (run_markRegionDead dbg h hi) with hrun | hover
  · rw [RegionIpc.bury, hr, Exec.run_bind_of_ok hrun]
    rfl
  · exact absurd hover.2.2 hg

/-- The slots that a dying region's turn writes. -/
theorem turned_died {m : Slice} (h : Headed m t.generation n t.pool) (hi : i < regionCapacity)
    (hfate : t.fate = .died) :
  Turned m (m.writeAll (sealedWrites t.generation (Slice.fieldsAt (RegionEntry.offset i)
    (deadEntry m i).fields))) n i t
  := by
  have hmem : (m.writeAll (sealedWrites t.generation (Slice.fieldsAt (RegionEntry.offset i)
      (deadEntry m i).fields))).mem
      = ((m.mem.write offGeneration (Bytes.ofU64 (t.generation + 1))).write
          (RegionEntry.offset i) (deadEntry m i).fields.flatten).write offGeneration
            (Bytes.ofU64 (t.generation + 2)) := by
    rw [sealedWrites, Slice.writeAll_cons, Slice.writeAll_append, Slice.writeAll_cons,
      Slice.writeAll_nil, Slice.write_mem, Slice.writeAll_fieldsAt_mem, Slice.write_mem]
  have hgen : t.generationBehind = t.generation + 2 := by rw [Turn.generationBehind, hfate]
  have hpool : t.poolBehind = t.pool := by rw [Turn.poolBehind, hfate]
  constructor
  · rw [hgen, hpool]
    refine ⟨?_, ?_, h.count, h.room, even_add_two h.even⟩
    · rw [Slice.writeAll_len]
      exact h.len
    · rw [hmem, ManifestHeader.ofMem_write_generation, header_write_entry,
        ManifestHeader.ofMem_write_generation, h.header]
      rfl
  · rw [hfate, hmem, entry_write_generation, RegionEntry.ofMem_write]
  · intro j _ hne
    rw [hmem, entry_write_generation, entry_write_entry hne, entry_write_generation]
  · intro xs hdrift
    rw [hfate] at hdrift
    cases hdrift
  · intro k _
    rw [hmem, extent_write_generation, extent_write_entry hi, extent_write_generation]

theorem turned_held {m : Slice} (h : Headed m t.generation n t.pool) (hfate : t.fate = .held) :
  Turned m m n i t
  := by
  have hgen : t.generationBehind = t.generation := by rw [Turn.generationBehind, hfate]
  have hpool : t.poolBehind = t.pool := by rw [Turn.poolBehind, hfate]
  constructor
  · rw [hgen, hpool]
    exact h
  · rw [hfate]
  · intro j _ _
    rfl
  · intro xs hdrift
    rw [hfate] at hdrift
    cases hdrift
  · intro k _
    rfl

theorem turned_drifted {m : Slice} {xs : List Extent} (h : Headed m t.generation n t.pool)
    (hi : i < regionCapacity)
    (hn : (RegionEntry.ofMem m.mem i).extentN.toNat = t.record.extents.length)
    (hroom : t.Room xs) (hfate : t.fate = .drifted xs) :
  Turned m (m.writeAll (sealedWrites t.generation
    (rewriteWrites t.generation n t.pool i (RegionEntry.ofMem m.mem i) xs))) n i t
  := by
  obtain ⟨hheader, hentry, hentries, hextent, hextents⟩ :=
    writeAll_rewriteWrites (RegionEntry.ofMem m.mem i) xs h hi rfl
  have hfit : FitsAt t.pool (RegionEntry.ofMem m.mem i) xs := by
    rw [FitsAt, hn]
    exact hroom
  have hgen : t.generationBehind = t.generation + 2 := by rw [Turn.generationBehind, hfate]
  have hpool : t.poolBehind = poolAt t.pool (RegionEntry.ofMem m.mem i) xs := by
    rw [Turn.poolBehind, hfate, poolAt, hn]
  have hdrift : ∀ ys, t.fate = .drifted ys → ys = xs := by
    intro ys hys
    rw [hfate] at hys
    exact (Fate.drifted.inj hys).symm
  constructor
  · rw [hgen, hpool]
    refine ⟨?_, hheader, h.count, (poolAt_le h hfit).2, even_add_two h.even⟩
    rw [Slice.writeAll_len]
    exact h.len
  · rw [hfate, hentry]
  · exact hentries
  · intro ys hys
    rw [hdrift ys hys]
    exact hextent
  · intro k hk
    exact hextents k (hk xs hfate)

/-- What a sweep does about a live record whose region is listed. -/
theorem run_reverifyRecord (dbg : Bool) (f : Translator τ)
    (h : Headed s.manifest g n p) (hi : i < regionCapacity) (hr : r.regionId = UInt32.ofNat i)
    (hn : (RegionEntry.ofMem s.manifest.mem i).extentN.toNat = r.extents.length)
    (hin : (RegionEntry.ofMem s.manifest.mem i).extentOff.toNat
      + (RegionEntry.ofMem s.manifest.mem i).extentN.toNat ≤ p)
    (hg : g.toNat + 2 < 2 ^ 32) :
  ∃ m', (RegionIpc.reverifyRecord dbg f r).run s
      = ({ s with translator := (f s.translator r.pid r.gva r.len).1, manifest := m' },
          .ok ((turnOf f ⟨s.translator, p, g⟩ r).settled, (turnOf f ⟨s.translator, p, g⟩ r).event,
            (turnOf f ⟨s.translator, p, g⟩ r).alarm)) ∧
    Turned s.manifest m' n i (turnOf f ⟨s.translator, p, g⟩ r)
  := by
  obtain ⟨t, ht⟩ : ∃ t, turnOf f ⟨s.translator, p, g⟩ r = t := ⟨_, rfl⟩
  have hrecord : t.record = r := by rw [← ht]; rfl
  have hanswer : t.answer = (f s.translator r.pid r.gva r.len).2 := by rw [← ht]; rfl
  have hgen : t.generation = g := by rw [← ht]; rfl
  have hpool : t.pool = p := by rw [← ht]; rfl
  rw [ht]
  have hg₂ : (g + 2).toNat = g.toNat + 2 := by
    rw [UInt64.toNat_add]
    simp only [UInt64.reduceToNat]
    omega
  have hne : g + 2 ≠ 0 := by
    intro hzero
    rw [hzero] at hg₂
    simp at hg₂
  have hask := RegionIpc.run_translate (f := f) (s := s) r.pid r.gva r.len
  have hburied := run_bury (s := s.asked (f s.translator r.pid r.gva r.len).1) dbg h hi hr hne
  have hchanged : t.generationBehind = g + 2 → t.event = regionEvent r (g + 2) := by
    intro hbehind
    rw [regionEvent_eq r (by omega), Turn.event, hbehind, hrecord]
  have hmoved : ∀ {xs}, t.fate = .drifted xs → t.event = regionEvent r (g + 2) := by
    intro xs hfate
    apply hchanged
    rw [Turn.generationBehind, hfate, hgen]
  have hdied : t.fate = .died → t.event = regionEvent r (g + 2) := by
    intro hfate
    apply hchanged
    rw [Turn.generationBehind, hfate, hgen]
  rw [← hgen, ← hpool] at h
  rcases t.fate_cases with ⟨hok, hfate⟩ | ⟨xs, hok, hdiff, hroom, hfate⟩
    | ⟨xs, hok, hdiff, hroom, hfate⟩ | ⟨e, herr, hfate⟩
  · refine ⟨_, ?_, turned_held h hfate⟩
    have hevent : t.event = regionEvent r g := by
      rw [regionEvent_eq r (by omega), Turn.event, Turn.generationBehind, hfate, hrecord, hgen]
    have hcurrent : currentGeneration s.manifest = g := by
      rw [currentGeneration, readGeneration_eq h.len, h.generation, hgen]
    rw [hanswer, hrecord] at hok
    rw [RegionIpc.reverifyRecord, Exec.run_bind_of_ok hask, hok]
    dsimp only
    rw [if_pos rfl, Exec.run_bind_of_ok (Exec.run_get _), hevent, Turn.settled, hfate, hrecord,
      t.alarm_eq_none.mpr hfate]
    change _ = (_, Res.ok (r, regionEvent r g, none))
    rw [← hcurrent]
    rfl
  · rw [hrecord] at hdiff
    have hseals := Agent.run_rewriteExtents xs dbg h hi rfl (by rw [hpool]; exact hin) (by
      rw [FitsAt, hn, ← hrecord]
      exact hroom)
    rw [← hr] at hseals
    rcases RegionIpc.run_onManifest_of_seals
        (s := s.asked (f s.translator r.pid r.gva r.len).1) hseals with hrun | hover
    · refine ⟨_, ?_, turned_drifted h hi (by rw [hn, hrecord]) hroom hfate⟩
      rw [hanswer] at hok
      rw [RegionIpc.reverifyRecord, Exec.run_bind_of_ok hask, hok]
      dsimp only
      rw [if_neg hdiff, Exec.run_bind_of_ok hrun, hmoved hfate, Turn.settled, hfate, hrecord,
        Turn.alarm, hanswer, hok, hrecord, hgen]
      dsimp only
      rw [if_neg hdiff]
      rfl
    · rw [hgen] at hover
      exact absurd hover.2.2 hne
  · rw [hrecord] at hdiff
    have hexhausted := Agent.run_rewriteExtents_exhausted xs dbg h hi rfl (by
      rw [FitsAt, hn, ← hrecord]
      exact hroom)
    rw [← hr] at hexhausted
    have hfull := RegionIpc.run_onManifest_of_err
      (s := s.asked (f s.translator r.pid r.gva r.len).1) hexhausted
    refine ⟨_, ?_, turned_died h hi hfate⟩
    rw [hanswer] at hok
    rw [RegionIpc.reverifyRecord, Exec.run_bind_of_ok hask, hok]
    dsimp only
    rw [if_neg hdiff, Exec.run_bind_of_ok hfull]
    dsimp only
    rw [Exec.run_bind_of_ok hburied, hdied hfate, Turn.settled, hfate, hrecord, Turn.alarm,
      hanswer, hok, hrecord, hgen]
    dsimp only
    rw [if_neg hdiff]
    rfl
  · refine ⟨_, ?_, turned_died h hi hfate⟩
    rw [hanswer] at herr
    rw [RegionIpc.reverifyRecord, Exec.run_bind_of_ok hask, herr]
    dsimp only
    rw [Exec.run_bind_of_ok hburied, hdied hfate, Turn.settled, hfate, hrecord, Turn.alarm,
      hanswer, herr, hrecord, hgen]
    rfl

/-- A turn leaves the extents of the other live regions. -/
theorem Agrees.spares (hs : Agrees s) {j k : Nat} (xs : List Extent)
    (hi : i < (ManifestHeader.ofMem s.manifest.mem).regionCount.toNat)
    (hj : j < (ManifestHeader.ofMem s.manifest.mem).regionCount.toNat) (hne : j ≠ i)
    (hilive : (RegionEntry.ofMem s.manifest.mem i).isLive = true)
    (hjlive : (RegionEntry.ofMem s.manifest.mem j).isLive = true)
    (huse : Uses (RegionEntry.ofMem s.manifest.mem j) k) :
  let place := placeAt (ManifestHeader.ofMem s.manifest.mem).extentCount.toNat
    (RegionEntry.ofMem s.manifest.mem i) xs
  k < place ∨ place + xs.length ≤ k
  := by
  have hmem : ∀ l < (ManifestHeader.ofMem s.manifest.mem).regionCount.toNat,
      RegionEntry.ofMem s.manifest.mem l ∈ entries s.manifest.mem :=
    fun l hl => List.mem_map_of_mem (List.mem_range.mpr hl)
  have hids : (RegionEntry.ofMem s.manifest.mem j).regionId
      ≠ (RegionEntry.ofMem s.manifest.mem i).regionId := by
    intro heq
    have hnat := congrArg UInt32.toNat heq
    rw [hs.ids j hj, hs.ids i hi] at hnat
    exact hne hnat
  dsimp only
  rw [placeAt]
  split
  · rename_i hle
    have hnot := hs.apart _ (hmem j hj) _ (hmem i hi) hjlive hilive hids k huse
    rw [Uses] at hnot
    omega
  · left
    exact Nat.lt_of_lt_of_le huse.2 (hs.inside _ (hmem j hj) hjlive)

theorem extentN_eq {m : ByteMem} {e : RegionEntry} (h : ofRecord r = ofEntry m e) :
  e.extentN.toNat = r.extents.length
  := by
  have hlen := congrArg (fun l => l.extents.length) h
  simp only [ofRecord, ofEntry, extentsOf, List.length_map, List.length_range] at hlen
  exact hlen.symm

/-- The extents behind a drift are inside the used pool. -/
theorem place_le {e : RegionEntry} {xs : List Extent}
    (hn : e.extentN.toNat = t.record.extents.length)
    (hin : e.extentOff.toNat + e.extentN.toNat ≤ t.pool) (hfate : t.fate = .drifted xs) :
  placeAt t.pool e xs + xs.length ≤ t.poolBehind
  := by
  rw [Turn.poolBehind, hfate]
  dsimp only
  rw [← hn]
  exact placeAt_le hin

/-- The extents behind a drift are those that the translator found. -/
theorem Turned.extents {m m' : Slice} {xs : List Extent} (ht : Turned m m' n i t)
    (hfate : t.fate = .drifted xs)
    (hend : placeAt t.pool (RegionEntry.ofMem m.mem i) xs + xs.length ≤ extentCapacity) :
  let e := RegionEntry.ofMem m'.mem i
  e = movedEntry t.pool (RegionEntry.ofMem m.mem i) xs ∧
    e.extentOff.toNat = placeAt t.pool (RegionEntry.ofMem m.mem i) xs ∧
    e.extentN.toNat = xs.length ∧ extentsOf m'.mem e = xs
  := by
  have hentry := ht.entry
  rw [hfate] at hentry
  dsimp only at hentry ⊢
  have hoff : (RegionEntry.ofMem m'.mem i).extentOff.toNat
      = placeAt t.pool (RegionEntry.ofMem m.mem i) xs := by
    rw [hentry]
    exact Word.toNat_ofNat_le (Nat.le_trans (Nat.le_add_right ..) hend) (by decide)
  have hn : (RegionEntry.ofMem m'.mem i).extentN.toNat = xs.length := by
    rw [hentry]
    exact Word.toNat_ofNat_le (Nat.le_trans (Nat.le_add_left ..) hend) (by decide)
  refine ⟨hentry, hoff, hn, ?_⟩
  rw [extentsOf, hoff, hn]
  apply List.ext_getElem?
  intro k
  rw [List.getElem?_map]
  rcases Nat.lt_or_ge k xs.length with hlt | hge
  · have hx := List.getElem?_eq_getElem hlt
    rw [List.getElem?_range hlt, hx, Option.map_some, ht.moved xs hfate k _ hx]
  · rw [List.getElem?_eq_none hge, List.getElem?_eq_none (by rw [List.length_range]; exact hge)]
    rfl

/-- A turn keeps the id of its region. -/
theorem Turned.regionId {m m' : Slice} (ht : Turned m m' n i t) :
  (RegionEntry.ofMem m'.mem i).regionId = (RegionEntry.ofMem m.mem i).regionId
  := by
  rw [ht.entry]
  cases t.fate with
  | held => rfl
  | drifted xs => rfl
  | died => rfl

/-- A dead entry is not live. -/
theorem deadEntry_isLive (m : Slice) (i : Nat) :
  (deadEntry m i).isLive = false
  := by
  rw [RegionEntry.isLive, deadEntry]
  dsimp only
  rw [Region.or_dead_and_dead]
  decide

/-- A region behind its turn is dead in the ledger and in the manifest, or it is live in both and
both tell the same about it. -/
theorem Turned.region {m m' : Slice} (ht : Turned m m' n i t) (hdead : t.record.dead = false)
    (hlive : (RegionEntry.ofMem m.mem i).isLive = true)
    (hlisted : ofRecord t.record = ofEntry m.mem (RegionEntry.ofMem m.mem i))
    (hin : (RegionEntry.ofMem m.mem i).extentOff.toNat
      + (RegionEntry.ofMem m.mem i).extentN.toNat ≤ t.pool) :
  (t.fate = .died ∧ t.settled.dead = true ∧ RegionEntry.ofMem m'.mem i = deadEntry m i) ∨
    (t.settled.dead = false ∧ (RegionEntry.ofMem m'.mem i).isLive = true ∧
      ofRecord t.settled = ofEntry m'.mem (RegionEntry.ofMem m'.mem i))
  := by
  have hentry := ht.entry
  have hn := extentN_eq hlisted
  have hdied : t.fate = .died → _ := fun hfate => (⟨hfate, by rw [Turn.settled, hfate], by
    rw [hentry, hfate]⟩ : t.fate = .died ∧ t.settled.dead = true ∧
      RegionEntry.ofMem m'.mem i = deadEntry m i)
  rcases t.fate_cases with ⟨_, hfate⟩ | ⟨xs, _, _, hroom, hfate⟩ | ⟨_, _, _, _, hfate⟩ | ⟨_, _, hfate⟩
  · right
    rw [hfate] at hentry
    dsimp only at hentry
    have hsettled : t.settled = t.record := by rw [Turn.settled, hfate]
    rw [hentry, hsettled, hlisted]
    have hsame : ∀ k, Uses (RegionEntry.ofMem m.mem i) k →
        Extent.ofMem m'.mem k = Extent.ofMem m.mem k := by
      intro k _
      apply ht.beside
      intro xs hxs
      rw [hfate] at hxs
      cases hxs
    exact ⟨hdead, hlive, (ofEntry_congr hsame).symm⟩
  · right
    have hend := place_le hn hin hfate
    obtain ⟨hmoved, _, _, hextents⟩ := ht.extents hfate (Nat.le_trans hend ht.headed.room)
    have hsettled : t.settled = { t.record with extents := xs } := by rw [Turn.settled, hfate]
    have hnew : ofRecord t.settled = { ofRecord t.record with extents := xs } := by
      rw [hsettled]
      rfl
    refine ⟨?_, ?_, ?_⟩
    · rw [hsettled]
      exact hdead
    · rw [hmoved]
      exact hlive
    · rw [hnew, hlisted, ofEntry, ofEntry, hextents, hmoved]
      rfl
  · exact Or.inl (hdied hfate)
  · exact Or.inl (hdied hfate)

/-- The extents behind a turn are apart from those of the other live regions. -/
theorem Agrees.apart_turned (hs : Agrees s) {m' : Slice} {j l : Nat}
    (ht : Turned s.manifest m' n i t)
    (hi : i < (ManifestHeader.ofMem s.manifest.mem).regionCount.toNat)
    (hlive : (RegionEntry.ofMem s.manifest.mem i).isLive = true)
    (hpool : t.pool = (ManifestHeader.ofMem s.manifest.mem).extentCount.toNat)
    (hn : (RegionEntry.ofMem s.manifest.mem i).extentN.toNat = t.record.extents.length)
    (hj : j < (ManifestHeader.ofMem s.manifest.mem).regionCount.toNat) (hne : j ≠ i)
    (hjlive : (RegionEntry.ofMem s.manifest.mem j).isLive = true)
    (hl : Uses (RegionEntry.ofMem s.manifest.mem j) l) :
  ¬ Uses (RegionEntry.ofMem m'.mem i) l
  := by
  have himem : RegionEntry.ofMem s.manifest.mem i ∈ entries s.manifest.mem :=
    List.mem_map_of_mem (List.mem_range.mpr hi)
  have hjmem : RegionEntry.ofMem s.manifest.mem j ∈ entries s.manifest.mem :=
    List.mem_map_of_mem (List.mem_range.mpr hj)
  have hids : (RegionEntry.ofMem s.manifest.mem j).regionId
      ≠ (RegionEntry.ofMem s.manifest.mem i).regionId := by
    intro heq
    have hnat := congrArg UInt32.toNat heq
    rw [hs.ids j hj, hs.ids i hi] at hnat
    exact hne hnat
  have hold := hs.apart _ hjmem _ himem hjlive hlive hids l hl
  have hentry := ht.entry
  cases hfate : t.fate with
  | held =>
      rw [hfate] at hentry
      rw [hentry]
      exact hold
  | drifted xs =>
      have hend := place_le hn (by rw [hpool]; exact hs.inside _ himem hlive) hfate
      obtain ⟨_, hoff, hlen, _⟩ := ht.extents hfate (Nat.le_trans hend ht.headed.room)
      have hspare := hs.spares xs hi hj hne hlive hjlive hl
      rw [Uses, hoff, hlen, hpool]
      exact fun huse => hspare.elim (Nat.not_lt.mpr huse.1) (Nat.not_le.mpr huse.2)
  | died =>
      rw [hfate] at hentry
      rw [hentry]
      exact hold

/-- The extents behind a turn are inside the used pool. -/
theorem Turned.inside {m m' : Slice} (ht : Turned m m' n i t)
    (hn : (RegionEntry.ofMem m.mem i).extentN.toNat = t.record.extents.length)
    (hin : (RegionEntry.ofMem m.mem i).extentOff.toNat
      + (RegionEntry.ofMem m.mem i).extentN.toNat ≤ t.pool) :
  (RegionEntry.ofMem m'.mem i).extentOff.toNat + (RegionEntry.ofMem m'.mem i).extentN.toNat
    ≤ t.poolBehind
  := by
  have hentry := ht.entry
  cases hfate : t.fate with
  | held =>
      rw [hfate] at hentry
      rw [hentry]
      exact Nat.le_trans hin t.pool_le
  | drifted xs =>
      have hend := place_le hn hin hfate
      obtain ⟨_, hoff, hlen, _⟩ := ht.extents hfate (Nat.le_trans hend ht.headed.room)
      rw [hoff, hlen]
      exact hend
  | died =>
      rw [hfate] at hentry
      rw [hentry]
      exact Nat.le_trans hin t.pool_le

/-- Behind a turn the manifest agrees with the ledger in which its record is settled. -/
theorem Agrees.turned {done rest : List RegionRecord} (s' : RegionIpc τ) {k : Nat}
    (hs : Agrees { s with records := done ++ r :: rest }) (hdead : r.dead = false)
    (hcount : (ManifestHeader.ofMem s.manifest.mem).regionCount.toNat = i + 1 + k)
    (hlive : (RegionEntry.ofMem s.manifest.mem i).isLive = true)
    (hlisted : ofRecord r = ofEntry s.manifest.mem (RegionEntry.ofMem s.manifest.mem i))
    (hdone : (liveRecords done).map ofRecord = listingFrom s.manifest.mem 0 i)
    (hrest : (liveRecords rest).map ofRecord = listingFrom s.manifest.mem (i + 1) k)
    (hrecord : t.record = r)
    (hpool : t.pool = (ManifestHeader.ofMem s.manifest.mem).extentCount.toNat)
    (ht : Turned s.manifest s'.manifest (i + 1 + k) i t)
    (hrecords : s'.records = done ++ t.settled :: rest) :
  Agrees s'
  := by
  have hi : i < (ManifestHeader.ofMem s.manifest.mem).regionCount.toNat := by omega
  have hcap : i + 1 + k ≤ regionCapacity := by
    rw [← hcount]
    exact hs.headed.count
  have hregions : (ManifestHeader.ofMem s'.manifest.mem).regionCount.toNat = i + 1 + k := by
    rw [ht.headed.header]
    exact ht.headed.toNat_count
  have hextents : (ManifestHeader.ofMem s'.manifest.mem).extentCount.toNat = t.poolBehind := by
    rw [ht.headed.header]
    exact ht.headed.toNat_pool
  have hentries : ∀ j < i + 1 + k, j ≠ i → RegionEntry.ofMem s'.manifest.mem j
      = RegionEntry.ofMem s.manifest.mem j :=
    fun j hj hne => ht.entries j (Nat.lt_of_lt_of_le hj hcap) hne
  have hspared : ∀ j < i + 1 + k, j ≠ i → (RegionEntry.ofMem s.manifest.mem j).isLive = true →
      ∀ l, Uses (RegionEntry.ofMem s.manifest.mem j) l →
        Extent.ofMem s'.manifest.mem l = Extent.ofMem s.manifest.mem l := by
    intro j hj hne hjlive l hl
    apply ht.beside
    intro xs _
    rw [hpool]
    exact hs.spares xs hi (by rw [hcount]; exact hj) hne hlive hjlive hl
  have hmem : RegionEntry.ofMem s.manifest.mem i ∈ entries s.manifest.mem :=
    List.mem_map_of_mem (List.mem_range.mpr hi)
  have hin := hs.inside _ hmem hlive
  rw [← hrecord] at hlisted hdead
  have hregion := ht.region hdead hlive hlisted (by rw [hpool]; exact hin)
  have hid : (RegionEntry.ofMem s'.manifest.mem i).regionId
      = (RegionEntry.ofMem s.manifest.mem i).regionId := ht.regionId
  have hfree : ∀ j < i + 1 + k, j ≠ i → (RegionEntry.ofMem s.manifest.mem j).isLive = true →
      ∀ l, Uses (RegionEntry.ofMem s.manifest.mem j) l →
        ¬ Uses (RegionEntry.ofMem s'.manifest.mem i) l := by
    intro j hj hne hjlive l hl
    exact hs.apart_turned ht hi hlive hpool (extentN_eq hlisted) (by rw [hcount]; exact hj) hne
      hjlive hl
  have hpoolLe := t.pool_le
  constructor
  · exact ht.headed.len
  · rw [ht.headed.header]
    exact ht.headed.even
  · rw [ht.headed.header]
    exact ht.headed.validate
  · intro j hj
    rw [hregions] at hj
    by_cases hne : j = i
    · rw [hne, hid]
      exact hs.ids i hi
    · rw [hentries j hj hne]
      exact hs.ids j (by rw [hcount]; exact hj)
  · intro e he helive
    obtain ⟨j, hj, rfl⟩ := List.mem_map.mp he
    rw [List.mem_range, hregions] at hj
    rw [hextents]
    by_cases hne : j = i
    · rw [hne]
      exact ht.inside (extentN_eq hlisted) (by rw [hpool]; exact hin)
    · rw [hentries j hj hne] at helive ⊢
      have hjmem : RegionEntry.ofMem s.manifest.mem j ∈ entries s.manifest.mem :=
        List.mem_map_of_mem (List.mem_range.mpr (by rw [hcount]; exact hj))
      have hjin := hs.inside _ hjmem helive
      rw [hpool] at hpoolLe
      exact Nat.le_trans hjin hpoolLe
  · intro e he e' he' helive helive' hids l huse
    obtain ⟨j, hj, rfl⟩ := List.mem_map.mp he
    obtain ⟨j', hj', rfl⟩ := List.mem_map.mp he'
    rw [List.mem_range, hregions] at hj hj'
    have hslots : j ≠ j' := by
      rintro rfl
      exact hids rfl
    by_cases hne : j = i
    · have hne' : j' ≠ i := fun h => hslots (hne.trans h.symm)
      rw [hne] at helive huse
      rw [hentries j' hj' hne'] at helive' ⊢
      exact fun huse' => hfree j' hj' hne' helive' l huse' huse
    · rw [hentries j hj hne] at helive huse hids
      by_cases hne' : j' = i
      · rw [hne']
        exact hfree j hj hne helive l huse
      · rw [hentries j' hj' hne'] at helive' hids ⊢
        apply hs.apart _ _ _ _ helive helive' hids l huse
        · exact List.mem_map_of_mem (List.mem_range.mpr (by rw [hcount]; exact hj))
        · exact List.mem_map_of_mem (List.mem_range.mpr (by rw [hcount]; exact hj'))
  · have hsettled : liveRecords (done ++ t.settled :: rest)
        = liveRecords done ++ (if t.settled.dead then [] else [t.settled]) ++ liveRecords rest := by
      rw [liveRecords_append, liveRecords_cons, List.append_assoc]
      split
      · rfl
      · rfl
    have hfront : listingFrom s'.manifest.mem 0 i = listingFrom s.manifest.mem 0 i := by
      apply listingFrom_congr
      · intro j _ hj
        exact hentries j (by omega) (by omega)
      · intro j _ hj hjlive
        exact hspared j (by omega) (by omega) hjlive
    have hback : listingFrom s'.manifest.mem (i + 1) k = listingFrom s.manifest.mem (i + 1) k := by
      apply listingFrom_congr
      · intro j _ hj
        exact hentries j (by omega) (by omega)
      · intro j _ hj hjlive
        exact hspared j (by omega) (by omega) hjlive
    have hmiddle : (if t.settled.dead then [] else [t.settled]).map ofRecord
        = listingFrom s'.manifest.mem i 1 := by
      rw [listingFrom_one]
      rcases hregion with ⟨_, hgone, hentry⟩ | ⟨hkept, hlive', hsame⟩
      · rw [hgone, hentry, deadEntry_isLive]
        rfl
      · rw [hkept, hlive', ← hsame]
        rfl
    change (liveRecords s'.records).map ofRecord = listing s'.manifest.mem
    rw [listing_eq, hregions, listingFrom_append, listingFrom_append, Nat.zero_add, Nat.zero_add,
      hfront, hback, hrecords, hsettled, List.map_append, List.map_append, hdone, hrest, hmiddle]

end Step

end Protocol.Regions
