import DetGuest.Sdk.Channel

/-!
# The tables of the SDK

The intern table gives each name an id at its first use and counts its hits and assertions.  The
beacon counters count the hits of each beacon, and the stats region mirrors the counters for the
host.
-/

namespace Sdk

open Wire

/-! ### The intern table -/

/-- `u32::saturating_add` of one. -/
def saturatingSucc (v : UInt32) : UInt32 := if v = 0xFFFFFFFF then v else v + 1

/-- `u64::saturating_add` of one. -/
def saturatingSucc64 (v : UInt64) : UInt64 := if v = 0xFFFFFFFFFFFFFFFF then v else v + 1

/-- A name with its id and its counters. -/
structure InternEntry where
  name : Bytes
  id : UInt32
  reachableHits : UInt32
  assertPasses : UInt32
  assertFailures : UInt32
  deriving DecidableEq, Repr

/-- The names in the order of their first use, and the next id. -/
structure InternTable where
  entries : List InternEntry
  nextId : UInt32
  deriving DecidableEq, Repr

/-- An empty table; ids start at one. -/
def InternTable.empty : InternTable := { entries := [], nextId := 1 }

/-- The id of a name, and whether it is new. -/
structure InternedName where
  id : UInt32
  isNew : Bool
  deriving DecidableEq, Repr

inductive InternError where
  | nameTooLong
  | tableFull
  | unknownName
  deriving DecidableEq, Repr

/-- How often an assertion passed and failed. -/
structure AssertCounts where
  passCount : UInt32
  failCount : UInt32
  deriving DecidableEq, Repr

/-- Whether a name fits a `NameIntern` event. -/
def validName (name : Bytes) : Bool := name.length ≤ maxName

namespace InternTable

/-- Look a name up, or give it the next id. -/
def intern (t : InternTable) (name : Bytes) : InternTable × Except InternError InternedName :=
  if ¬ validName name then (t, .error .nameTooLong)
  else
    match t.entries.find? fun e => e.name = name with
    | some e => (t, .ok { id := e.id, isNew := false })
    | none =>
        if t.nextId = 0xFFFFFFFF then (t, .error .tableFull)
        else
          let e : InternEntry :=
            { name, id := t.nextId, reachableHits := 0, assertPasses := 0, assertFailures := 0 }
          ({ entries := t.entries ++ [e], nextId := t.nextId + 1 },
            .ok { id := t.nextId, isNew := true })

/-- Change the first entry of an id; returns the changed entry. -/
def updateEntry (f : InternEntry → InternEntry) (id : UInt32) :
    List InternEntry → Option (List InternEntry × InternEntry)
  | [] => none
  | e :: es =>
      if e.id = id then some (f e :: es, f e)
      else (updateEntry f id es).map fun (es', e') => (e :: es', e')

/-- Count a hit of a name. -/
def recordReachable (t : InternTable) (id : UInt32) : InternTable × Except InternError UInt32 :=
  let f (e : InternEntry) : InternEntry := { e with reachableHits := saturatingSucc e.reachableHits }
  match updateEntry f id t.entries with
  | some (entries, e) => ({ t with entries }, .ok e.reachableHits)
  | none => (t, .error .unknownName)

/-- Count an assertion of a name. -/
def recordAssert (t : InternTable) (id : UInt32) (passed : Bool) :
    InternTable × Except InternError AssertCounts :=
  let f (e : InternEntry) : InternEntry :=
    if passed then { e with assertPasses := saturatingSucc e.assertPasses }
    else { e with assertFailures := saturatingSucc e.assertFailures }
  match updateEntry f id t.entries with
  | some (entries, e) => ({ t with entries }, .ok ⟨e.assertPasses, e.assertFailures⟩)
  | none => (t, .error .unknownName)

/-! ### Bindings -/

/-- The names with their ids, in the order of their first use. -/
def bindings (t : InternTable) : List (Bytes × UInt32) := t.entries.map fun e => (e.name, e.id)

/-- A name that the table would give a new id. -/
structure Fresh (t : InternTable) (name : Bytes) : Prop where
  valid : validName name = true
  unbound : ∀ id, (name, id) ∉ t.bindings
  room : t.nextId ≠ 0xFFFFFFFF

/-- Interning a name fails, or finds it, or gives it the next id. -/
theorem intern_cases (t : InternTable) (name : Bytes) :
  (∃ e, t.intern name = (t, .error e)) ∨
    (∃ id, t.intern name = (t, .ok { id, isNew := false }) ∧ (name, id) ∈ t.bindings) ∨
    ∃ t', t.intern name = (t', .ok { id := t.nextId, isNew := true }) ∧ t.Fresh name ∧
      t'.bindings = t.bindings ++ [(name, t.nextId)] ∧ t'.nextId = t.nextId + 1
  := by
  rw [intern]
  by_cases hvalid : validName name = true
  · rw [if_neg (not_not.mpr hvalid)]
    cases hfind : t.entries.find? fun e => e.name = name with
    | some e =>
        have hname : e.name = name := by simpa using List.find?_some hfind
        refine Or.inr (Or.inl ⟨e.id, rfl, ?_⟩)
        rw [← hname]
        exact List.mem_map_of_mem (List.mem_of_find?_eq_some hfind)
    | none =>
        dsimp only
        by_cases hfull : t.nextId = 0xFFFFFFFF
        · rw [if_pos hfull]
          exact Or.inl ⟨_, rfl⟩
        · rw [if_neg hfull]
          refine Or.inr (Or.inr ⟨_, rfl, ⟨hvalid, ?_, hfull⟩, ?_, rfl⟩)
          · intro id hmem
            obtain ⟨e, he, heq⟩ := List.mem_map.mp hmem
            have hne := List.find?_eq_none.mp hfind e he
            simp only [decide_eq_true_eq] at hne
            exact hne (Prod.mk.inj heq).1
          · simp [bindings]
  · rw [if_pos hvalid]
    exact Or.inl ⟨_, rfl⟩

/-- A change of the counters of an entry leaves the bindings alone. -/
theorem map_updateEntry {f : InternEntry → InternEntry} {id : UInt32}
    {es es' : List InternEntry} {e : InternEntry}
    (hf : ∀ e, ((f e).name, (f e).id) = (e.name, e.id))
    (h : updateEntry f id es = some (es', e)) :
  es'.map (fun e => (e.name, e.id)) = es.map fun e => (e.name, e.id)
  := by
  induction es generalizing es' e with
  | nil => cases h
  | cons x xs ih =>
      rw [updateEntry] at h
      split at h
      · obtain ⟨rfl, _⟩ := Prod.mk.inj (Option.some.inj h)
        rw [List.map_cons, List.map_cons, hf]
      · obtain ⟨⟨ys, e'⟩, hys, heq⟩ := Option.map_eq_some_iff.mp h
        obtain ⟨rfl, _⟩ := Prod.mk.inj heq
        rw [List.map_cons, List.map_cons, ih hys]

theorem recordReachable_bindings (t : InternTable) (id : UInt32) :
  (t.recordReachable id).1.bindings = t.bindings ∧ (t.recordReachable id).1.nextId = t.nextId
  := by
  simp only [recordReachable]
  split
  · next entries e heq =>
    constructor
    · apply map_updateEntry _ heq
      intro e
      rfl
    · rfl
  · exact ⟨rfl, rfl⟩

theorem recordAssert_bindings (t : InternTable) (id : UInt32) (passed : Bool) :
  (t.recordAssert id passed).1.bindings = t.bindings ∧
    (t.recordAssert id passed).1.nextId = t.nextId
  := by
  simp only [recordAssert]
  split
  · next entries e heq =>
    constructor
    · apply map_updateEntry _ heq
      intro e
      split <;> rfl
    · rfl
  · exact ⟨rfl, rfl⟩

end InternTable

/-! ### Beacons -/

/-- The slot of a beacon id. -/
def beaconSlot (id : UInt32) : Nat := (id &&& 0xFFFF).toNat

/-- The hits of each beacon, and the beacons that were hit. -/
structure BeaconCounters where
  counts : Nat → UInt32
  seen : Nat → Bool

/-- No beacon was hit. -/
def BeaconCounters.empty : BeaconCounters := { counts := fun _ => 0, seen := fun _ => false }

/-- The beacon that was hit, and whether for the first time. -/
structure BeaconHit where
  id : UInt32
  firstHit : Bool
  deriving DecidableEq, Repr

/-- Count a hit of a beacon. -/
def BeaconCounters.hit (b : BeaconCounters) (id : UInt32) : BeaconCounters × BeaconHit :=
  let index := beaconSlot id
  ({ counts := Function.update b.counts index (saturatingSucc (b.counts index))
     seen := Function.update b.seen index true },
    { id := UInt32.ofNat index, firstHit := !b.seen index })

/-! ### The stats region -/

/-- Slots of the two tables of names. -/
def nameSlots : Nat := 1024

/-- The hits of a name. -/
structure ReachableStat where
  nameId : UInt32
  hits : UInt32
  deriving DecidableEq, Repr

/-- The assertions of a name. -/
structure AssertStat where
  nameId : UInt32
  passLo : UInt32
  failLo : UInt32
  deriving DecidableEq, Repr

/-- The counters that the host reads. -/
structure StatsRegion where
  statsVersion : UInt32
  assertsPassedTotal : UInt64
  assertsFailedTotal : UInt64
  reachableNames : UInt64
  injectQueriesTotal : UInt64
  beaconCounts : Nat → UInt32
  reachable : List ReachableStat
  assertions : List AssertStat

/-- A stats region at the start. -/
def StatsRegion.empty : StatsRegion :=
  { statsVersion := 1
    assertsPassedTotal := 0
    assertsFailedTotal := 0
    reachableNames := 0
    injectQueriesTotal := 0
    beaconCounts := fun _ => 0
    reachable := List.replicate nameSlots ⟨0, 0⟩
    assertions := List.replicate nameSlots ⟨0, 0, 0⟩ }

/-- The slot of a name: the one that has it, or else the first that is free. -/
def namedSlot {α : Type} (id : α → UInt32) (nameId : UInt32) (entries : List α) : Option Nat :=
  match entries.findIdx? fun e => id e = nameId with
  | some index => some index
  | none => entries.findIdx? fun e => id e = 0

namespace StatsRegion

/-- Count a hit of a beacon. -/
def recordBeacon (s : StatsRegion) (id : UInt32) : StatsRegion :=
  let slot := beaconSlot id
  { s with
    beaconCounts := Function.update s.beaconCounts slot (saturatingSucc (s.beaconCounts slot)) }

/-- Store the hits of a name, unless there is no slot for it. -/
def recordReachable (s : StatsRegion) (nameId hits : UInt32) : StatsRegion :=
  match namedSlot ReachableStat.nameId nameId s.reachable with
  | some index => { s with reachable := s.reachable.set index ⟨nameId, hits⟩ }
  | none => s

/-- Store the assertions of a name, unless there is no slot for it. -/
def recordAssert (s : StatsRegion) (nameId pass fail : UInt32) : StatsRegion :=
  match namedSlot AssertStat.nameId nameId s.assertions with
  | some index => { s with assertions := s.assertions.set index ⟨nameId, pass, fail⟩ }
  | none => s

end StatsRegion

end Sdk
