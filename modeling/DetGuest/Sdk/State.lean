import DetGuest.Sdk.Emit
import DetGuest.Sdk.Intern

/-!
# The state of the SDK

What a call does to the tables and counters of the SDK, and the events that it hands to ring W.  The
SDK goes on in the same way whether such an event lands or not, so that these calls are functions of
the state.
-/

namespace Sdk

open Wire

/-- Violations of a name that are reported one by one. -/
def assertRepeatLimit : UInt32 := 16

/-- The `stream` of the lines of `log_line`. -/
def sdkUserStream : UInt8 := 4

/-- The sequence number of the first inject query. -/
def firstIseq : UInt32 := 1

/-- The totals of the SDK. -/
structure StatsState where
  assertsPassedTotal : UInt64
  assertsFailedTotal : UInt64
  reachableNames : UInt64
  injectQueriesTotal : UInt64
  deriving DecidableEq, Repr

/-- The state behind the mutex of the SDK. -/
structure SdkState where
  intern : InternTable
  beacons : BeaconCounters
  stats : StatsState
  statsRegion : StatsRegion
  frameIndex : UInt32
  nextIseq : UInt32

/-- The state behind `init`. -/
def SdkState.new : SdkState :=
  { intern := .empty
    beacons := .empty
    stats := ⟨0, 0, 0, 0⟩
    statsRegion := .empty
    frameIndex := 0
    nextIseq := firstIseq }

/-- An event that is handed to ring W. -/
structure Emission where
  extraFlags : UInt8
  ev : EventPayload
  cls : EventClass
  deriving DecidableEq, Repr

/-- Severity of a log line. -/
inductive LogLevel where
  | error
  | warn
  | info
  | debug
  | trace
  deriving DecidableEq, Repr

def LogLevel.toU8 : LogLevel → UInt8
  | error => 0
  | warn => 1
  | info => 2
  | debug => 3
  | trace => 4

/-- The details of a violation that is not reported with its own. -/
def suppressedDetails : Bytes := "further violations suppressed after 16 repeats".toUTF8.toList

/-- The details that a violation is reported with, unless it is not reported. -/
def violationDetails (failCount : UInt32) (details : Bytes) : Option Bytes :=
  if failCount > assertRepeatLimit then
    if failCount ≠ assertRepeatLimit + 1 then none else some suppressedDetails
  else some details

namespace SdkState

/-- Intern a name; one that is new is announced. -/
def internName (s : SdkState) (name : Bytes) (extraFlags : UInt8) :
    SdkState × List Emission × Option UInt32 :=
  match s.intern.intern name with
  | (intern, .ok interned) =>
      ({ s with intern },
        if interned.isNew then [⟨extraFlags, .nameIntern interned.id name, .critical⟩] else [],
        some interned.id)
  | (intern, .error _) => ({ s with intern }, [], none)

/-- Count an assertion that holds. -/
def assertPassed (s : SdkState) (nameId : UInt32) : SdkState :=
  let stats := { s.stats with assertsPassedTotal := saturatingSucc64 s.stats.assertsPassedTotal }
  match s.intern.recordAssert nameId true with
  | (intern, .ok counts) =>
      let statsRegion := { s.statsRegion with assertsPassedTotal := stats.assertsPassedTotal }
      { s with
        intern
        stats
        statsRegion := statsRegion.recordAssert nameId counts.passCount counts.failCount }
  | (intern, .error _) => { s with intern, stats }

/-- Count an assertion that fails, and report it. -/
def assertFailed (s : SdkState) (nameId : UInt32) (details : Bytes) :
    SdkState × List Emission :=
  let stats := { s.stats with assertsFailedTotal := saturatingSucc64 s.stats.assertsFailedTotal }
  match s.intern.recordAssert nameId false with
  | (intern, .ok counts) =>
      let statsRegion := { s.statsRegion with assertsFailedTotal := stats.assertsFailedTotal }
      ({ s with
          intern
          stats
          statsRegion := statsRegion.recordAssert nameId counts.passCount counts.failCount },
        match violationDetails counts.failCount details with
        | some details => [⟨0, .assertViolation nameId counts.failCount details, .critical⟩]
        | none => [])
  | (intern, .error _) => ({ s with intern, stats }, [])

/-- Record a finding unless `cond` holds. -/
def assertAlways (s : SdkState) (cond : Bool) (name details : Bytes) : SdkState × List Emission :=
  match s.internName name 0 with
  | (s, out, none) => (s, out)
  | (s, out, some nameId) =>
      if cond then
        (s.assertPassed nameId, out)
      else
        let failed := s.assertFailed nameId details
        (failed.1, out ++ failed.2)

/-- Count a hit of a name; the first one is reported. -/
def reached (s : SdkState) (nameId : UInt32) : SdkState × List Emission :=
  match s.intern.recordReachable nameId with
  | (intern, .ok hits) =>
      let statsRegion := s.statsRegion.recordReachable nameId hits
      if hits = 1 then
        let stats := { s.stats with reachableNames := saturatingSucc64 s.stats.reachableNames }
        ({ s with
            intern
            stats
            statsRegion := { statsRegion with reachableNames := stats.reachableNames } },
          [⟨0, .reachable nameId, .critical⟩])
      else
        ({ s with intern, statsRegion }, [])
  | (intern, .error _) => ({ s with intern }, [])

/-- Record that a location was reached. -/
def expectReachable (s : SdkState) (name : Bytes) : SdkState × List Emission :=
  match s.internName name 0 with
  | (s, out, none) => (s, out)
  | (s, out, some nameId) =>
      let hit := s.reached nameId
      (hit.1, out ++ hit.2)

/-- Declare a location without a hit. -/
def declareReachable (s : SdkState) (name : Bytes) : SdkState × List Emission :=
  let interned := s.internName name flagReachableDecl
  (interned.1, interned.2.1)

/-- Count a hit of a beacon; the first one is reported. -/
def coverageBeacon (s : SdkState) (id : UInt32) : SdkState × List Emission :=
  let (beacons, hit) := s.beacons.hit id
  ({ s with beacons, statsRegion := s.statsRegion.recordBeacon hit.id },
    if hit.firstHit then [⟨0, .beacon hit.id, .droppable⟩] else [])

/-- Log a line. -/
def logLine (s : SdkState) (level : LogLevel) (msg : Bytes) : SdkState × List Emission :=
  (s, [⟨0, .logLine sdkUserStream level.toU8 msg, .droppable⟩])

/-- Mark a completed frame. -/
def frameMark (s : SdkState) : SdkState × List Emission :=
  let frameIndex := s.frameIndex + 1
  ({ s with frameIndex }, [⟨0, .frameMark frameIndex, .critical⟩])

/-- Count an inject query. -/
def countInject (s : SdkState) : SdkState :=
  let stats := { s.stats with injectQueriesTotal := saturatingSucc64 s.stats.injectQueriesTotal }
  { s with
    stats
    statsRegion := { s.statsRegion with injectQueriesTotal := stats.injectQueriesTotal } }

/-! ### What the calls do to the names -/

/-- Two states with the same names and the same next id. -/
structure SameNames (s s' : SdkState) : Prop where
  bindings : s'.intern.bindings = s.intern.bindings
  nextId : s'.intern.nextId = s.intern.nextId

theorem SameNames.refl (s : SdkState) :
  s.SameNames s
  := ⟨rfl, rfl⟩

theorem sameNames_assertPassed (s : SdkState) (nameId : UInt32) :
  s.SameNames (s.assertPassed nameId)
  := by
  obtain ⟨hbindings, hnext⟩ := s.intern.recordAssert_bindings nameId true
  simp only [assertPassed]
  split
  · next heq =>
    rw [heq] at hbindings hnext
    exact ⟨hbindings, hnext⟩
  · next heq =>
    rw [heq] at hbindings hnext
    exact ⟨hbindings, hnext⟩

theorem sameNames_assertFailed (s : SdkState) (nameId : UInt32) (details : Bytes) :
  s.SameNames (s.assertFailed nameId details).1
  := by
  obtain ⟨hbindings, hnext⟩ := s.intern.recordAssert_bindings nameId false
  simp only [assertFailed]
  split
  · next heq =>
    rw [heq] at hbindings hnext
    exact ⟨hbindings, hnext⟩
  · next heq =>
    rw [heq] at hbindings hnext
    exact ⟨hbindings, hnext⟩

theorem sameNames_reached (s : SdkState) (nameId : UInt32) :
  s.SameNames (s.reached nameId).1
  := by
  obtain ⟨hbindings, hnext⟩ := s.intern.recordReachable_bindings nameId
  simp only [reached]
  split
  · next heq =>
    rw [heq] at hbindings hnext
    split <;> exact ⟨hbindings, hnext⟩
  · next heq =>
    rw [heq] at hbindings hnext
    exact ⟨hbindings, hnext⟩

/-- The events of a failed assertion are about its name. -/
theorem assertFailed_emits (s : SdkState) (nameId : UInt32) (details : Bytes) :
  ∀ e ∈ (s.assertFailed nameId details).2, ∃ n text,
    e = ⟨0, .assertViolation nameId n text, .critical⟩
  := by
  simp only [assertFailed]
  split
  · split
    · intro e he
      exact ⟨_, _, List.mem_singleton.mp he⟩
    · intro e he
      cases he
  · intro e he
    cases he

/-- The events of a hit are about its name. -/
theorem reached_emits (s : SdkState) (nameId : UInt32) :
  ∀ e ∈ (s.reached nameId).2, e = ⟨0, .reachable nameId, .critical⟩
  := by
  simp only [reached]
  split
  · split
    · intro e he
      exact List.mem_singleton.mp he
    · intro e he
      cases he
  · intro e he
    cases he

/-- Interning a name emits nothing, or announces the new name. -/
theorem internName_cases (s : SdkState) (name : Bytes) (flags : UInt8) :
  s.internName name flags = (s, [], none) ∨
    (∃ id, s.internName name flags = (s, [], some id) ∧ (name, id) ∈ s.intern.bindings) ∨
    ∃ s', s.internName name flags
        = (s', [⟨flags, .nameIntern s.intern.nextId name, .critical⟩], some s.intern.nextId) ∧
      s.intern.Fresh name ∧
      s'.intern.bindings = s.intern.bindings ++ [(name, s.intern.nextId)] ∧
      s'.intern.nextId = s.intern.nextId + 1
  := by
  rcases s.intern.intern_cases name with ⟨e, h⟩ | ⟨id, h, hmem⟩ | ⟨t', h, hfresh, hbindings, hnext⟩
  · left
    rw [internName, h]
  · right
    left
    refine ⟨id, ?_, hmem⟩
    rw [internName, h]
    rfl
  · right
    right
    refine ⟨{ s with intern := t' }, ?_, hfresh, hbindings, hnext⟩
    rw [internName, h]
    rfl

end SdkState

end Sdk
