import DetGuest.Agent.Supervise
import DetGuest.Lib.Utf8
import DetGuest.Wire.Regionipc

/-!
# The region server

The agent publishes regions of the workload's memory in the manifest.  It handles the requests
of the workload, translates the address ranges, writes the manifest under the seqlock, emits
the evidence on ring A and keeps a ledger of the regions, which a sweep verifies again.
-/

namespace Agent

open Wire Wire.Regionipc

/-! ### Translation -/

/-- Why an address does not translate. -/
inductive TranslateError where
  | notPresent (vaddr : UInt64)
  | swapped (vaddr : UInt64)
  | pfnHidden (vaddr : UInt64)
  | io
  deriving DecidableEq, Repr

/-- Why a range has no extents. -/
inductive BuildExtentsError where
  | translate (e : TranslateError)
  | tooManyExtents
  deriving DecidableEq, Repr

/-- The translator of address ranges of a process; it may answer differently each time. -/
abbrev Translator (τ : Type) : Type :=
  τ → Int32 → UInt64 → UInt64 → τ × Except BuildExtentsError (List Extent)

/-! ### The manifest writer -/

/-- `u32::saturating_add`. -/
def saturatingAdd (a b : UInt32) : UInt32 :=
  if a.toNat + b.toNat < 2 ^ 32 then a + b else 0xFFFFFFFF

/-- Write extents to the slots of the pool from `off` on. -/
def writeExtents : Nat → List Extent → Exec Slice EncodeError Unit
  | _, [] => pure ()
  | off, x :: xs => do
      x.writeTo off
      writeExtents (off + 1) xs

/-- Write a region to the next slot of the manifest and its extents to the end of the pool;
returns the slot and the new generation. -/
def writeRegion (dbg : Bool) (name : Bytes) (nameId layoutVersion flags : UInt32)
    (gva len : UInt64) (extents : List Extent) : Exec Slice Status (UInt32 × UInt64) := do
  let packedName ← Exec.lift ((RegionEntry.packName name).mapErr fun _ => .badRequest)
  let manifest ← Exec.get
  let hdr ← Exec.lift ((ManifestHeader.readFrom manifest).mapErr fun _ => .internal)
  Exec.lift (hdr.validate.mapErr fun _ => .internal)
  Exec.failIf (hdr.regionCount.toNat ≥ regionCapacity) .manifestFull
  Exec.failIf (hdr.extentCount.toNat + extents.length > extentCapacity) .tooManyExtents
  let oddGeneration ← Exec.mapErr (fun _ => .internal) writerBegin
  Exec.expect (writeExtents hdr.extentCount.toNat extents)
  let entry : RegionEntry :=
    { regionId := hdr.regionCount
      nameId
      layoutVersion
      flags
      gva
      len
      extentOff := hdr.extentCount
      extentN := UInt32.ofNat extents.length
      name := packedName }
  Exec.expect (entry.writeTo hdr.regionCount.toNat)
  Exec.expect (ManifestHeader.writeTo { hdr with
    generation := oddGeneration
    regionCount := saturatingAdd hdr.regionCount 1
    extentCount := saturatingAdd hdr.extentCount (UInt32.ofNat extents.length) })
  let generation ← Exec.mapErr (fun _ => .internal) (writerEnd dbg)
  pure (hdr.regionCount, generation)

/-- Mark a region as dead; returns the new generation. -/
def markRegionDead (dbg : Bool) (regionId : UInt32) : Exec Slice Status UInt64 := do
  let manifest ← Exec.get
  let entry ← Exec.lift ((RegionEntry.readFrom manifest regionId.toNat).mapErr fun _ => .internal)
  let _ ← Exec.mapErr (fun _ => Status.internal) writerBegin
  Exec.mapErr (fun _ => Status.internal)
    (RegionEntry.writeTo { entry with flags := entry.flags ||| regionFlagDead } regionId.toNat)
  Exec.mapErr (fun _ => .internal) (writerEnd dbg)

/-- Rewrite the extents of a region: in place when there are no more than before, and otherwise
at the end of the pool; returns the new generation. -/
def rewriteExtents (dbg : Bool) (regionId : UInt32) (extents : List Extent) :
    Exec Slice Status UInt64 := do
  let manifest ← Exec.get
  let entry ← Exec.lift ((RegionEntry.readFrom manifest regionId.toNat).mapErr fun _ => .internal)
  let hdr ← Exec.lift ((ManifestHeader.readFrom manifest).mapErr fun _ => .internal)
  let bumpPool := ¬ extents.length ≤ entry.extentN.toNat
  Exec.failIf (bumpPool ∧ hdr.extentCount.toNat + extents.length > extentCapacity) .tooManyExtents
  let extentOff := if bumpPool then hdr.extentCount else entry.extentOff
  let odd ← Exec.mapErr (fun _ => .internal) writerBegin
  Exec.mapErr (fun _ => .internal) (writeExtents extentOff.toNat extents)
  Exec.mapErr (fun _ => Status.internal) (RegionEntry.writeTo { entry with
    extentOff
    extentN := UInt32.ofNat extents.length } regionId.toNat)
  if bumpPool then
    Exec.mapErr (fun _ => Status.internal) (ManifestHeader.writeTo { hdr with
      generation := odd
      extentCount := saturatingAdd hdr.extentCount (UInt32.ofNat extents.length) })
  Exec.mapErr (fun _ => .internal) (writerEnd dbg)

/-! ### The ledger -/

/-- A registered region as the agent knows it. -/
structure RegionRecord where
  regionId : UInt32
  name : Bytes
  nameId : UInt32
  layoutVersion : UInt32
  pid : Int32
  gva : UInt64
  len : UInt64
  extents : List Extent
  dead : Bool
  deriving DecidableEq, Repr

/-- The server: the ledger, the state of the translator, the manifest area of the channel, the
clock, and the events so far. -/
structure RegionIpc (τ : Type) where
  records : List RegionRecord
  translator : τ
  manifest : Slice
  vnanos : UInt64
  emitted : List Emission

/-- Calls of the server end with a value or panic. -/
abbrev RegionExec (τ α : Type) : Type := Exec (RegionIpc τ) Empty α

/-- A reply without a region. -/
def errReply (status : Status) : Reply :=
  { status := status.toU16, regionId := 0, nameId := 0, manifestGeneration := 0 }

/-- The status of a failed translation. -/
def buildErrorStatus : BuildExtentsError → Status
  | .translate .io => .internal
  | .translate _ => .notPinned
  | .tooManyExtents => .tooManyExtents

/-- The generation of the manifest. -/
def currentGeneration (manifest : Slice) : UInt64 :=
  match readGeneration manifest with
  | .ok g => g
  | _ => 0

/-- The event about a region, with its generation saturated. -/
def regionEvent (record : RegionRecord) (generation : UInt64) : RegionEvent :=
  { regionId := record.regionId
    nameId := record.nameId
    layoutVersion := record.layoutVersion
    manifestGeneration :=
      if generation.toNat < 2 ^ 32 then generation.toUInt32 else 0xFFFFFFFF }

namespace RegionIpc

variable {τ α : Type}

/-- Run a call on the manifest area; its error is a value. -/
def onManifest (x : Exec Slice Status α) : RegionExec τ (Except Status α) :=
  ⟨fun s =>
    match x.run s.manifest with
    | (manifest, .ok a) => ({ s with manifest }, .ok (.ok a))
    | (manifest, .err e) => ({ s with manifest }, .ok (.error e))
    | (manifest, .panic) => ({ s with manifest }, .panic)⟩

/-- Ask the translator. -/
def translate (f : Translator τ) (pid : Int32) (gva len : UInt64) :
    RegionExec τ (Except BuildExtentsError (List Extent)) := do
  let s ← Exec.get
  let next := f s.translator pid gva len
  Exec.set { s with translator := next.1 }
  pure next.2

/-- Emit an event on ring A. -/
def emit (doorbell : Bool) (ev : EventPayload) : RegionExec τ Unit :=
  Exec.modify fun s => { s with
    vnanos := s.vnanos + 1
    emitted := s.emitted ++ [⟨s.vnanos, 0, ev, doorbell⟩] }

/-- Mark the live record of a region as dead. -/
def killRecord (regionId : UInt32) : List RegionRecord → List RegionRecord
  | [] => []
  | r :: rs =>
      if r.regionId = regionId ∧ r.dead = false then
        { r with dead := true } :: rs
      else
        r :: killRecord regionId rs

/-- Handle a request of a process. -/
def handle (dbg : Bool) (f : Translator τ) (req : Request) (peerPid : Int32)
    (workloadPid : Option Int32) : RegionExec τ Reply :=
  match req with
  | .register flags layoutVersion nameId gva len name =>
      if workloadPid ≠ some peerPid then
        pure (errReply .unknownPid)
      else do
        match ← translate f peerPid gva len with
        | .error e => pure (errReply (buildErrorStatus e))
        | .ok extents =>
            match ← onManifest (writeRegion dbg name nameId layoutVersion flags gva len extents) with
            | .error status => pure (errReply status)
            | .ok (regionId, generation) =>
                if generation.toNat ≥ 2 ^ 32 then
                  pure (errReply .internal)
                else do
                  emit false (.nameIntern nameId name)
                  emit true (.regionRegister
                    { regionId, nameId, layoutVersion
                      manifestGeneration := generation.toUInt32 })
                  Exec.modify fun s => { s with
                    records := s.records ++ [{ regionId, name, nameId, layoutVersion
                                               pid := peerPid, gva, len, extents, dead := false }] }
                  pure { status := Status.ok.toU16, regionId, nameId
                         manifestGeneration := generation }
  | .unregister regionId =>
      if workloadPid ≠ some peerPid then
        pure (errReply .unknownPid)
      else do
        let s ← Exec.get
        match s.records.find? fun r => r.regionId = regionId ∧ r.dead = false with
        | none => pure (errReply .unknownRegion)
        | some record =>
            match ← onManifest (markRegionDead dbg regionId) with
            | .error status => pure (errReply status)
            | .ok generation =>
                Exec.modify fun s => { s with records := killRecord regionId s.records }
                pure { status := Status.ok.toU16, regionId, nameId := record.nameId
                       manifestGeneration := generation }

/-- Answer a datagram.  One that is too long or no request is answered as a bad request. -/
def serve (dbg : Bool) (f : Translator τ) (datagram : Bytes) (peerPid : Int32)
    (workloadPid : Option Int32) : RegionExec τ Reply :=
  if datagram.length > maxDatagram then
    pure (errReply .badRequest)
  else
    match decodeRequest datagram with
    | .ok req => handle dbg f req peerPid workloadPid
    | .err _ => pure (errReply .badRequest)
    | .panic => Exec.panic

/-! ### The sweep -/

/-- The alarm about a region. -/
def alarm (record : RegionRecord) (what : String) : Bytes :=
  (("P0: region " ++ toString record.regionId.toNat ++ " (").toUTF8.toList
    ++ Utf8.fromUtf8Lossy record.name ++ (") " ++ what).toUTF8.toList)

/-- Mark a region as dead; returns the generation behind it. -/
def bury (dbg : Bool) (record : RegionRecord) : RegionExec τ UInt64 := do
  match ← onManifest (markRegionDead dbg record.regionId) with
  | .ok generation => pure generation
  | .error _ => do
      let s ← Exec.get
      pure (currentGeneration s.manifest)

/-- Translate a region again: the same extents are echoed, others are written, and a region
whose range does not translate, or whose extents do not fit, dies. -/
def reverifyRecord (dbg : Bool) (f : Translator τ) (record : RegionRecord) :
    RegionExec τ (RegionRecord × RegionEvent × Option Bytes) := do
  match ← translate f record.pid record.gva record.len with
  | .ok extents =>
      if extents = record.extents then do
        let s ← Exec.get
        pure (record, regionEvent record (currentGeneration s.manifest), none)
      else do
        let drifted := alarm record "extents drifted under pinning"
        match ← onManifest (rewriteExtents dbg record.regionId extents) with
        | .ok generation =>
            pure ({ record with extents }, regionEvent record generation, some drifted)
        | .error _ => do
            let generation ← bury dbg record
            pure ({ record with dead := true }, regionEvent record generation, some drifted)
  | .error _ => do
      let generation ← bury dbg record
      pure ({ record with dead := true }, regionEvent record generation,
        some (alarm record "no longer translates; marking dead"))

/-- Translate the live regions of the ledger again, in its order. -/
def reverifyRecords (dbg : Bool) (f : Translator τ) :
    List RegionRecord → RegionExec τ (List RegionRecord × List (RegionEvent × Option Bytes))
  | [] => pure ([], [])
  | r :: rs =>
      if r.dead then do
        let rest ← reverifyRecords dbg f rs
        pure (r :: rest.1, rest.2)
      else do
        let next ← reverifyRecord dbg f r
        let rest ← reverifyRecords dbg f rs
        pure (next.1 :: rest.1, next.2 :: rest.2)

/-- Emit the updates of a sweep, with a doorbell behind the last one. -/
def emitUpdates : List (RegionEvent × Option Bytes) → RegionExec τ Unit
  | [] => pure ()
  | (event, alarm) :: rest => do
      match alarm with
      | some msg => emit false (.logLine agentStream 0 msg)
      | none => pure ()
      emit rest.isEmpty (.regionUpdate event)
      emitUpdates rest

/-- Verify all live regions again. -/
def reverify (dbg : Bool) (f : Translator τ) : RegionExec τ Unit := do
  let s ← Exec.get
  let swept ← reverifyRecords dbg f s.records
  Exec.modify fun s => { s with records := swept.1 }
  emitUpdates swept.2

end RegionIpc

end Agent
