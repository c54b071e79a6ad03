import DetGuest.Host.Channel
import DetGuest.Wire.Events

/-!
# Draining rings A and W

The host takes all complete records off the guest-to-host rings, folds name bindings and
inject queries into its tables and stores the new consumer index.
-/

namespace Host

open Wire

/-- A payload of a drained event.  `Pad`s are consumed by the drain. -/
inductive OwnedPayload where
  | hello (protoVersion agentVersion : UInt32) (capabilities : UInt64)
  | nameIntern (nameId : UInt32) (name : Bytes) (reachableDecl : Bool)
  | assertViolation (nameId violationCount : UInt32) (details : Bytes)
  | reachable (nameId : UInt32)
  | beacon (beaconId : UInt32)
  | injectQuery (iseq nameId : UInt32)
  | regionRegister (r : RegionEvent)
  | regionUpdate (r : RegionEvent)
  | workloadStarted (guestPid unit : UInt32)
  | workloadExited (guestPid : UInt32) (exitCode termSignal : Int32)
  | logLine (stream level : UInt8) (msg : Bytes)
  | quiesceReady (token : UInt64)
  | frameMark (frameIndex : UInt32)
  | ready (unit regionCount : UInt32) (manifestGeneration : UInt64)
  deriving DecidableEq, Repr

/-- A drained event with its framing metadata and the bytes of its record. -/
structure GuestEvent where
  ring : RingId
  seq : UInt32
  vnanos : UInt64
  truncated : Bool
  rawRecord : Bytes
  payload : OwnedPayload
  deriving DecidableEq, Repr

/-- The drained form of a payload. -/
def toOwned (flags : UInt8) (p : EventPayload) : Option OwnedPayload :=
  match p with
  | .pad => none
  | .hello protoVersion agentVersion capabilities =>
      some (.hello protoVersion agentVersion capabilities)
  | .nameIntern nameId name =>
      some (.nameIntern nameId name (flags &&& flagReachableDecl != 0))
  | .assertViolation nameId violationCount details =>
      some (.assertViolation nameId violationCount details)
  | .reachable nameId => some (.reachable nameId)
  | .beacon beaconId => some (.beacon beaconId)
  | .injectQuery iseq nameId => some (.injectQuery iseq nameId)
  | .regionRegister r => some (.regionRegister r)
  | .regionUpdate r => some (.regionUpdate r)
  | .workloadStarted guestPid unit => some (.workloadStarted guestPid unit)
  | .workloadExited guestPid exitCode termSignal =>
      some (.workloadExited guestPid exitCode termSignal)
  | .logLine stream level msg => some (.logLine stream level msg)
  | .quiesceReady token => some (.quiesceReady token)
  | .frameMark frameIndex => some (.frameMark frameIndex)
  | .ready unit regionCount manifestGeneration =>
      some (.ready unit regionCount manifestGeneration)

/-- Fold a payload into the tables of the channel.  The first name of an id is kept; a
different one is counted. -/
def Channel.foldPayload (ch : Channel) (owned : OwnedPayload) : Channel :=
  match owned with
  | .nameIntern nameId name reachableDecl =>
      let lossy := Utf8.fromUtf8Lossy name
      match ch.interns[nameId]? with
      | some e =>
          let e' := { e with reachableDecl := e.reachableDecl || reachableDecl }
          { ch with
            interns := ch.interns.insert nameId e'
            internRedefinitions := ch.internRedefinitions + if e.name != lossy then 1 else 0 }
      | none => { ch with interns := ch.interns.insert nameId { name := lossy, reachableDecl } }
  | .injectQuery iseq nameId =>
      { ch with pendingInjects := ch.pendingInjects.insert iseq nameId }
  | _ => ch

/-- Fold a whole record into the channel.  A record of unknown kind is skipped and
counted. -/
def foldRecord (ring : RingId) (rec : Bytes) : Exec HostState WireError (Option GuestEvent) :=
  match decodeEvent rec with
  | .ok (hdr, payload) =>
      match toOwned hdr.flags payload with
      | none => pure none
      | some owned => do
          Exec.modify fun h => { h with ch := h.ch.foldPayload owned }
          pure (some
            { ring
              seq := hdr.seq
              vnanos := hdr.vnanos
              truncated := hdr.flags &&& flagTruncated != 0
              rawRecord := rec
              payload := owned })
  | .err (.unknownKind _) => do
      Exec.modify fun h =>
        { h with ch := { h.ch with unknownKindRecords := h.ch.unknownKindRecords + 1 } }
      pure none
  | .err e => Exec.fail (.decode e)
  | .panic => Exec.panic

/-- Copy the record at `pos` out of the ring; nothing when it reaches past the published
bytes. -/
def copyRecord (dbg : Bool) (size : UInt32) (data : Nat) (pos avail : UInt32) :
    Exec HostState WireError (Option Bytes) := do
  let off := pos &&& (size - 1)
  let tail := size - off
  Exec.debugAssert dbg (padMinLen ≤ tail.toNat)
  -- peek at the first eight bytes for the length
  let b ← Exec.mapErr .mem (gmRead (data + off.toNat) padMinLen)
  let len := (← Exec.lift (b.slice 0 2)).toU16.toNat
  let kind ← Exec.lift (b.byte 2)
  Exec.failIf (len % recordAlign ≠ 0 ∨ len < minLen kind ∨ len > maxRecordLen) (.decode .badLen)
  if len > avail.toNat then
    pure none
  else do
    Exec.failIf (len > tail.toNat) (.decode .badLen)
    let rec ← Exec.mapErr .mem (gmRead (data + off.toNat) len)
    pure (some rec)

/-- The loop over the published records.  Each of them has at least eight bytes, so
`fuel` runs out only behind the last one. -/
def drainLoop (dbg : Bool) (ring : RingId) (size : UInt32) (data : Nat) :
    Nat → UInt32 → UInt32 → List GuestEvent → Exec HostState WireError (UInt32 × List GuestEvent)
  | 0, pos, _, out => pure (pos, out)
  | fuel + 1, pos, avail, out =>
      if avail.toNat < padMinLen then
        pure (pos, out)
      else do
        match ← copyRecord dbg size data pos avail with
        | none => pure (pos, out)
        | some rec => do
            let ev ← foldRecord ring rec
            let len := UInt32.ofNat rec.length
            drainLoop dbg ring size data fuel (pos + len) (avail - len) (out ++ ev.toList)

/-- Drain one ring. -/
def drainRing (dbg : Bool) (ring : RingId) (out : List GuestEvent) :
    Exec HostState WireError (List GuestEvent) := do
  let h ← Exec.get
  let size := (h.ch.ringDesc ring).size
  let data := h.ch.dataGpa ring
  let prod ← Exec.mapErr .mem (gmReadU32 (h.ch.prodGpa ring))
  let cons ← Exec.mapErr .mem (gmReadU32 (h.ch.consGpa ring))
  let avail := prod - cons
  Exec.failIf (avail > size) (.corruptIndices ring)
  let (pos, out) ← drainLoop dbg ring size data (avail.toNat / 8 + 1) cons avail out
  if pos ≠ cons then do
    Exec.mapErr .mem (gmWriteU32 (h.ch.consGpa ring) pos)
    report (.consBump ring pos)
  pure out

/-- Drain all complete records, ring A first and then ring W. -/
def drainEvents (dbg : Bool) : Exec HostState WireError (List GuestEvent) := do
  let out ← drainRing dbg .A []
  drainRing dbg .W out

end Host
