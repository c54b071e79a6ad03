import DetGuest.Sdk.State
import DetGuest.Wire.Ports
import DetGuest.Wire.Regionipc

/-!
# The calls of the SDK

A call runs on a platform: the memory with ring W, the ports of the hypervisor, ring I and the
socket of the agent.  What else happens in the guest and on the host between two steps of the SDK
is up to the platform.
-/

namespace Sdk

open Wire Wire.Regionipc

/-- Errors of the publication of a region. -/
inductive RegionError where
  | manifestFull
  | tooManyExtents
  | notPinned
  | nameTooLong
  | agentUnavailable
  deriving DecidableEq, Repr

/-- The error of a status that is not `ok`. -/
def statusToError (status : UInt16) : RegionError :=
  if status = Status.manifestFull.toU16 then .manifestFull
  else if status = Status.tooManyExtents.toU16 then .tooManyExtents
  else if status = Status.notPinned.toU16 then .notPinned
  else if status = Status.nameTooLong.toU16 then .nameTooLong
  else .agentUnavailable

/-- What the SDK runs on. -/
structure Platform (σ : Type) where
  dbg : Bool
  /-- Ring W, and the address of the header of the channel. -/
  ringW : RingMap
  base : Nat
  producer : Exec.Part σ Producer
  state : Exec.Part σ SdkState
  /-- The clock of the events. -/
  vnanos : Exec σ InitError UInt64
  /-- What happens elsewhere before the SDK goes on. -/
  idle : Exec σ InitError Unit
  doorbellW : Exec σ InitError Unit
  detcallOut : UInt16 → UInt32 → Exec σ InitError Unit
  detcallIn : UInt16 → Exec σ InitError UInt32
  pollWorkloadCtrl : Exec σ InitError (Option WorkloadCtrl)
  /-- Pin a range of memory. -/
  mlock : UInt64 → UInt64 → Exec σ Unit Unit
  /-- Send a datagram to the agent and receive one. -/
  transport : Bytes → Exec σ Unit Bytes
  /-- A bound on the rounds of a loop. -/
  fuel : σ → Nat

/-- A call of the SDK. -/
inductive Call where
  | assertAlways (cond : Bool) (name details : Bytes)
  | expectReachable (name : Bytes)
  | declareReachable (name : Bytes)
  | coverageBeacon (id : UInt32)
  | injectPoint (name : Bytes)
  | frameMark
  | quiesceCheck
  | logLine (level : LogLevel) (msg : Bytes)
  | registerRegion (name : Bytes) (layoutVersion : UInt32) (ptr len : UInt64) (flags : UInt32)
  | unregisterRegion (regionId : UInt32)
  deriving DecidableEq, Repr

/-- The name that a call is given. -/
def Call.name : Call → Option Bytes
  | .assertAlways _ name _ => some name
  | .expectReachable name => some name
  | .declareReachable name => some name
  | .injectPoint name => some name
  | .registerRegion name _ _ _ _ => some name
  | _ => none

/-- What a call returns. -/
inductive Returned where
  | done
  | decided (decision : FaultDecision)
  | registered (handle : Except RegionError UInt32)
  deriving DecidableEq, Repr

namespace Platform

variable {σ : Type} (P : Platform σ)

/-- Emit an event on ring W. -/
def emitWEvent (e : Emission) : Exec σ InitError Unit := do
  let vnanos ← P.vnanos
  P.idle
  let s ← Exec.get
  emit P.dbg P.producer P.ringW P.base vnanos e.extraFlags e.ev e.cls P.doorbellW (P.fuel s)

/-- Emit an event on ring W and ring the doorbell behind it. -/
def emitWEventWithDoorbell (e : Emission) : Exec σ InitError Unit := do
  P.emitWEvent e
  P.doorbellW

/-- Emit events on ring W; the SDK does not look at what comes of them. -/
def emitEach {ε : Type} : List Emission → Exec σ ε Unit
  | [] => pure ()
  | e :: es => do
      let _ ← Exec.attempt (P.emitWEvent e)
      emitEach es

/-- A call that changes the state and emits events. -/
def react {ε : Type} (f : SdkState → SdkState × List Emission) : Exec σ ε Unit := do
  let s ← Exec.get
  let next := f (P.state.get s)
  Exec.modify fun s => P.state.set s next.1
  P.emitEach next.2

/-- Intern a name; one that is new is announced. -/
def internName {ε : Type} (name : Bytes) (extraFlags : UInt8) : Exec σ ε (Option UInt32) := do
  let s ← Exec.get
  let interned := (P.state.get s).internName name extraFlags
  Exec.modify fun s => P.state.set s interned.1
  P.emitEach interned.2.1
  pure interned.2.2

/-- Take the next sequence number of the inject queries. -/
def takeIseq {ε : Type} : Exec σ ε UInt32 := do
  let s ← Exec.get
  let iseq := (P.state.get s).nextIseq
  Exec.modify fun s => P.state.set s { P.state.get s with nextIseq := iseq + 1 }
  pure iseq

/-- The exchange of an inject query: the query is on ring W before the port is written. -/
def query (iseq nameId : UInt32) : Exec σ InitError FaultDecision := do
  P.emitWEventWithDoorbell ⟨0, .injectQuery iseq nameId, .critical⟩
  P.detcallOut portInject iseq
  let packed ← P.detcallIn portInject
  pure (.unpack packed)

/-- Ask the host whether to inject a fault; an error is no fault. -/
def injectPoint {ε : Type} (name : Bytes) : Exec σ ε FaultDecision := do
  Exec.modify fun s => P.state.set s (P.state.get s).countInject
  match ← P.internName name 0 with
  | none => pure .proceed
  | some nameId => do
      let iseq ← P.takeIseq
      match ← Exec.attempt (P.query iseq nameId) with
      | .ok decision => pure decision
      | .error _ => pure .proceed

/-- A request to the agent and its reply. -/
def callAgent (req : Request) : Exec σ RegionError Reply := do
  let (buf, len) := (encodeRequest req).run (Bytes.zeros maxDatagram)
  let n ← Exec.lift (len.mapErr fun _ => .nameTooLong)
  let reply ← Exec.mapErr (fun _ => .agentUnavailable) (P.transport (buf.take n))
  Exec.lift ((decodeReply reply).mapErr fun _ => .agentUnavailable)

/-- The checks of a region. -/
def validateRegion (name : Bytes) (ptr len : UInt64) : Exec σ RegionError Unit := do
  Exec.failIf (name.length > maxRegionName) .nameTooLong
  Exec.failIf (len = 0 ∨ ptr = 0) .notPinned

/-- Publish a range of memory to the host under a name; returns the id of the region. -/
def registerRegion (name : Bytes) (layoutVersion : UInt32) (ptr len : UInt64) (flags : UInt32) :
    Exec σ RegionError UInt32 := do
  validateRegion name ptr len
  Exec.mapErr (fun _ => .notPinned) (P.mlock ptr len)
  match ← P.internName name 0 with
  | none => Exec.fail .agentUnavailable
  | some nameId => do
      let reply ← P.callAgent (.register flags layoutVersion nameId ptr len name)
      Exec.failIf (reply.status ≠ Status.ok.toU16) (statusToError reply.status)
      Exec.failIf (reply.manifestGeneration.toNat ≥ 2 ^ 32) .agentUnavailable
      Exec.mapErr (fun _ => .agentUnavailable) (P.emitWEventWithDoorbell ⟨0, .regionRegister
        { regionId := reply.regionId
          nameId := reply.nameId
          layoutVersion
          manifestGeneration := reply.manifestGeneration.toUInt32 }, .critical⟩)
      pure reply.regionId

/-- The loop of a parked workload.  `n` bounds its rounds: a loop that used all of it has not
returned, and stands as a panic. -/
def awaitResume {ε : Type} (token : UInt64) : Nat → Exec σ ε Unit
  | 0 => Exec.panic
  | n + 1 => do
      match ← Exec.attempt P.pollWorkloadCtrl with
      | .ok (some (.resume token')) =>
          if token' = token then pure () else awaitResume token n
      | .ok _ => awaitResume token n
      | .error _ => pure ()

/-- Report that the workload is parked, and wait for the host. -/
def parkUntilResume {ε : Type} (token : UInt64) : Exec σ ε Unit := do
  match ← Exec.attempt (P.emitWEventWithDoorbell ⟨0, .quiesceReady token, .critical⟩) with
  | .ok () => do
      let s ← Exec.get
      P.awaitResume token (P.fuel s)
  | .error _ => pure ()

/-- The loop of `quiesceCheck`, with a bound on its rounds. -/
def checkLoop {ε : Type} : Nat → Exec σ ε Unit
  | 0 => Exec.panic
  | n + 1 => do
      match ← Exec.attempt P.pollWorkloadCtrl with
      | .ok (some (.quiesceReq token)) => do
          P.parkUntilResume token
          checkLoop n
      | .ok (some (.resume _)) => checkLoop n
      | .ok none => pure ()
      | .error _ => pure ()

/-- Cooperative quiesce point. -/
def quiesceCheck {ε : Type} : Exec σ ε Unit := do
  let s ← Exec.get
  P.checkLoop (P.fuel s)

/-- Run a call. -/
def call : Call → Exec σ Empty Returned
  | .assertAlways cond name details => do
      P.react fun s => s.assertAlways cond name details
      pure .done
  | .expectReachable name => do
      P.react fun s => s.expectReachable name
      pure .done
  | .declareReachable name => do
      P.react fun s => s.declareReachable name
      pure .done
  | .coverageBeacon id => do
      P.react fun s => s.coverageBeacon id
      pure .done
  | .injectPoint name => do
      let decision ← P.injectPoint name
      pure (.decided decision)
  | .frameMark => do
      P.react SdkState.frameMark
      pure .done
  | .quiesceCheck => do
      P.quiesceCheck
      pure .done
  | .logLine level msg => do
      P.react fun s => s.logLine level msg
      pure .done
  | .registerRegion name layoutVersion ptr len flags => do
      let handle ← Exec.attempt (P.registerRegion name layoutVersion ptr len flags)
      pure (.registered handle)
  | .unregisterRegion regionId => do
      let _ ← Exec.attempt (P.callAgent (.unregister regionId))
      pure .done

end Platform

end Sdk
