import DetGuest.Sdk.Channel

/-!
# Emitting events on ring W

An event is pushed on ring W.  When the ring is full a critical event rings the doorbell and tries
again; the others are counted in the header of the channel and dropped.
-/

namespace Sdk

open Wire

/-- Ring-W event criticality. -/
inductive EventClass where
  | critical
  | droppable
  deriving DecidableEq, Repr

variable {σ : Type}

/-- Add to a counter in the header, which wraps. -/
def fetchAddU64 {ε : Type} (a : Nat) (v : UInt64) : Exec Producer ε Unit :=
  Exec.modify fun p => { p with mem := p.mem.write a (Bytes.ofU64 (p.mem.u64 a + v)) }

/-- Count a dropped event of ring W in the header at address `base`. -/
def bump {ε : Type} (base : Nat) (kind : EventKind) (bytes : Nat) : Exec Producer ε Unit := do
  fetchAddU64 (base + offRingWDroppedRecords) 1
  fetchAddU64 (base + offRingWDroppedBytes) (UInt64.ofNat bytes)
  fetchAddU64 (base + offRingWDroppedByKind + kind.toU8.toNat * 8) 1

/-- The retry loop of a critical event.  `fuel` bounds its rounds: a loop that used all of it has
not returned, and stands as a panic. -/
def emitCritical (dbg : Bool) (part : Exec.Part σ Producer) (r : RingMap) (len : Nat)
    (vnanos : UInt64) (extraFlags : UInt8) (ev : EventPayload) (doorbellW : Exec σ InitError Unit) :
    Nat → Exec σ InitError Unit
  | 0 => Exec.panic
  | fuel + 1 => do
      match ← Exec.attempt (Exec.focus part (pushEvent dbg r len vnanos extraFlags ev)) with
      | .ok () => pure ()
      | .error .ringFull => do
          doorbellW
          emitCritical dbg part r len vnanos extraFlags ev doorbellW fuel

/-- Push an event, or count it as dropped. -/
def emitDroppable (dbg : Bool) (part : Exec.Part σ Producer) (r : RingMap) (base len : Nat)
    (vnanos : UInt64) (extraFlags : UInt8) (ev : EventPayload) : Exec σ InitError Unit := do
  match ← Exec.attempt (Exec.focus part (pushEvent dbg r len vnanos extraFlags ev)) with
  | .ok () => pure ()
  | .error .ringFull => Exec.focus part (bump base ev.kind len)

/-- Emit an event on ring W. -/
def emit (dbg : Bool) (part : Exec.Part σ Producer) (r : RingMap) (base : Nat) (vnanos : UInt64)
    (extraFlags : UInt8) (ev : EventPayload) (cls : EventClass) (doorbellW : Exec σ InitError Unit)
    (fuel : Nat) : Exec σ InitError Unit := do
  let len := encodedEventLen ev
  Exec.failIf (len > maxRecordLen) .invalidInput
  match cls with
  | .droppable => emitDroppable dbg part r base len vnanos extraFlags ev
  | .critical => emitCritical dbg part r len vnanos extraFlags ev doorbellW fuel

end Sdk
