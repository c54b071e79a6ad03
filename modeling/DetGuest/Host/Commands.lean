import DetGuest.Host.Channel
import DetGuest.Wire.Events
import DetGuest.Wire.Ring

/-!
# Pushing commands and workload-control records

The host is the producer of rings C and I.  A push checks the room, encodes the record
and the `Pad` in front of it into a span, writes the span to the ring, publishes the
producer index and reports the whole mutation at once.
-/

namespace Host

open Wire

/-- Encode the `Pad` at the start of the span; returns the place of the record and its
sequence number. -/
def encodeTail (dbg : Bool) (tail : Nat) (seq : UInt32) :
    Exec Bytes EncodeError (Nat × UInt32) := do
  let _ ← Bytes.within 0 tail (encodePad dbg tail seq)
  pure (tail, seq + 1)

/-- Encode the record into the span, behind a `Pad` when it does not fit in front of the
end of the ring.  Returns the place of the record and the next sequence number. -/
def encodeSpan (dbg : Bool) (prod size : UInt32) (total : Nat)
    (encode : UInt32 → Exec Bytes EncodeError Nat) (seq : UInt32) :
    Exec Bytes EncodeError (Nat × UInt32) := do
  let (recordAt, seq) ←
    if bytesNeeded prod size (UInt32.ofNat total) > UInt32.ofNat total then
      encodeTail dbg (contiguousTail prod size).toNat seq
    else
      pure (0, seq)
  let n ← Bytes.within recordAt (recordAt + total) (encode seq)
  Exec.debugAssert dbg (n = total)
  pure (recordAt, seq + 1)

/-- Write the `Pad` of a span; returns the position behind it. -/
def writeTail (dbg : Bool) (data : Nat) (mask prod : UInt32) (span : Bytes) (recordAt : Nat) :
    Exec HostState MemError UInt32 := do
  gmWrite (data + (prod &&& mask).toNat) (span.take recordAt)
  let pos := prod + UInt32.ofNat recordAt
  Exec.debugAssert dbg (pos &&& mask = 0)
  pure pos

/-- Write a span: the `Pad` at the producer position, the record at offset zero behind
it. -/
def writeSpan (dbg : Bool) (data : Nat) (mask prod : UInt32) (span : Bytes) (recordAt : Nat) :
    Exec HostState MemError Unit := do
  let pos ← if recordAt > 0 then writeTail dbg data mask prod span recordAt else pure prod
  gmWrite (data + (pos &&& mask).toNat) (span.drop recordAt)

/-- The push both producers share.  Returns the length of the record and the next sequence
number. -/
def pushRecord (dbg : Bool) (ring : RingId) (total : Nat)
    (encode : UInt32 → Exec Bytes EncodeError Nat) (seq : UInt32) :
    Exec HostState PushError (Nat × UInt32) := do
  let h ← Exec.get
  let size := (h.ch.ringDesc ring).size
  let mask := size - 1
  let data := h.ch.dataGpa ring
  let prod ← Exec.mapErr .mem (gmReadU32 (h.ch.prodGpa ring))
  let cons ← Exec.mapErr .mem (gmReadU32 (h.ch.consGpa ring))
  let needed := bytesNeeded prod size (UInt32.ofNat total)
  Exec.failIf (free prod cons size < needed) .ringFull
  let (span, res) := (encodeSpan dbg prod size total encode seq).run (Bytes.zeros needed.toNat)
  let (recordAt, seq) ← Exec.lift (res.mapErr .encode)
  Exec.mapErr .mem (writeSpan dbg data mask prod span recordAt)
  let newProd := prod + needed
  Exec.mapErr .mem (gmWriteU32 (h.ch.prodGpa ring) newProd)
  report (.ringPush ring span newProd)
  pure (total, seq)

/-- The length of the payload of a command. -/
def commandPayloadLen (cmd : Command) : Nat :=
  match cmd with
  | .quiesce _ _ => 16
  | .reverifyRegions => 0
  | _ => 8

/-- Push a command onto ring C. -/
def pushCommand (dbg : Bool) (cmd : Command) : Exec HostState PushError Unit := do
  let total := recordLen (commandPayloadLen cmd)
  let h ← Exec.get
  let (pushed, seq) ← pushRecord dbg .C total (fun s => encodeCommand dbg s cmd) h.ch.nextSeqC
  Exec.modify fun h => { h with ch := { h.ch with nextSeqC := seq } }
  Exec.debugAssert dbg (pushed = total)

/-- Push a workload-control record onto ring I. -/
def pushWorkloadCtrl (dbg : Bool) (rec : WorkloadCtrl) : Exec HostState PushError Unit := do
  let total := recordLen 8
  let h ← Exec.get
  let (pushed, seq) ← pushRecord dbg .I total (fun s => encodeWorkloadCtrl dbg s 0 rec)
    h.ch.nextSeqI
  Exec.modify fun h => { h with ch := { h.ch with nextSeqI := seq } }
  Exec.debugAssert dbg (pushed = total)

end Host
