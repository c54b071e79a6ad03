import DetGuest.Wire.Queue

/-!
# The workload's side of the channel

The SDK pushes events on ring W and polls the workload-control records of ring I.
-/

namespace Sdk

open Wire

/-- The errors of the channel: an I/O error of kind invalid data that quotes the decode
error, an event that is too long for a record, a port that may not be used, and a header with
another magic or version. -/
inductive InitError where
  | agentSocket (err : DecodeError)
  | invalidInput
  | pioPermissionDenied
  | badChannelHeader (foundMagic : UInt64)
  | protocolVersionMismatch (guest channel : UInt32)
  deriving DecidableEq, Repr

def mapDecodeError (err : DecodeError) : InitError := .agentSocket err

/-- Push an event on ring W. -/
def pushEvent (dbg : Bool) (r : RingMap) (len : Nat) (vnanos : UInt64) (extraFlags : UInt8)
    (ev : EventPayload) : Exec Producer RingFull Unit := do
  let _ ← Producer.tryPush dbg r len (fun seq => encodeEvent dbg seq vnanos extraFlags ev)

/-- The content of a record of ring I.  `Pad`s and reserved kinds are skipped. -/
def takeWorkloadCtrl (rec : Bytes) : Res DecodeError (Option WorkloadCtrl) :=
  match decodeWorkloadCtrl rec with
  | .ok (_, ctrl) => .ok (some ctrl)
  | .err (.unknownKind _) => .ok none
  | .err e => .err e
  | .panic => .panic

/-- Poll one workload-control record off the given ring, with a scratch buffer of its
own. -/
def pollWorkloadCtrl (dbg : Bool) (r : RingMap) : Exec ByteMem InitError (Option WorkloadCtrl) := do
  let m ← Exec.get
  let (c, res) := (Exec.mapErr mapDecodeError (Consumer.popUntil dbg r takeWorkloadCtrl)).run
    ⟨m, Bytes.zeros maxRecordLen⟩
  Exec.set c.mem
  Exec.lift res

theorem takeWorkloadCtrl_padBytes {tailLen : Nat} (seq : UInt32)
    (hmod : tailLen % recordAlign = 0) (hmin : padMinLen ≤ tailLen)
    (hmax : tailLen ≤ maxRecordLen) :
  takeWorkloadCtrl (padBytes tailLen seq) = .ok none
  := by
  rw [takeWorkloadCtrl, decodeWorkloadCtrl_padBytes seq hmod hmin hmax]

theorem takeWorkloadCtrl_workloadCtrlBytes (seq : UInt32) (vnanos : UInt64) (rec : WorkloadCtrl) :
  takeWorkloadCtrl (workloadCtrlBytes seq vnanos rec) = .ok (some rec)
  := by
  rw [takeWorkloadCtrl, decodeWorkloadCtrl_workloadCtrlBytes]

end Sdk
