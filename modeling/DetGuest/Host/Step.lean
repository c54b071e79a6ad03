import DetGuest.Host.Commands
import DetGuest.Host.Drain
import DetGuest.Host.Inject
import DetGuest.Host.Rings

/-!
# The host, operation by operation

A host works on an attached channel in any order of pushes, drains and answers, while the
guest writes memory in between.  Each operation is observed through its result, what it
reports to the sink, its accesses to guest memory and the memory it leaves.
-/

namespace Host

open Wire

/-- An operation of the host, or a write of the guest. -/
inductive HostOp where
  | pushCommand (cmd : Command)
  | pushWorkloadCtrl (rec : WorkloadCtrl)
  | drainEvents
  | answer (iseq : UInt32)
  | guestWrite (gpa : Nat) (bs : Bytes)

/-- The result of an operation. -/
inductive HostResult where
  | pushed (res : Res PushError Unit)
  | drained (res : Res WireError (List GuestEvent))
  | answered (res : Res Empty UInt32)
  | wrote

/-- What can be observed of an operation. -/
structure Observed where
  result : HostResult
  reported : List SinkOp
  io : List Access
  mem : ByteMem

/-- The observation of a call that started with empty logs. -/
def HostState.observe (h : HostState) (result : HostResult) : Observed :=
  { result, reported := h.sink, io := h.io, mem := h.ch.gm.bytes }

/-- The host between two operations: its fault plan and its channel. -/
structure HostSide (π : Type) where
  plan : π
  ch : Channel

/-- One operation. -/
def hostStep {π : Type} (plan : FaultPlan π) (dbg : Bool) (s : HostSide π) (op : HostOp) :
    HostSide π × Observed :=
  match op with
  | .pushCommand cmd =>
      let (h, res) := (Host.pushCommand dbg cmd).run ⟨s.ch, [], []⟩
      ({ s with ch := h.ch }, h.observe (.pushed res))
  | .pushWorkloadCtrl rec =>
      let (h, res) := (Host.pushWorkloadCtrl dbg rec).run ⟨s.ch, [], []⟩
      ({ s with ch := h.ch }, h.observe (.pushed res))
  | .drainEvents =>
      let (h, res) := (Host.drainEvents dbg).run ⟨s.ch, [], []⟩
      ({ s with ch := h.ch }, h.observe (.drained res))
  | .answer iseq =>
      let (r, res) := (Host.answer plan dbg iseq).run ⟨s.plan, ⟨s.ch, [], []⟩⟩
      ({ plan := r.plan, ch := r.host.ch }, r.host.observe (.answered res))
  | .guestWrite gpa bs =>
      let ch := s.ch.withMem (s.ch.gm.bytes.write gpa bs)
      ({ s with ch }, HostState.observe ⟨ch, [], []⟩ .wrote)

end Host
