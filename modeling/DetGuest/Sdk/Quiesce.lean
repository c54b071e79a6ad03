import DetGuest.Sdk.Channel

/-!
# Cooperative quiesce

A thread in `quiesce_check`: the loop that polls ring I, the emission of `QuiesceReady`, and
the loop of `park_until_resume`, which polls ring I as well.  A step is one round of the loop
that the thread is in.
-/

namespace Sdk

open Wire

/-- Where the thread is: outside `quiesce_check`, in its loop, at the emission of a
`QuiesceReady` with its time stamp, or in the loop of `park_until_resume`. -/
inductive QuiescePc where
  | idle
  | checking
  | emitting (vnanos token : UInt64)
  | parked (token : UInt64)
  deriving DecidableEq, Repr

/-- The thread with the memory of the channel, the next sequence number of ring W and the
clock of the SDK. -/
structure Thread where
  mem : ByteMem
  nextSeq : UInt32
  vnanos : UInt64
  pc : QuiescePc

/-- What a step does: nothing, a poll, or an attempt to publish a `QuiesceReady`. -/
inductive Progress where
  | none
  | polled (res : Res InitError (Option WorkloadCtrl))
  | emitted (token : UInt64) (res : Res RingFull Unit)
  deriving DecidableEq, Repr

/-- A round of the loop of `quiesce_check`. -/
def quiesceCheck (dbg : Bool) (i : RingMap) (t : Thread) : Thread × Progress :=
  let (mem, res) := (pollWorkloadCtrl dbg i).run t.mem
  let t := { t with mem }
  match res with
  | .ok (some (.quiesceReq token)) =>
      ({ t with vnanos := t.vnanos + 1, pc := .emitting t.vnanos token }, .polled res)
  | .ok (some (.resume _)) => (t, .polled res)
  | _ => ({ t with pc := .idle }, .polled res)

/-- A round of the emission of `QuiesceReady`: the doorbell is rung on a full ring, and again
behind the record.  If it fails, `park_until_resume` returns. -/
def emitQuiesceReady (dbg : Bool) (w : RingMap) (doorbell : Res InitError Unit)
    (vnanos token : UInt64) (t : Thread) : Thread × Progress :=
  let ev : EventPayload := .quiesceReady token
  let (p, res) := (pushEvent dbg w (encodedEventLen ev) vnanos 0 ev).run ⟨t.mem, t.nextSeq⟩
  let t := { t with mem := p.mem, nextSeq := p.nextSeq }
  match doorbell, res with
  | .ok (), .ok () => ({ t with pc := .parked token }, .emitted token res)
  | .ok (), _ => (t, .emitted token res)
  | _, _ => ({ t with pc := .checking }, .emitted token res)

/-- With a doorbell that works the thread goes on to park when the record is published. -/
theorem emitQuiesceReady_eq {dbg : Bool} {w : RingMap} {m : ByteMem} {n : UInt32}
    {vnanos token : UInt64} {p : Producer} {res : Res RingFull Unit}
    (h : (pushEvent dbg w (encodedEventLen (.quiesceReady token)) vnanos 0
      (.quiesceReady token)).run ⟨m, n⟩ = (p, res)) (now : UInt64) (pc : QuiescePc) :
  emitQuiesceReady dbg w (.ok ()) vnanos token ⟨m, n, now, pc⟩
    = (⟨p.mem, p.nextSeq, now, if res = .ok () then .parked token else pc⟩, .emitted token res)
  := by
  rw [emitQuiesceReady, h]
  cases res <;> rfl

/-- A round of the loop of `park_until_resume`. -/
def parkUntilResume (dbg : Bool) (i : RingMap) (token : UInt64) (t : Thread) : Thread × Progress :=
  let (mem, res) := (pollWorkloadCtrl dbg i).run t.mem
  let t := { t with mem }
  match res with
  | .ok (some (.resume token')) =>
      if token' = token then ({ t with pc := .checking }, .polled res) else (t, .polled res)
  | .ok _ => (t, .polled res)
  | _ => ({ t with pc := .checking }, .polled res)

/-- One step of the thread, with the result of the doorbell if it rings it. -/
def Thread.step (dbg : Bool) (w i : RingMap) (doorbell : Res InitError Unit) (t : Thread) :
    Thread × Progress :=
  match t.pc with
  | .idle => (t, .none)
  | .checking => quiesceCheck dbg i t
  | .emitting vnanos token => emitQuiesceReady dbg w doorbell vnanos token t
  | .parked token => parkUntilResume dbg i token t

theorem Thread.step_emitting (dbg : Bool) (w i : RingMap) (doorbell : Res InitError Unit)
    (m : ByteMem) (n : UInt32) (now vnanos token : UInt64) :
  Thread.step dbg w i doorbell ⟨m, n, now, .emitting vnanos token⟩
    = emitQuiesceReady dbg w doorbell vnanos token ⟨m, n, now, .emitting vnanos token⟩
  := rfl

end Sdk
