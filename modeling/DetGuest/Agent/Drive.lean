import DetGuest.Agent.Control
import DetGuest.Lib.Relates

/-!
# The control leg in its surroundings

While the agent waits for a reply it serves the rest of the guest, and a poll or a send may fail.
The leg is the same program over any line to the workload; over the socket alone it is the leg that
is modelled there.
-/

namespace Agent

namespace Control

/-- A line to the workload, over a state that the other duties of the agent share: its errors, a
send, a poll that finds a datagram or nothing, the report of progress, and how many polls are
left to be answered. -/
structure Line (σ ε : Type) where
  failed : ControlError → ε
  waiting : ε
  send : Bytes → Exec σ ε Unit
  poll : Leg → Exec σ ε (Option Bytes)
  report : ControlProgress → Exec σ ε Unit
  polls : σ → Nat

namespace Line

variable {σ ε : Type} (line : Line σ ε)

/-- Rounds of `recv`: each polls the line once. -/
def recvRounds (leg : Leg) : Nat → Exec σ ε ControlReply
  | 0 => Exec.fail (line.failed (.recv leg .timedOut))
  | fuel + 1 => do
      match ← line.poll leg with
      | none => do
          line.report .idle
          recvRounds leg fuel
      | some b => Exec.lift ((received b).mapErr fun e => line.failed (.recv leg e))

/-- Wait for a reply. -/
def recv (leg : Leg) : Exec σ ε ControlReply := line.recvRounds leg recvWakeLimit

/-- Wait for a reply that announces no region.  A round takes an answer to a poll, so that there
are no more rounds than answers. -/
def recvPastRegions (leg : Leg) : Nat → Exec σ ε ControlReply
  | 0 => Exec.fail line.waiting
  | fuel + 1 => do
      match ← line.recv leg with
      | .region => recvPastRegions leg fuel
      | reply => pure reply

/-- Wait for a reply that announces no region, however many do. -/
def recvReply (leg : Leg) : Exec σ ε ControlReply := do
  let s ← Exec.get
  line.recvPastRegions leg (line.polls s + 1)

/-- Wait for a `HelloAck` of the given version. -/
def awaitHelloAck (protoVersion : UInt16) : Exec σ ε Unit := do
  match ← line.recv .helloAck with
  | .helloAck replyVersion =>
      Exec.failIf (replyVersion ≠ protoVersion)
        (line.failed (.versionMismatch replyVersion protoVersion))
  | .fault detail => Exec.fail (line.failed (.fault .helloAck detail))
  | other => Exec.fail (line.failed (.unexpected .helloAck other))

/-- Wait for `GameLoaded`. -/
def awaitGameLoaded : Exec σ ε Unit := do
  match ← line.recvReply .gameLoaded with
  | .gameLoaded => pure ()
  | .fault detail => Exec.fail (line.failed (.fault .gameLoaded detail))
  | other => Exec.fail (line.failed (.unexpected .gameLoaded other))

/-- Wait for `Ready` of frame zero. -/
def awaitReady : Exec σ ε Unit := do
  match ← line.recvReply .ready with
  | .ready frame => Exec.failIf (frame ≠ 0) (line.failed (.frameNotZero frame))
  | .fault detail => Exec.fail (line.failed (.fault .ready detail))
  | other => Exec.fail (line.failed (.unexpected .ready other))

/-- Drive the workload from `Hello` to `GameLoaded` and `Ready`. -/
def driveToReady (control : UnitControl) (gamePath : Bytes) : Exec σ ε Unit := do
  Exec.failIf (control.protocol ≠ refworkCtl)
    (line.failed (.unsupportedProtocol control.protocol))
  Exec.failIf (control.protoVersion.toNat ≥ 2 ^ 16)
    (line.failed (.protoVersionExceedsU16 control.protoVersion))
  let protoVersion := control.protoVersion.toUInt16
  line.send (encodeHello protoVersion)
  line.awaitHelloAck protoVersion
  line.report (.milestone .helloack)
  line.send (encodeLoadGame gamePath)
  line.awaitGameLoaded
  line.report (.milestone .gameloaded)
  line.awaitReady
  line.report (.milestone .rwReady)

/-- Drive the workload from `Hello` to `Start`. -/
def driveRefworkStart (control : UnitControl) (gamePath : Bytes) : Exec σ ε Unit := do
  line.driveToReady control gamePath
  line.send encodeStart
  line.report (.milestone .startSent)

end Line

/-! ### The socket as a line -/

/-- A poll of the socket. -/
def pollSocket : Exec Socket Stop (Option Bytes) := do
  let s ← Exec.get
  match s.polls with
  | [] => Exec.fail .waiting
  | answer :: rest => do
      Exec.set { s with polls := rest }
      pure answer

/-- The socket alone. -/
def Socket.line : Line Socket Stop :=
  { failed := .failed
    waiting := .waiting
    send := Control.send
    poll := fun _ => pollSocket
    report := Control.report
    polls := fun s => s.polls.length }

theorem recvRounds_line (leg : Leg) (fuel : Nat) (s : Socket) :
  (Socket.line.recvRounds leg fuel).run s = (recvRounds leg fuel).run s
  := by
  induction fuel generalizing s with
  | zero => rfl
  | succ fuel ih =>
      rw [Line.recvRounds, recvRounds, Exec.run_bind_of_ok (Exec.run_get s)]
      rcases hpolls : s.polls with _ | ⟨_ | b, rest⟩
      · have hpoll : pollSocket.run s = (s, .err .waiting) := by
          rw [pollSocket, Exec.run_bind_of_ok (Exec.run_get s), hpolls]
          rfl
        exact Exec.run_bind_of_err hpoll
      · have hpoll : pollSocket.run s = ({ s with polls := rest }, .ok none) := by
          rw [pollSocket, Exec.run_bind_of_ok (Exec.run_get s), hpolls]
          rfl
        refine (Exec.run_bind_of_ok hpoll).trans ?_
        exact ih _
      · have hpoll : pollSocket.run s = ({ s with polls := rest }, .ok (some b)) := by
          rw [pollSocket, Exec.run_bind_of_ok (Exec.run_get s), hpolls]
          rfl
        exact Exec.run_bind_of_ok hpoll

theorem recv_line (leg : Leg) :
  Socket.line.recv leg = recv leg
  := Exec.ext_run (recvRounds_line leg recvWakeLimit)

theorem recvPastRegions_line (leg : Leg) (fuel : Nat) :
  Socket.line.recvPastRegions leg fuel = recvPastRegions leg fuel
  := by
  induction fuel with
  | zero => rfl
  | succ fuel ih =>
      rw [recvPastRegions, ← recv_line, ← ih]
      rfl

theorem recvReply_line (leg : Leg) :
  Socket.line.recvReply leg = recvReply leg
  := by
  apply Exec.ext_run
  intro s
  rw [Line.recvReply, recvReply, Exec.run_bind_of_ok (Exec.run_get s),
    Exec.run_bind_of_ok (Exec.run_get s), recvPastRegions_line]
  rfl

theorem awaitHelloAck_line (protoVersion : UInt16) :
  Socket.line.awaitHelloAck protoVersion = awaitHelloAck protoVersion
  := by
  rw [Line.awaitHelloAck, awaitHelloAck, recv_line]
  rfl

theorem awaitGameLoaded_line :
  Socket.line.awaitGameLoaded = awaitGameLoaded
  := by
  rw [Line.awaitGameLoaded, awaitGameLoaded, recvReply_line]
  rfl

theorem awaitReady_line :
  Socket.line.awaitReady = awaitReady
  := by
  rw [Line.awaitReady, awaitReady, recvReply_line]
  rfl

/-- Over the socket alone the leg is the one that is modelled there. -/
theorem driveRefworkStart_line (control : UnitControl) (gamePath : Bytes) :
  Socket.line.driveRefworkStart control gamePath = driveRefworkStart control gamePath
  := by
  simp only [Line.driveRefworkStart, Line.driveToReady, driveRefworkStart, Exec.bind_assoc,
    awaitHelloAck_line, awaitGameLoaded_line, awaitReady_line]
  rfl

/-! ### Relations -/

section Relations

variable {σ ε : Type} {R : σ → σ → Prop} [IsPreorder σ R] {line : Line σ ε}

/-- What the steps of the line keep to. -/
structure Line.Keeps (line : Line σ ε) (R : σ → σ → Prop) : Prop where
  send : ∀ b, Exec.Relates R (line.send b)
  poll : ∀ leg, Exec.Relates R (line.poll leg)
  report : ∀ p, Exec.Relates R (line.report p)

namespace Line.Keeps

theorem recvRounds (h : line.Keeps R) (leg : Leg) (fuel : Nat) :
  Exec.Relates R (line.recvRounds leg fuel)
  := by
  induction fuel with
  | zero => exact Exec.relates_fail _
  | succ fuel ih =>
      apply (h.poll leg).bind
      intro answer
      cases answer with
      | none => exact (h.report .idle).bind fun _ => ih
      | some b => exact Exec.relates_lift _

theorem recvPastRegions (h : line.Keeps R) (leg : Leg) (fuel : Nat) :
  Exec.Relates R (line.recvPastRegions leg fuel)
  := by
  induction fuel with
  | zero => exact Exec.relates_fail _
  | succ fuel ih =>
      apply (h.recvRounds leg recvWakeLimit).bind
      intro reply
      cases reply with
      | region => exact ih
      | _ => exact Exec.relates_pure _

theorem recvReply (h : line.Keeps R) (leg : Leg) :
  Exec.Relates R (line.recvReply leg)
  := Exec.relates_get.bind fun _ => h.recvPastRegions leg _

theorem awaitHelloAck (h : line.Keeps R) (protoVersion : UInt16) :
  Exec.Relates R (line.awaitHelloAck protoVersion)
  := by
  apply (h.recvRounds .helloAck recvWakeLimit).bind
  intro reply
  cases reply with
  | helloAck replyVersion => exact Exec.relates_failIf
  | _ => exact Exec.relates_fail _

theorem awaitGameLoaded (h : line.Keeps R) :
  Exec.Relates R line.awaitGameLoaded
  := by
  apply (h.recvReply .gameLoaded).bind
  intro reply
  cases reply with
  | gameLoaded => exact Exec.relates_pure _
  | _ => exact Exec.relates_fail _

theorem awaitReady (h : line.Keeps R) :
  Exec.Relates R line.awaitReady
  := by
  apply (h.recvReply .ready).bind
  intro reply
  cases reply with
  | ready frame => exact Exec.relates_failIf
  | _ => exact Exec.relates_fail _

theorem driveToReady (h : line.Keeps R) (control : UnitControl) (gamePath : Bytes) :
  Exec.Relates R (line.driveToReady control gamePath)
  := by
  rw [Line.driveToReady]
  refine Exec.Relates.bind Exec.relates_failIf fun _ => ?_
  refine Exec.Relates.bind Exec.relates_failIf fun _ => ?_
  apply (h.send _).bind
  intro _
  apply (h.awaitHelloAck _).bind
  intro _
  apply (h.report _).bind
  intro _
  apply (h.send _).bind
  intro _
  apply h.awaitGameLoaded.bind
  intro _
  apply (h.report _).bind
  intro _
  apply h.awaitReady.bind
  intro _
  apply h.report

theorem driveRefworkStart (h : line.Keeps R) (control : UnitControl) (gamePath : Bytes) :
  Exec.Relates R (line.driveRefworkStart control gamePath)
  := (h.driveToReady control gamePath).bind fun _ => (h.send _).bind fun _ => h.report _

end Line.Keeps

end Relations

end Control

end Agent
