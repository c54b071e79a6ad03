import DetGuest.Agent.Emit
import DetGuest.Agent.Regions
import DetGuest.Host.Inject
import DetGuest.Protocol.World
import DetGuest.Sdk.Calls
import DetGuest.Wire.Messages

/-!
# A workload and its world

The SDK of a workload runs next to the agent, which answers its requests, and the host, which
drains the rings, answers inject queries and sends workload-control records.  A script says what
the others do each time the SDK leaves its own code.
-/

namespace Protocol

open Wire Host

/-! ### The world -/

/-- What happens elsewhere before the SDK goes on, and whether the system call that it makes there
fails. -/
structure Pause where
  sends : List WorkloadCtrl
  drains : Bool
  fails : Bool
  deriving DecidableEq, Repr

/-- Nothing happens. -/
def Pause.quiet : Pause := { sends := [], drains := false, fails := false }

/-- A detcall: whether it succeeds, and whether the host drains the rings. -/
structure Bell where
  answers : Bool
  drains : Bool
  deriving DecidableEq, Repr

/-- A detcall that succeeds, with a drain. -/
def Bell.drain : Bell := { answers := true, drains := true }

/-- A record that was published, and the name that the running call of the SDK was given. -/
structure Landed where
  ring : GuestRing
  caller : Option Bytes
  bytes : Bytes
  deriving DecidableEq, Repr

/-- A drain: its result, and the channel behind it. -/
structure Drained where
  res : Res WireError (List GuestEvent)
  ch : Channel

/-- The rings and the host, the fault plan and its last answer, the region server of the agent, the
SDK and its clock; what the script still holds; and what has happened so far. -/
structure World (π τ : Type) where
  events : EventState
  plan : π
  latch : UInt32
  agent : Agent.RegionIpc τ
  sdk : Sdk.SdkState
  vnanos : UInt64
  pauses : List Pause
  bells : List Bell
  caller : Option Bytes
  landed : List Landed
  drained : List Drained

/-- What stays the same: the build, the channel, the fault plan, the translator of the agent, and
the processes. -/
structure Setting (π τ : Type) where
  dbg : Bool
  ch : Channel
  plan : FaultPlan π
  translator : Agent.Translator τ
  pid : Int32
  workloadPid : Option Int32

variable {π τ ε : Type}

namespace World

/-- The shared memory. -/
def mem (w : World π τ) : ByteMem := w.events.mem

/-- The world with other memory. -/
def setMem (w : World π τ) (m : ByteMem) : World π τ := { w with events := w.events.setMem m }

/-- The next pause of the script. -/
def nextPause (w : World π τ) : Pause := w.pauses.headD .quiet

/-- The next detcall of the script. -/
def nextBell (w : World π τ) : Bell := w.bells.headD .drain

end World

namespace Setting

variable (S : Setting π τ)

/-- A ring of the channel as its producer sees it; what it publishes is noted. -/
def ring (g : GuestRing) : Exec.Part (World π τ) Producer where
  get w := ⟨w.mem, w.events.nextSeq g⟩
  set w p := { w with
    events := w.events.setProducer g p
    landed := w.landed ++ (published (ringOf S.ch g.id) w.mem p.mem).map fun bytes =>
      { ring := g, caller := w.caller, bytes } }
  get_set w p := by
    simp [World.mem, EventState.setProducer, EventState.mem]
  set_get w := by
    simp [published_self, World.mem, EventState.setProducer, EventState.mem]

/-- The memory. -/
def memory : Exec.Part (World π τ) ByteMem where
  get w := w.mem
  set w m := w.setMem m
  get_set _ _ := rfl
  set_get _ := rfl

/-- The state of the SDK. -/
def sdk : Exec.Part (World π τ) Sdk.SdkState where
  get w := w.sdk
  set w sdk := { w with sdk }
  get_set _ _ := rfl
  set_get _ := rfl

/-- The region server. -/
def server : Exec.Part (World π τ) (Agent.RegionIpc τ) where
  get w := w.agent
  set w agent := { w with agent }
  get_set _ _ := rfl
  set_get _ := rfl

/-- The fault plan and the host. -/
def responder : Exec.Part (World π τ) (Responder π) where
  get w := { plan := w.plan, host := w.events.host }
  set w r := { w with plan := r.plan, events := { w.events with host := r.host } }
  get_set _ _ := rfl
  set_get _ := rfl

/-! ### The others -/

/-- The host drains the rings. -/
def drain : Exec (World π τ) ε Unit :=
  Exec.modify fun w =>
    let (h, res) := (drainEvents S.dbg).run w.events.host
    { w with
      events := { w.events with host := h }
      drained := w.drained ++ [{ res, ch := h.ch }] }

/-- The agent relays a workload-control record, if there is room for it. -/
def relay (rec : WorkloadCtrl) : Exec (World π τ) ε Unit := do
  let w ← Exec.get
  Exec.modify fun w => { w with agent := { w.agent with vnanos := w.agent.vnanos + 1 } }
  let _ ← Exec.attempt (Exec.focus memory
    (Agent.relayWorkloadCtrl S.dbg S.ch.base.gpa w.agent.vnanos rec))

/-- The agent relays workload-control records. -/
def relayAll : List WorkloadCtrl → Exec (World π τ) ε Unit
  | [] => pure ()
  | rec :: recs => do
      S.relay rec
      relayAll recs

/-- Take the next pause of the script. -/
def pause : Exec (World π τ) ε Pause := do
  let w ← Exec.get
  let p := w.nextPause
  Exec.modify fun w => { w with pauses := w.pauses.tail }
  S.relayAll p.sends
  if p.drains then S.drain
  pure p

/-- Take the next detcall of the script. -/
def bell : Exec (World π τ) ε Bell := do
  let w ← Exec.get
  let b := w.nextBell
  Exec.modify fun w => { w with bells := w.bells.tail }
  if b.drains then S.drain
  pure b

/-- A detcall of the SDK. -/
def detcall : Exec (World π τ) Sdk.InitError Unit := do
  let b ← S.bell
  Exec.failIf (b.answers = false) .pioPermissionDenied

/-- A doorbell of the agent. -/
def doorbellA : Exec (World π τ) ε Unit := do
  let _ ← S.bell

/-- Write a port.  The host answers an inject query behind a drain. -/
def detcallOut (port : UInt16) (value : UInt32) : Exec (World π τ) Sdk.InitError Unit := do
  S.detcall
  if port = portInject then do
    let latch ← Exec.focus responder (answer S.plan S.dbg value)
    Exec.modify fun w => { w with latch }

/-- Read a port. -/
def detcallIn (_port : UInt16) : Exec (World π τ) Sdk.InitError UInt32 := do
  S.detcall
  let w ← Exec.get
  pure w.latch

/-- More rounds than there are entries in the script. -/
def fuel (w : World π τ) : Nat := w.pauses.length + w.bells.length + 2

/-- The region server handles a datagram: it emits its evidence on ring A, and replies. -/
def serve (datagram : Bytes) : Exec (World π τ) Unit Bytes := do
  let w ← Exec.get
  let reply ← Exec.expect (Exec.focus server
    (Agent.RegionIpc.serve S.dbg S.translator datagram S.pid S.workloadPid))
  let w' ← Exec.get
  let _ ← Agent.emitAll S.dbg (S.ring .A) (ringOf S.ch .A) S.ch.base.gpa S.doorbellA (fuel w')
    (w'.agent.emitted.drop w.agent.emitted.length)
  let (out, len) := (Regionipc.encodeReply reply).run (Bytes.zeros Regionipc.maxDatagram)
  let n ← Exec.expect (Exec.lift len)
  pure (out.take n)

/-- Send a datagram to the agent and receive one; both system calls may fail. -/
def transport (datagram : Bytes) : Exec (World π τ) Unit Bytes := do
  let sent ← S.pause
  Exec.failIf (sent.fails = true) ()
  let reply ← S.serve datagram
  let received ← S.pause
  Exec.failIf (received.fails = true) ()
  pure reply

/-- The platform of the SDK. -/
def platform : Sdk.Platform (World π τ) where
  dbg := S.dbg
  ringW := ringOf S.ch .W
  base := S.ch.base.gpa
  producer := S.ring .W
  state := sdk
  vnanos := do
    let w ← Exec.get
    Exec.modify fun w => { w with vnanos := w.vnanos + 1 }
    pure w.vnanos
  idle := do
    let _ ← S.pause
  doorbellW := S.detcall
  detcallOut := S.detcallOut
  detcallIn := S.detcallIn
  pollWorkloadCtrl := do
    let _ ← S.pause
    Exec.focus memory (Sdk.pollWorkloadCtrl S.dbg (ringOf S.ch .I))
  mlock _ _ := do
    let p ← S.pause
    Exec.failIf (p.fails = true) ()
  transport := S.transport
  fuel

end Setting

/-! ### Runs -/

/-- A step of a run: a call of the SDK with its script, or a drain between two calls. -/
inductive WorldOp where
  | call (c : Sdk.Call) (pauses : List Pause) (bells : List Bell)
  | drain
  deriving DecidableEq, Repr

/-- What a step returns. -/
inductive WorldAnswer where
  | called (res : Res Empty Sdk.Returned)
  | drained
  deriving DecidableEq, Repr

/-- The world before a call. -/
def World.calling (w : World π τ) (name : Option Bytes) (pauses : List Pause) (bells : List Bell) :
    World π τ :=
  { w with caller := name, pauses, bells }

/-- A step of a run. -/
def Setting.step (S : Setting π τ) (w : World π τ) : WorldOp → World π τ × WorldAnswer
  | .call c pauses bells =>
      let (w, res) := (S.platform.call c).run (w.calling c.name pauses bells)
      (w, .called res)
  | .drain => ((S.drain.run w : World π τ × Res Empty Unit).1, .drained)

end Protocol
