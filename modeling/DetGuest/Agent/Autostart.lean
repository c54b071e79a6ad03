import DetGuest.Agent.Drive
import DetGuest.Agent.Gate
import DetGuest.Agent.Supervise

/-!
# Autostart

At boot the agent starts the unit that the boot manifest names, drives it over its control socket,
waits until the expected regions are published and tells the host that the guest is ready.  What
happens around the agent, and what the kernel answers it, is given as scripts; where a script is
at its end the agent is still waiting.
-/

namespace Agent

open Wire

/-! ### The surroundings -/

/-- The events that a round of requests emits. -/
def regional : EventPayload → Bool
  | .nameIntern .. => true
  | .regionRegister .. => true
  | _ => false

/-- A region server whose manifest the gate reads.  Without a workload nobody is served, so that
the manifest stays as it is. -/
structure BootServer (ρ : Type) extends RegionServer ρ where
  manifest : ρ → Slice
  service_regional : ∀ r pid now, ∀ e ∈ (service r pid now).2.2.1, regional e.ev = true
  service_idle : ∀ r now, manifest (service r none now).1 = manifest r

variable {ρ : Type}

/-- What happens around the agent until it looks again: processes move, pipes fill, and requests
reach the region server. -/
structure Moment (server : BootServer ρ) where
  kernel : Kernel → Kernel
  printed : Pipe → Bytes
  arrive : ρ → ρ
  manifest_arrive : ∀ r, server.manifest (arrive r) = server.manifest r

/-- A wake source of the boot. -/
inductive Wake where
  | sigchld
  | pipe (pipe : Pipe)
  | timer
  | other
  deriving DecidableEq, Repr

/-- Why the agent is not ready. -/
inductive BootError where
  | waiting
  | ready (e : ReadyError)
  | gate (e : GateError)
  | exhausted (last : Option GateError)
  | changed
  | regionService (e : SuperviseError)
  | bootWait (e : SuperviseError)
  | materialize (detail : Text)
  | missingGameDev
  | socketpair (errno : Int32)
  | autostart (unit : UInt32) (e : SuperviseError)
  | control (e : Control.ControlError)
  | send (errno : Int32)
  | shortSend
  | recv (leg : Control.Leg) (errno : Int32)
  | unlink (errno : Int32)
  deriving DecidableEq, Repr

/-- The agent at boot: the supervisor, the manifest area as it is without a region server, what
happens around them, the wakeups and the polls of the control socket to come, the kernel's answers
to the sends to come, which may depend on the processes, the datagrams sent so far, and what the
kernel answers to the calls about the game and the socket. -/
structure BootState (server : BootServer ρ) where
  sup : Supervisor ρ
  area : Slice
  moments : List (Moment server)
  wakes : List (Except Int32 (List Wake))
  polls : List (Except Int32 (Option Bytes))
  sends : List (Supervisor ρ → Except Int32 Nat)
  sent : List Bytes
  materialized : Except Text Unit
  socketpair : Except Int32 Unit
  unlinked : Except Int32 Unit

/-- Calls of the boot. -/
abbrev BootExec (server : BootServer ρ) (α : Type) : Type := Exec (BootState server) BootError α

namespace Autostart

open Boot (BootManifest ExpectedRegion GameSource)

variable {server : BootServer ρ}

/-- The manifest area. -/
def manifest (s : BootState server) : Slice :=
  match s.sup.regionIpc with
  | some r => server.manifest r
  | none => s.area

/-- The supervisor at boot. -/
def supPart (server : BootServer ρ) : Exec.Part (BootState server) (Supervisor ρ) where
  get s := s.sup
  set s sup := { s with sup }
  get_set _ _ := rfl
  set_get _ := rfl

/-- A call of the supervisor. -/
def onSup {ε α : Type} (f : ε → BootError) (x : Exec (Supervisor ρ) ε α) : BootExec server α :=
  Exec.focus (supPart server) (Exec.mapErr f x)

/-- A call of the supervisor that does not fail. -/
def onSup' {α : Type} (x : Exec (Supervisor ρ) BootError α) : BootExec server α :=
  Exec.focus (supPart server) x

/-- Time passes until the agent looks again. -/
def elapse : BootExec server Unit := do
  let s ← Exec.get
  match s.moments with
  | [] => Exec.fail .waiting
  | m :: rest =>
      Exec.set { s with
        moments := rest
        sup := { s.sup with
          kernel := m.kernel s.sup.kernel
          unread := fun pipe => s.sup.unread pipe ++ m.printed pipe
          regionIpc := s.sup.regionIpc.map m.arrive } }

/-! ### Waiting -/

/-- Emit a line of the agent that names a leg of the boot. -/
def breadcrumb (msg : String) : BootExec server Unit :=
  onSup' (Supervisor.emitEvent false (.logLine agentStream 1 (asBytes msg.toList)))

/-- Answer the requests that have arrived. -/
def serviceRegions (f : SuperviseError → BootError) : BootExec server Unit := do
  elapse
  onSup f (Supervisor.serviceRegionIpc server.toRegionServer)

/-- Serve a wake source.  The requests are served behind all of them, and the caller polls the
control socket. -/
def serviceWake : Wake → BootExec server Unit
  | .sigchld => onSup' Supervisor.reapWorkload
  | .pipe pipe => onSup' (Supervisor.drainPipe pipe)
  | .timer => pure ()
  | .other => pure ()

/-- The next wakeup. -/
def takeWake : BootExec server (List Wake) := do
  let s ← Exec.get
  match s.wakes with
  | [] => Exec.fail .waiting
  | .error errno :: rest => do
      Exec.set { s with wakes := rest }
      Exec.fail (.bootWait (.os errno))
  | .ok wakes :: rest => do
      Exec.set { s with wakes := rest }
      pure wakes

/-- Block until a wake source fires, and serve what fired and the requests. -/
def waitBootIo : BootExec server Unit := do
  elapse
  let wakes ← takeWake
  wakes.forM serviceWake
  onSup .bootWait (Supervisor.serviceRegionIpc server.toRegionServer)

/-! ### The control leg -/

/-- Send a datagram over the control socket.  The kernel says how many bytes it took. -/
def sendControl (b : Bytes) : BootExec server Unit := do
  let s ← Exec.get
  match s.sends with
  | [] => Exec.fail .waiting
  | answer :: rest => do
      Exec.set { s with sends := rest }
      match answer s.sup with
      | .error errno => Exec.fail (.send errno)
      | .ok n => do
          Exec.failIf (n ≠ b.length) .shortSend
          Exec.set { s with sends := rest, sent := s.sent ++ [b] }

/-- Poll the control socket. -/
def pollControl (leg : Control.Leg) : BootExec server (Option Bytes) := do
  let s ← Exec.get
  match s.polls with
  | [] => Exec.fail .waiting
  | .error errno :: rest => do
      Exec.set { s with polls := rest }
      Exec.fail (.recv leg errno)
  | .ok answer :: rest => do
      Exec.set { s with polls := rest }
      pure answer

/-- The line of a milestone. -/
def milestoneLine : Control.Milestone → String
  | .helloack => "boot: helloack"
  | .gameloaded => "boot: gameloaded"
  | .rwReady => "boot: rw-ready"
  | .startSent => "boot: start-sent"

/-- React to the progress of the control leg. -/
def reportControl : Control.ControlProgress → BootExec server Unit
  | .idle => waitBootIo
  | .milestone m => breadcrumb (milestoneLine m)

/-- The control socket among the other duties of the boot. -/
def controlLine (server : BootServer ρ) : Control.Line (BootState server) BootError :=
  { failed := .control
    waiting := .waiting
    send := sendControl
    poll := pollControl
    report := reportControl
    polls := fun s => s.polls.length }

/-- What the control leg reads of a unit's control section. -/
def controlOf (control : Boot.UnitControl) : Control.UnitControl :=
  ⟨asBytes control.protocol, control.protoVersion⟩

/-- Drive the control leg; the socket is kept for the workload's lifetime. -/
def driveAndRetainControl (control : Boot.UnitControl) (gamePath : Text) :
    BootExec server Unit := do
  (controlLine server).driveRefworkStart (controlOf control) (asBytes gamePath)
  onSup' (Exec.modify fun s => { s with workloadControl := true })

/-! ### The gate -/

/-- Wakeups before the agent gives up on the regions. -/
def readyRegionWakeLimit : Nat := 600

/-- Rounds of the wait for the regions: serve, check, and only then block. -/
def waitRounds (expected : List ExpectedRegion) :
    Nat → Option GateError → BootExec server ReadyManifest
  | 0, last => Exec.fail (.exhausted last)
  | fuel + 1, _ => do
      serviceRegions .regionService
      let s ← Exec.get
      match expectedRegionsReady (manifest s) expected with
      | .ok snapshot => pure snapshot
      | .err e => do
          waitBootIo
          waitRounds expected fuel (some e)
      | .panic => Exec.panic

/-- Wait until all expected regions are published. -/
def waitForExpectedRegions (expected : List ExpectedRegion) : BootExec server ReadyManifest :=
  if expected = [] then do
    -- requests that raced the start are served all the same
    serviceRegions .regionService
    let s ← Exec.get
    Exec.lift ((readyManifest (manifest s)).mapErr .ready)
  else
    waitRounds expected readyRegionWakeLimit none

/-- Emit the evidence about a region. -/
def emitEvidence (evidence : RegionEvidence) : BootExec server Unit := do
  onSup' (Supervisor.emitEvent false (.nameIntern evidence.nameId evidence.name))
  onSup' (Supervisor.emitEvent false (.regionRegister
    { regionId := evidence.regionId
      nameId := evidence.nameId
      layoutVersion := evidence.layoutVersion
      manifestGeneration := evidence.manifestGeneration }))

/-- Emit the evidence about all expected regions, if the manifest is still the one of the gate. -/
def emitExpectedRegionEvidence (expected : List ExpectedRegion) (snapshot : ReadyManifest) :
    BootExec server Unit :=
  if expected = [] then
    pure ()
  else do
    let s ← Exec.get
    let (fresh, evidence) ← Exec.lift ((expectedRegionEvidence (manifest s) expected).mapErr .gate)
    Exec.failIf (fresh ≠ snapshot) .changed
    evidence.forM emitEvidence

/-- Tell the host that the guest is ready. -/
def emitReady (unit : UInt32) (snapshot : ReadyManifest) : BootExec server Unit :=
  onSup' (Supervisor.emitEvent true
    (.ready unit snapshot.regionCount snapshot.manifestGeneration))

/-! ### The boot -/

/-- Where the game is materialized. -/
def gameImgPath : Text := "/run/detguest/game.img".toList

/-- The answer of the kernel to a call. -/
def answered {ε : Type} (f : ε → BootError) : Except ε Unit → BootExec server Unit
  | .ok () => pure ()
  | .error e => Exec.fail (f e)

/-- The path of the game: materialized out of the device, or verbatim. -/
def gamePathOf (control : Boot.UnitControl) : BootExec server Text :=
  match control.gameSource with
  | some .pvBlk => do
      let s ← Exec.get
      answered .materialize s.materialized
      pure gameImgPath
  | none =>
      match control.gameDev with
      | some path => pure path
      | none => Exec.fail .missingGameDev

/-- Drop the materialized file. -/
def unlinkGame (control : Boot.UnitControl) : BootExec server Unit :=
  if control.gameSource.isSome then do
    let s ← Exec.get
    answered .unlink s.unlinked
    breadcrumb "boot: game-unlinked"
  else
    pure ()

/-- Start a unit, with its control leg if it has one. -/
def startAutostart (unit : UInt32) (control : Option Boot.UnitControl) : BootExec server Unit :=
  match control with
  | some control => do
      let gamePath ← gamePathOf control
      let s ← Exec.get
      answered .socketpair s.socketpair
      onSup (.autostart unit) (Supervisor.startUnit unit)
      driveAndRetainControl control gamePath
      unlinkGame control
  | none => onSup (.autostart unit) (Supervisor.startUnit unit)

/-- Start the autostart unit, wait for the regions and emit `Ready`.  Without a unit `Ready` is
emitted at once. -/
def autostartAndReady (boot : BootManifest) : BootExec server Unit := do
  match boot.autostartUnit with
  | none => do
      let s ← Exec.get
      let snapshot ← Exec.lift ((readyManifest (manifest s)).mapErr .ready)
      emitReady 0xFFFFFFFF snapshot
  | some unit => do
      startAutostart unit ((boot.unit unit).bind Boot.UnitEntry.control)
      let snapshot ← waitForExpectedRegions boot.expectedRegions
      breadcrumb "boot: regions-gated"
      emitExpectedRegionEvidence boot.expectedRegions snapshot
      breadcrumb "boot: evidence-done"
      emitReady unit snapshot

end Autostart

end Agent
