import DetGuest.Agent.Autostart
import DetGuest.Wire.Header

/-!
# The start of the agent

The agent mounts its file systems, brings the channel up and greets the host, and reads its boot
manifest.  What the kernel and the host answer on the way is given; the texts of their errors are.
-/

namespace Agent

open Wire

/-- What the kernel and the host answer before the boot. -/
structure Start where
  mountAll : Except Text Unit
  alloc : Except Text Unit
  raiseIopl : Except Text Unit
  identOk : Bool
  openPagemap : Except Text Unit
  gvaToGpa : Except Text UInt64
  channelInit : UInt64 → UInt32
  bootToml : Except Text Text
  supervisor : Except Text Unit
  bind : Except Text Unit

namespace Runtime

/-- The status of a channel that the host has attached. -/
def initStatusOk : UInt32 := 0

/-- Where the boot manifest is. -/
def bootTomlPath : Text := "/etc/detguest/boot.toml".toList

/-- Allocate the channel, find where it is in guest memory, and have the host attach it. -/
def bringUpChannel (start : Start) : Except Text Unit := do
  start.alloc
  start.raiseIopl
  if ¬ start.identOk then
    throw "IDENT detcall mismatch: not running under the determinism hypervisor".toList
  start.openPagemap
  let gpa ← start.gvaToGpa.mapError fun e => "channel GPA translation: ".toList ++ e
  let status := start.channelInit gpa
  if status ≠ initStatusOk then
    throw s!"CHANNEL_INIT status {status}".toList

/-- The version of the agent as `Hello` tells it. -/
def packAgentVersion (major minor patch : UInt8) : UInt32 :=
  major.toUInt32 <<< 16 ||| minor.toUInt32 <<< 8 ||| patch.toUInt32

/-- The agent can be stopped by force, and it can verify its regions again. -/
def capabilities : UInt64 := (1 : UInt64) <<< 0 ||| (1 : UInt64) <<< 1

/-- The greeting. -/
def hello : EventPayload := .hello protoVersion (packAgentVersion 0 1 0) capabilities

/-- Read the boot manifest; an error is the detail of a boot fault. -/
def bootManifest (dbg : Bool) (debug : Tiny.Debug) (start : Start) :
    Res Text Boot.BootManifest :=
  match start.bootToml with
  | .ok text => (Boot.parse dbg text).mapErr fun e => s!"boot.toml fault: {e.message debug}".toList
  | .error e => .err ("read ".toList ++ bootTomlPath ++ ": ".toList ++ e)

/-- Tell the host why the agent stops: a line at level 0, with a doorbell. -/
def report {ρ ε : Type} (detail : Text) : Exec (Supervisor ρ) ε Unit :=
  Supervisor.emitEvent true (.logLine agentStream 0 (asBytes detail))

/-- A unit as the supervisor knows it. -/
def bootUnit (u : Boot.UnitEntry) : BootUnit := ⟨u.id, u.logMask⟩

end Runtime

end Agent
