import DetGuest.Agent.Channel
import DetGuest.Agent.Process

/-!
# The supervise loop

The supervisor starts a workload, turns what it prints into `LogLine`s, collects the reports
of the kernel about it and handles the commands of ring C.  Events are recorded in the order
in which the supervisor emits them.
-/

namespace Agent

open Wire

/-! ### Lines -/

/-- Level of the lines of the workload's stdout. -/
def stdoutLevel : UInt8 := 2

/-- Level of the lines of the workload's stderr. -/
def stderrLevel : UInt8 := 0

/-- Greatest length of a line. -/
def maxLine : Nat := maxLogMsg

/-- The complete lines at the front of a buffer and the rest of it.  A round takes a line, so
that there are no more rounds than bytes. -/
def LineBuf.lines : Nat → Bytes → List Bytes × Bytes
  | 0, buf => ([], buf)
  | fuel + 1, buf =>
      match buf.idxOf? 10 with
      | some nl =>
          let next := lines fuel (buf.drop (nl + 1))
          (buf.take nl :: next.1, next.2)
      | none =>
          if maxLine ≤ buf.length then
            let next := lines fuel (buf.drop maxLine)
            (buf.take maxLine :: next.1, next.2)
          else
            ([], buf)

/-- Feed bytes to a buffer; the lines that are complete come out. -/
def LineBuf.push (buf bytes : Bytes) : List Bytes × Bytes :=
  lines (buf ++ bytes).length (buf ++ bytes)

/-- The unterminated line at the end; the buffer is cleared. -/
def LineBuf.finish (buf : Bytes) : List Bytes × Bytes :=
  if buf = [] then ([], buf) else ([buf], [])

/-! ### The supervisor -/

/-- An event that the agent hands to ring A, with or without a doorbell behind it. -/
structure Emission where
  vnanos : UInt64
  flags : UInt8
  ev : EventPayload
  doorbell : Bool
  deriving DecidableEq, Repr

/-- A workload: its process, its unit, the partial lines of its pipes, and whether a stop of
it has been seen. -/
structure Workload where
  pid : Int32
  unit : UInt32
  outbuf : Bytes
  errbuf : Bytes
  stopped : Bool
  deriving DecidableEq, Repr

/-- An entry of the boot manifest: its id and its log mask. -/
structure BootUnit where
  id : UInt32
  logMask : UInt32
  deriving DecidableEq, Repr

/-- Which pipe of the workload. -/
inductive Pipe where
  | out
  | err
  deriving DecidableEq, Repr

/-- The stream of the lines of the workload's stdout. -/
def stdoutStream : UInt8 := 1

/-- The stream of the lines of the workload's stderr. -/
def stderrStream : UInt8 := 2

/-- The stream of the agent's own lines. -/
def agentStream : UInt8 := 3

/-- The stream of a pipe's lines. -/
def Pipe.stream : Pipe → UInt8
  | .out => stdoutStream
  | .err => stderrStream

/-- The level of a pipe's lines. -/
def Pipe.level : Pipe → UInt8
  | .out => stdoutLevel
  | .err => stderrLevel

/-- The I/O errors of the supervisor. -/
inductive SuperviseError where
  | alreadyExists
  | notFound
  | os (errno : Int32)
  deriving DecidableEq, Repr

/-- The events that tell the host about the life and the stops of the workload. -/
def notable : EventPayload → Bool
  | .workloadStarted .. => true
  | .workloadExited .. => true
  | .quiesceReady .. => true
  | _ => false

/-- The region server as the supervisor sees it: a sweep over the regions and a round of
requests take the clock of the agent and emit events about regions.  A round knows the process
of the workload, and it may fail with an I/O error. -/
structure RegionServer (ρ : Type) where
  reverify : ρ → UInt64 → ρ × UInt64 × List Emission
  service : ρ → Option Int32 → UInt64 → ρ × UInt64 × List Emission × Option Int32
  reverify_quiet : ∀ r now, ∀ e ∈ (reverify r now).2.2, notable e.ev = false
  service_quiet : ∀ r pid now, ∀ e ∈ (service r pid now).2.2.1, notable e.ev = false

/-- The supervisor, with the kernel, the unread bytes of the pipes, the clocks, and the events that
were handed to ring A, the relayed records and the signals so far. -/
structure Supervisor (ρ : Type) where
  units : List BootUnit
  workload : Option Workload
  logMask : UInt32
  shutdown : Option UInt64
  regionIpc : Option ρ
  workloadControl : Bool
  forcedToken : UInt64
  kernel : Kernel
  unread : Pipe → Bytes
  monotonic : UInt64
  vnanos : UInt64
  emitted : List Emission
  relayed : List (UInt64 × WorkloadCtrl)
  signals : List (Int32 × Signal)

namespace Supervisor

variable {ρ ε : Type}

/-- A supervisor without a workload. -/
def new (units : List BootUnit) (kernel : Kernel) (regionIpc : Option ρ) (monotonic : UInt64) :
    Supervisor ρ :=
  { units, workload := none, logMask := 31, shutdown := none, regionIpc, workloadControl := false,
    forcedToken := 0, kernel, unread := fun _ => [], monotonic, vnanos := 1, emitted := [],
    relayed := [], signals := [] }

/-- The time stamp of the next event. -/
def takeVnanos : Exec (Supervisor ρ) ε UInt64 := do
  let s ← Exec.get
  Exec.set { s with vnanos := s.vnanos + 1 }
  pure s.vnanos

/-- Hand an event to ring A.  Whether it lands there is up to the ring. -/
def emitEvent (doorbell : Bool) (ev : EventPayload) : Exec (Supervisor ρ) ε Unit := do
  let vnanos ← takeVnanos
  Exec.modify fun s => { s with emitted := s.emitted ++ [⟨vnanos, 0, ev, doorbell⟩] }

/-- Emit lines of a stream if the mask lets their level through. -/
def emitLines (stream level : UInt8) (lines : List Bytes) : Exec (Supervisor ρ) ε Unit := do
  let s ← Exec.get
  if s.logMask &&& (1 <<< level.toUInt32) = 0 then
    pure ()
  else
    lines.forM fun line => emitEvent false (.logLine stream level line)

/-- Greatest number of bytes of one read from a pipe. -/
def chunkLen : Nat := 4096

/-- Feed the next bytes of a pipe to its buffer. -/
def feed (pipe : Pipe) (w : Workload) (chunk : Bytes) : List Bytes × Workload :=
  match pipe with
  | .out =>
      let next := LineBuf.push w.outbuf chunk
      (next.1, { w with outbuf := next.2 })
  | .err =>
      let next := LineBuf.push w.errbuf chunk
      (next.1, { w with errbuf := next.2 })

/-- Rounds of reads from a pipe until it is empty.  A round reads a byte, so that there are no
more rounds than bytes. -/
def drainRounds (pipe : Pipe) : Nat → Exec (Supervisor ρ) ε Unit
  | 0 => pure ()
  | fuel + 1 => do
      let s ← Exec.get
      match s.workload with
      | none => pure ()
      | some w =>
          if s.unread pipe = [] then
            pure ()
          else
            let chunk := (s.unread pipe).take chunkLen
            let next := feed pipe w chunk
            Exec.set { s with
              workload := some next.2
              unread := Function.update s.unread pipe ((s.unread pipe).drop chunkLen) }
            emitLines pipe.stream pipe.level next.1
            drainRounds pipe fuel

/-- Drain a pipe of the workload into `LogLine`s. -/
def drainPipe (pipe : Pipe) : Exec (Supervisor ρ) ε Unit := do
  let s ← Exec.get
  drainRounds pipe (s.unread pipe).length

/-- The exit code and the signal of a `WorkloadExited`. -/
def ExitStatus.fields : ExitStatus → Int32 × Int32
  | .exited code => (code, 0)
  | .signaled sig => (-1, sig)

/-- Handle a report about the workload. -/
def handleChildStatus (pid : Int32) (status : WaitStatus) : Exec (Supervisor ρ) ε Unit :=
  match status with
  | .stopped => do
      Exec.modify fun s => { s with workload := s.workload.map fun w => { w with stopped := true } }
      let s ← Exec.get
      emitEvent true (.quiesceReady s.forcedToken)
  | .ended status => do
      drainPipe .out
      drainPipe .err
      let s ← Exec.get
      match s.workload with
      | none => Exec.panic
      | some w =>
          Exec.set { s with workload := none, workloadControl := false }
          emitLines Pipe.out.stream stdoutLevel (LineBuf.finish w.outbuf).1
          emitLines Pipe.err.stream stderrLevel (LineBuf.finish w.errbuf).1
          let fields := ExitStatus.fields status
          emitEvent true (.workloadExited pid.toUInt32 fields.1 fields.2)

/-- `waitpid` on the children that `wanted` names. -/
def waitpid (wanted : Int32 → Bool) : Exec (Supervisor ρ) ε (Option (Int32 × WaitStatus)) := do
  let s ← Exec.get
  let next := s.kernel.waitpid wanted
  Exec.set { s with kernel := next.2 }
  pure next.1

/-- Rounds of `reap`: each collects a report, so that there are no more rounds than
children. -/
def reapRounds : Nat → Exec (Supervisor ρ) ε Unit
  | 0 => pure ()
  | fuel + 1 => do
      match ← waitpid fun _ => true with
      | none => pure ()
      | some (pid, status) =>
          let s ← Exec.get
          if s.workload.map Workload.pid = some pid then
            handleChildStatus pid status
          reapRounds fuel

/-- Collect the reports about all children. -/
def reap : Exec (Supervisor ρ) ε Unit := do
  let s ← Exec.get
  reapRounds s.kernel.children.length

/-- Collect a report about the workload, at boot. -/
def reapWorkload : Exec (Supervisor ρ) ε Unit := do
  let s ← Exec.get
  match s.workload with
  | none => pure ()
  | some w =>
      match ← waitpid fun pid => pid = w.pid with
      | none => pure ()
      | some (pid, status) => handleChildStatus pid status

/-- Send a signal to a process. -/
def kill (pid : Int32) (sig : Signal) : Exec (Supervisor ρ) ε Unit :=
  Exec.modify fun s => { s with
    kernel := s.kernel.kill pid sig
    signals := s.signals ++ [(pid, sig)] }

/-- Start a unit, unless a workload is running. -/
def startUnit (id : UInt32) : Exec (Supervisor ρ) SuperviseError Unit := do
  let s ← Exec.get
  Exec.failIf (s.workload.isSome = true) .alreadyExists
  match s.units.find? fun u => u.id = id with
  | none => Exec.fail .notFound
  | some u =>
      Exec.set { s with logMask := u.logMask }
      match s.kernel.fork with
      | none => Exec.fail (.os 11)
      | some (pid, kernel) =>
          Exec.modify fun s => { s with
            kernel
            workload := some ⟨pid, u.id, [], [], false⟩
            unread := fun _ => [] }
          emitEvent false (.workloadStarted pid.toUInt32 u.id)

/-- Stop the workload; the report of the stop is acknowledged. -/
def forcedQuiesce (token : UInt64) : Exec (Supervisor ρ) ε Unit := do
  Exec.modify fun s => { s with forcedToken := token }
  let s ← Exec.get
  match s.workload with
  | some w => kill w.pid .stop
  | none => emitEvent true (.quiesceReady token)

/-- Continue a workload whose stop has been seen. -/
def forcedResume : Exec (Supervisor ρ) ε Unit := do
  let s ← Exec.get
  match s.workload with
  | none => pure ()
  | some w =>
      if w.stopped then
        kill w.pid .cont
        Exec.modify fun s => { s with workload := some { w with stopped := false } }

/-- Relay a workload-control record onto ring I. -/
def relay (rec : WorkloadCtrl) : Exec (Supervisor ρ) ε Unit := do
  let vnanos ← takeVnanos
  Exec.modify fun s => { s with relayed := s.relayed ++ [(vnanos, rec)] }

/-- Nanoseconds between `SIGTERM` and `SIGKILL`. -/
def killDelay : UInt64 := 2000000000

/-- Begin a graceful shutdown. -/
def beginGracefulShutdown : Exec (Supervisor ρ) ε Unit := do
  let s ← Exec.get
  match s.workload with
  | some w =>
      kill w.pid .term
      Exec.modify fun s => { s with shutdown := some (s.monotonic + killDelay) }
  | none => Exec.modify fun s => { s with shutdown := some 0 }

/-- Kill the workload and wait for its end. -/
def immediateShutdown : Exec (Supervisor ρ) ε Unit := do
  Exec.modify fun s => { s with workloadControl := false }
  let s ← Exec.get
  match s.workload with
  | none => pure ()
  | some w =>
      Exec.set { s with workload := none }
      kill w.pid .kill
      let _ ← waitpid fun pid => pid = w.pid
      emitEvent true (.workloadExited w.pid.toUInt32 (-1) sigkill)

/-- Re-verify the regions, if there is a server. -/
def reverifyRegions (server : RegionServer ρ) : Exec (Supervisor ρ) ε Unit := do
  let s ← Exec.get
  match s.regionIpc with
  | none => pure ()
  | some ipc =>
      let (ipc, vnanos, emitted) := server.reverify ipc s.vnanos
      Exec.set { s with regionIpc := some ipc, vnanos, emitted := s.emitted ++ emitted }

/-- Answer the requests of the workload, if there is a server. -/
def serviceRegionIpc (server : RegionServer ρ) : Exec (Supervisor ρ) SuperviseError Unit := do
  let s ← Exec.get
  match s.regionIpc with
  | none => pure ()
  | some ipc =>
      let (ipc, vnanos, emitted, error) :=
        server.service ipc (s.workload.map Workload.pid) s.vnanos
      Exec.set { s with regionIpc := some ipc, vnanos, emitted := s.emitted ++ emitted }
      match error with
      | none => pure ()
      | some errno => Exec.fail (.os errno)

/-- The line that reports a refused `StartWorkload`. -/
def refusedMessage (unit : UInt32) : Bytes :=
  s!"StartWorkload {unit} refused: a workload is already running".toUTF8.toList

/-- Start a unit on a command of ring C; a refusal is reported. -/
def startWorkload (unit logMask : UInt32) : Exec (Supervisor ρ) SuperviseError Unit :=
  ⟨fun s =>
    match (startUnit unit).run s with
    | (s, .ok ()) => ({ s with logMask }, .ok ())
    | (s, .err .alreadyExists) =>
        (emitEvent false (.logLine agentStream 0 (refusedMessage unit))).run s
    | (s, res) => (s, res)⟩

/-- Handle a command of ring C; returns whether the loop must stop. -/
def handle (server : RegionServer ρ) (cmd : Command) : Exec (Supervisor ρ) SuperviseError Bool := do
  match cmd with
  | .startWorkload unit logMask => startWorkload unit logMask
  | .quiesce token .coop => relay (.quiesceReq token)
  | .quiesce token .forced => forcedQuiesce token
  | .resume token =>
      forcedResume
      relay (.resume token)
  | .shutdown .graceful => beginGracefulShutdown
  | .shutdown .immediate => immediateShutdown
  | .setLogMask mask => Exec.modify fun s => { s with logMask := mask }
  | .reverifyRegions => reverifyRegions server
  pure (cmd = .shutdown .immediate)

/-- The sweep of a shutdown in progress: past the deadline the workload is killed.  Returns
whether the loop must stop. -/
def sweepShutdown : Exec (Supervisor ρ) ε Bool := do
  let s ← Exec.get
  match s.shutdown, s.workload with
  | some deadline, some w =>
      if s.monotonic ≥ deadline then kill w.pid .kill
      pure false
  | some _, none => pure true
  | none, _ => pure false

/-! ### The view of the supervisor -/

/-- The kernel, the process of the workload with the flag of a seen stop, the token of the last
forced quiesce, the signals sent, and the notable events emitted. -/
structure View where
  kernel : Kernel
  workload : Option (Int32 × Bool)
  token : UInt64
  signals : List (Int32 × Signal)
  notices : List EventPayload

/-- What a supervisor shows of itself. -/
def view (s : Supervisor ρ) : View where
  kernel := s.kernel
  workload := s.workload.map fun w => (w.pid, w.stopped)
  token := s.forcedToken
  signals := s.signals
  notices := (s.emitted.map Emission.ev).filter notable

theorem keeps_takeVnanos : Exec.Keeps view (takeVnanos : Exec (Supervisor ρ) ε UInt64) :=
  fun s => ⟨{ s with vnanos := s.vnanos + 1 }, s.vnanos, rfl, rfl⟩

/-- A notable event is seen. -/
theorem run_emitEvent_notable (doorbell : Bool) (ev : EventPayload) (hev : notable ev = true)
    (s : Supervisor ρ) :
  ∃ t, (emitEvent doorbell ev : Exec (Supervisor ρ) ε Unit).run s = (t, .ok ()) ∧
    t.view = { s.view with notices := s.view.notices ++ [ev] }
  := by
  refine ⟨_, rfl, ?_⟩
  simp [view, hev]

/-- Other events are not. -/
theorem keeps_emitEvent (doorbell : Bool) (ev : EventPayload) (hev : notable ev = false) :
  Exec.Keeps view (emitEvent doorbell ev : Exec (Supervisor ρ) ε Unit)
  := by
  intro s
  refine ⟨_, (), rfl, ?_⟩
  simp [view, hev]

theorem keeps_emitLines (stream level : UInt8) (lines : List Bytes) :
  Exec.Keeps view (emitLines stream level lines : Exec (Supervisor ρ) ε Unit)
  := by
  apply Exec.keeps_get.bind
  intro s
  split
  · exact Exec.keeps_pure _
  · apply Exec.Keeps.forM
    intro line
    exact keeps_emitEvent _ _ rfl

theorem feed_pid (pipe : Pipe) (w : Workload) (chunk : Bytes) :
  ((feed pipe w chunk).2.pid, (feed pipe w chunk).2.stopped) = (w.pid, w.stopped)
  := by
  cases pipe <;> rfl

theorem keeps_drainRounds (pipe : Pipe) (fuel : Nat) :
  Exec.Keeps view (drainRounds pipe fuel : Exec (Supervisor ρ) ε Unit)
  := by
  induction fuel with
  | zero => exact Exec.keeps_pure _
  | succ fuel ih =>
      intro s
      rw [drainRounds, Exec.run_bind_of_ok (Exec.run_get _)]
      cases hw : s.workload with
      | none => exact ⟨s, (), rfl, rfl⟩
      | some w =>
          dsimp only
          split
          · exact ⟨s, (), rfl, rfl⟩
          · rw [Exec.run_bind_of_ok (Exec.run_set _ _)]
            obtain ⟨t, a, hrun, hkeep⟩ := ((keeps_emitLines pipe.stream pipe.level
              (feed pipe w ((s.unread pipe).take chunkLen)).1).bind fun _ => ih) _
            refine ⟨t, a, hrun, hkeep.trans ?_⟩
            simp only [view, hw, Option.map_some, feed_pid]

theorem keeps_drainPipe (pipe : Pipe) :
  Exec.Keeps view (drainPipe pipe : Exec (Supervisor ρ) ε Unit)
  := Exec.keeps_get.bind fun _ => keeps_drainRounds _ _

theorem keeps_relay (rec : WorkloadCtrl) :
  Exec.Keeps view (relay rec : Exec (Supervisor ρ) ε Unit)
  := keeps_takeVnanos.bind fun _ => Exec.keeps_modify fun _ => rfl

/-- Events that are not notable. -/
theorem notices_append_quiet {emitted quiet : List Emission}
    (h : ∀ e ∈ quiet, notable e.ev = false) :
  ((emitted ++ quiet).map Emission.ev).filter notable = (emitted.map Emission.ev).filter notable
  := by
  rw [List.map_append, List.filter_append]
  have hnone : (quiet.map Emission.ev).filter notable = [] := by
    rw [List.filter_eq_nil_iff]
    intro ev hev
    obtain ⟨e, he, rfl⟩ := List.mem_map.mp hev
    simp [h e he]
  rw [hnone, List.append_nil]

theorem keeps_reverifyRegions (server : RegionServer ρ) :
  Exec.Keeps view (reverifyRegions server : Exec (Supervisor ρ) ε Unit)
  := by
  intro s
  rw [reverifyRegions, Exec.run_bind_of_ok (Exec.run_get _)]
  cases s.regionIpc with
  | none => exact ⟨s, (), rfl, rfl⟩
  | some ipc =>
      refine ⟨_, (), rfl, ?_⟩
      simp only [view, notices_append_quiet (server.reverify_quiet ipc s.vnanos)]

/-- A round of requests is not seen. -/
theorem view_serviceRegionIpc (server : RegionServer ρ) (s : Supervisor ρ) :
  ((serviceRegionIpc server).run s).1.view = s.view
  := by
  rw [serviceRegionIpc, Exec.run_bind_of_ok (Exec.run_get _)]
  cases s.regionIpc with
  | none => rfl
  | some ipc =>
      dsimp only
      rw [Exec.run_bind_of_ok (Exec.run_set _ _)]
      split <;>
        simp only [Exec.run_pure, Exec.run_fail, view,
          notices_append_quiet (server.service_quiet ipc (s.workload.map Workload.pid) s.vnanos)]

namespace View

/-- A signal to the workload. -/
def signal (v : View) (sig : Signal) : View :=
  match v.workload with
  | some (pid, _) =>
      { v with kernel := v.kernel.kill pid sig, signals := v.signals ++ [(pid, sig)] }
  | none => v

/-- A forced quiesce stops the workload; without a workload it is acknowledged. -/
def forced (v : View) (token : UInt64) : View :=
  match v.workload with
  | some _ => { v.signal .stop with token }
  | none => { v with token, notices := v.notices ++ [.quiesceReady token] }

/-- A resume continues a workload whose stop was seen. -/
def resumed (v : View) : View :=
  match v.workload with
  | some (pid, true) => { v.signal .cont with workload := some (pid, false) }
  | _ => v

/-- An immediate shutdown kills the workload, collects its report and tells of its end. -/
def killed (v : View) : View :=
  match v.workload with
  | some (pid, _) => { v.signal .kill with
      kernel := ((v.kernel.kill pid .kill).waitpid fun p => p = pid).2
      workload := none
      notices := v.notices ++ [.workloadExited pid.toUInt32 (-1) sigkill] }
  | none => v

/-- A new child becomes the workload. -/
def started (v : View) (pid : Int32) (kernel : Kernel) (unit : UInt32) : View :=
  { v with
    kernel
    workload := some (pid, false)
    notices := v.notices ++ [.workloadStarted pid.toUInt32 unit] }

/-- The report of a stop: a stop of the workload is noted and acknowledged. -/
def stopSeen (v : View) (front : List Child) (c : Child) (back : List Child) : View :=
  let kernel := { v.kernel with children := front ++ { c with unreported := false } :: back }
  if v.workload.map Prod.fst = some c.pid then
    { v with
      kernel
      workload := some (c.pid, true)
      notices := v.notices ++ [.quiesceReady v.token] }
  else
    { v with kernel }

/-- The report of an end: an ended workload is forgotten, and the host is told. -/
def endSeen (v : View) (front : List Child) (c : Child) (back : List Child) (status : ExitStatus) :
    View :=
  let kernel := { v.kernel with children := front ++ back }
  if v.workload.map Prod.fst = some c.pid then
    { v with
      kernel
      workload := none
      notices := v.notices ++ [.workloadExited c.pid.toUInt32 (ExitStatus.fields status).1
        (ExitStatus.fields status).2] }
  else
    { v with kernel }

/-- The report of one child is taken and handled. -/
structure Reaped (v v' : View) (front : List Child) (c : Child) (back : List Child) : Prop where
  split : v.kernel.children = front ++ c :: back
  unreported : c.unreported = true
  effect : (c.state = .stopped ∧ v' = v.stopSeen front c back) ∨
    ∃ status, c.state = .ended status ∧ v' = v.endSeen front c back status

/-- A reap takes and handles reports until there is none. -/
inductive Reaps : View → View → Prop
  | done {v : View} (h : ∀ c ∈ v.kernel.children, c.report = none) : Reaps v v
  | more {v v' v'' : View} {front back : List Child} {c : Child} (h : Reaped v v' front c back)
      (hmore : Reaps v' v'') : Reaps v v''

/-- A reap of the workload finds no report about it, or it takes and handles one. -/
def ReapsWorkload (v v' : View) : Prop :=
  (v' = v ∧ ∀ pid b, v.workload = some (pid, b) → ∀ c ∈ v.kernel.children, c.pid = pid →
      c.report = none) ∨
    ∃ front c back, v.workload.map Prod.fst = some c.pid ∧ Reaped v v' front c back

/-- What a command does. -/
def Handles (cmd : Command) (v v' : View) : Prop :=
  match cmd with
  | .startWorkload unit _ =>
      v' = v ∨ ∃ pid kernel, v.workload = none ∧ v.kernel.fork = some (pid, kernel) ∧
        v' = v.started pid kernel unit
  | .quiesce token .forced => v' = v.forced token
  | .resume _ => v' = v.resumed
  | .shutdown .graceful => v' = v.signal .term
  | .shutdown .immediate => v' = v.killed
  | _ => v' = v

end View

/-! ### What the supervisor does to its view -/

theorem run_forcedQuiesce (token : UInt64) (s : Supervisor ρ) :
  ∃ t, (forcedQuiesce token : Exec (Supervisor ρ) ε Unit).run s = (t, .ok ()) ∧
    t.view = s.view.forced token
  := by
  rw [forcedQuiesce, Exec.run_bind_of_ok (Exec.run_modify _ _),
    Exec.run_bind_of_ok (Exec.run_get _)]
  cases hw : s.workload with
  | none =>
      dsimp only
      obtain ⟨t, hrun, hview⟩ := run_emitEvent_notable (ε := ε) true
        (.quiesceReady token) rfl { s with forcedToken := token, workload := none }
      refine ⟨t, hrun, hview.trans ?_⟩
      simp only [view, View.forced, hw, Option.map_none]
  | some w =>
      refine ⟨_, rfl, ?_⟩
      simp only [view, View.forced, View.signal, hw, Option.map_some]

theorem run_forcedResume (s : Supervisor ρ) :
  ∃ t, (forcedResume : Exec (Supervisor ρ) ε Unit).run s = (t, .ok ()) ∧ t.view = s.view.resumed
  := by
  rw [forcedResume, Exec.run_bind_of_ok (Exec.run_get _)]
  cases hw : s.workload with
  | none =>
      refine ⟨s, rfl, ?_⟩
      simp only [view, View.resumed, hw, Option.map_none]
  | some w =>
      dsimp only
      cases hstopped : w.stopped with
      | false =>
          refine ⟨s, rfl, ?_⟩
          simp only [view, View.resumed, hw, hstopped, Option.map_some]
      | true =>
          refine ⟨_, rfl, ?_⟩
          simp only [view, View.resumed, View.signal, hw, hstopped, Option.map_some]

theorem run_beginGracefulShutdown (s : Supervisor ρ) :
  ∃ t, (beginGracefulShutdown : Exec (Supervisor ρ) ε Unit).run s = (t, .ok ()) ∧
    t.view = s.view.signal .term
  := by
  rw [beginGracefulShutdown, Exec.run_bind_of_ok (Exec.run_get _)]
  cases hw : s.workload with
  | none =>
      refine ⟨_, rfl, ?_⟩
      simp only [view, View.signal, hw, Option.map_none]
  | some w =>
      refine ⟨_, rfl, ?_⟩
      simp only [view, View.signal, hw, Option.map_some]

theorem run_immediateShutdown (s : Supervisor ρ) :
  ∃ t, (immediateShutdown : Exec (Supervisor ρ) ε Unit).run s = (t, .ok ()) ∧
    t.view = s.view.killed
  := by
  rw [immediateShutdown, Exec.run_bind_of_ok (Exec.run_modify _ _),
    Exec.run_bind_of_ok (Exec.run_get _)]
  cases hw : s.workload with
  | none =>
      refine ⟨_, rfl, ?_⟩
      simp only [view, View.killed, hw, Option.map_none]
  | some w =>
      dsimp only
      rw [Exec.run_bind_of_ok (Exec.run_set _ _), kill, Exec.run_bind_of_ok (Exec.run_modify _ _),
        waitpid, Exec.run_bind_of_ok rfl]
      obtain ⟨t, hrun, hview⟩ := run_emitEvent_notable (ε := ε) true
        (.workloadExited w.pid.toUInt32 (-1) sigkill) rfl
        { s with
          workload := none
          workloadControl := false
          kernel := ((s.kernel.kill w.pid .kill).waitpid fun p => p = w.pid).2
          signals := s.signals ++ [(w.pid, .kill)] }
      refine ⟨t, hrun, hview.trans ?_⟩
      simp only [view, View.killed, View.signal, hw, Option.map_none, Option.map_some]

/-- The sweep of a shutdown kills a workload past the deadline. -/
theorem run_sweepShutdown (s : Supervisor ρ) :
  ∃ t b, (sweepShutdown : Exec (Supervisor ρ) ε Bool).run s = (t, .ok b) ∧
    (t.view = s.view ∨ t.view = s.view.signal .kill)
  := by
  rw [sweepShutdown, Exec.run_bind_of_ok (Exec.run_get _)]
  cases s.shutdown with
  | none => exact ⟨s, false, rfl, Or.inl rfl⟩
  | some deadline =>
      cases hw : s.workload with
      | none => exact ⟨s, true, rfl, Or.inl rfl⟩
      | some w =>
          dsimp only
          split
          · refine ⟨_, false, rfl, Or.inr ?_⟩
            simp only [view, View.signal, hw, Option.map_some]
          · exact ⟨s, false, rfl, Or.inl rfl⟩

/-- A start either shows nothing or makes a new child the workload. -/
theorem run_startWorkload (unit logMask : UInt32) (s : Supervisor ρ) :
  ∃ t res, (startWorkload unit logMask).run s = (t, res) ∧
    View.Handles (.startWorkload unit logMask) s.view t.view
  := by
  cases hw : s.workload with
  | some w =>
      have hrun : (startUnit unit).run s = (s, .err .alreadyExists) := by
        rw [startUnit, Exec.run_bind_of_ok (Exec.run_get _)]
        apply Exec.run_bind_of_err
        exact Exec.run_failIf_of (by simp [hw]) s
      obtain ⟨t, a, hemit, hkeep⟩ := keeps_emitEvent (ε := SuperviseError) false
        (.logLine agentStream 0 (refusedMessage unit)) rfl s
      refine ⟨t, .ok a, ?_, Or.inl hkeep⟩
      simp only [startWorkload, hrun, hemit]
  | none =>
      have hnone : s.view.workload = none := by simp [view, hw]
      have hcheck : (Exec.failIf (s.workload.isSome = true) SuperviseError.alreadyExists).run s
          = (s, .ok ()) := Exec.run_failIf_of_not (by simp [hw]) s
      cases hu : s.units.find? fun u => u.id = unit with
      | none =>
          have hrun : (startUnit unit).run s = (s, .err .notFound) := by
            rw [startUnit, Exec.run_bind_of_ok (Exec.run_get _), Exec.run_bind_of_ok hcheck]
            simp only [hu, Exec.run_fail]
          refine ⟨s, .err .notFound, ?_, Or.inl rfl⟩
          simp only [startWorkload, hrun]
      | some u =>
          cases hfork : s.kernel.fork with
          | none =>
              have hrun : (startUnit unit).run s
                  = ({ s with logMask := u.logMask }, .err (.os 11)) := by
                rw [startUnit, Exec.run_bind_of_ok (Exec.run_get _), Exec.run_bind_of_ok hcheck]
                simp only [hu]
                rw [Exec.run_bind_of_ok (Exec.run_set _ _)]
                simp only [hfork, Exec.run_fail]
              refine ⟨{ s with logMask := u.logMask }, .err (.os 11), ?_, Or.inl rfl⟩
              simp only [startWorkload, hrun]
          | some child =>
              obtain ⟨pid, kernel⟩ := child
              have huid : u.id = unit := by simpa using List.find?_some hu
              obtain ⟨t, hemit, hview⟩ := run_emitEvent_notable (ε := SuperviseError)
                false (.workloadStarted pid.toUInt32 u.id) rfl
                { s with
                  logMask := u.logMask
                  kernel
                  workload := some ⟨pid, u.id, [], [], false⟩
                  unread := fun _ => [] }
              have hrun : (startUnit unit).run s = (t, .ok ()) := by
                rw [startUnit, Exec.run_bind_of_ok (Exec.run_get _), Exec.run_bind_of_ok hcheck]
                simp only [hu]
                rw [Exec.run_bind_of_ok (Exec.run_set _ _)]
                simp only [hfork]
                rw [Exec.run_bind_of_ok (Exec.run_modify _ _)]
                exact hemit
              refine ⟨{ t with logMask }, .ok (), by simp only [startWorkload, hrun],
                Or.inr ⟨pid, kernel, hnone, hfork, ?_⟩⟩
              rw [huid] at hview
              exact hview

/-- A command that is handled. -/
theorem run_handle (server : RegionServer ρ) (cmd : Command) (s : Supervisor ρ) :
  ∃ t res, (handle server cmd).run s = (t, res) ∧ View.Handles cmd s.view t.view
  := by
  cases cmd with
  | startWorkload unit logMask =>
      obtain ⟨t, res, hrun, hview⟩ := s.run_startWorkload unit logMask
      rw [handle]
      cases res with
      | ok a => exact ⟨t, _, Exec.run_bind_of_ok hrun, hview⟩
      | err e => exact ⟨t, _, Exec.run_bind_of_err hrun, hview⟩
      | panic => exact ⟨t, _, Exec.run_bind_of_panic hrun, hview⟩
  | quiesce token mode =>
      cases mode with
      | coop =>
          obtain ⟨t, _, hrun, hkeep⟩ := keeps_relay (ε := SuperviseError) (.quiesceReq token) s
          exact ⟨t, _, Exec.run_bind_of_ok hrun, hkeep⟩
      | forced =>
          obtain ⟨t, hrun, hview⟩ := s.run_forcedQuiesce (ε := SuperviseError) token
          exact ⟨t, _, Exec.run_bind_of_ok hrun, hview⟩
  | resume token =>
      obtain ⟨t, hrun, hview⟩ := s.run_forcedResume (ε := SuperviseError)
      obtain ⟨u, _, hrun', hkeep⟩ := keeps_relay (ε := SuperviseError) (.resume token) t
      exact ⟨u, _, (Exec.run_bind_of_ok hrun).trans (Exec.run_bind_of_ok hrun'),
        hkeep.trans hview⟩
  | shutdown mode =>
      cases mode with
      | graceful =>
          obtain ⟨t, hrun, hview⟩ := s.run_beginGracefulShutdown (ε := SuperviseError)
          exact ⟨t, _, Exec.run_bind_of_ok hrun, hview⟩
      | immediate =>
          obtain ⟨t, hrun, hview⟩ := s.run_immediateShutdown (ε := SuperviseError)
          exact ⟨t, _, Exec.run_bind_of_ok hrun, hview⟩
  | setLogMask mask => exact ⟨_, _, rfl, rfl⟩
  | reverifyRegions =>
      obtain ⟨t, _, hrun, hkeep⟩ := keeps_reverifyRegions (ε := SuperviseError) server s
      exact ⟨t, _, Exec.run_bind_of_ok hrun, hkeep⟩

/-! ### What a reap does to the view -/

/-- The supervisor with other children. -/
def withChildren (s : Supervisor ρ) (children : List Child) : Supervisor ρ :=
  { s with kernel := { s.kernel with children } }

/-- The report of a stop of the workload. -/
theorem handle_stopped {pid : Int32} {s : Supervisor ρ}
    (hpid : s.workload.map Workload.pid = some pid) :
  ∃ t, (handleChildStatus pid .stopped : Exec (Supervisor ρ) ε Unit).run s = (t, .ok ()) ∧
    t.view = { s.view with
      workload := some (pid, true)
      notices := s.view.notices ++ [.quiesceReady s.view.token] }
  := by
  obtain ⟨w, hw, rfl⟩ := Option.map_eq_some_iff.mp hpid
  rw [handleChildStatus, Exec.run_bind_of_ok (Exec.run_modify _ _),
    Exec.run_bind_of_ok (Exec.run_get _)]
  obtain ⟨t, hrun, hview⟩ := run_emitEvent_notable (ε := ε) true
    (.quiesceReady s.forcedToken) rfl
    { s with workload := s.workload.map fun w => { w with stopped := true } }
  refine ⟨t, hrun, hview.trans ?_⟩
  simp only [view, hw, Option.map_some]

/-- The report of the end of the workload. -/
theorem handle_ended (pid : Int32) (status : ExitStatus) {s : Supervisor ρ}
    (hw : s.workload.isSome = true) :
  ∃ t, (handleChildStatus pid (.ended status) : Exec (Supervisor ρ) ε Unit).run s = (t, .ok ()) ∧
    t.view = { s.view with
      workload := none
      notices := s.view.notices ++ [.workloadExited pid.toUInt32 (ExitStatus.fields status).1
        (ExitStatus.fields status).2] }
  := by
  obtain ⟨t, _, hrun, hkeep⟩ := keeps_drainPipe (ε := ε) .out s
  obtain ⟨u, _, hrun', hkeep'⟩ := keeps_drainPipe (ε := ε) .err t
  have hu : u.view = s.view := hkeep'.trans hkeep
  rw [handleChildStatus, Exec.run_bind_of_ok hrun, Exec.run_bind_of_ok hrun',
    Exec.run_bind_of_ok (Exec.run_get _)]
  cases hwu : u.workload with
  | none =>
      have hnone := congrArg View.workload hu
      obtain ⟨w, hw⟩ := Option.isSome_iff_exists.mp hw
      simp only [view, hwu, hw, Option.map_none, Option.map_some] at hnone
      cases hnone
  | some w =>
      dsimp only
      rw [Exec.run_bind_of_ok (Exec.run_set _ _)]
      obtain ⟨v, _, hout, hkeep⟩ := keeps_emitLines (ε := ε) Pipe.out.stream stdoutLevel
        (LineBuf.finish w.outbuf).1 { u with workload := none, workloadControl := false }
      obtain ⟨x, _, herr, hkeep'⟩ := keeps_emitLines (ε := ε) Pipe.err.stream stderrLevel
        (LineBuf.finish w.errbuf).1 v
      obtain ⟨y, hemit, hview⟩ := run_emitEvent_notable (ε := ε) true
        (.workloadExited pid.toUInt32 (ExitStatus.fields status).1
          (ExitStatus.fields status).2) rfl x
      have hend : view { u with workload := none, workloadControl := false }
          = { s.view with workload := none } := by
        rw [← hu]
        rfl
      rw [Exec.run_bind_of_ok hout, Exec.run_bind_of_ok herr]
      refine ⟨y, hemit, ?_⟩
      rw [hview, hkeep', hkeep, hend]

/-- A call of `waitpid` finds no report, or it takes the report of one child, which is then
handled if the child is the workload. -/
theorem run_waitpid (wanted : Int32 → Bool) (s : Supervisor ρ) :
  ((waitpid wanted : Exec (Supervisor ρ) ε _).run s = (s, .ok none) ∧
      ∀ c ∈ s.kernel.children, wanted c.pid = true → c.report = none) ∨
    ∃ s' t front c back status, s.view.Reaped t.view front c back ∧ wanted c.pid = true ∧
      s'.workload = s.workload ∧
      (waitpid wanted : Exec (Supervisor ρ) ε _).run s = (s', .ok (some (c.pid, status))) ∧
      ((s.workload.map Workload.pid = some c.pid ∧
          (handleChildStatus c.pid status : Exec (Supervisor ρ) ε Unit).run s' = (t, .ok ())) ∨
        (s.workload.map Workload.pid ≠ some c.pid ∧ t = s'))
  := by
  have hfst : s.view.workload.map Prod.fst = s.workload.map Workload.pid := by
    rw [view, Option.map_map]
    rfl
  rcases collect_cases wanted s.kernel.children with
    ⟨hnone, hall⟩ | ⟨front, c, back, hsplit, hwanted, hunreported, hreport⟩
  · left
    refine ⟨?_, hall⟩
    simp only [waitpid, Exec.run_bind, Exec.run_get, Exec.run_set, Exec.run_pure,
      Kernel.waitpid, hnone]
  · right
    rcases hreport with ⟨hstate, hcollect⟩ | ⟨status, hstate, hcollect⟩
    · have hwait : (waitpid wanted : Exec (Supervisor ρ) ε _).run s
          = (s.withChildren (front ++ { c with unreported := false } :: back),
              .ok (some (c.pid, .stopped))) := by
        simp only [waitpid, Exec.run_bind, Exec.run_get, Exec.run_set, Exec.run_pure,
          Kernel.waitpid, hcollect, withChildren]
      by_cases hpid : s.workload.map Workload.pid = some c.pid
      · obtain ⟨t, hrun, hview⟩ := handle_stopped (ε := ε)
          (s := s.withChildren (front ++ { c with unreported := false } :: back)) hpid
        refine ⟨_, t, front, c, back, _, ⟨hsplit, hunreported, Or.inl ⟨hstate, ?_⟩⟩, hwanted,
          ?_, hwait, Or.inl ⟨hpid, hrun⟩⟩
        · rw [hview, View.stopSeen, hfst, if_pos hpid]
          rfl
        · rfl
      · refine ⟨_, _, front, c, back, _, ⟨hsplit, hunreported, Or.inl ⟨hstate, ?_⟩⟩, hwanted,
          ?_, hwait, Or.inr ⟨hpid, rfl⟩⟩
        · rw [View.stopSeen, hfst, if_neg hpid]
          rfl
        · rfl
    · have hwait : (waitpid wanted : Exec (Supervisor ρ) ε _).run s
          = (s.withChildren (front ++ back), .ok (some (c.pid, .ended status))) := by
        simp only [waitpid, Exec.run_bind, Exec.run_get, Exec.run_set, Exec.run_pure,
          Kernel.waitpid, hcollect, withChildren]
      by_cases hpid : s.workload.map Workload.pid = some c.pid
      · obtain ⟨w, hw, _⟩ := Option.map_eq_some_iff.mp hpid
        obtain ⟨t, hrun, hview⟩ := handle_ended (ε := ε) c.pid status
          (s := s.withChildren (front ++ back)) (by simp [withChildren, hw])
        refine ⟨_, t, front, c, back, _, ⟨hsplit, hunreported, Or.inr ⟨status, hstate, ?_⟩⟩,
          hwanted, ?_, hwait, Or.inl ⟨hpid, hrun⟩⟩
        · rw [hview, View.endSeen, hfst, if_pos hpid]
          rfl
        · rfl
      · refine ⟨_, _, front, c, back, _, ⟨hsplit, hunreported, Or.inr ⟨status, hstate, ?_⟩⟩,
          hwanted, ?_, hwait, Or.inr ⟨hpid, rfl⟩⟩
        · rw [View.endSeen, hfst, if_neg hpid]
          rfl
        · rfl

/-- A report that is taken is no longer there. -/
theorem View.Reaped.reports {v v' : View} {front back : List Child} {c : Child}
    (h : Reaped v v' front c back) :
  v'.kernel.reports < v.kernel.reports
  := by
  have hone : ∀ status, c.report = some status → v.kernel.reports
      = front.countP (fun c => c.report.isSome) + (back.countP (fun c => c.report.isSome) + 1) := by
    intro status hreport
    rw [Kernel.reports, h.split, List.countP_append, List.countP_cons, hreport]
    rfl
  rcases h.effect with ⟨hstate, rfl⟩ | ⟨status, hstate, rfl⟩
  · have hchildren : (v.stopSeen front c back).kernel.children
        = front ++ { c with unreported := false } :: back := by
      rw [stopSeen]
      split <;> rfl
    rw [hone .stopped (by simp only [Child.report, h.unreported, hstate]), Kernel.reports,
      hchildren, List.countP_append, List.countP_cons]
    simp only [Child.report, Option.isSome_none, Bool.false_eq_true, if_false]
    omega
  · have hchildren : (v.endSeen front c back status).kernel.children = front ++ back := by
      rw [endSeen]
      split <;> rfl
    rw [hone (.ended status) (by simp only [Child.report, h.unreported, hstate]), Kernel.reports,
      hchildren, List.countP_append]
    omega

/-- Enough rounds of `reap` collect all reports. -/
theorem run_reapRounds (fuel : Nat) {s : Supervisor ρ} (hfuel : s.kernel.reports ≤ fuel) :
  ∃ t, (reapRounds fuel : Exec (Supervisor ρ) ε Unit).run s = (t, .ok ()) ∧
    View.Reaps s.view t.view
  := by
  induction fuel generalizing s with
  | zero =>
      refine ⟨s, rfl, .done ?_⟩
      intro c hc
      have hnone := List.countP_eq_zero.mp (Nat.le_zero.mp hfuel) c hc
      simpa using hnone
  | succ fuel ih =>
      rw [reapRounds]
      rcases run_waitpid (ε := ε) (fun _ => true) s with
        ⟨hwait, hall⟩ | ⟨s', t, front, c, back, status, hreaped, _, hsame, hwait, hhandle⟩
      · refine ⟨s, Exec.run_bind_of_ok hwait, .done ?_⟩
        exact fun c hc => hall c hc rfl
      · have hless : t.kernel.reports < s.kernel.reports := hreaped.reports
        obtain ⟨u, hrun, hreaps⟩ := ih (s := t) (by omega)
        refine ⟨u, ?_, .more hreaped hreaps⟩
        rw [Exec.run_bind_of_ok hwait]
        dsimp only
        rw [Exec.run_bind_of_ok (Exec.run_get _), hsame]
        rcases hhandle with ⟨hpid, hstatus⟩ | ⟨hpid, rfl⟩
        · rw [if_pos hpid, Exec.run_bind_of_ok hstatus, hrun]
        · rw [if_neg hpid]
          exact hrun

theorem run_reap (s : Supervisor ρ) :
  ∃ t, (reap : Exec (Supervisor ρ) ε Unit).run s = (t, .ok ()) ∧ View.Reaps s.view t.view
  := run_reapRounds s.kernel.children.length List.countP_le_length

theorem run_reapWorkload (s : Supervisor ρ) :
  ∃ t, (reapWorkload : Exec (Supervisor ρ) ε Unit).run s = (t, .ok ()) ∧
    View.ReapsWorkload s.view t.view
  := by
  rw [reapWorkload, Exec.run_bind_of_ok (Exec.run_get _)]
  cases hw : s.workload with
  | none =>
      refine ⟨s, rfl, Or.inl ⟨rfl, ?_⟩⟩
      simp [view, hw]
  | some w =>
      have hview : s.view.workload = some (w.pid, w.stopped) := by simp [view, hw]
      dsimp only
      rcases run_waitpid (ε := ε) (fun pid => pid = w.pid) s with
        ⟨hwait, hall⟩ | ⟨s', t, front, c, back, status, hreaped, hwanted, hsame, hwait, hhandle⟩
      · rw [Exec.run_bind_of_ok hwait]
        refine ⟨s, rfl, Or.inl ⟨rfl, ?_⟩⟩
        intro pid b hpid c hc hcpid
        rw [hview] at hpid
        cases hpid
        exact hall c hc (by simpa using hcpid)
      · have hpid : c.pid = w.pid := by simpa using hwanted
        rw [Exec.run_bind_of_ok hwait]
        rcases hhandle with ⟨_, hrun⟩ | ⟨hne, _⟩
        · refine ⟨t, hrun, Or.inr ⟨front, c, back, ?_, hreaped⟩⟩
          rw [hview, Option.map_some, hpid]
        · rw [hw, Option.map_some, hpid] at hne
          exact absurd rfl hne

end Supervisor

end Agent
