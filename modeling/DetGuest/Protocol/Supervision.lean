import DetGuest.Agent.Supervise
import DetGuest.Lib.Machine
import Mathlib.Data.List.Nodup

/-!
# Forced quiesce

The commands of ring C and the reports of the kernel reach the supervisor in any order.  A
workload that a forced quiesce has stopped is continued by a `Resume`, unless the `Resume`
comes before the supervisor has seen the stop.
-/

namespace Protocol

open Wire Agent

/-! ### The operations -/

/-- The supervisor, the commands it has handled, and whether its loop has ended. -/
structure SuperviseState (ρ : Type) where
  sup : Supervisor ρ
  handled : List Command
  done : Bool

/-- What the supervise loop does, a command, a `SIGCHLD`, a pipe, the requests of the workload or
the sweep of a shutdown, and what happens around it: time passes, a child ends, stops or prints,
an orphan is adopted, and the kernel chooses the next process id.  Before the loop, at boot, a `SIGCHLD` leads to a reap of
the workload only. -/
inductive SuperviseOp where
  | command (cmd : Command)
  | reap
  | reapWorkload
  | pipe (pipe : Pipe)
  | regions
  | sweep
  | clock (now : UInt64)
  | exit (pid : Int32) (status : ExitStatus)
  | stop (pid : Int32)
  | print (pipe : Pipe) (bytes : Bytes)
  | nextPid (pid : Int32)
  | adopt

/-- One operation.  After its end the loop handles nothing. -/
def superviseStep {ρ : Type} (server : RegionServer ρ) (s : SuperviseState ρ) (op : SuperviseOp) :
    SuperviseState ρ :=
  match op with
  | .command cmd =>
      if s.done then
        s
      else
        let next := (Supervisor.handle server cmd).run s.sup
        { sup := next.1, handled := s.handled ++ [cmd], done := next.2 ≠ .ok false }
  | .reap =>
      if s.done then
        s
      else
        { s with sup := ((Supervisor.reap : Exec _ SuperviseError Unit).run s.sup).1 }
  | .reapWorkload =>
      if s.done then
        s
      else
        { s with sup := ((Supervisor.reapWorkload : Exec _ SuperviseError Unit).run s.sup).1 }
  | .pipe pipe =>
      if s.done then
        s
      else
        { s with sup := ((Supervisor.drainPipe pipe : Exec _ SuperviseError Unit).run s.sup).1 }
  | .regions =>
      if s.done then
        s
      else
        let next := (Supervisor.serviceRegionIpc server).run s.sup
        { s with sup := next.1, done := next.2 ≠ .ok () }
  | .sweep =>
      if s.done then
        s
      else
        let next := (Supervisor.sweepShutdown : Exec _ SuperviseError Bool).run s.sup
        { s with sup := next.1, done := next.2 ≠ .ok false }
  | .clock now => { s with sup := { s.sup with monotonic := now } }
  | .exit pid status => { s with sup := { s.sup with kernel := s.sup.kernel.exit pid status } }
  | .stop pid => { s with sup := { s.sup with kernel := s.sup.kernel.kill pid .stop } }
  | .print pipe bytes =>
      { s with sup := { s.sup with
          unread := Function.update s.sup.unread pipe (s.sup.unread pipe ++ bytes) } }
  | .nextPid pid =>
      { s with sup := { s.sup with kernel := { s.sup.kernel with nextPid := pid } } }
  | .adopt =>
      match s.sup.kernel.add true with
      | none => s
      | some (_, kernel) => { s with sup := { s.sup with kernel } }

/-- The state after a sequence of operations. -/
def supervise {ρ : Type} (server : RegionServer ρ) (s : SuperviseState ρ)
    (ops : List SuperviseOp) : SuperviseState ρ :=
  ops.foldl (superviseStep server) s

/-- The commands of an operation. -/
def SuperviseOp.commands : SuperviseOp → List Command
  | .command cmd => [cmd]
  | _ => []

/-- What an operation does to the view of the supervisor. -/
def Moves (op : SuperviseOp) (v v' : Supervisor.View) : Prop :=
  match op with
  | .command cmd => Supervisor.View.Handles cmd v v'
  | .reap => Supervisor.View.Reaps v v'
  | .reapWorkload => Supervisor.View.ReapsWorkload v v'
  | .sweep => v' = v ∨ v' = v.signal .kill
  | .exit pid status => v' = { v with kernel := v.kernel.exit pid status }
  | .stop pid => v' = { v with kernel := v.kernel.kill pid .stop }
  | .nextPid pid => v' = { v with kernel := { v.kernel with nextPid := pid } }
  | .adopt =>
      v' = v ∨ ∃ pid kernel, v.kernel.add true = some (pid, kernel) ∧ v' = { v with kernel }
  | _ => v' = v

section Refinement

variable {ρ : Type} (server : RegionServer ρ)

/-- An operation of a loop that has not ended moves its view. -/
theorem moves_superviseStep {s : SuperviseState ρ} (hdone : s.done = false) (op : SuperviseOp) :
  Moves op s.sup.view (superviseStep server s op).sup.view ∧
    (superviseStep server s op).handled = s.handled ++ op.commands
  := by
  cases op with
  | command cmd =>
      obtain ⟨t, res, hrun, hview⟩ := s.sup.run_handle server cmd
      rw [superviseStep, hdone]
      simp only [Bool.false_eq_true, if_false, hrun]
      exact ⟨hview, rfl⟩
  | reap =>
      obtain ⟨t, hrun, hview⟩ := s.sup.run_reap (ε := SuperviseError)
      rw [superviseStep, hdone]
      simp only [Bool.false_eq_true, if_false, hrun, SuperviseOp.commands, List.append_nil]
      exact ⟨hview, trivial⟩
  | reapWorkload =>
      obtain ⟨t, hrun, hview⟩ := s.sup.run_reapWorkload (ε := SuperviseError)
      rw [superviseStep, hdone]
      simp only [Bool.false_eq_true, if_false, hrun, SuperviseOp.commands, List.append_nil]
      exact ⟨hview, trivial⟩
  | pipe pipe =>
      obtain ⟨t, _, hrun, hkeep⟩ := Supervisor.keeps_drainPipe (ε := SuperviseError) pipe s.sup
      rw [superviseStep, hdone]
      simp only [Bool.false_eq_true, if_false, hrun, SuperviseOp.commands, List.append_nil]
      exact ⟨hkeep, trivial⟩
  | regions =>
      have hview := s.sup.view_serviceRegionIpc server
      rw [superviseStep, hdone]
      simp only [Bool.false_eq_true, if_false, SuperviseOp.commands, List.append_nil]
      exact ⟨hview, trivial⟩
  | sweep =>
      obtain ⟨t, b, hrun, hview⟩ := s.sup.run_sweepShutdown (ε := SuperviseError)
      rw [superviseStep, hdone]
      simp only [Bool.false_eq_true, if_false, hrun, SuperviseOp.commands, List.append_nil]
      exact ⟨hview, trivial⟩
  | clock now => exact ⟨rfl, (List.append_nil _).symm⟩
  | exit pid status => exact ⟨rfl, (List.append_nil _).symm⟩
  | stop pid => exact ⟨rfl, (List.append_nil _).symm⟩
  | print pipe bytes => exact ⟨rfl, (List.append_nil _).symm⟩
  | nextPid pid => exact ⟨rfl, (List.append_nil _).symm⟩
  | adopt =>
      rw [superviseStep]
      cases hadd : s.sup.kernel.add true with
      | none => exact ⟨Or.inl rfl, (List.append_nil _).symm⟩
      | some child => exact ⟨Or.inr ⟨child.1, child.2, hadd, rfl⟩, (List.append_nil _).symm⟩

/-- Whether an operation is one of the loop. -/
def SuperviseOp.loop : SuperviseOp → Bool
  | .command _ | .reap | .reapWorkload | .pipe _ | .regions | .sweep => true
  | _ => false

/-- An operation moves the view of the loop, or the loop has ended and does nothing. -/
theorem superviseStep_cases (s : SuperviseState ρ) (op : SuperviseOp) :
  (s.done = true ∧ op.loop = true ∧ superviseStep server s op = s) ∨
    ((op.loop = true → s.done = false) ∧
      Moves op s.sup.view (superviseStep server s op).sup.view ∧
      (superviseStep server s op).handled = s.handled ++ op.commands)
  := by
  cases hdone : s.done with
  | false => exact Or.inr ⟨fun _ => rfl, moves_superviseStep server hdone op⟩
  | true =>
      cases hloop : op.loop with
      | true =>
          left
          refine ⟨rfl, rfl, ?_⟩
          cases op <;> first | (rw [superviseStep, hdone]; rfl) | cases hloop
      | false =>
          right
          refine ⟨fun h => (Bool.false_ne_true h).elim, ?_⟩
          have hmove := moves_superviseStep server (s := { s with done := false }) rfl op
          cases op with
          | clock now => exact hmove
          | exit pid status => exact hmove
          | stop pid => exact hmove
          | print pipe bytes => exact hmove
          | nextPid pid => exact hmove
          | adopt =>
              rw [superviseStep] at hmove ⊢
              dsimp only at hmove
              cases hadd : s.sup.kernel.add true <;> rw [hadd] at hmove <;> exact hmove
          | command _ => cases hloop
          | reap => cases hloop
          | reapWorkload => cases hloop
          | pipe _ => cases hloop
          | regions => cases hloop
          | sweep => cases hloop

end Refinement

/-! ### The children of the agent's own -/

/-- The children that the agent has started. -/
def own (children : List Child) : List Child := children.filter fun c => !c.adopted

/-- The workload is the only child of the agent's own, and each end has a report to come. -/
structure Owned (v : Supervisor.View) : Prop where
  distinct : v.kernel.Distinct
  one : (own v.kernel.children).map Child.pid = v.workload.toList.map Prod.fst
  waiting : ∀ c ∈ v.kernel.children, ∀ status, c.state = .ended status → c.unreported = true

/-- A change of the children that an end outlasts, and that leaves a report of each new end. -/
structure Survives (f : Child → Child) : Prop where
  pid : ∀ c, (f c).pid = c.pid
  adopted : ∀ c, (f c).adopted = c.adopted
  ended : ∀ c status, c.state = .ended status → f c = c
  unreported : ∀ c status, (f c).state = .ended status → f c = c ∨ (f c).unreported = true

theorem own_map {f : Child → Child} (hf : Survives f) (children : List Child) :
  own (children.map f) = (own children).map f
  := by
  rw [own, List.filter_map]
  congr 1
  apply List.filter_congr
  intro c _
  simp [hf.adopted c]

theorem survives_signal (pid : Int32) (sig : Signal) :
  Survives fun c => if c.pid = pid then c.signal sig else c
  := by
  constructor
  · intro c
    split
    · exact c.pid_signal sig
    · rfl
  · rintro ⟨cpid, state, unreported, adopted⟩
    split
    · cases sig <;> cases state <;> rfl
    · rfl
  · rintro ⟨cpid, state, unreported, adopted⟩ status hstate
    cases hstate
    split
    · cases sig <;> rfl
    · rfl
  · rintro ⟨cpid, state, unreported, adopted⟩ status
    split
    · cases sig <;> cases state <;> simp [Child.signal]
    · exact fun _ => Or.inl rfl

theorem survives_exit (pid : Int32) (status : ExitStatus) :
  Survives fun c => if c.pid = pid ∧ c.state = .running then
    { c with state := .ended status, unreported := true } else c
  := by
  constructor
  · intro c
    split <;> rfl
  · intro c
    split <;> rfl
  · intro c ended hstate
    rw [if_neg]
    rintro ⟨_, hrunning⟩
    rw [hstate] at hrunning
    cases hrunning
  · intro c ended
    split
    · exact fun _ => Or.inr rfl
    · exact fun _ => Or.inl rfl

section Owned

variable {v : Supervisor.View}

theorem Owned.length_own (h : Owned v) : (own v.kernel.children).length ≤ 1 := by
  have hlen := congrArg List.length h.one
  rw [List.length_map, List.length_map] at hlen
  rw [hlen]
  cases v.workload <;> simp

/-- A child of the agent's own is the workload. -/
theorem Owned.own_iff {c : Child} (h : Owned v) (hc : c ∈ v.kernel.children) :
  c.adopted = false ↔ v.workload.map Prod.fst = some c.pid
  := by
  have hmem : c.adopted = false ↔ c ∈ own v.kernel.children := by
    simp [own, hc]
  have hpids : c.pid ∈ (own v.kernel.children).map Child.pid ↔
      v.workload.map Prod.fst = some c.pid := by
    rw [h.one]
    cases v.workload <;> simp [eq_comm]
  rw [hmem, ← hpids]
  constructor
  · intro hown
    exact List.mem_map_of_mem hown
  · intro hpid
    obtain ⟨d, hd, heq⟩ := List.mem_map.mp hpid
    have hd' : d ∈ v.kernel.children := (List.mem_filter.mp hd).1
    rwa [← List.inj_on_of_nodup_map h.distinct hd' hc heq]

/-- The workload is a child. -/
theorem Owned.child {pid : Int32} {b : Bool} (h : Owned v) (hw : v.workload = some (pid, b)) :
  ∃ c ∈ v.kernel.children, c.pid = pid
  := by
  have hmem : pid ∈ (own v.kernel.children).map Child.pid := by
    rw [h.one, hw]
    simp
  obtain ⟨c, hc, hpid⟩ := List.mem_map.mp hmem
  exact ⟨c, (List.mem_filter.mp hc).1, hpid⟩

/-- Only the kernel and the process of the workload matter. -/
theorem Owned.congr {v' : Supervisor.View} (h : Owned v) (hkernel : v'.kernel = v.kernel)
    (hworkload : v'.workload.map Prod.fst = v.workload.map Prod.fst) :
  Owned v'
  := by
  have hlist : v'.workload.toList.map Prod.fst = v.workload.toList.map Prod.fst := by
    rw [← Option.toList_map, ← Option.toList_map, hworkload]
  refine ⟨?_, ?_, ?_⟩
  · rw [hkernel]
    exact h.distinct
  · rw [hkernel, hlist]
    exact h.one
  · rw [hkernel]
    exact h.waiting

/-- The children change. -/
theorem Owned.change {f : Child → Child} (h : Owned v) (hf : Survives f) :
  Owned { v with kernel := v.kernel.change f }
  := by
  refine ⟨h.distinct.change hf.pid, ?_, ?_⟩
  · rw [← h.one, Kernel.change]
    dsimp only
    rw [own_map hf, List.map_map]
    apply List.map_congr_left
    intro c _
    exact hf.pid c
  · intro c hc status hstate
    obtain ⟨d, hd, rfl⟩ := List.mem_map.mp hc
    rcases hf.unreported d status hstate with hsame | hunreported
    · rw [hsame] at hstate ⊢
      exact h.waiting d hd status hstate
    · exact hunreported

theorem Owned.signal (h : Owned v) (sig : Signal) :
  Owned (v.signal sig)
  := by
  cases hw : v.workload with
  | none =>
      simp only [Supervisor.View.signal, hw]
      exact h
  | some w =>
      simp only [Supervisor.View.signal, hw]
      exact (h.change (survives_signal w.1 sig)).congr rfl (by simp [hw])

/-- A new child, of which nothing is known. -/
theorem Owned.waiting_add {pid : Int32} {kernel : Kernel} {adopted : Bool} (h : Owned v)
    (hadd : v.kernel.add adopted = some (pid, kernel)) :
  ∀ c ∈ kernel.children, ∀ status, c.state = .ended status → c.unreported = true
  := by
  obtain ⟨rfl, _⟩ := Kernel.add_eq_some hadd
  intro c hc status hstate
  rcases List.mem_append.mp hc with hc | hc
  · exact h.waiting c hc status hstate
  · rw [List.mem_singleton.mp hc] at hstate
    cases hstate

/-- A new child that is not the agent's own. -/
theorem Owned.adopt {pid : Int32} {kernel : Kernel} (h : Owned v)
    (hadd : v.kernel.add true = some (pid, kernel)) :
  own kernel.children = own v.kernel.children ∧ Owned { v with kernel }
  := by
  have hown : own kernel.children = own v.kernel.children := by
    obtain ⟨rfl, _⟩ := Kernel.add_eq_some hadd
    simp [own]
  refine ⟨hown, h.distinct.add hadd, ?_, h.waiting_add hadd⟩
  rw [hown]
  exact h.one

/-- The agent starts a child when there is no workload. -/
theorem Owned.started {pid : Int32} {kernel : Kernel} (h : Owned v) (hw : v.workload = none)
    (hfork : v.kernel.fork = some (pid, kernel)) (unit : UInt32) :
  own v.kernel.children = [] ∧ own kernel.children = [⟨pid, .running, false, false⟩] ∧
    Owned (v.started pid kernel unit)
  := by
  have hnone : own v.kernel.children = [] := by
    have hone := h.one
    rw [hw] at hone
    simpa using hone
  have hown : own kernel.children = [⟨pid, .running, false, false⟩] := by
    obtain ⟨rfl, _⟩ := Kernel.add_eq_some hfork
    rw [own, List.filter_append, ← own, hnone]
    rfl
  refine ⟨hnone, hown, h.distinct.add hfork, ?_, h.waiting_add hfork⟩
  rw [Supervisor.View.started]
  dsimp only
  rw [hown]
  rfl

/-- The report of a stop. -/
theorem Owned.stopSeen {front back : List Child} {c : Child} (h : Owned v)
    (hsplit : v.kernel.children = front ++ c :: back) (hstate : c.state = .stopped) :
  Owned (v.stopSeen front c back)
  := by
  have hpids : (own (front ++ { c with unreported := false } :: back)).map Child.pid
      = (own v.kernel.children).map Child.pid := by
    rw [hsplit, own, own, List.filter_append, List.filter_append, List.filter_cons,
      List.filter_cons]
    dsimp only
    split <;> simp
  have hseen : Owned { v with
      kernel := { v.kernel with children := front ++ { c with unreported := false } :: back } } := by
    refine ⟨?_, ?_, ?_⟩
    · have hdistinct := h.distinct
      rw [Kernel.Distinct, hsplit] at hdistinct
      rw [Kernel.Distinct]
      simpa using hdistinct
    · rw [hpids]
      exact h.one
    · intro d hd status hended
      rw [List.mem_append, List.mem_cons] at hd
      rcases hd with hd | rfl | hd
      · exact h.waiting d (by simp [hsplit, hd]) status hended
      · rw [hstate] at hended
        cases hended
      · exact h.waiting d (by simp [hsplit, hd]) status hended
  rw [Supervisor.View.stopSeen]
  split
  next hpid => exact hseen.congr rfl (by simp [hpid])
  next => exact hseen

/-- The report of an end: the workload was the only child of the agent's own, and other children
are not its own. -/
theorem Owned.endSeen {front back : List Child} {c : Child} (h : Owned v)
    (hsplit : v.kernel.children = front ++ c :: back) (status : ExitStatus) :
  (v.workload.map Prod.fst = some c.pid → own v.kernel.children = [c] ∧ own (front ++ back) = []) ∧
    (v.workload.map Prod.fst ≠ some c.pid → own (front ++ back) = own v.kernel.children) ∧
    Owned (v.endSeen front c back status)
  := by
  obtain ⟨_, hdistinct⟩ := h.distinct.of_split hsplit
  have hc : c ∈ v.kernel.children := by simp [hsplit]
  have hwaiting : ∀ d ∈ front ++ back, ∀ status, d.state = .ended status →
      d.unreported = true := by
    intro d hd
    rw [List.mem_append] at hd
    rcases hd with hd | hd
    · exact h.waiting d (by simp [hsplit, hd])
    · exact h.waiting d (by simp [hsplit, hd])
  have hmine : v.workload.map Prod.fst = some c.pid →
      own v.kernel.children = [c] ∧ own (front ++ back) = [] := by
    intro hpid
    have hown : own v.kernel.children = own front ++ c :: own back := by
      rw [hsplit, own, List.filter_append, List.filter_cons, (h.own_iff hc).mpr hpid]
      rfl
    have hlen := h.length_own
    rw [hown, List.length_append, List.length_cons] at hlen
    have hfront : own front = [] := List.length_eq_zero_iff.mp (by omega)
    have hback : own back = [] := List.length_eq_zero_iff.mp (by omega)
    have hrest : own (front ++ back) = own front ++ own back := List.filter_append front back
    rw [hown, hrest, hfront, hback]
    exact ⟨rfl, rfl⟩
  have hother : v.workload.map Prod.fst ≠ some c.pid →
      own (front ++ back) = own v.kernel.children := by
    intro hpid
    have hadopted : c.adopted = true := by
      by_contra hnot
      exact hpid ((h.own_iff hc).mp (by simpa using hnot))
    rw [hsplit, own, own, List.filter_append, List.filter_append, List.filter_cons, hadopted]
    rfl
  refine ⟨hmine, hother, ?_⟩
  rw [Supervisor.View.endSeen]
  split
  next hpid =>
    refine ⟨hdistinct, ?_, hwaiting⟩
    dsimp only
    rw [(hmine hpid).2]
    rfl
  next hpid =>
    refine ⟨hdistinct, ?_, hwaiting⟩
    dsimp only
    rw [hother hpid]
    exact h.one

/-- The status with which `SIGKILL` leaves a child. -/
def statusOfKill (c : Child) : ExitStatus :=
  match c.state with
  | .ended status => status
  | _ => .signaled sigkill

theorem signal_kill_state (c : Child) : (c.signal .kill).state = .ended (statusOfKill c) := by
  obtain ⟨pid, state, unreported, adopted⟩ := c
  cases state <;> rfl

/-- An immediate shutdown takes the report of the workload's end, but tells of a `SIGKILL`. -/
theorem Owned.killed_eq {pid : Int32} {b : Bool} (h : Owned v) (hw : v.workload = some (pid, b)) :
  ∃ d ∈ v.kernel.children, d.pid = pid ∧ ∃ front c back,
    (v.signal .kill).kernel.children = front ++ c :: back ∧ c.pid = pid ∧
      c.state = .ended (statusOfKill d) ∧
      v.killed = { (v.signal .kill).endSeen front c back (statusOfKill d) with
        notices := v.notices ++ [.workloadExited pid.toUInt32 (-1) sigkill] }
  := by
  obtain ⟨d, hd, hdpid⟩ := h.child hw
  refine ⟨d, hd, hdpid, ?_⟩
  have hsignal := h.signal .kill
  have hkernel : (v.signal .kill).kernel = v.kernel.kill pid .kill := by
    simp only [Supervisor.View.signal, hw]
  have hkilled : d.signal .kill ∈ (v.kernel.kill pid .kill).children := by
    apply List.mem_map.mpr
    refine ⟨d, hd, ?_⟩
    rw [if_pos hdpid]
  have hpid : (d.signal .kill).pid = pid := (d.pid_signal .kill).trans hdpid
  have hunreported : (d.signal .kill).unreported = true :=
    hsignal.waiting _ (hkernel ▸ hkilled) _ (signal_kill_state d)
  rcases collect_cases (fun p => p = pid) (v.kernel.kill pid .kill).children with
    ⟨_, hnone⟩ | ⟨front, c, back, hsplit, hwanted, _, hreport⟩
  · have hreport := hnone _ hkilled (by simpa using hpid)
    simp only [Child.report, hunreported, signal_kill_state] at hreport
    cases hreport
  · have hcpid : c.pid = pid := by simpa using hwanted
    have hc : c ∈ (v.kernel.kill pid .kill).children := by simp [hsplit]
    -- process ids are distinct, so the report is that of the killed child
    obtain rfl : c = d.signal .kill :=
      List.inj_on_of_nodup_map (hkernel ▸ hsignal.distinct) hc hkilled (hcpid.trans hpid.symm)
    refine ⟨front, d.signal .kill, back, hkernel ▸ hsplit, hpid, signal_kill_state d, ?_⟩
    rcases hreport with ⟨hstopped, _⟩ | ⟨status, _, hcollect⟩
    · rw [signal_kill_state] at hstopped
      cases hstopped
    · have hw' : (v.signal .kill).workload.map Prod.fst = some (d.signal .kill).pid := by
        simp only [Supervisor.View.signal, hw, Option.map_some, hpid]
      rw [Supervisor.View.endSeen, if_pos hw']
      simp only [Supervisor.View.killed, hw, Kernel.waitpid, hcollect, hkernel]

/-- An immediate shutdown. -/
theorem Owned.killed (h : Owned v) :
  Owned v.killed
  := by
  cases hw : v.workload with
  | none =>
      simp only [Supervisor.View.killed, hw]
      exact h
  | some w =>
      obtain ⟨d, _, _, front, c, back, hsplit, _, _, hkilled⟩ := h.killed_eq hw
      obtain ⟨_, _, hseen⟩ := (h.signal .kill).endSeen hsplit (statusOfKill d)
      rw [hkilled]
      exact hseen.congr rfl rfl

theorem Owned.reaped {v' : Supervisor.View} {front back : List Child} {c : Child} (h : Owned v)
    (hreaped : v.Reaped v' front c back) :
  Owned v'
  := by
  rcases hreaped.effect with ⟨hstate, rfl⟩ | ⟨status, hstate, rfl⟩
  · exact h.stopSeen hreaped.split hstate
  · exact (h.endSeen hreaped.split status).2.2

end Owned

/-! ### Stranded workloads -/

/-- Whether a forced quiesce is outstanding behind a command. -/
def outstandingAfter (outstanding : Bool) : Command → Bool
  | .quiesce _ .forced => true
  | .resume _ => false
  | _ => outstanding

/-- Whether some forced quiesce has no `Resume` behind it. -/
def outstanding (cmds : List Command) : Bool := cmds.foldl outstandingAfter false

/-- The stop of the workload has not been reported. -/
def StopPending {ρ : Type} (s : SuperviseState ρ) : Prop :=
  ∃ w, s.sup.workload = some w ∧ s.sup.kernel.StopUnreported w.pid

/-- The workload is stopped. -/
def WorkloadStopped {ρ : Type} (s : SuperviseState ρ) : Prop :=
  ∃ w, s.sup.workload = some w ∧ s.sup.kernel.Stopped w.pid

/-- The workload is stopped though each forced quiesce was followed by a `Resume`, and no report
is left that could still lead to something. -/
def Stranded {ρ : Type} (s : SuperviseState ρ) : Prop :=
  outstanding s.handled = false ∧ ¬ StopPending s ∧ WorkloadStopped s

/-! ### The invariant -/

/-- Of a kernel, the process of the workload with the flag of a seen stop, and whether a forced
quiesce is outstanding: a stopped workload has a report to come, or its stop was seen and the
quiesce is outstanding. -/
structure Tracks (k : Kernel) (w : Option (Int32 × Bool)) (owed : Bool) : Prop where
  distinct : k.Distinct
  seen : ∀ pid b, w = some (pid, b) → ∀ c ∈ k.children, c.pid = pid → c.state = .stopped →
    c.unreported = true ∨ (b = true ∧ owed = true)

section Steps

variable {k k' : Kernel} {w w' : Option (Int32 × Bool)} {owed owed' : Bool}

/-- Children that are stopped were so before, with the same report. -/
theorem Tracks.mono (h : Tracks k w owed) (hdistinct : k'.Distinct)
    (hchildren : ∀ c ∈ k'.children, c.state = .stopped → c ∈ k.children)
    (howed : owed = true → owed' = true) :
  Tracks k' w owed'
  := by
  refine ⟨hdistinct, ?_⟩
  intro pid b hw c hc hpid hstate
  rcases h.seen pid b hw c (hchildren c hc hstate) hpid hstate with hunreported | ⟨hb, ho⟩
  · exact Or.inl hunreported
  · exact Or.inr ⟨hb, howed ho⟩

/-- What a `SIGSTOP` stops has a report to come. -/
theorem Tracks.stop (h : Tracks k w owed) (pid : Int32) (howed : owed = true → owed' = true) :
  Tracks (k.kill pid .stop) w owed'
  := by
  refine ⟨Kernel.distinct_kill h.distinct pid .stop, ?_⟩
  intro pid' b hw c hc hpid hstate
  obtain ⟨d, hd, rfl⟩ := List.mem_map.mp hc
  by_cases heq : d.pid = pid
  · rw [if_pos heq] at hpid hstate ⊢
    obtain ⟨dpid, dstate, dunreported, dadopted⟩ := d
    cases dstate with
    | running => exact Or.inl rfl
    | stopped =>
        rcases h.seen pid' b hw _ hd hpid rfl with hunreported | ⟨hb, ho⟩
        · exact Or.inl hunreported
        · exact Or.inr ⟨hb, howed ho⟩
    | ended status => cases hstate
  · rw [if_neg heq] at hpid hstate ⊢
    rcases h.seen pid' b hw d hd hpid hstate with hunreported | ⟨hb, ho⟩
    · exact Or.inl hunreported
    · exact Or.inr ⟨hb, howed ho⟩

/-- A `Resume` of a workload whose stop was seen. -/
theorem Tracks.cont (h : Tracks k w owed) (pid : Int32) (b : Bool) (owed' : Bool) :
  Tracks (k.kill pid .cont) (some (pid, b)) owed'
  := by
  refine ⟨Kernel.distinct_kill h.distinct pid .cont, ?_⟩
  intro pid' b' hw c hc hpid hstate
  cases hw
  obtain ⟨d, hd, rfl⟩ := List.mem_map.mp hc
  by_cases heq : d.pid = pid
  · rw [if_pos heq] at hstate
    obtain ⟨dpid, dstate, dunreported, dadopted⟩ := d
    cases dstate <;> cases hstate
  · rw [if_neg heq] at hpid
    exact absurd hpid heq

/-- A `Resume` of a workload whose stop was not seen: a stopped one has a report to come. -/
theorem Tracks.unseen (h : Tracks k w owed) (hw : ∀ pid, w ≠ some (pid, true)) (owed' : Bool) :
  Tracks k w owed'
  := by
  refine ⟨h.distinct, ?_⟩
  intro pid b hpid c hc hcpid hstate
  rcases h.seen pid b hpid c hc hcpid hstate with hunreported | ⟨rfl, _⟩
  · exact Or.inl hunreported
  · exact absurd hpid (hw pid)

/-- Signals that stop nothing. -/
theorem Tracks.kill (h : Tracks k w owed) (pid : Int32) {sig : Signal}
    (hsig : sig = .term ∨ sig = .kill) :
  Tracks (k.kill pid sig) w owed
  := by
  apply h.mono (Kernel.distinct_kill h.distinct pid sig) _ id
  intro c hc hstate
  obtain ⟨d, hd, rfl⟩ := List.mem_map.mp hc
  split at hstate
  next heq =>
    rw [if_pos heq]
    obtain ⟨dpid, dstate, dunreported, dadopted⟩ := d
    rcases hsig with rfl | rfl
    · exact hd
    · cases dstate with
      | running => cases hstate
      | stopped => cases hstate
      | ended status => exact hd
  next hne =>
    rw [if_neg hne]
    exact hd

theorem Tracks.signal {v : Supervisor.View} (h : Tracks v.kernel v.workload owed) {sig : Signal}
    (hsig : sig = .term ∨ sig = .kill) :
  Tracks (v.signal sig).kernel (v.signal sig).workload owed
  := by
  cases hw : v.workload with
  | none =>
      simp only [Supervisor.View.signal, hw]
      rw [hw] at h
      exact h
  | some w =>
      simp only [Supervisor.View.signal, hw]
      rw [hw] at h
      exact h.kill w.1 hsig

theorem Tracks.exit (h : Tracks k w owed) (pid : Int32) (status : ExitStatus) :
  Tracks (k.exit pid status) w owed
  := by
  apply h.mono (Kernel.distinct_exit h.distinct pid status) _ id
  intro c hc hstate
  obtain ⟨d, hd, rfl⟩ := List.mem_map.mp hc
  split at hstate
  · cases hstate
  next hne =>
    rw [if_neg hne]
    exact hd

/-- A new child is not stopped. -/
theorem Tracks.add {pid : Int32} {adopted : Bool} (h : Tracks k w owed)
    (hadd : k.add adopted = some (pid, k')) :
  Tracks k' w owed
  := by
  apply h.mono (h.distinct.add hadd) _ id
  intro c hc hstate
  obtain ⟨rfl, _⟩ := Kernel.add_eq_some hadd
  rw [List.mem_append, List.mem_singleton] at hc
  rcases hc with hc | rfl
  · exact hc
  · cases hstate

theorem Tracks.forget (h : Tracks k w owed) : Tracks k none owed := by
  refine ⟨h.distinct, ?_⟩
  intro pid b hw
  cases hw

/-- A new child becomes the workload. -/
theorem Tracks.start {pid : Int32} (h : Tracks k w owed) (hfork : k.fork = some (pid, k')) :
  Tracks k' (some (pid, false)) owed
  := by
  refine ⟨h.distinct.add hfork, ?_⟩
  intro pid' b hw c hc hpid hstate
  cases hw
  obtain ⟨rfl, hfree⟩ := Kernel.add_eq_some hfork
  rw [List.mem_append, List.mem_singleton] at hc
  rcases hc with hc | rfl
  · exact absurd hpid (hfree c hc)
  · cases hstate

/-- The stop of the workload has not been reported. -/
def StopToCome (k : Kernel) (w : Option (Int32 × Bool)) : Prop :=
  ∃ pid b, w = some (pid, b) ∧ k.StopUnreported pid

/-- The report of a stop is taken: a stop of the workload is noted, and its quiesce must be
outstanding. -/
theorem Tracks.stopSeen {v : Supervisor.View} {front back : List Child} {c : Child}
    (h : Tracks v.kernel v.workload owed) (hpending : StopToCome v.kernel v.workload → owed = true)
    (hsplit : v.kernel.children = front ++ c :: back) (hunreported : c.unreported = true)
    (hstate : c.state = .stopped) :
  Tracks (v.stopSeen front c back).kernel (v.stopSeen front c back).workload owed ∧
    (StopToCome (v.stopSeen front c back).kernel (v.stopSeen front c back).workload → owed = true)
  := by
  have hmem : c ∈ v.kernel.children := by simp [hsplit]
  have hold : ∀ d ∈ front ++ { c with unreported := false } :: back,
      d ∈ v.kernel.children ∨ d = { c with unreported := false } := by
    intro d hd
    rw [List.mem_append, List.mem_cons] at hd
    rw [hsplit, List.mem_append, List.mem_cons]
    rcases hd with hd | rfl | hd
    · exact Or.inl (Or.inl hd)
    · exact Or.inr rfl
    · exact Or.inl (Or.inr (Or.inr hd))
  have hdistinct : ((front ++ { c with unreported := false } :: back).map Child.pid).Nodup := by
    have hnodup := h.distinct
    rw [Kernel.Distinct, hsplit] at hnodup
    simpa using hnodup
  rw [Supervisor.View.stopSeen]
  split
  next hpid =>
    obtain ⟨w, hw, hwpid⟩ := Option.map_eq_some_iff.mp hpid
    have howed : owed = true := hpending ⟨w.1, w.2, hw, c, hmem, hwpid.symm, hstate, hunreported⟩
    refine ⟨⟨hdistinct, ?_⟩, fun _ => howed⟩
    intro pid b heq d hd hdpid hdstate
    cases heq
    exact Or.inr ⟨rfl, howed⟩
  next hpid =>
    refine ⟨⟨hdistinct, ?_⟩, ?_⟩
    · intro pid b hw d hd hdpid hdstate
      rcases hold d hd with hd | rfl
      · exact h.seen pid b hw d hd hdpid hdstate
      · exact absurd (by rw [hw, Option.map_some, ← hdpid]) hpid
    · rintro ⟨pid, b, hw, d, hd, hdpid, hdstate, hdunreported⟩
      rcases hold d hd with hd | rfl
      · exact hpending ⟨pid, b, hw, d, hd, hdpid, hdstate, hdunreported⟩
      · cases hdunreported

/-- The report of an end is taken: an ended workload is forgotten. -/
theorem Tracks.endSeen {v : Supervisor.View} {front back : List Child} {c : Child}
    (h : Tracks v.kernel v.workload owed) (hpending : StopToCome v.kernel v.workload → owed = true)
    (hsplit : v.kernel.children = front ++ c :: back) (status : ExitStatus) :
  Tracks (v.endSeen front c back status).kernel (v.endSeen front c back status).workload owed ∧
    (StopToCome (v.endSeen front c back status).kernel (v.endSeen front c back status).workload →
      owed = true)
  := by
  have hold : ∀ d ∈ front ++ back, d ∈ v.kernel.children := by
    intro d hd
    rw [List.mem_append] at hd
    rw [hsplit, List.mem_append, List.mem_cons]
    rcases hd with hd | hd
    · exact Or.inl hd
    · exact Or.inr (Or.inr hd)
  obtain ⟨_, hdistinct⟩ := h.distinct.of_split hsplit
  rw [Supervisor.View.endSeen]
  split
  · refine ⟨⟨hdistinct, ?_⟩, ?_⟩
    · intro pid b hw
      cases hw
    · rintro ⟨pid, b, hw, _⟩
      cases hw
  · refine ⟨⟨hdistinct, ?_⟩, ?_⟩
    · intro pid b hw d hd hpid hstate
      exact h.seen pid b hw d (hold d hd) hpid hstate
    · rintro ⟨pid, b, hw, d, hd, hd'⟩
      exact hpending ⟨pid, b, hw, d, hold d hd, hd'⟩

/-- A report is taken and handled. -/
theorem Tracks.reaped {v v' : Supervisor.View} {front back : List Child} {c : Child}
    (h : Tracks v.kernel v.workload owed) (hpending : StopToCome v.kernel v.workload → owed = true)
    (hreaped : v.Reaped v' front c back) :
  Tracks v'.kernel v'.workload owed ∧ (StopToCome v'.kernel v'.workload → owed = true)
  := by
  rcases hreaped.effect with ⟨hstate, rfl⟩ | ⟨status, _, rfl⟩
  · exact h.stopSeen hpending hreaped.split hreaped.unreported hstate
  · exact h.endSeen hpending hreaped.split status

/-- A reap, if a forced quiesce is outstanding when it takes the report of a stop. -/
theorem Tracks.reaps {v v' : Supervisor.View} (hreaps : v.Reaps v')
    (h : Tracks v.kernel v.workload owed)
    (hpending : StopToCome v.kernel v.workload → owed = true) :
  Tracks v'.kernel v'.workload owed
  := by
  induction hreaps with
  | done _ => exact h
  | more hreaped _ ih =>
      obtain ⟨htracks, hpending'⟩ := h.reaped hpending hreaped
      exact ih htracks hpending'

end Steps

section Reap

/-- A report of another child leaves a stopped workload alone; one of its own leaves it
stopped. -/
theorem stays_stopped {v v' : Supervisor.View} {front back : List Child} {c d : Child}
    {pid : Int32} {b : Bool} (hdistinct : v.kernel.Distinct) (hreaped : v.Reaped v' front d back)
    (hw : v.workload = some (pid, b)) (hc : c ∈ v.kernel.children) (hpid : c.pid = pid)
    (hstate : c.state = .stopped) :
  v'.kernel.Distinct ∧ (∃ b', v'.workload = some (pid, b')) ∧ v'.kernel.Stopped pid
  := by
  have hfst : v.workload.map Prod.fst = some pid := by rw [hw, Option.map_some]
  obtain ⟨hothers, hnodup⟩ := hdistinct.of_split hreaped.split
  have hmem := hc
  rw [hreaped.split, List.mem_append, List.mem_cons] at hmem
  rcases hreaped.effect with ⟨hdstate, rfl⟩ | ⟨status, hdstate, rfl⟩
  · have hchildren : (v.stopSeen front d back).kernel.children
        = front ++ { d with unreported := false } :: back := by
      rw [Supervisor.View.stopSeen]
      split <;> rfl
    refine ⟨?_, ?_, ?_⟩
    · rw [Kernel.Distinct, hreaped.split] at hdistinct
      rw [Kernel.Distinct, hchildren]
      simpa using hdistinct
    · rw [Supervisor.View.stopSeen]
      split
      next heq =>
        rw [hfst, Option.some.injEq] at heq
        exact ⟨true, by rw [heq]⟩
      next => exact ⟨b, hw⟩
    · rw [Kernel.Stopped, hchildren]
      rcases hmem with hc | rfl | hc
      · exact ⟨c, by simp [hc], hpid, hstate⟩
      · exact ⟨{ c with unreported := false }, by simp, hpid, hstate⟩
      · exact ⟨c, by simp [hc], hpid, hstate⟩
  · -- an ended child is another one, since process ids are distinct
    have hcd : c ∈ front ++ back := by
      rw [List.mem_append]
      rcases hmem with hc | rfl | hc
      · exact Or.inl hc
      · rw [hdstate] at hstate
        cases hstate
      · exact Or.inr hc
    have hne : v.workload.map Prod.fst ≠ some d.pid := by
      rw [hfst, ← hpid]
      intro heq
      exact hothers c hcd (Option.some.inj heq)
    rw [Supervisor.View.endSeen, if_neg hne]
    exact ⟨hnodup, ⟨b, hw⟩, c, hcd, hpid, hstate⟩

/-- A reap leaves a stopped workload stopped, and leaves no report. -/
theorem reaps_stopped {v v' : Supervisor.View} (hreaps : v.Reaps v') {pid : Int32} {b : Bool}
    (hdistinct : v.kernel.Distinct) (hw : v.workload = some (pid, b))
    (hstopped : v.kernel.Stopped pid) :
  (∃ b', v'.workload = some (pid, b')) ∧ v'.kernel.Stopped pid ∧
    ¬ v'.kernel.StopUnreported pid
  := by
  induction hreaps generalizing b with
  | done hnone =>
      refine ⟨⟨b, hw⟩, hstopped, ?_⟩
      rintro ⟨d, hd, _, hstate, hunreported⟩
      have hreport := hnone d hd
      simp only [Child.report, hstate, hunreported] at hreport
      cases hreport
  | more hreaped _ ih =>
      obtain ⟨c, hc, hpid, hstate⟩ := hstopped
      obtain ⟨hdistinct', ⟨b', hw'⟩, hstopped'⟩ :=
        stays_stopped hdistinct hreaped hw hc hpid hstate
      exact ih hdistinct' hw' hstopped'

/-- A reap of the workload leaves a stopped workload stopped, and leaves no report about it. -/
theorem reapsWorkload_stopped {v v' : Supervisor.View} (hreaps : v.ReapsWorkload v') {pid : Int32}
    {b : Bool} {c : Child} (hdistinct : v.kernel.Distinct) (hw : v.workload = some (pid, b))
    (hc : c ∈ v.kernel.children) (hpid : c.pid = pid) (hstate : c.state = .stopped)
    (hunreported : c.unreported = true) :
  (∃ b', v'.workload = some (pid, b')) ∧ v'.kernel.Stopped pid ∧
    ¬ v'.kernel.StopUnreported pid
  := by
  rcases hreaps with ⟨_, hnone⟩ | ⟨front, d, back, hd, hreaped⟩
  · have hreport := hnone pid b hw c hc hpid
    simp only [Child.report, hstate, hunreported] at hreport
    cases hreport
  · obtain ⟨_, hworkload, hstopped⟩ := stays_stopped hdistinct hreaped hw hc hpid hstate
    refine ⟨hworkload, hstopped, ?_⟩
    rw [hw, Option.map_some, Option.some.injEq] at hd
    obtain ⟨hothers, _⟩ := hdistinct.of_split hreaped.split
    rintro ⟨e, he, hepid, _, heunreported⟩
    have hepid' : e.pid = d.pid := hepid.trans hd
    rcases hreaped.effect with ⟨_, rfl⟩ | ⟨status, _, rfl⟩
    · have hchildren : (v.stopSeen front d back).kernel.children
          = front ++ { d with unreported := false } :: back := by
        rw [Supervisor.View.stopSeen]
        split <;> rfl
      rw [hchildren, List.mem_append, List.mem_cons] at he
      rcases he with he | rfl | he
      · exact hothers e (by simp [he]) hepid'
      · cases heunreported
      · exact hothers e (by simp [he]) hepid'
    · have hchildren : (v.endSeen front d back status).kernel.children = front ++ back := by
        rw [Supervisor.View.endSeen]
        split <;> rfl
      rw [hchildren] at he
      exact hothers e he hepid'

theorem distinct_waitpid {k : Kernel} (h : k.Distinct) (wanted : Int32 → Bool) :
  (k.waitpid wanted).2.Distinct
  := by
  rcases collect_cases wanted k.children with
    ⟨hnone, _⟩ | ⟨front, c, back, hsplit, _, _, hreport⟩
  · rw [Kernel.Distinct, Kernel.waitpid, hnone]
    exact h
  · rcases hreport with ⟨_, hcollect⟩ | ⟨_, _, hcollect⟩
    · rw [Kernel.Distinct, hsplit] at h
      rw [Kernel.Distinct, Kernel.waitpid, hcollect]
      simpa using h
    · have hsub : ((front ++ back).map Child.pid).Sublist (k.children.map Child.pid) := by
        rw [hsplit]
        apply List.Sublist.map
        simp
      rw [Kernel.Distinct, Kernel.waitpid, hcollect]
      exact hsub.nodup h

/-- A command that is handled. -/
theorem Tracks.handles {v v' : Supervisor.View} {owed : Bool} {cmd : Command}
    (hhandles : Supervisor.View.Handles cmd v v') (h : Tracks v.kernel v.workload owed) :
  Tracks v'.kernel v'.workload (outstandingAfter owed cmd)
  := by
  cases cmd with
  | startWorkload unit logMask =>
      rcases hhandles with rfl | ⟨pid, kernel, _, hfork, rfl⟩
      · exact h
      · exact h.start hfork
  | quiesce token mode =>
      cases mode with
      | coop =>
          obtain rfl : v' = v := hhandles
          exact h
      | forced =>
          obtain rfl : v' = v.forced token := hhandles
          cases hw : v.workload with
          | none =>
              rw [hw] at h
              simp only [Supervisor.View.forced, hw]
              exact h.mono h.distinct (fun c hc _ => hc) (fun _ => rfl)
          | some w =>
              rw [hw] at h
              simp only [Supervisor.View.forced, Supervisor.View.signal, hw]
              exact h.stop w.1 fun _ => rfl
  | resume token =>
      obtain rfl : v' = v.resumed := hhandles
      cases hw : v.workload with
      | none =>
          simp only [Supervisor.View.resumed, hw]
          rw [hw] at h
          exact h.unseen (by simp) _
      | some w =>
          obtain ⟨pid, stopped⟩ := w
          rw [hw] at h
          cases stopped with
          | false =>
              simp only [Supervisor.View.resumed, hw]
              exact h.unseen (by simp) _
          | true =>
              simp only [Supervisor.View.resumed, Supervisor.View.signal, hw]
              exact h.cont pid false _
  | shutdown mode =>
      cases mode with
      | graceful =>
          obtain rfl : v' = v.signal .term := hhandles
          exact h.signal (Or.inl rfl)
      | immediate =>
          obtain rfl : v' = v.killed := hhandles
          cases hw : v.workload with
          | none =>
              rw [hw] at h
              simp only [Supervisor.View.killed, hw]
              exact h
          | some w =>
              simp only [Supervisor.View.killed, hw]
              refine ⟨?_, by simp⟩
              exact distinct_waitpid (Kernel.distinct_kill h.distinct w.1 .kill) _
  | setLogMask mask =>
      obtain rfl : v' = v := hhandles
      exact h
  | reverifyRegions =>
      obtain rfl : v' = v := hhandles
      exact h

end Reap

/-! ### Every run -/

section Runs

variable {ρ : Type} (server : RegionServer ρ)

theorem view_workload {s : Supervisor ρ} {pid : Int32} {b : Bool} :
  s.view.workload = some (pid, b) ↔ ∃ w, s.workload = some w ∧ w.pid = pid ∧ w.stopped = b
  := by
  rw [Supervisor.view, Option.map_eq_some_iff]
  simp

theorem stopPending_iff {s : SuperviseState ρ} :
  StopPending s ↔ StopToCome s.sup.view.kernel s.sup.view.workload
  := by
  constructor
  · rintro ⟨w, hw, hstop⟩
    exact ⟨w.pid, w.stopped, by simp [Supervisor.view, hw], hstop⟩
  · rintro ⟨pid, b, hview, hstop⟩
    obtain ⟨w, hw, heq⟩ := Option.map_eq_some_iff.mp hview
    cases heq
    exact ⟨w, hw, hstop⟩

/-- The invariant of a state of the supervise loop. -/
def SuperviseInv (s : SuperviseState ρ) : Prop :=
  Tracks s.sup.view.kernel s.sup.view.workload (outstanding s.handled)

/-- A reap that takes the report of a stop finds a forced quiesce outstanding. -/
def InTime (s : SuperviseState ρ) (op : SuperviseOp) : Prop :=
  op = .reap ∨ op = .reapWorkload → s.done = false → StopPending s → outstanding s.handled = true

theorem SuperviseInv.not_stranded {s : SuperviseState ρ} (h : SuperviseInv s) : ¬ Stranded s := by
  rintro ⟨howed, hpending, w, hw, c, hc, hpid, hstate⟩
  have hview : s.sup.view.workload = some (w.pid, w.stopped) := by simp [Supervisor.view, hw]
  rcases h.seen _ _ hview c hc hpid hstate with hunreported | ⟨_, howed'⟩
  · exact hpending ⟨w, hw, c, hc, hpid, hstate, hunreported⟩
  · rw [howed] at howed'
    cases howed'

/-- Every operation keeps the invariant if reaps are in time. -/
theorem SuperviseInv.step {s : SuperviseState ρ} (h : SuperviseInv s) {op : SuperviseOp}
    (hop : InTime s op) :
  SuperviseInv (superviseStep server s op)
  := by
  rcases superviseStep_cases server s op with ⟨_, _, hsame⟩ | ⟨hdone, hmoves, hhandled⟩
  · rw [hsame]
    exact h
  · rw [SuperviseInv, hhandled]
    cases op with
    | command cmd =>
        rw [SuperviseOp.commands, outstanding, List.foldl_append]
        exact Tracks.handles hmoves h
    | reap =>
        simp only [SuperviseOp.commands, List.append_nil]
        apply Tracks.reaps hmoves h
        intro hpending
        exact hop (Or.inl rfl) (hdone rfl) (stopPending_iff.mpr hpending)
    | reapWorkload =>
        simp only [SuperviseOp.commands, List.append_nil]
        rcases hmoves with ⟨hsame, _⟩ | ⟨front, c, back, _, hreaped⟩
        · rw [hsame]
          exact h
        · refine (Tracks.reaped h ?_ hreaped).1
          intro hpending
          exact hop (Or.inr rfl) (hdone rfl) (stopPending_iff.mpr hpending)
    | sweep =>
        simp only [SuperviseOp.commands, List.append_nil]
        rcases hmoves with hsame | hkill
        · rw [hsame]
          exact h
        · rw [hkill]
          exact Tracks.signal h (Or.inr rfl)
    | adopt =>
        simp only [SuperviseOp.commands, List.append_nil]
        rcases hmoves with hsame | ⟨pid, kernel, hadd, hsame⟩
        · rw [hsame]
          exact h
        · rw [hsame]
          exact Tracks.add h hadd
    | exit pid status =>
        simp only [SuperviseOp.commands, List.append_nil]
        exact Tracks.exit h pid status
    | stop pid =>
        simp only [SuperviseOp.commands, List.append_nil]
        exact Tracks.stop h pid id
    | nextPid pid =>
        simp only [SuperviseOp.commands, List.append_nil]
        exact ⟨h.distinct, h.seen⟩
    | pipe pipe | regions | clock now | print pipe bytes =>
        simp only [SuperviseOp.commands, List.append_nil]
        simp only [Moves] at hmoves
        rw [hmoves]
        exact h

/-- A reap that takes the report of a stop too late strands the workload. -/
theorem stranded_of_late_reap {s : SuperviseState ρ} {op : SuperviseOp} (h : SuperviseInv s)
    (hlate : ¬ InTime s op) :
  Stranded (superviseStep server s op)
  := by
  rw [InTime] at hlate
  push Not at hlate
  obtain ⟨hop, hdone, ⟨w, hw, c, hc, hpid, hstate, hunreported⟩, howed⟩ := hlate
  have hview : s.sup.view.workload = some (w.pid, w.stopped) := by simp [Supervisor.view, hw]
  obtain ⟨hmoves, hhandled⟩ := moves_superviseStep server hdone op
  have hreap : (∃ b, (superviseStep server s op).sup.view.workload = some (w.pid, b)) ∧
      (superviseStep server s op).sup.view.kernel.Stopped w.pid ∧
      ¬ (superviseStep server s op).sup.view.kernel.StopUnreported w.pid := by
    rcases hop with rfl | rfl
    · exact reaps_stopped hmoves h.distinct hview ⟨c, hc, hpid, hstate⟩
    · exact reapsWorkload_stopped hmoves h.distinct hview hc hpid hstate hunreported
  have hcommands : op.commands = [] := by
    rcases hop with rfl | rfl <;> rfl
  obtain ⟨⟨b, hview'⟩, hstopped, hreported⟩ := hreap
  obtain ⟨w', hw', heq⟩ := Option.map_eq_some_iff.mp hview'
  have hpid' : w'.pid = w.pid := congrArg Prod.fst heq
  refine ⟨?_, ?_, w', hw', hpid' ▸ hstopped⟩
  · rw [hhandled, hcommands, List.append_nil]
    simpa using howed
  · rintro ⟨w'', hw'', hstop⟩
    rw [hw'] at hw''
    cases hw''
    exact hreported (hpid' ▸ hstop)

/-- **Forced quiesce.**  In every run of the supervise loop from a fresh supervisor, no state
strands the workload exactly when each reap that takes the report of a stop of the workload comes
while a forced quiesce is outstanding, so that the `Resume` that continues the workload is still
to come. -/
theorem forced_quiesce_resumes (units : List BootUnit) (pid : Int32) (regionIpc : Option ρ)
    (now : UInt64) (ops : List SuperviseOp) :
  let start : SuperviseState ρ := ⟨.new units ⟨[], pid, []⟩ regionIpc now, [], false⟩
  (∀ front, front <+: ops → ¬ Stranded (supervise server start front)) ↔
    ∀ front op, front ++ [op] <+: ops → InTime (supervise server start front) op
  := by
  intro start
  have hstart : SuperviseInv start := by
    refine ⟨List.nodup_nil, ?_⟩
    intro pid b hw
    cases hw
  refine Machine.always_iff (G := fun s => ¬ Stranded s) (C := InTime) hstart ?_ ?_ ?_ ops
  · intro s hinv
    exact hinv.not_stranded
  · intro s op hinv hintime
    exact hinv.step server hintime
  · intro s op hinv hlate hgood
    exact hgood (stranded_of_late_reap server hinv hlate)

end Runs

/-- A server without regions. -/
def noRegions : RegionServer Unit where
  reverify r now := (r, now, [])
  service r _ now := (r, now, [], none)
  reverify_quiet := by simp
  service_quiet := by simp

/-- A `Resume` that is handled before the reap of the stop. -/
def lateReapOps : List SuperviseOp :=
  [.command (.startWorkload 0 31), .command (.quiesce 7 .forced), .command (.resume 7), .reap]

/-- The workload stays stopped: the reap comes when nothing is outstanding any more. -/
theorem late_reap_strands :
  Stranded (supervise noRegions
    ⟨.new [⟨0, 31⟩] ⟨[], 100, []⟩ none 0, [], false⟩ lateReapOps)
  := by
  have hw : (supervise noRegions
      ⟨.new [⟨0, 31⟩] ⟨[], 100, []⟩ none 0, [], false⟩ lateReapOps).sup.workload
      = some ⟨100, 0, [], [], true⟩ := by
    decide +kernel
  have hchildren : (supervise noRegions
      ⟨.new [⟨0, 31⟩] ⟨[], 100, []⟩ none 0, [], false⟩ lateReapOps).sup.kernel.children
      = [⟨100, .stopped, false, false⟩] := by
    decide +kernel
  refine ⟨by decide +kernel, ?_, ⟨_, hw, ?_⟩⟩
  · rintro ⟨w, _, c, hc, _, _, hunreported⟩
    rw [hchildren, List.mem_singleton] at hc
    subst hc
    cases hunreported
  · rw [Kernel.Stopped, hchildren]
    exact ⟨_, List.mem_singleton_self _, rfl, rfl⟩

end Protocol
