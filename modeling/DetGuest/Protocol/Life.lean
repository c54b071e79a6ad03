import DetGuest.Agent.Emit
import DetGuest.Agent.Runtime
import DetGuest.Protocol.Ready
import DetGuest.Protocol.Server
import DetGuest.Protocol.Supervision

/-!
# The life of the agent

The agent starts, boots and supervises its workload, until it powers the machine off.  What it hands
to ring A in a life has a fixed form: a greeting, the boot, `Ready` once, and what happens behind it;
a life that ends in a fault behind the greeting ends in a line that says why.  On a full ring that
line may be dropped, but neither the greeting nor `Ready` is.
-/

namespace Protocol

open Wire Agent Agent.Runtime

variable {ρ ε α : Type}

/-! ### The loop -/

/-- How far the agent has come. -/
inductive Stage where
  /-- Off, and only the serial console was told why. -/
  | dark (msg : Text)
  /-- Waiting at boot. -/
  | booting
  /-- Off, behind a boot fault. -/
  | faulted (detail : Text)
  /-- Panicked at boot. -/
  | crashed
  /-- Supervising the workload. -/
  | supervising
  /-- Off, behind the loop, which may have failed. -/
  | ended (failure : Option Text)
  /-- Panicked in the loop. -/
  | aborted
  deriving DecidableEq, Repr

/-- Whether an operation ends the loop. -/
def verdict (server : RegionServer ρ) (s : Supervisor ρ) : SuperviseOp → Res SuperviseError Bool
  | .command cmd => ((Supervisor.handle server cmd).run s).2
  | .reap => ((Supervisor.reap : Exec _ SuperviseError Unit).run s).2.bind fun _ => .ok false
  | .reapWorkload =>
      ((Supervisor.reapWorkload : Exec _ SuperviseError Unit).run s).2.bind fun _ => .ok false
  | .pipe pipe =>
      ((Supervisor.drainPipe pipe : Exec _ SuperviseError Unit).run s).2.bind fun _ => .ok false
  | .regions => ((Supervisor.serviceRegionIpc server).run s).2.bind fun _ => .ok false
  | .sweep => ((Supervisor.sweepShutdown : Exec _ SuperviseError Bool).run s).2
  | _ => .ok false

/-- The loop has failed: a line is handed to ring A, and the machine is off. -/
def superviseFailed (e : Text) (s : Supervisor ρ) : Supervisor ρ × Stage :=
  let detail := "supervise loop failed: ".toList ++ e
  (((report detail : Exec _ Empty Unit).run s).1, .ended (some detail))

/-- The supervise loop, until an operation ends it.  A poll of ring C may fail instead. -/
def superviseLoop (server : RegionServer ρ) (shown : SuperviseError → Text) :
    List (Except Text SuperviseOp) → Supervisor ρ → Supervisor ρ × Stage
  | [], s => (s, .supervising)
  | .error e :: _, s => superviseFailed e s
  | .ok op :: ops, s =>
      let next := (superviseStep server ⟨s, [], false⟩ op).sup
      match verdict server s op with
      | .ok false => superviseLoop server shown ops next
      | .ok true => (next, .ended none)
      | .err e => superviseFailed (shown e) next
      | .panic => (next, .aborted)

/-- An operation behind which the loop goes on is a step of the supervisor. -/
theorem superviseStep_of_verdict {server : RegionServer ρ} {s : Supervisor ρ} {op : SuperviseOp}
    (h : verdict server s op = .ok false) (handled : List Command) :
  ∃ handled', superviseStep server ⟨s, handled, false⟩ op
    = ⟨(superviseStep server ⟨s, [], false⟩ op).sup, handled', false⟩
  := by
  cases op with
  | command cmd =>
      have hdone : ((Supervisor.handle server cmd).run s).2 = .ok false := h
      exact ⟨handled ++ [cmd], by simp [superviseStep, hdone]⟩
  | regions =>
      have hserved : ((Supervisor.serviceRegionIpc server).run s).2 = .ok () := by
        rw [verdict] at h
        rcases hres : ((Supervisor.serviceRegionIpc server).run s).2 with _ | e | _
        · rfl
        · rw [hres] at h
          cases h
        · rw [hres] at h
          cases h
      exact ⟨handled, by simp [superviseStep, hserved]⟩
  | sweep =>
      have hswept : ((Supervisor.sweepShutdown : Exec _ SuperviseError Bool).run s).2
          = .ok false := h
      exact ⟨handled, by simp [superviseStep, hswept]⟩
  | adopt =>
      refine ⟨handled, ?_⟩
      rw [superviseStep, superviseStep]
      cases s.kernel.add true <;> rfl
  | _ => exact ⟨handled, rfl⟩

/-- A loop that goes on has come where the supervisor comes by its operations. -/
theorem supervise_of_superviseLoop {server : RegionServer ρ} {shown : SuperviseError → Text}
    {ops : List SuperviseOp} {s t : Supervisor ρ} (handled : List Command)
    (h : superviseLoop server shown (ops.map .ok) s = (t, .supervising)) :
  ∃ handled', supervise server ⟨s, handled, false⟩ ops = ⟨t, handled', false⟩
  := by
  induction ops generalizing s handled with
  | nil =>
      obtain ⟨rfl, _⟩ := Prod.mk.inj h
      exact ⟨handled, rfl⟩
  | cons op ops ih =>
      rw [List.map_cons, superviseLoop] at h
      rcases hverdict : verdict server s op with stop | e | _ <;> rw [hverdict] at h
      · cases stop with
        | false =>
            obtain ⟨handled', hstep⟩ := superviseStep_of_verdict hverdict handled
            rw [supervise, List.foldl_cons, hstep]
            exact ih handled' h
        | true => cases h
      · cases h
      · cases h

/-! ### A life -/

/-- The texts of errors. -/
structure Texts where
  debug : Tiny.Debug
  supervise : SuperviseError → Text
  boot : BootError → Text

/-- A boot fault: a line is handed to ring A, and the machine is off. -/
def bootFault (detail : Text) (s : Supervisor ρ) : Supervisor ρ × Stage :=
  (((report detail : Exec _ Empty Unit).run s).1, .faulted detail)

/-- The agent behind its boot manifest: the region server is bound, and the agent boots and then
supervises. -/
def runBoot {server : BootServer ρ} (texts : Texts) (start : Start) (regions : ρ)
    (ops : List (Except Text SuperviseOp)) (boot : Boot.BootManifest) (s : BootState server) :
    Supervisor ρ × Stage :=
  match start.bind with
  | .error e => bootFault ("bind agent.sock: ".toList ++ e) s.sup
  | .ok () =>
      match (Autostart.autostartAndReady boot).run
        { s with sup := { s.sup with
            units := boot.units.map bootUnit
            regionIpc := some regions } } with
      | (t, .ok ()) => superviseLoop server.toRegionServer texts.supervise ops t.sup
      | (t, .err .waiting) => (t.sup, .booting)
      | (t, .err e) => bootFault (texts.boot e) t.sup
      | (t, .panic) => (t.sup, .crashed)

/-- The whole run of the agent. -/
def run {server : BootServer ρ} (dbg : Bool) (texts : Texts) (start : Start) (regions : ρ)
    (ops : List (Except Text SuperviseOp)) (s : BootState server) : Supervisor ρ × Stage :=
  match start.mountAll with
  | .error e => (s.sup, .dark ("mount failed: ".toList ++ e))
  | .ok () =>
      match bringUpChannel start with
      | .error e => (s.sup, .dark ("channel bring-up failed: ".toList ++ e))
      | .ok () =>
          let greeted : BootState server := { s with
            sup := ((Supervisor.emitEvent true hello : Exec _ Empty Unit).run s.sup).1 }
          match bootManifest dbg texts.debug start with
          | .err detail => bootFault detail greeted.sup
          | .panic => (greeted.sup, .crashed)
          | .ok boot =>
              match start.supervisor with
              | .error e => (greeted.sup, .dark ("supervisor setup failed: ".toList ++ e))
              | .ok () => runBoot texts start regions ops boot greeted

/-! ### What the loop tells -/

/-- The supervisor tells neither `Hello` nor `Ready`. -/
def Hushed (s t : Supervisor ρ) : Prop :=
  ∃ es, t.emitted = s.emitted ++ es ∧ ∀ e ∈ es, heralds e.ev = false

instance : IsPreorder (Supervisor ρ) Hushed where
  refl s := ⟨[], (List.append_nil _).symm, fun _ h => nomatch h⟩
  trans := by
    rintro s t u ⟨es, hes, hall⟩ ⟨es', hes', hall'⟩
    refine ⟨es ++ es', by rw [hes', hes, List.append_assoc], ?_⟩
    intro e he
    rcases List.mem_append.mp he with h | h
    · exact hall e h
    · exact hall' e h

section Hushed

open Supervisor

theorem Passes.hushed {s t : Supervisor ρ} (h : Passes s t) :
  Hushed s t
  := by
  obtain ⟨es, hes, hmarks⟩ := h.told
  exact ⟨es, hes, fun e he => not_heralds_of fun hmark => (hmarks e he hmark).1⟩

theorem hushed_of_wakes {x : Exec (Supervisor ρ) ε α} (h : Exec.Relates Wakes x) :
  Exec.Relates Hushed x
  := h.mono fun _ _ hwakes => hwakes.1.hushed

theorem hushed_of_eq {s t : Supervisor ρ} (h : t.emitted = s.emitted) :
  Hushed s t
  := ⟨[], by rw [h, List.append_nil], fun _ h => nomatch h⟩

theorem hushed_modify {g : Supervisor ρ → Supervisor ρ} (h : ∀ s, (g s).emitted = s.emitted) :
  Exec.Relates Hushed (Exec.modify g : Exec (Supervisor ρ) ε Unit)
  := Exec.relates_modify fun s => hushed_of_eq (h s)

theorem hushed_emitEvent (doorbell : Bool) {ev : EventPayload} (hev : heralds ev = false) :
  Exec.Relates Hushed (emitEvent doorbell ev : Exec (Supervisor ρ) ε Unit)
  := by
  intro s
  refine ⟨[⟨s.vnanos, 0, ev, doorbell⟩], rfl, ?_⟩
  intro e he
  rw [List.mem_singleton.mp he]
  exact hev

theorem hushed_kill (pid : Int32) (sig : Signal) :
  Exec.Relates Hushed (kill pid sig : Exec (Supervisor ρ) ε Unit)
  := hushed_modify fun _ => rfl

theorem hushed_waitpid (wanted : Int32 → Bool) :
  Exec.Relates Hushed (waitpid wanted : Exec (Supervisor ρ) ε _)
  := fun _ => hushed_of_eq rfl

theorem hushed_relay (rec : WorkloadCtrl) :
  Exec.Relates Hushed (relay rec : Exec (Supervisor ρ) ε Unit)
  := fun _ => hushed_of_eq rfl

theorem hushed_reap :
  Exec.Relates Hushed (reap : Exec (Supervisor ρ) ε Unit)
  := by
  have hrounds : ∀ fuel, Exec.Relates Hushed (reapRounds fuel : Exec (Supervisor ρ) ε Unit) := by
    intro fuel
    induction fuel with
    | zero => exact Exec.relates_pure _
    | succ fuel ih =>
        apply (hushed_waitpid _).bind
        rintro (_ | ⟨pid, status⟩)
        · exact Exec.relates_pure _
        · refine Exec.relates_get.bind fun s => Exec.Relates.ite ?_ ih
          exact (hushed_of_wakes (wakes_handleChildStatus pid status)).bind fun _ => ih
  exact Exec.relates_get.bind fun s => hrounds _

theorem hushed_startUnit (unit : UInt32) :
  Exec.Relates Hushed (startUnit unit : Exec (Supervisor ρ) SuperviseError Unit)
  := by
  intro s
  rcases run_startUnit unit s with ⟨t, e, hrun, hemitted⟩ | ⟨t, pid, hrun, hrest⟩
  · rw [hrun]
    exact hushed_of_eq hemitted
  · rw [hrun]
    refine ⟨_, hrest.2, ?_⟩
    intro e he
    rw [List.mem_singleton.mp he]
    rfl

theorem hushed_startWorkload (unit logMask : UInt32) :
  Exec.Relates Hushed (startWorkload unit logMask : Exec (Supervisor ρ) SuperviseError Unit)
  := by
  intro s
  have hstart := hushed_startUnit unit s
  rw [startWorkload]
  dsimp only
  rcases hrun : (startUnit unit).run s with ⟨t, ⟨⟩ | e | _⟩ <;> rw [hrun] at hstart
  · exact trans_of Hushed hstart (hushed_of_eq rfl)
  · cases e with
    | alreadyExists => exact trans_of Hushed hstart (hushed_emitEvent _ rfl t)
    | notFound => exact hstart
    | os errno => exact hstart
  · exact hstart

theorem hushed_forcedQuiesce (token : UInt64) :
  Exec.Relates Hushed (forcedQuiesce token : Exec (Supervisor ρ) ε Unit)
  := by
  refine Exec.Relates.bind (hushed_modify fun _ => rfl) fun _ => Exec.relates_get.bind fun s => ?_
  cases s.workload with
  | none => exact hushed_emitEvent _ rfl
  | some w => exact hushed_kill _ _

theorem hushed_forcedResume :
  Exec.Relates Hushed (forcedResume : Exec (Supervisor ρ) ε Unit)
  := by
  refine Exec.relates_get.bind fun s => ?_
  cases s.workload with
  | none => exact Exec.relates_pure _
  | some w =>
      refine Exec.Relates.ite ?_ (Exec.relates_pure _)
      exact (hushed_kill _ _).bind fun _ => hushed_modify fun _ => rfl

theorem hushed_beginGracefulShutdown :
  Exec.Relates Hushed (beginGracefulShutdown : Exec (Supervisor ρ) ε Unit)
  := by
  refine Exec.relates_get.bind fun s => ?_
  cases s.workload with
  | none => exact hushed_modify fun _ => rfl
  | some w => exact (hushed_kill _ _).bind fun _ => hushed_modify fun _ => rfl

theorem hushed_immediateShutdown :
  Exec.Relates Hushed (immediateShutdown : Exec (Supervisor ρ) ε Unit)
  := by
  refine Exec.Relates.bind (hushed_modify fun _ => rfl) fun _ => ?_
  intro s
  rw [Exec.run_bind_of_ok (Exec.run_get s)]
  cases s.workload with
  | none => exact refl s
  | some w =>
      dsimp only
      rw [Exec.run_bind_of_ok (Exec.run_set _ _)]
      have hend : Exec.Relates Hushed (do
          kill w.pid .kill
          let _ ← waitpid fun pid => pid = w.pid
          emitEvent true (.workloadExited w.pid.toUInt32 (-1) sigkill) :
          Exec (Supervisor ρ) ε Unit) :=
        (hushed_kill _ _).bind fun _ => (hushed_waitpid _).bind fun _ => hushed_emitEvent _ rfl
      exact trans_of Hushed (hushed_of_eq rfl) (hend _)

variable {τ : Type}

/-- A sweep over the regions tells about the regions only. -/
theorem hushed_reverifyRegions (f : Translator τ) :
  Exec.Relates Hushed
    (reverifyRegions (Regions.bootServer f).toRegionServer : Exec (Supervisor _) ε Unit)
  := by
  intro s
  rw [reverifyRegions, Exec.run_bind_of_ok (Exec.run_get s)]
  cases s.regionIpc with
  | none => exact refl s
  | some ipc =>
      refine ⟨_, rfl, ?_⟩
      intro e he
      simpa using Regions.Served.emits_sweep (p := fun ev => !heralds ev) (fun _ => rfl)
        (fun _ => rfl) ipc s.vnanos e he

theorem hushed_serviceRegionIpc (server : BootServer ρ) :
  Exec.Relates Hushed (serviceRegionIpc server.toRegionServer)
  := fun s => (passes_serviceRegionIpc server s).1.hushed

theorem hushed_handle (f : Translator τ) (cmd : Command) :
  Exec.Relates Hushed (Supervisor.handle (Regions.bootServer f).toRegionServer cmd)
  := by
  cases cmd with
  | startWorkload unit logMask =>
      exact (hushed_startWorkload unit logMask).bind fun _ => Exec.relates_pure _
  | quiesce token mode =>
      cases mode with
      | coop => exact (hushed_relay _).bind fun _ => Exec.relates_pure _
      | forced => exact (hushed_forcedQuiesce token).bind fun _ => Exec.relates_pure _
  | resume token =>
      exact hushed_forcedResume.bind fun _ => (hushed_relay _).bind fun _ => Exec.relates_pure _
  | shutdown mode =>
      cases mode with
      | graceful => exact hushed_beginGracefulShutdown.bind fun _ => Exec.relates_pure _
      | immediate => exact hushed_immediateShutdown.bind fun _ => Exec.relates_pure _
  | setLogMask mask =>
      refine Exec.Relates.bind (hushed_modify ?_) fun _ => Exec.relates_pure _
      exact fun _ => rfl
  | reverifyRegions => exact (hushed_reverifyRegions f).bind fun _ => Exec.relates_pure _

theorem hushed_sweepShutdown :
  Exec.Relates Hushed (sweepShutdown : Exec (Supervisor ρ) ε Bool)
  := by
  refine Exec.relates_get.bind fun s => ?_
  cases s.shutdown with
  | none => exact Exec.relates_pure _
  | some deadline =>
      cases s.workload with
      | none => exact Exec.relates_pure _
      | some w =>
          refine Exec.Relates.ite ?_ (Exec.relates_pure _)
          exact (hushed_kill _ _).bind fun _ => Exec.relates_pure _

/-- An operation of the loop tells neither `Hello` nor `Ready`. -/
theorem hushed_superviseStep (f : Translator τ) (op : SuperviseOp) (s : Supervisor _) :
  Hushed s (superviseStep (Regions.bootServer f).toRegionServer ⟨s, [], false⟩ op).sup
  := by
  cases op with
  | command cmd => exact hushed_handle f cmd s
  | reap => exact hushed_reap s
  | reapWorkload => exact hushed_of_wakes wakes_reapWorkload s
  | pipe pipe => exact hushed_of_wakes (wakes_drainPipe pipe) s
  | regions => exact hushed_serviceRegionIpc (Regions.bootServer f) s
  | sweep => exact hushed_sweepShutdown s
  | clock now => exact hushed_of_eq rfl
  | exit pid status => exact hushed_of_eq rfl
  | stop pid => exact hushed_of_eq rfl
  | print pipe bytes => exact hushed_of_eq rfl
  | nextPid pid => exact hushed_of_eq rfl
  | adopt =>
      rw [superviseStep]
      split
      · exact refl s
      · exact hushed_of_eq rfl

end Hushed

/-! ### What a life tells -/

section Trace

variable {s₀ : List Emission} {s t : Supervisor ρ} {P Q : List (EventPayload × Bool) → Prop}
  {es after : List (EventPayload × Bool)}

/-- A line that says why the agent is off. -/
def farewell (detail : Text) : EventPayload × Bool :=
  (.logLine agentStream 0 (asBytes detail), true)

/-- Neither `Hello` nor `Ready`. -/
def Hush (es : List (EventPayload × Bool)) : Prop := ∀ c ∈ es, heralds c.1 = false

/-- Something, and then a line that says why the agent is off. -/
def Parts (P : List (EventPayload × Bool) → Prop) (detail : Text)
    (es : List (EventPayload × Bool)) : Prop :=
  ∃ before, es = before ++ [farewell detail] ∧ P before

/-- The greeting, and the boot behind it. -/
def Greeted (es : List (EventPayload × Bool)) : Prop :=
  ∃ boot, es = (hello, true) :: boot ∧ Hush boot

/-- The greeting, the boot, `Ready`, and what comes behind it. -/
def Readied (es : List (EventPayload × Bool)) : Prop :=
  ∃ boot ready after, es = (hello, true) :: (boot ++ (ready, true) :: after) ∧
    isReady ready = true ∧ Hush boot ∧ Hush after

/-- What was handed to ring A in a life that has come to a stage. -/
def Trace : Stage → List (EventPayload × Bool) → Prop
  | .dark _ => fun es => es = [] ∨ es = [(hello, true)]
  | .booting => Greeted
  | .crashed => Greeted
  | .faulted detail => Parts Greeted detail
  | .supervising => Readied
  | .aborted => Readied
  | .ended none => Readied
  | .ended (some detail) => Parts Readied detail

/-- What lands on ring A in a life that has come to a stage: the line that says why the agent is off
may have been dropped. -/
def Arrives : Stage → List (EventPayload × Bool) → Prop
  | .faulted detail => fun es => Parts Greeted detail es ∨ Greeted es
  | .ended (some detail) => fun es => Parts Readied detail es ∨ Readied es
  | stage => Trace stage

/-- The supervisor has handed something to ring A behind what was there before, and it has a
property. -/
def Tells (s₀ : List Emission) (P : List (EventPayload × Bool) → Prop) (s : Supervisor ρ) : Prop :=
  ∃ es, s.emitted = s₀ ++ es ∧ P (es.map told)

theorem hush_nil :
  Hush []
  := fun _ h => nomatch h

theorem Hush.append (h : Hush es) (h' : Hush after) :
  Hush (es ++ after)
  := fun c hc => (List.mem_append.mp hc).elim (h c) (h' c)

theorem hush_told {es : List Emission} (h : ∀ e ∈ es, heralds e.ev = false) :
  Hush (es.map told)
  := List.forall_mem_map.mpr h

theorem Greeted.append (h : Greeted es) (hafter : Hush after) :
  Greeted (es ++ after)
  := by
  obtain ⟨boot, rfl, hboot⟩ := h
  exact ⟨boot ++ after, rfl, hboot.append hafter⟩

/-- Behind the greeting the guest is announced as ready. -/
theorem Greeted.ready {ready : EventPayload} (h : Greeted es) (hafter : Hush after)
    (hready : isReady ready = true) :
  Readied (es ++ (after ++ [(ready, true)]))
  := by
  obtain ⟨boot, rfl, hboot⟩ := h
  refine ⟨boot ++ after, ready, [], ?_, hready, hboot.append hafter, hush_nil⟩
  rw [List.cons_append, List.append_assoc]

/-- What is told behind `Ready` leaves it told once. -/
theorem Readied.append (h : Readied es) (hafter : Hush after) :
  Readied (es ++ after)
  := by
  obtain ⟨boot, ready, rest, rfl, hready, hboot, hrest⟩ := h
  refine ⟨boot, ready, rest ++ after, ?_, hready, hboot, hrest.append hafter⟩
  rw [List.cons_append, List.append_assoc, List.cons_append]

theorem Tells.append (h : Tells s₀ P s) {es : List Emission} (hes : t.emitted = s.emitted ++ es)
    (hPQ : ∀ before, P before → Q (before ++ es.map told)) :
  Tells s₀ Q t
  := by
  obtain ⟨before, hbefore, hP⟩ := h
  refine ⟨before ++ es, by rw [hes, hbefore, List.append_assoc], ?_⟩
  rw [List.map_append]
  exact hPQ _ hP

/-- The line that says why the agent stops is the last one. -/
theorem Tells.report (h : Tells s₀ P s) (detail : Text) :
  Tells s₀ (Parts P detail) ((Runtime.report detail : Exec _ Empty Unit).run s).1
  := by
  have hline : ((Runtime.report detail : Exec _ Empty Unit).run s).1.emitted
      = s.emitted ++ [⟨s.vnanos, 0, .logLine agentStream 0 (asBytes detail), true⟩] := rfl
  exact h.append hline fun before hP => ⟨before, rfl, hP⟩

/-! ### What lands of it -/

/-- An event of a critical kind. -/
def critical (c : EventPayload × Bool) : Bool := c.1.kind.isCritical

/-- Of the events only such of no critical kind are missing. -/
def Lands (es landed : List (EventPayload × Bool)) : Prop :=
  landed.Sublist es ∧ landed.filter critical = es.filter critical

theorem lands_told {es landed : List Emission} (hsub : landed.Sublist es)
    (hcritical : landed.filter Emission.isCritical = es.filter Emission.isCritical) :
  Lands (es.map told) (landed.map told)
  := by
  refine ⟨hsub.map told, ?_⟩
  rw [List.filter_map, List.filter_map]
  exact congrArg (List.map told) hcritical

theorem Lands.hush (h : Lands es after) (hes : Hush es) :
  Hush after
  := fun c hc => hes c (h.1.subset hc)

/-- What lands of two parts is what lands of each of them. -/
theorem Lands.split {es es' landed : List (EventPayload × Bool)} (h : Lands (es ++ es') landed) :
  ∃ l l', landed = l ++ l' ∧ Lands es l ∧ Lands es' l'
  := by
  obtain ⟨hsub, hcritical⟩ := h
  obtain ⟨l, l', rfl, hl, hl'⟩ := List.sublist_append_iff.mp hsub
  rw [List.filter_append, List.filter_append] at hcritical
  -- nothing critical is missing in either part, since nothing is missing in the whole
  have hle := (hl.filter critical).length_le
  have hle' := (hl'.filter critical).length_le
  have hsum := congrArg List.length hcritical
  rw [List.length_append, List.length_append] at hsum
  obtain ⟨heq, heq'⟩ := List.append_inj hcritical (by omega)
  exact ⟨l, l', rfl, ⟨hl, heq⟩, ⟨hl', heq'⟩⟩

/-- An event of a critical kind lands. -/
theorem Lands.cons {c : EventPayload × Bool} {es landed : List (EventPayload × Bool)}
    (h : Lands (c :: es) landed) (hc : critical c = true) :
  ∃ l, landed = c :: l ∧ Lands es l
  := by
  have hparts : Lands ([c] ++ es) landed := h
  obtain ⟨first, l, rfl, hfirst, hl⟩ := hparts.split
  refine ⟨l, ?_, hl⟩
  rcases List.sublist_singleton.mp hfirst.1 with rfl | rfl
  · have hcritical := hfirst.2
    rw [List.filter_cons_of_pos hc] at hcritical
    cases hcritical
  · rfl

theorem Greeted.lands (h : Greeted es) (hlands : Lands es after) :
  Greeted after
  := by
  obtain ⟨boot, rfl, hboot⟩ := h
  obtain ⟨l, rfl, hl⟩ := hlands.cons rfl
  exact ⟨l, rfl, hl.hush hboot⟩

theorem Readied.lands (h : Readied es) (hlands : Lands es after) :
  Readied after
  := by
  obtain ⟨boot, ready, rest, rfl, hready, hboot, hrest⟩ := h
  obtain ⟨behind, rfl, hbehind⟩ := hlands.cons rfl
  obtain ⟨l, tail, rfl, hl, htail⟩ := hbehind.split
  have hcritical : critical (ready, true) = true := by
    cases ready <;> first | rfl | cases hready
  obtain ⟨l', rfl, hl'⟩ := htail.cons hcritical
  exact ⟨l, ready, l', rfl, hready, hl.hush hboot, hl'.hush hrest⟩

/-- The last line lands, or it is missing. -/
theorem Parts.lands {detail : Text} (h : Parts P detail es) (hlands : Lands es after)
    (hP : ∀ {es landed}, P es → Lands es landed → P landed) :
  Parts P detail after ∨ P after
  := by
  obtain ⟨before, rfl, hbefore⟩ := h
  obtain ⟨l, l', rfl, hl, hl'⟩ := hlands.split
  rcases List.sublist_singleton.mp hl'.1 with rfl | rfl
  · rw [List.append_nil]
    exact Or.inr (hP hbefore hl)
  · exact Or.inl ⟨l, rfl, hP hbefore hl⟩

/-- What lands of a life. -/
theorem Trace.lands {stage : Stage} (h : Trace stage es) (hlands : Lands es after) :
  Arrives stage after
  := by
  cases stage with
  | dark msg =>
      rcases h with rfl | rfl
      · exact Or.inl (List.sublist_nil.mp hlands.1)
      · obtain ⟨l, rfl, hl⟩ := hlands.cons rfl
        rw [List.sublist_nil.mp hl.1]
        exact Or.inr rfl
  | booting => exact Greeted.lands h hlands
  | crashed => exact Greeted.lands h hlands
  | faulted detail => exact Parts.lands h hlands Greeted.lands
  | supervising => exact Readied.lands h hlands
  | aborted => exact Readied.lands h hlands
  | ended failure =>
      cases failure with
      | none => exact Readied.lands h hlands
      | some detail => exact Parts.lands h hlands Readied.lands

/-! ### The stages of a life -/

variable {τ : Type} {f : Translator τ}

/-- The loop tells nothing that a host waits for, and says why it has failed. -/
theorem tells_superviseLoop (shown : SuperviseError → Text)
    (ops : List (Except Text SuperviseOp)) {s : Supervisor (Regions.Served τ)}
    (h : Tells s₀ Readied s) :
  let life := superviseLoop (Regions.bootServer f).toRegionServer shown ops s
  Tells s₀ (Trace life.2) life.1
  := by
  induction ops generalizing s with
  | nil => exact h
  | cons op ops ih =>
      cases op with
      | error e => exact h.report _
      | ok op =>
          obtain ⟨es, hes, hhushed⟩ := hushed_superviseStep f op s
          have hnext := h.append hes fun before hbefore => hbefore.append (hush_told hhushed)
          rw [superviseLoop]
          dsimp only
          rcases verdict (Regions.bootServer f).toRegionServer s op with stop | e | _
          · cases stop with
            | false => exact ih hnext
            | true => exact hnext
          · exact hnext.report _
          · exact hnext

/-- The evidence about a region is neither `Hello` nor `Ready`. -/
theorem hush_evidence (evidence : List RegionEvidence) :
  Hush (evidence.flatMap evidenceEvents)
  := by
  intro c hc
  obtain ⟨e, _, hc⟩ := List.mem_flatMap.mp hc
  rcases List.mem_cons.mp hc with rfl | hc
  · rfl
  · obtain rfl := List.mem_singleton.mp hc
    rfl

/-- A boot that ends has told `Ready` last, and once. -/
theorem Ended.told {server : BootServer ρ} {boot : Boot.BootManifest} {s t : BootState server}
    {sole : Prop} (h : Ended sole boot s t) :
  ∃ es, t.sup.emitted = s.sup.emitted ++ es ∧ ∃ before ready,
    es.map told = before ++ [(ready, true)] ∧ isReady ready = true ∧ Hush before
  := by
  rw [Ended] at h
  cases hunit : boot.autostartUnit with
  | none =>
      rw [hunit] at h
      obtain ⟨snapshot, _, hadds⟩ := h
      obtain ⟨es, hes, htold⟩ := hadds.emitted
      refine ⟨es, hes, [], _, htold, ?_, hush_nil⟩
      rfl
  | some unit =>
      rw [hunit] at h
      obtain ⟨s₁, snapshot, evidence, hsteady, hadds, _, _⟩ := h
      obtain ⟨quiet, hquiet, hhush⟩ := hsteady.1.quiet
      obtain ⟨es, hes, htold⟩ := hadds.emitted
      refine ⟨quiet ++ es, by rw [hes, hquiet, List.append_assoc],
        quiet.map Protocol.told ++ (crumb "boot: regions-gated" :: (evidence.flatMap evidenceEvents
          ++ [crumb "boot: evidence-done"])),
        .ready unit snapshot.regionCount snapshot.manifestGeneration, ?_, rfl, ?_⟩
      · rw [List.map_append, htold, readyEvents]
        simp only [List.append_assoc, List.cons_append, List.nil_append]
      · apply (hush_told hhush).append
        refine List.forall_mem_cons.mpr ⟨rfl, ?_⟩
        exact (hush_evidence evidence).append (List.forall_mem_singleton.mpr rfl)

/-- What a life tells behind the greeting. -/
theorem tells_runBoot (texts : Texts) (start : Start) (regions : Regions.Served τ)
    (ops : List (Except Text SuperviseOp)) (boot : Boot.BootManifest)
    {s : BootState (Regions.bootServer f)} (h : Tells s₀ Greeted s.sup) :
  let life := runBoot texts start regions ops boot s
  Tells s₀ (Trace life.2) life.1
  := by
  rw [runBoot]
  dsimp only
  cases start.bind with
  | error e => exact h.report _
  | ok _ =>
      dsimp only
      generalize hbound : ({ s with sup := { s.sup with
        units := boot.units.map bootUnit
        regionIpc := some regions } } : BootState (Regions.bootServer f)) = bound
      have hgreeted : Tells s₀ Greeted bound.sup := by
        rw [← hbound]
        exact h
      have hend := triple_autostartAndReady boot False (fun _ h => h.elim) bound rfl
      -- A boot that does not end is quiet.
      have hquiet : ∀ t, Quiet bound t → Tells s₀ Greeted t.sup := by
        rintro t ⟨quiet, hes, hhush⟩
        exact hgreeted.append hes fun before hbefore => hbefore.append (hush_told hhush)
      rcases hrun : (Autostart.autostartAndReady boot).run bound with ⟨t, _ | e | _⟩ <;>
        rw [hrun] at hend
      · obtain ⟨es, hes, before, ready, htold, hready, hbefore⟩ := Ended.told hend
        apply tells_superviseLoop
        apply hgreeted.append hes
        intro greeted hg
        rw [htold]
        exact hg.ready hbefore hready
      · cases e with
        | waiting => exact hquiet t hend
        | _ => exact (hquiet t hend).report _
      · exact hquiet t hend

/-- What a life tells. -/
theorem tells_run (dbg : Bool) (texts : Texts) (start : Start) (regions : Regions.Served τ)
    (ops : List (Except Text SuperviseOp)) (s : BootState (Regions.bootServer f)) :
  let life := run dbg texts start regions ops s
  Tells s.sup.emitted (Trace life.2) life.1
  := by
  have hsilent : Tells s.sup.emitted (fun es => es = [] ∨ es = [(hello, true)]) s.sup :=
    ⟨[], (List.append_nil _).symm, Or.inl rfl⟩
  rw [run]
  cases start.mountAll with
  | error e => exact hsilent
  | ok _ =>
      cases bringUpChannel start with
      | error e => exact hsilent
      | ok _ =>
          dsimp only
          generalize hsup : ((Supervisor.emitEvent true hello : Exec _ Empty Unit).run s.sup).1
            = sup
          have hemitted : sup.emitted = s.sup.emitted ++ [⟨s.sup.vnanos, 0, hello, true⟩] := by
            rw [← hsup]
            rfl
          have hgreeted : Tells s.sup.emitted Greeted sup :=
            ⟨_, hemitted, [], rfl, hush_nil⟩
          cases bootManifest dbg texts.debug start with
          | err detail => exact hgreeted.report detail
          | panic => exact hgreeted
          | ok boot =>
              cases start.supervisor with
              | error e => exact ⟨_, hemitted, Or.inr rfl⟩
              | ok _ => exact tells_runBoot texts start regions ops boot hgreeted

end Trace

end Protocol
