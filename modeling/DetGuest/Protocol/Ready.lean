import DetGuest.Agent.Autostart

/-!
# The readiness of the guest

Whatever happens around the agent at boot, it emits `Ready` only behind an open gate, with the
evidence about the expected regions in front of it, and only while the workload is running.
-/

namespace Protocol

open Wire Agent
open Boot (BootManifest ExpectedRegion)

variable {ρ ε α : Type}

/-! ### What is told of a boot -/

/-- The events that mark a boot: the agent greets the host, the workload starts or ends, or the
guest is ready. -/
def marks : EventPayload → Bool
  | .hello .. => true
  | .workloadStarted .. => true
  | .workloadExited .. => true
  | .ready .. => true
  | _ => false

/-- The end of the workload. -/
def isExit : EventPayload → Bool
  | .workloadExited .. => true
  | _ => false

theorem marks_of_regional {ev : EventPayload} (h : regional ev = true) :
  marks ev = false
  := by
  cases ev <;> first | rfl | cases h

/-- The workload as the boot knows it: its process, its unit, and whether its control socket is
held. -/
def holds (s : Supervisor ρ) : Option (Int32 × UInt32 × Bool) :=
  s.workload.map fun w => (w.pid, w.unit, s.workloadControl)

theorem holds_eq_none {s : Supervisor ρ} :
  holds s = none ↔ s.workload = none
  := Option.map_eq_none_iff

/-- What the boot does to the supervisor before `Ready`: it tells nothing that marks the boot but
an end of the workload, behind which there is no workload. -/
structure Passes (s t : Supervisor ρ) : Prop where
  told : ∃ told, t.emitted = s.emitted ++ told ∧ ∀ e ∈ told, marks e.ev = true →
    isExit e.ev = true ∧ t.workload = none
  workload : t.workload = none ∨ holds t = holds s

instance : IsPreorder (Supervisor ρ) Passes where
  refl s := ⟨⟨[], (List.append_nil _).symm, by simp⟩, Or.inr rfl⟩
  trans := by
    rintro s t u ⟨⟨told, htold, hmarks⟩, hworkload⟩ ⟨⟨told', htold', hmarks'⟩, hworkload'⟩
    have hnone : t.workload = none → u.workload = none := by
      intro h
      rcases hworkload' with h' | h'
      · exact h'
      · rw [← holds_eq_none, h']
        exact holds_eq_none.mpr h
    constructor
    · refine ⟨told ++ told', by rw [htold', htold, List.append_assoc], ?_⟩
      intro e he hmark
      rcases List.mem_append.mp he with he | he
      · obtain ⟨hexit, h⟩ := hmarks e he hmark
        exact ⟨hexit, hnone h⟩
      · exact hmarks' e he hmark
    · rcases hworkload' with h | h
      · exact Or.inl h
      · rcases hworkload with h' | h'
        · exact Or.inl (hnone h')
        · exact Or.inr (h.trans h')

/-- What a wake source does to the supervisor: the region server rests. -/
def Wakes (s t : Supervisor ρ) : Prop := Passes s t ∧ t.regionIpc = s.regionIpc

instance : IsPreorder (Supervisor ρ) Wakes where
  refl s := ⟨refl s, rfl⟩
  trans := fun _ _ _ h h' => ⟨trans_of Passes h.1 h'.1, h'.2.trans h.2⟩

section Sources

open Supervisor

/-- A change that the events and the workload do not show. -/
theorem wakes_of_eq {s t : Supervisor ρ} (hemitted : t.emitted = s.emitted)
    (hworkload : holds t = holds s) (hregions : t.regionIpc = s.regionIpc) :
  Wakes s t
  := ⟨⟨⟨[], by rw [hemitted, List.append_nil], by simp⟩, Or.inr hworkload⟩, hregions⟩

theorem wakes_emitEvent (doorbell : Bool) {ev : EventPayload} (hev : marks ev = false) :
  Exec.Relates Wakes (emitEvent doorbell ev : Exec (Supervisor ρ) ε Unit)
  := by
  intro s
  refine ⟨⟨⟨[⟨s.vnanos, 0, ev, doorbell⟩], rfl, ?_⟩, Or.inr rfl⟩, rfl⟩
  intro e he hmark
  obtain rfl := List.mem_singleton.mp he
  rw [hev] at hmark
  cases hmark

theorem wakes_emitLines (stream level : UInt8) (lines : List Bytes) :
  Exec.Relates Wakes (emitLines stream level lines : Exec (Supervisor ρ) ε Unit)
  := by
  refine Exec.Relates.bind Exec.relates_get fun s => ?_
  apply Exec.Relates.ite
  · apply Exec.relates_pure
  · apply Exec.relates_forM
    intro line
    exact wakes_emitEvent _ rfl

theorem feed_who (pipe : Pipe) (w : Workload) (chunk : Bytes) :
  (feed pipe w chunk).2.pid = w.pid ∧ (feed pipe w chunk).2.unit = w.unit
  := by
  cases pipe <;> exact ⟨rfl, rfl⟩

theorem wakes_drainRounds (pipe : Pipe) (fuel : Nat) :
  Exec.Relates Wakes (drainRounds pipe fuel : Exec (Supervisor ρ) ε Unit)
  := by
  induction fuel with
  | zero => exact Exec.relates_pure _
  | succ fuel ih =>
      intro s
      rw [drainRounds, Exec.run_bind_of_ok (Exec.run_get _)]
      cases hw : s.workload with
      | none => exact refl s
      | some w =>
          dsimp only
          split
          · exact refl s
          · rw [Exec.run_bind_of_ok (Exec.run_set _ _)]
            refine trans_of Wakes ?_ (((wakes_emitLines pipe.stream pipe.level
              (feed pipe w ((s.unread pipe).take chunkLen)).1).bind fun _ => ih) _)
            obtain ⟨hpid, hunit⟩ := feed_who pipe w ((s.unread pipe).take chunkLen)
            refine wakes_of_eq rfl ?_ rfl
            rw [holds, holds, hw, Option.map_some, Option.map_some, hpid, hunit]

theorem wakes_drainPipe (pipe : Pipe) :
  Exec.Relates Wakes (drainPipe pipe : Exec (Supervisor ρ) ε Unit)
  := Exec.relates_get.bind fun _ => wakes_drainRounds _ _

/-- Without a workload there is none behind a wake source. -/
theorem Wakes.none {s t : Supervisor ρ} (h : Wakes s t) (hs : s.workload = none) :
  t.workload = none
  := by
  rcases h.1.workload with h | h
  · exact h
  · rw [← holds_eq_none, h]
    exact holds_eq_none.mpr hs

/-- Behind its end the workload is gone, so that its end is told. -/
theorem wakes_emitExited {s : Supervisor ρ} (hs : s.workload = none) (pid : UInt32)
    (exitCode termSignal : Int32) :
  Wakes s ((emitEvent true (.workloadExited pid exitCode termSignal) :
    Exec (Supervisor ρ) ε Unit).run s).1
  := by
  refine ⟨⟨⟨[⟨s.vnanos, 0, _, true⟩], rfl, ?_⟩, Or.inl hs⟩, rfl⟩
  intro e he _
  obtain rfl := List.mem_singleton.mp he
  exact ⟨rfl, hs⟩

/-- The end of the workload is told, and there is no workload behind it. -/
theorem wakes_ended (pid : Int32) (status : ExitStatus) :
  Exec.Relates Wakes (handleChildStatus pid (.ended status) : Exec (Supervisor ρ) ε Unit)
  := by
  apply (wakes_drainPipe .out).bind
  intro _
  apply (wakes_drainPipe .err).bind
  intro _ s
  rw [Exec.run_bind_of_ok (Exec.run_get _)]
  cases hw : s.workload with
  | none => exact refl s
  | some w =>
      dsimp only
      have hgone : Wakes s { s with workload := none, workloadControl := false } :=
        ⟨⟨⟨[], (List.append_nil _).symm, by simp⟩, Or.inl rfl⟩, rfl⟩
      have hnone : ({ s with workload := none, workloadControl := false } :
        Supervisor ρ).workload = none := rfl
      rw [Exec.run_bind_of_ok (Exec.run_set _ _)]
      generalize { s with workload := none, workloadControl := false } = t at hgone hnone
      apply trans_of Wakes hgone
      obtain ⟨u, _, hout, _⟩ := keeps_emitLines (ε := ε) Pipe.out.stream stdoutLevel
        (LineBuf.finish w.outbuf).1 t
      obtain ⟨v, _, herr, _⟩ := keeps_emitLines (ε := ε) Pipe.err.stream stderrLevel
        (LineBuf.finish w.errbuf).1 u
      have htu := (wakes_emitLines (ε := ε) _ _ _).of_run hout
      have huv := (wakes_emitLines (ε := ε) _ _ _).of_run herr
      rw [Exec.run_bind_of_ok hout, Exec.run_bind_of_ok herr]
      apply trans_of Wakes (trans_of Wakes htu huv)
      exact wakes_emitExited (huv.none (htu.none hnone)) _ _ _

theorem wakes_handleChildStatus (pid : Int32) (status : WaitStatus) :
  Exec.Relates Wakes (handleChildStatus pid status : Exec (Supervisor ρ) ε Unit)
  := by
  cases status with
  | stopped =>
      refine Exec.Relates.bind (Exec.relates_modify fun s => ?_) fun _ =>
        Exec.Relates.bind Exec.relates_get fun s => wakes_emitEvent _ rfl
      refine wakes_of_eq rfl ?_ rfl
      rw [holds, holds]
      cases s.workload <;> rfl
  | ended status => exact wakes_ended pid status

theorem wakes_reapWorkload :
  Exec.Relates Wakes (reapWorkload : Exec (Supervisor ρ) ε Unit)
  := by
  refine Exec.Relates.bind Exec.relates_get fun s => ?_
  cases s.workload with
  | none => exact Exec.relates_pure _
  | some w =>
      have hwait : Exec.Relates Wakes (waitpid fun pid => pid = w.pid :
          Exec (Supervisor ρ) ε _) := fun t => wakes_of_eq rfl rfl rfl
      apply hwait.bind
      rintro (_ | ⟨pid, status⟩)
      · exact Exec.relates_pure _
      · exact wakes_handleChildStatus pid status

/-- A round of requests tells nothing that marks the boot. -/
theorem passes_serviceRegionIpc (server : BootServer ρ) (s : Supervisor ρ) :
  let t := ((serviceRegionIpc server.toRegionServer).run s).1
  Passes s t ∧ t.workload = s.workload ∧
    (s.workload = none → t.regionIpc.map server.manifest = s.regionIpc.map server.manifest)
  := by
  cases hregions : s.regionIpc with
  | none =>
      have hrun : (serviceRegionIpc server.toRegionServer).run s = (s, .ok ()) := by
        rw [serviceRegionIpc, Exec.run_bind_of_ok (Exec.run_get s), hregions]
        rfl
      rw [hrun]
      exact ⟨refl s, rfl, fun _ => by rw [hregions]⟩
  | some ipc =>
      obtain ⟨next, hnext⟩ : ∃ next, server.service ipc (s.workload.map Workload.pid) s.vnanos
          = next := ⟨_, rfl⟩
      have hrun : ((serviceRegionIpc server.toRegionServer).run s).1
          = { s with
              regionIpc := some next.1
              vnanos := next.2.1
              emitted := s.emitted ++ next.2.2.1 } := by
        subst hnext
        rw [serviceRegionIpc, Exec.run_bind_of_ok (Exec.run_get s), hregions]
        dsimp only
        rw [Exec.run_bind_of_ok (Exec.run_set _ _)]
        split <;> rfl
      rw [hrun]
      refine ⟨⟨⟨next.2.2.1, rfl, ?_⟩, Or.inr rfl⟩, rfl, ?_⟩
      · intro e he hmark
        rw [← hnext] at he
        rw [marks_of_regional (server.service_regional _ _ _ e he)] at hmark
        cases hmark
      · intro hnone
        rw [hnone, Option.map_none] at hnext
        rw [Option.map_some, Option.map_some, ← hnext, server.service_idle]

end Sources

/-! ### What the boot keeps to -/

section Boot

open Autostart

variable {server : BootServer ρ} {s t u : BootState server}

theorem manifest_eq (s : BootState server) :
  manifest s = (s.sup.regionIpc.map server.manifest).getD s.area
  := by
  rw [manifest]
  cases s.sup.regionIpc <;> rfl

/-- What the boot does before `Ready`. -/
structure BootPasses (s t : BootState server) : Prop where
  sup : Passes s.sup t.sup
  area : t.area = s.area
  sends : t.sends <:+ s.sends

instance : IsPreorder (BootState server) BootPasses where
  refl s := ⟨refl s.sup, rfl, List.suffix_refl _⟩
  trans := fun _ _ _ h h' =>
    ⟨trans_of Passes h.sup h'.sup, h'.area.trans h.area, h'.sends.trans h.sends⟩

/-- What the boot does without an answer to a request: the manifest stays as it is. -/
def Rests (s t : BootState server) : Prop := BootPasses s t ∧ manifest t = manifest s

instance : IsPreorder (BootState server) Rests where
  refl s := ⟨refl s, rfl⟩
  trans := fun _ _ _ h h' => ⟨trans_of BootPasses h.1 h'.1, h'.2.trans h.2⟩

theorem Rests.of_sup (hsup : s.sup = t.sup) (harea : s.area = t.area)
    (hsends : t.sends = s.sends) :
  Rests s t
  := by
  refine ⟨⟨?_, harea.symm, ?_⟩, ?_⟩
  · rw [hsup]
    exact refl t.sup
  · rw [hsends]
  · rw [manifest, manifest, hsup, harea]

theorem rests_onSup' {x : Exec (Supervisor ρ) BootError α} (h : Exec.Relates Wakes x) :
  Exec.Relates Rests (onSup' x : BootExec server α)
  := by
  refine @Exec.relates_focus _ _ _ _ _ (supPart server) _ _ h ?_
  rintro s t ⟨hpasses, hregions⟩
  refine ⟨⟨hpasses, rfl, List.suffix_refl _⟩, ?_⟩
  rw [manifest_eq, manifest_eq]
  exact congrArg (fun r => (Option.map server.manifest r).getD s.area) hregions

theorem rests_breadcrumb (msg : String) :
  Exec.Relates Rests (breadcrumb msg : BootExec server Unit)
  := rests_onSup' (wakes_emitEvent _ rfl)

theorem rests_serviceWake (wake : Wake) :
  Exec.Relates Rests (serviceWake wake : BootExec server Unit)
  := by
  cases wake with
  | sigchld => exact rests_onSup' wakes_reapWorkload
  | pipe pipe => exact rests_onSup' (wakes_drainPipe pipe)
  | timer => exact Exec.relates_pure _
  | other => exact Exec.relates_pure _

theorem rests_elapse :
  Exec.Relates Rests (elapse : BootExec server Unit)
  := by
  intro s
  rw [elapse, Exec.run_bind_of_ok (Exec.run_get s)]
  cases s.moments with
  | nil => exact refl s
  | cons m rest =>
      refine ⟨⟨⟨⟨[], (List.append_nil _).symm, by simp⟩, Or.inr rfl⟩, rfl, List.suffix_refl _⟩, ?_⟩
      rw [manifest_eq, manifest_eq]
      cases hregions : s.sup.regionIpc with
      | none => simp
      | some r => simp [m.manifest_arrive]

theorem rests_takeWake :
  Exec.Relates Rests (takeWake : BootExec server (List Wake))
  := by
  intro s
  rw [takeWake, Exec.run_bind_of_ok (Exec.run_get s)]
  rcases s.wakes with _ | ⟨errno | wakes, rest⟩
  · exact refl s
  · exact Rests.of_sup rfl rfl rfl
  · exact Rests.of_sup rfl rfl rfl

/-- What a round of requests does: without a workload the manifest stays as it is. -/
def Serves (s t : BootState server) : Prop :=
  BootPasses s t ∧ t.sup.workload = s.sup.workload ∧
    (s.sup.workload = none → manifest t = manifest s)

theorem serves_onSup (f : SuperviseError → BootError) :
  Exec.Relates Serves
    (onSup f (Supervisor.serviceRegionIpc server.toRegionServer) : BootExec server Unit)
  := by
  intro s
  obtain ⟨hpasses, hworkload, hidle⟩ := passes_serviceRegionIpc server s.sup
  refine ⟨⟨hpasses, rfl, List.suffix_refl _⟩, hworkload, ?_⟩
  intro hnone
  rw [manifest_eq, manifest_eq]
  exact congrArg (fun r => r.getD s.area) (hidle hnone)

instance : IsPreorder (BootState server) Serves where
  refl s := ⟨refl s, rfl, fun _ => rfl⟩
  trans := by
    rintro s t u ⟨hpasses, hworkload, hidle⟩ ⟨hpasses', hworkload', hidle'⟩
    refine ⟨trans_of BootPasses hpasses hpasses', hworkload'.trans hworkload, ?_⟩
    intro hnone
    exact (hidle' (hworkload.trans hnone)).trans (hidle hnone)

theorem serves_elapse :
  Exec.Relates Serves (elapse : BootExec server Unit)
  := by
  intro s
  obtain ⟨hpasses, hmanifest⟩ := rests_elapse s
  refine ⟨hpasses, ?_, fun _ => hmanifest⟩
  rw [elapse, Exec.run_bind_of_ok (Exec.run_get s)]
  cases s.moments <;> rfl

theorem serves_serviceRegions (f : SuperviseError → BootError) :
  Exec.Relates Serves (serviceRegions f : BootExec server Unit)
  := serves_elapse.bind fun _ => serves_onSup f

/-- A wait behind which there is no workload leaves the manifest as it is: what is reaped is reaped
before the requests are served. -/
theorem waits_waitBootIo :
  Exec.Relates (fun s t => BootPasses s t ∧ (t.sup.workload = none → manifest t = manifest s))
    (waitBootIo : BootExec server Unit)
  := by
  have hwakes : Exec.Relates Rests (do
      (elapse : BootExec server Unit)
      let wakes ← takeWake
      wakes.forM serviceWake) :=
    rests_elapse.bind fun _ => rests_takeWake.bind fun _ => Exec.relates_forM rests_serviceWake
  have hseq := hwakes.seq (fun _ => serves_onSup .bootWait)
    (R := fun s t => BootPasses s t ∧ (t.sup.workload = none → manifest t = manifest s))
    (fun s t h => ⟨h.1, fun _ => h.2⟩) (by
      rintro s t u ⟨hpasses, hmanifest⟩ ⟨hpasses', hworkload, hidle⟩
      refine ⟨trans_of BootPasses hpasses hpasses', ?_⟩
      intro hnone
      exact (hidle (hworkload.symm.trans hnone)).trans hmanifest)
  rw [Exec.bind_assoc] at hseq
  simp only [Exec.bind_assoc] at hseq
  exact hseq

/-- The steps of the control leg. -/
theorem keeps_controlLine (server : BootServer ρ) :
  (controlLine server).Keeps BootPasses
  := by
  constructor
  · intro b s
    change BootPasses s ((sendControl b).run s).1
    rw [sendControl, Exec.run_bind_of_ok (Exec.run_get s)]
    cases hsends : s.sends with
    | nil => exact refl s
    | cons answer rest =>
        have hrest : rest <:+ s.sends := hsends ▸ List.suffix_cons answer rest
        dsimp only
        rw [Exec.run_bind_of_ok (Exec.run_set _ _)]
        cases answer s.sup with
        | error errno => exact ⟨refl s.sup, rfl, hrest⟩
        | ok n =>
            by_cases hshort : n ≠ b.length
            · rw [Exec.run_bind_of_err (Exec.run_failIf_of hshort _)]
              exact ⟨refl s.sup, rfl, hrest⟩
            · rw [Exec.run_bind_of_ok (Exec.run_failIf_of_not hshort _)]
              exact ⟨refl s.sup, rfl, hrest⟩
  · intro leg s
    change BootPasses s ((pollControl leg).run s).1
    rw [pollControl, Exec.run_bind_of_ok (Exec.run_get s)]
    rcases s.polls with _ | ⟨errno | answer, rest⟩ <;>
      exact ⟨refl s.sup, rfl, List.suffix_refl _⟩
  · intro p
    cases p with
    | idle => exact waits_waitBootIo.mono fun _ _ h => h.1
    | milestone m => exact (rests_breadcrumb _).mono fun _ _ h => h.1

end Boot

/-! ### Starting -/

section Starting

open Autostart

variable {server : BootServer ρ} {s₀ s t : BootState server} {unit : UInt32} {held : Bool}

/-- The guest is ready. -/
def isReady : EventPayload → Bool
  | .ready .. => true
  | _ => false

/-- The events that a host waits for: the agent is there, or the guest is ready. -/
def heralds : EventPayload → Bool
  | .hello .. => true
  | .ready .. => true
  | _ => false

theorem isReady_of_not_heralds {ev : EventPayload} (h : heralds ev = false) :
  isReady ev = false
  := by
  cases ev <;> first | rfl | cases h

/-- Neither `Hello` nor `Ready` since a state. -/
def Quiet (s₀ s : BootState server) : Prop :=
  ∃ told, s.sup.emitted = s₀.sup.emitted ++ told ∧ ∀ e ∈ told, heralds e.ev = false

/-- The workload is running, and its start is all that marks the boot since a state. -/
def Alive (unit : UInt32) (held : Bool) (s₀ s : BootState server) : Prop :=
  s.sends <:+ s₀.sends ∧
  ∃ pid told, holds s.sup = some (pid, unit, held) ∧ s.sup.emitted = s₀.sup.emitted ++ told ∧
    (told.map Emission.ev).filter marks = [.workloadStarted pid.toUInt32 unit]

/-- The other end of the control socket is closed once the agent has seen the end of the workload:
no other process holds it, and the kernel refuses what is sent to a closed end. -/
def SoleHolder (s : BootState server) : Prop :=
  ∀ answer ∈ s.sends, ∀ sup : Supervisor ρ, sup.workload = none →
    ∃ errno, answer sup = .error errno

theorem quiet_refl (s : BootState server) : Quiet s s := ⟨[], (List.append_nil _).symm, by simp⟩

theorem not_heralds_of {ev : EventPayload} (h : marks ev = true → isExit ev = true) :
  heralds ev = false
  := by
  cases ev <;> first | rfl | cases h rfl

theorem Quiet.passes (h : Quiet s₀ s) (hpasses : BootPasses s t) :
  Quiet s₀ t
  := by
  obtain ⟨told, htold, hquiet⟩ := h
  obtain ⟨told', htold', hmarks⟩ := hpasses.sup.told
  refine ⟨told ++ told', by rw [htold', htold, List.append_assoc], ?_⟩
  intro e he
  rcases List.mem_append.mp he with he | he
  · exact hquiet e he
  · exact not_heralds_of fun h => (hmarks e he h).1

theorem Alive.quiet (h : Alive unit held s₀ s) :
  Quiet s₀ s
  := by
  obtain ⟨_, pid, told, _, htold, hmarks⟩ := h
  refine ⟨told, htold, ?_⟩
  intro e he
  rw [← Bool.not_eq_true]
  intro hready
  have hmark : marks e.ev = true := by
    revert hready
    cases e.ev <;> simp [heralds, marks]
  have hmem : e.ev ∈ (told.map Emission.ev).filter marks :=
    List.mem_filter.mpr ⟨List.mem_map_of_mem he, hmark⟩
  rw [hmarks, List.mem_singleton] at hmem
  rw [hmem] at hready
  cases hready

/-- A workload that is still there is the one that was started. -/
theorem Alive.passes (h : Alive unit held s₀ s) (hpasses : BootPasses s t)
    (halive : t.sup.workload ≠ none) :
  Alive unit held s₀ t
  := by
  obtain ⟨hsends, pid, told, hw, htold, hmarks⟩ := h
  obtain ⟨⟨⟨told', htold', hmarks'⟩, hworkload⟩, _, hsends'⟩ := hpasses
  rcases hworkload with hnone | hsame
  · exact absurd hnone halive
  refine ⟨hsends'.trans hsends, pid, told ++ told', hsame.trans hw, ?_, ?_⟩
  · rw [htold', htold, List.append_assoc]
  · have hnone : (told'.map Emission.ev).filter marks = [] := by
      rw [List.filter_eq_nil_iff]
      intro ev hev hmark
      obtain ⟨e, he, rfl⟩ := List.mem_map.mp hev
      exact halive (hmarks' e he hmark).2
    rw [List.map_append, List.filter_append, hmarks, hnone, List.append_nil]

theorem Alive.workload (h : Alive unit held s₀ s) :
  s.sup.workload ≠ none
  := by
  obtain ⟨_, pid, _, hw, _⟩ := h
  intro hnone
  rw [holds_eq_none.mpr hnone] at hw
  cases hw

/-- The workload was running, and the boot went on since. -/
def Underway (unit : UInt32) (held : Bool) (s₀ s : BootState server) : Prop :=
  ∃ s₁, Alive unit held s₀ s₁ ∧ BootPasses s₁ s

theorem Alive.underway (h : Alive unit held s₀ s) : Underway unit held s₀ s := ⟨s, h, refl s⟩

theorem Underway.quiet (h : Underway unit held s₀ s) :
  Quiet s₀ s
  := by
  obtain ⟨s₁, halive, hpasses⟩ := h
  exact halive.quiet.passes hpasses

theorem Underway.alive (h : Underway unit held s₀ s) (hw : s.sup.workload ≠ none) :
  Alive unit held s₀ s
  := by
  obtain ⟨s₁, halive, hpasses⟩ := h
  exact halive.passes hpasses hw

theorem Underway.passes (h : Underway unit held s₀ s) (hpasses : BootPasses s t) :
  Underway unit held s₀ t
  := by
  obtain ⟨s₁, halive, hpasses'⟩ := h
  exact ⟨s₁, halive, trans_of BootPasses hpasses' hpasses⟩

theorem Underway.sends (h : Underway unit held s₀ s) :
  s.sends <:+ s₀.sends
  := by
  obtain ⟨s₁, halive, hpasses⟩ := h
  exact hpasses.sends.trans halive.1

/-- The socket is kept. -/
theorem Underway.retain (h : Underway unit held s₀ s) :
  Underway unit true s₀ { s with sup := { s.sup with workloadControl := true } }
  := by
  obtain ⟨s₁, ⟨hsends, pid, told, hholds, htold, hmarks⟩, hpasses⟩ := h
  obtain ⟨w, hw, hsome⟩ := Option.map_eq_some_iff.mp hholds
  obtain ⟨rfl, hrest⟩ := Prod.mk.inj hsome
  obtain ⟨rfl, _⟩ := Prod.mk.inj hrest
  refine ⟨{ s₁ with sup := { s₁.sup with workloadControl := true } },
    ⟨hsends, w.pid, told, ?_, htold, hmarks⟩, ⟨⟨hpasses.sup.told, ?_⟩, hpasses.area, hpasses.sends⟩⟩
  · change Option.map (fun w : Workload => (w.pid, w.unit, true)) s₁.sup.workload = _
    rw [hw, Option.map_some]
  · rcases hpasses.sup.workload with hnone | hsame
    · exact Or.inl hnone
    · right
      obtain ⟨w', hw', hsome'⟩ := Option.map_eq_some_iff.mp (hsame.trans hholds)
      obtain ⟨hpid, hrest'⟩ := Prod.mk.inj hsome'
      obtain ⟨hunit, _⟩ := Prod.mk.inj hrest'
      change Option.map (fun w : Workload => (w.pid, w.unit, true)) s.sup.workload
        = Option.map (fun w : Workload => (w.pid, w.unit, true)) s₁.sup.workload
      rw [hw, hw', Option.map_some, Option.map_some, hpid, hunit]

/-- The boot is underway, and the workload is running if what is assumed about it holds. -/
def Steady (sole : Prop) (unit : UInt32) (held : Bool) (s₀ s : BootState server) : Prop :=
  Underway unit held s₀ s ∧ (sole → s.sup.workload ≠ none)

theorem Alive.steady {sole : Prop} (h : Alive unit held s₀ s) :
  Steady sole unit held s₀ s
  := ⟨h.underway, fun _ => h.workload⟩

theorem triple_underway {x : BootExec server α} (h : Exec.Relates BootPasses x) :
  Exec.Triple (Underway unit held s₀) x (fun _ => Underway unit held s₀) (Underway unit held s₀)
  := Exec.triple_of_always fun s hs => hs.passes (h s)

/-- A start either fails, with nothing told, or the workload runs and its start is told. -/
theorem run_startUnit (unit : UInt32) (s : Supervisor ρ) :
  (∃ t e, (Supervisor.startUnit unit).run s = (t, .err e) ∧ t.emitted = s.emitted) ∨
    ∃ t pid, (Supervisor.startUnit unit).run s = (t, .ok ()) ∧
      holds t = some (pid, unit, s.workloadControl) ∧
        t.emitted = s.emitted ++ [⟨s.vnanos, 0, .workloadStarted pid.toUInt32 unit, false⟩]
  := by
  rw [Supervisor.startUnit, Exec.run_bind_of_ok (Exec.run_get s)]
  by_cases hsome : s.workload.isSome = true
  · rw [Exec.run_bind_of_err (Exec.run_failIf_of hsome _)]
    exact Or.inl ⟨s, _, rfl, rfl⟩
  rw [Exec.run_bind_of_ok (Exec.run_failIf_of_not hsome _)]
  cases hfind : s.units.find? fun u => u.id = unit with
  | none => exact Or.inl ⟨s, _, rfl, rfl⟩
  | some u =>
      have hid : u.id = unit := by simpa using List.find?_some hfind
      dsimp only
      rw [Exec.run_bind_of_ok (Exec.run_set _ _)]
      rcases hfork : s.kernel.fork with _ | ⟨pid, kernel⟩
      · exact Or.inl ⟨_, _, rfl, rfl⟩
      · refine Or.inr ⟨_, pid, rfl, ?_, ?_⟩
        · rw [← hid]
          rfl
        · rw [← hid]

theorem triple_startUnit (unit : UInt32) (s₀ : BootState server) :
  Exec.Triple (fun s => s = s₀) (onSup (.autostart unit) (Supervisor.startUnit unit))
    (fun _ => Alive unit s₀.sup.workloadControl s₀) (Quiet s₀)
  := by
  rintro s rfl
  have hpart : ∀ (t : Supervisor ρ) (res : Res SuperviseError Unit),
      (Supervisor.startUnit unit).run s.sup = (t, res) →
        (onSup (.autostart unit) (Supervisor.startUnit unit)).run s
          = ({ s with sup := t }, res.mapErr (.autostart unit)) := by
    intro t res hrun
    have hget : (Supervisor.startUnit unit).run ((supPart server).get s) = (t, res) := hrun
    apply Exec.run_focus
    rw [Exec.run_mapErr, hget]
  rcases run_startUnit unit s.sup with
    ⟨t, e, hrun, htold⟩ | ⟨t, pid, hrun, hw, htold⟩
  · rw [hpart t _ hrun]
    exact ⟨[], by rw [List.append_nil]; exact htold, by simp⟩
  · rw [hpart t _ hrun]
    exact ⟨List.suffix_refl _, pid, _, hw, htold, rfl⟩

end Starting

/-! ### Emitting -/

section Emitting

open Autostart

variable {server : BootServer ρ} {s₀ s t u : BootState server} {unit : UInt32} {held : Bool}
  {content content' : List (EventPayload × Bool)}

/-- What an emission tells, and whether a doorbell is behind it. -/
def told (e : Emission) : EventPayload × Bool := (e.ev, e.doorbell)

/-- The boot emits the events and does nothing else that the gate or the workload would show. -/
structure Adds (s t : BootState server) (content : List (EventPayload × Bool)) : Prop where
  emitted : ∃ tail, t.sup.emitted = s.sup.emitted ++ tail ∧ tail.map told = content
  workload : holds t.sup = holds s.sup
  manifest : manifest t = manifest s

theorem Adds.trans (h : Adds s t content) (h' : Adds t u content') :
  Adds s u (content ++ content')
  := by
  obtain ⟨tail, htail, htold⟩ := h.emitted
  obtain ⟨tail', htail', htold'⟩ := h'.emitted
  refine ⟨⟨tail ++ tail', ?_, ?_⟩, h'.workload.trans h.workload, h'.manifest.trans h.manifest⟩
  · rw [htail', htail, List.append_assoc]
  · rw [List.map_append, htold, htold']

theorem run_emit (doorbell : Bool) (ev : EventPayload) (s : BootState server) :
  ∃ t, (onSup' (Supervisor.emitEvent doorbell ev)).run s = (t, .ok ()) ∧
    Adds s t [(ev, doorbell)]
  := ⟨_, rfl, ⟨⟨[⟨s.sup.vnanos, 0, ev, doorbell⟩], rfl, rfl⟩, rfl, rfl⟩⟩

/-- The events about a region. -/
def evidenceEvents (e : RegionEvidence) : List (EventPayload × Bool) :=
  [(.nameIntern e.nameId e.name, false),
    (.regionRegister ⟨e.regionId, e.nameId, e.layoutVersion, e.manifestGeneration⟩, false)]

theorem run_emitEvidence (evidence : List RegionEvidence) (s : BootState server) :
  ∃ t, (evidence.forM emitEvidence : BootExec server Unit).run s = (t, .ok ()) ∧
    Adds s t (evidence.flatMap evidenceEvents)
  := by
  induction evidence generalizing s with
  | nil => exact ⟨s, rfl, ⟨[], (List.append_nil _).symm, rfl⟩, rfl, rfl⟩
  | cons e evidence ih =>
      obtain ⟨t, hname, hadds⟩ := @run_emit _ server false (.nameIntern e.nameId e.name) s
      obtain ⟨u, hregion, hadds'⟩ := @run_emit _ server false
        (.regionRegister ⟨e.regionId, e.nameId, e.layoutVersion, e.manifestGeneration⟩) t
      obtain ⟨v, hrest, hadds''⟩ := ih u
      refine ⟨v, ?_, (hadds.trans hadds').trans hadds''⟩
      have hone : (emitEvidence e : BootExec server Unit).run s = (u, .ok ()) := by
        rw [emitEvidence, Exec.run_bind_of_ok hname]
        exact hregion
      exact (Exec.run_bind_of_ok hone).trans hrest

theorem adds_breadcrumb (msg : String) (s : BootState server) :
  ∃ t, (breadcrumb msg).run s = (t, .ok ()) ∧
    Adds s t [(.logLine agentStream 1 (asBytes msg.toList), false)]
  := run_emit false _ s

/-- A breadcrumb leaves the workload as it is. -/
theorem triple_breadcrumb (msg : String) {sole : Prop} {E : BootState server → Prop} :
  Exec.Triple (Steady sole unit held s₀) (breadcrumb msg)
    (fun _ => Steady sole unit held s₀) E
  := by
  apply Exec.triple_of_run
  rintro s ⟨hunderway, hsole⟩
  obtain ⟨t, hrun, hadds⟩ := adds_breadcrumb msg s
  have hpasses := ((rests_breadcrumb msg).of_run hrun).1
  refine ⟨t, (), hrun, hunderway.passes hpasses, ?_⟩
  intro h hnone
  apply hsole h
  rw [← holds_eq_none, ← hadds.workload]
  exact holds_eq_none.mpr hnone

end Emitting

/-! ### The start of the unit -/

section Start

open Autostart

variable {server : BootServer ρ} {s₀ : BootState server} {unit : UInt32} {held : Bool}
  {sole : Prop}

/-- A datagram that was sent has met an open socket: its holder is there. -/
theorem triple_sendControl (hsole : sole → SoleHolder s₀) (b : Bytes) :
  Exec.Triple (Underway unit held s₀) (sendControl b) (fun _ => Steady sole unit held s₀) (Quiet s₀)
  := by
  intro s hs
  have hnext := hs.passes ((keeps_controlLine server).send b s)
  change Underway unit held s₀ ((sendControl b).run s).1 at hnext
  rw [sendControl, Exec.run_bind_of_ok (Exec.run_get s)] at hnext ⊢
  cases hsends : s.sends with
  | nil => exact hs.quiet
  | cons answer rest =>
      rw [hsends] at hnext
      dsimp only at hnext ⊢
      rw [Exec.run_bind_of_ok (Exec.run_set _ _)] at hnext ⊢
      cases hanswer : answer s.sup with
      | error errno =>
          rw [hanswer] at hnext
          exact hnext.quiet
      | ok n =>
          rw [hanswer] at hnext
          dsimp only at hnext ⊢
          by_cases hshort : n ≠ b.length
          · rw [Exec.run_bind_of_err (Exec.run_failIf_of hshort _)] at hnext ⊢
            exact hnext.quiet
          · rw [Exec.run_bind_of_ok (Exec.run_failIf_of_not hshort _)] at hnext ⊢
            refine ⟨hnext, ?_⟩
            intro h hnone
            have hmem : answer ∈ s₀.sends :=
              hs.sends.subset (hsends ▸ List.mem_cons_self)
            obtain ⟨errno, herror⟩ := hsole h answer hmem s.sup hnone
            rw [hanswer] at herror
            cases herror

/-- Behind the control leg the workload is running: the last datagram has reached it. -/
theorem triple_driveAndRetainControl (hsole : sole → SoleHolder s₀) (control : Boot.UnitControl)
    (gamePath : Text) :
  Exec.Triple (Alive unit held s₀) (driveAndRetainControl control gamePath)
    (fun _ => Steady sole unit true s₀) (Quiet s₀)
  := by
  have hready : Exec.Triple (Alive unit held s₀)
      ((controlLine server).driveToReady (controlOf control) (asBytes gamePath))
      (fun _ => Underway unit held s₀) (Quiet s₀) :=
    (triple_underway ((keeps_controlLine server).driveToReady _ _)).conseq
      (fun _ h => h.underway) (fun _ _ h => h) (fun _ h => h.quiet)
  have hdrive : Exec.Triple (Alive unit held s₀)
      ((controlLine server).driveRefworkStart (controlOf control) (asBytes gamePath))
      (fun _ => Steady sole unit held s₀) (Quiet s₀) :=
    hready.bind fun _ => (triple_sendControl hsole _).bind fun _ => triple_breadcrumb _
  apply hdrive.bind
  intro _
  apply Exec.triple_of_run
  rintro s ⟨hunderway, hworkload⟩
  exact ⟨_, (), rfl, hunderway.retain, hworkload⟩

theorem triple_answered {ε : Type} (f : ε → BootError) (res : Except ε Unit)
    {P E : BootState server → Prop} (helse : ∀ s, P s → E s) :
  Exec.Triple P (answered f res) (fun _ => P) E
  := by
  intro s hs
  cases res with
  | ok _ => exact hs
  | error e => exact helse s hs

theorem triple_gamePathOf (control : Boot.UnitControl) {P E : BootState server → Prop}
    (helse : ∀ s, P s → E s) :
  Exec.Triple P (gamePathOf control) (fun _ => P) E
  := by
  rw [gamePathOf]
  cases control.gameSource with
  | some source =>
      refine Exec.Triple.bind (Exec.triple_get (R := fun _ => P) fun s hs => hs) fun s => ?_
      exact (triple_answered _ _ helse).bind fun _ => Exec.triple_pure fun s hs => hs
  | none =>
      cases control.gameDev with
      | some path => exact Exec.triple_pure fun s hs => hs
      | none => exact Exec.triple_fail helse

theorem triple_unlinkGame (control : Boot.UnitControl) :
  Exec.Triple (Steady sole unit held s₀) (unlinkGame control)
    (fun _ => Steady sole unit held s₀) (Quiet s₀)
  := by
  rw [unlinkGame]
  split
  · refine Exec.Triple.bind
      (Exec.triple_get (R := fun _ => Steady sole unit held s₀) fun s hs => hs) fun s => ?_
    exact (triple_answered _ _ fun s hs => hs.1.quiet).bind fun _ => triple_breadcrumb _
  · exact Exec.triple_pure fun s hs => hs

/-- Behind the start of the unit, and its control leg if it has one, the workload is running. -/
theorem triple_startAutostart (unit : UInt32) (control : Option Boot.UnitControl)
    (hsole : control.isSome → sole → SoleHolder s₀) :
  Exec.Triple (fun s => s = s₀) (startAutostart unit control)
    (fun _ => Steady sole unit (control.isSome || s₀.sup.workloadControl) s₀) (Quiet s₀)
  := by
  have hsame : ∀ s, s = s₀ → Quiet s₀ s := by
    rintro s rfl
    exact quiet_refl s
  cases control with
  | none => exact (triple_startUnit unit s₀).conseq (fun _ h => h) (fun _ _ h => h.steady) fun _ h => h
  | some control =>
      apply (triple_gamePathOf control hsame).bind
      intro gamePath
      refine Exec.Triple.bind (Exec.triple_get (R := fun _ s => s = s₀) fun s hs => hs)
        fun s => ?_
      apply (triple_answered _ _ hsame).bind
      intro _
      apply (triple_startUnit unit s₀).bind
      intro _
      exact (triple_driveAndRetainControl (hsole rfl) control gamePath).bind fun _ =>
        triple_unlinkGame control

end Start

/-! ### The wait for the regions -/

section Gate

open Autostart

variable {server : BootServer ρ} {s₀ s : BootState server} {unit : UInt32} {held : Bool}
  {sole : Prop} {expected : List ExpectedRegion} {snapshot : ReadyManifest}

/-- The gate is open for a snapshot. -/
def Open (expected : List ExpectedRegion) (snapshot : ReadyManifest) (s : BootState server) :
    Prop :=
  if expected = [] then
    readyManifest (manifest s) = .ok snapshot
  else
    expectedRegionsReady (manifest s) expected = .ok snapshot

/-- The workload is gone and the gate is closed. -/
def Shut (expected : List ExpectedRegion) (s : BootState server) : Prop :=
  s.sup.workload = none ∧ ∀ snapshot, expectedRegionsReady (manifest s) expected ≠ .ok snapshot

theorem Shut.serves (h : Shut expected s) {t : BootState server} (hserves : Serves s t) :
  Shut expected t
  := by
  refine ⟨hserves.2.1.trans h.1, ?_⟩
  rw [hserves.2.2 h.1]
  exact h.2

/-- What holds at each round of the wait.  Once the workload is gone the gate stays closed. -/
def Unmet (expected : List ExpectedRegion) (sole : Prop) (unit : UInt32) (held : Bool)
    (s₀ s : BootState server) : Prop :=
  Underway unit held s₀ s ∧ (sole → s.sup.workload ≠ none ∨ Shut expected s)

theorem triple_serviceRegions (f : SuperviseError → BootError) :
  Exec.Triple (Unmet expected sole unit held s₀) (serviceRegions f)
    (fun _ => Unmet expected sole unit held s₀) (Quiet s₀)
  := by
  have halways := Exec.triple_of_always (x := (serviceRegions f : BootExec server Unit))
    (P := Unmet expected sole unit held s₀) (I := Unmet expected sole unit held s₀) (by
      rintro s ⟨hunderway, hworkload⟩
      have hserves := serves_serviceRegions f s
      refine ⟨hunderway.passes hserves.1, ?_⟩
      intro h
      rcases hworkload h with hsome | hshut
      · left
        rw [hserves.2.1]
        exact hsome
      · right
        exact hshut.serves hserves)
  exact halways.conseq (fun _ h => h) (fun _ _ h => h) (fun _ h => h.1.quiet)

/-- A wait behind a check that failed. -/
theorem triple_waitBootIo :
  Exec.Triple (fun s => Underway unit held s₀ s ∧
      ∀ snapshot, expectedRegionsReady (manifest s) expected ≠ .ok snapshot)
    (waitBootIo : BootExec server Unit) (fun _ => Unmet expected sole unit held s₀) (Quiet s₀)
  := by
  have halways := Exec.triple_of_always (x := (waitBootIo : BootExec server Unit))
    (P := fun s => Underway unit held s₀ s ∧
      ∀ snapshot, expectedRegionsReady (manifest s) expected ≠ .ok snapshot)
    (I := Unmet expected sole unit held s₀) (by
      rintro s ⟨hunderway, hclosed⟩
      obtain ⟨hpasses, hidle⟩ := waits_waitBootIo s
      refine ⟨hunderway.passes hpasses, ?_⟩
      intro _
      by_cases hnone : ((waitBootIo : BootExec server Unit).run s).1.sup.workload = none
      · right
        refine ⟨hnone, ?_⟩
        rw [hidle hnone]
        exact hclosed
      · exact Or.inl hnone)
  exact halways.conseq (fun _ h => h) (fun _ _ h => h) (fun _ h => h.1.quiet)

/-- The wait ends with an open gate, and a workload that was running in front of it is running. -/
theorem triple_waitRounds (hne : expected ≠ []) (fuel : Nat) (last : Option GateError) :
  Exec.Triple (Unmet expected sole unit held s₀) (waitRounds expected fuel last)
    (fun snapshot s => Steady sole unit held s₀ s ∧ Open expected snapshot s) (Quiet s₀)
  := by
  induction fuel generalizing last with
  | zero => exact Exec.triple_fail fun s hs => hs.1.quiet
  | succ fuel ih =>
      apply (triple_serviceRegions _).bind
      intro _ s hs
      rw [Exec.run_bind_of_ok (Exec.run_get s)]
      cases hcheck : expectedRegionsReady (manifest s) expected with
      | ok snapshot =>
          obtain ⟨hunderway, hworkload⟩ := hs
          refine ⟨⟨hunderway, ?_⟩, ?_⟩
          · intro h
            rcases hworkload h with hsome | hshut
            · exact hsome
            · exact absurd hcheck (hshut.2 snapshot)
          · rw [Open, if_neg hne]
            exact hcheck
      | err e =>
          apply (triple_waitBootIo.bind fun _ => ih (some e)) s
          refine ⟨hs.1, ?_⟩
          rw [hcheck]
          intro snapshot h
          cases h
      | panic => exact hs.1.quiet

theorem triple_waitForExpectedRegions (expected : List ExpectedRegion) :
  Exec.Triple (Steady sole unit held s₀) (waitForExpectedRegions expected)
    (fun snapshot s => Steady sole unit held s₀ s ∧ Open expected snapshot s) (Quiet s₀)
  := by
  rw [waitForExpectedRegions]
  have hstart : ∀ s, Steady sole unit held s₀ s → Unmet expected sole unit held s₀ s :=
    fun s hs => ⟨hs.1, fun h => Or.inl (hs.2 h)⟩
  split
  · rename_i hnil
    have hserve : Exec.Triple (Steady sole unit held s₀)
        (serviceRegions .regionService : BootExec server Unit)
        (fun _ => Steady sole unit held s₀) (Quiet s₀) := by
      have halways := Exec.triple_of_always (x := (serviceRegions .regionService :
          BootExec server Unit))
        (P := Steady sole unit held s₀) (I := Steady sole unit held s₀) (by
          rintro s ⟨hunderway, hworkload⟩
          have hserves := serves_serviceRegions .regionService s
          refine ⟨hunderway.passes hserves.1, ?_⟩
          rw [hserves.2.1]
          exact hworkload)
      exact halways.conseq (fun _ h => h) (fun _ _ h => h) (fun _ h => h.1.quiet)
    apply hserve.bind
    intro _ s hs
    rw [Exec.run_bind_of_ok (Exec.run_get s), Exec.run_lift]
    cases hready : readyManifest (manifest s) with
    | ok snapshot =>
        refine ⟨hs, ?_⟩
        rw [Open, if_pos hnil]
        exact hready
    | err e => exact hs.1.quiet
    | panic => exact hs.1.quiet
  · rename_i hne
    exact (triple_waitRounds hne _ _).pre hstart

end Gate

/-! ### The announcement -/

section Announcement

open Autostart

variable {server : BootServer ρ} {s₀ s t : BootState server} {unit : UInt32}
  {expected : List ExpectedRegion} {snapshot : ReadyManifest}

/-- The line of a breadcrumb. -/
def crumb (msg : String) : EventPayload × Bool :=
  (.logLine agentStream 1 (asBytes msg.toList), false)

/-- What the agent tells behind an open gate: the evidence about the expected regions, in their
order and between two breadcrumbs, and at the end `Ready`, with a doorbell. -/
def readyEvents (unit : UInt32) (snapshot : ReadyManifest) (evidence : List RegionEvidence) :
    List (EventPayload × Bool) :=
  crumb "boot: regions-gated" :: (evidence.flatMap evidenceEvents
    ++ [crumb "boot: evidence-done",
      (.ready unit snapshot.regionCount snapshot.manifestGeneration, true)])

/-- The evidence is emitted: nothing has happened since the gate was checked. -/
theorem run_emitExpectedRegionEvidence (hopen : Open expected snapshot s) :
  Snapshots (manifest s) snapshot ∧ ∃ t evidence,
    (emitExpectedRegionEvidence expected snapshot).run s = (t, .ok ()) ∧
      Adds s t (evidence.flatMap evidenceEvents) ∧
        List.Forall₂ (Backs (manifest s) snapshot) expected evidence
  := by
  rw [Open] at hopen
  split at hopen
  · rename_i hnil
    refine ⟨snapshots_of_readyManifest hopen, s, [], ?_, ?_, ?_⟩
    · rw [emitExpectedRegionEvidence, if_pos hnil]
      rfl
    · exact ⟨⟨[], (List.append_nil _).symm, rfl⟩, rfl, rfl⟩
    · rw [hnil]
      exact List.Forall₂.nil
  · rename_i hne
    obtain ⟨evidence, hevidence⟩ := expectedRegionsReady_eq_ok.mp hopen
    obtain ⟨hsnapshots, _, hbacks⟩ := evidence_backs hevidence
    obtain ⟨t, hrun, hadds⟩ := run_emitEvidence evidence s
    refine ⟨hsnapshots, t, evidence, ?_, hadds, hbacks⟩
    rw [emitExpectedRegionEvidence, if_neg hne, Exec.run_bind_of_ok (Exec.run_get s), hevidence,
      Res.mapErr_ok, Exec.run_bind_of_ok (Exec.run_lift _ _),
      Exec.run_bind_of_ok (Exec.run_failIf_of_not (not_not.mpr rfl) _)]
    exact hrun

/-- Behind an open gate the whole announcement is emitted. -/
theorem run_announce (unit : UInt32) (hopen : Open expected snapshot s) :
  Snapshots (manifest s) snapshot ∧ ∃ t evidence,
    (do
      breadcrumb "boot: regions-gated"
      emitExpectedRegionEvidence expected snapshot
      breadcrumb "boot: evidence-done"
      emitReady unit snapshot : BootExec server Unit).run s = (t, .ok ()) ∧
      Adds s t (readyEvents unit snapshot evidence) ∧
        List.Forall₂ (Backs (manifest s) snapshot) expected evidence
  := by
  obtain ⟨s₁, hrun₁, hadds₁⟩ := adds_breadcrumb "boot: regions-gated" s
  have hopen₁ : Open expected snapshot s₁ := by
    rw [Open, hadds₁.manifest]
    exact hopen
  obtain ⟨hsnapshots, s₂, evidence, hrun₂, hadds₂, hbacks⟩ :=
    run_emitExpectedRegionEvidence hopen₁
  obtain ⟨s₃, hrun₃, hadds₃⟩ := adds_breadcrumb "boot: evidence-done" s₂
  obtain ⟨s₄, hrun₄, hadds₄⟩ := @run_emit _ server true
    (.ready unit snapshot.regionCount snapshot.manifestGeneration) s₃
  rw [hadds₁.manifest] at hsnapshots hbacks
  refine ⟨hsnapshots, s₄, evidence, ?_, ?_, hbacks⟩
  · rw [Exec.run_bind_of_ok hrun₁, Exec.run_bind_of_ok hrun₂, Exec.run_bind_of_ok hrun₃]
    exact hrun₄
  · exact hadds₁.trans (hadds₂.trans (hadds₃.trans hadds₄))

/-- How a boot ends that does not fail: the gate was open, and the announcement was made. -/
def Ended (sole : Prop) (boot : BootManifest) (s₀ t : BootState server) : Prop :=
  match boot.autostartUnit with
  | none => ∃ snapshot, Snapshots (manifest t) snapshot ∧
      Adds s₀ t [(.ready 0xFFFFFFFF snapshot.regionCount snapshot.manifestGeneration, true)]
  | some unit => ∃ s snapshot evidence, Steady sole unit
      (((boot.unit unit).bind Boot.UnitEntry.control).isSome || s₀.sup.workloadControl) s₀ s ∧
      Adds s t (readyEvents unit snapshot evidence) ∧ Snapshots (manifest t) snapshot ∧
        List.Forall₂ (Backs (manifest t) snapshot) boot.expectedRegions evidence

/-- Whether the unit that is started at boot has a control section. -/
def controls (boot : BootManifest) : Bool :=
  match boot.autostartUnit with
  | none => false
  | some unit => ((boot.unit unit).bind Boot.UnitEntry.control).isSome

/-- A boot ends behind an open gate, or without `Ready`. -/
theorem triple_autostartAndReady (boot : BootManifest) (sole : Prop)
    (hsole : controls boot → sole → SoleHolder s₀) :
  Exec.Triple (fun s => s = s₀) (autostartAndReady boot) (fun _ => Ended sole boot s₀) (Quiet s₀)
  := by
  rw [autostartAndReady]
  cases hunit : boot.autostartUnit with
  | none =>
      rintro s rfl
      rw [Exec.run_bind_of_ok (Exec.run_get s)]
      cases hready : readyManifest (manifest s) with
      | ok snapshot =>
          obtain ⟨t, hrun, hadds⟩ := @run_emit _ server true
            (.ready 0xFFFFFFFF snapshot.regionCount snapshot.manifestGeneration) s
          rw [Res.mapErr_ok, Exec.run_bind_of_ok (Exec.run_lift _ _)]
          have hemit : (emitReady 0xFFFFFFFF snapshot).run s = (t, .ok ()) := hrun
          rw [hemit]
          dsimp only
          rw [Ended, hunit]
          refine ⟨snapshot, ?_, hadds⟩
          rw [hadds.manifest]
          exact snapshots_of_readyManifest hready
      | err e => exact quiet_refl s
      | panic => exact quiet_refl s
  | some unit =>
      rw [controls, hunit] at hsole
      apply (triple_startAutostart unit _ hsole).bind
      intro _
      apply (triple_waitForExpectedRegions boot.expectedRegions).bind
      intro snapshot
      apply Exec.triple_of_run
      rintro s ⟨hsteady, hopen⟩
      obtain ⟨hsnapshots, t, evidence, hrun, hadds, hbacks⟩ := run_announce unit hopen
      refine ⟨t, (), hrun, ?_⟩
      rw [Ended, hunit]
      refine ⟨s, snapshot, evidence, hsteady, hadds, ?_, ?_⟩
      · rw [hadds.manifest]
        exact hsnapshots
      · rw [hadds.manifest]
        exact hbacks

end Announcement

/-! ### Every boot -/

section Boots

open Autostart

variable {server : BootServer ρ}

/-- What a boot that ends has told: without a unit `Ready` alone, and otherwise some events without
`Ready` and then the announcement, whose evidence is about live entries of the manifest as it is at
the end, at the generation that `Ready` tells. -/
def Announces (boot : BootManifest) (t : BootState server) (emitted : List Emission) : Prop :=
  match boot.autostartUnit with
  | none => ∃ snapshot, Snapshots (manifest t) snapshot ∧ emitted.map told
      = [(.ready 0xFFFFFFFF snapshot.regionCount snapshot.manifestGeneration, true)]
  | some unit => ∃ (before : List Emission) (snapshot : ReadyManifest)
      (evidence : List RegionEvidence), (∀ e ∈ before, isReady e.ev = false) ∧
      Snapshots (manifest t) snapshot ∧
        List.Forall₂ (Backs (manifest t) snapshot) boot.expectedRegions evidence ∧
          emitted.map told = before.map told ++ readyEvents unit snapshot evidence

/-- The agent emits `Ready` only at the end of a boot whose gate was open. -/
theorem ready_gated (boot : BootManifest) (s : BootState server) :
  let next := (autostartAndReady boot).run s
  ∃ emitted, next.1.sup.emitted = s.sup.emitted ++ emitted ∧
    if next.2 = .ok () then
      Announces boot next.1 emitted
    else
      ∀ e ∈ emitted, isReady e.ev = false
  := by
  have hend := triple_autostartAndReady boot False (fun _ h => h.elim) s rfl
  rcases hrun : (autostartAndReady boot).run s with ⟨t, _ | e | _⟩ <;> rw [hrun] at hend
  · dsimp only at hend ⊢
    rw [Ended] at hend
    cases hunit : boot.autostartUnit with
    | none =>
        rw [hunit] at hend
        obtain ⟨snapshot, hsnapshots, hadds⟩ := hend
        obtain ⟨tail, htail, htold⟩ := hadds.emitted
        refine ⟨tail, htail, ?_⟩
        rw [if_pos rfl, Announces, hunit]
        exact ⟨snapshot, hsnapshots, htold⟩
    | some unit =>
        rw [hunit] at hend
        obtain ⟨s₁, snapshot, evidence, hsteady, hadds, hsnapshots, hbacks⟩ := hend
        obtain ⟨before, hbefore, hquiet⟩ := hsteady.1.quiet
        obtain ⟨tail, htail, htold⟩ := hadds.emitted
        refine ⟨before ++ tail, by rw [htail, hbefore, List.append_assoc], ?_⟩
        rw [if_pos rfl, Announces, hunit]
        refine ⟨before, snapshot, evidence, fun e he => isReady_of_not_heralds (hquiet e he),
          hsnapshots, hbacks, ?_⟩
        rw [List.map_append, htold]
  · obtain ⟨quiet, hquiet, hready⟩ := hend
    refine ⟨quiet, hquiet, ?_⟩
    rw [if_neg (by simp)]
    exact fun e he => isReady_of_not_heralds (hready e he)
  · obtain ⟨quiet, hquiet, hready⟩ := hend
    refine ⟨quiet, hquiet, ?_⟩
    rw [if_neg (by simp)]
    exact fun e he => isReady_of_not_heralds (hready e he)

/-- The life of a boot that ends: a unit that was started is still running, with its control socket
held if it has one, and of the events that mark the boot there are its start and then `Ready`. -/
def Endures (boot : BootManifest) (s t : BootState server) (emitted : List Emission) : Prop :=
  ∃ regionCount manifestGeneration,
    match boot.autostartUnit with
    | none => (emitted.map Emission.ev).filter marks
        = [.ready 0xFFFFFFFF regionCount manifestGeneration]
    | some unit => ∃ w, t.sup.workload = some w ∧ w.unit = unit ∧
        t.sup.workloadControl
          = (((boot.unit unit).bind Boot.UnitEntry.control).isSome || s.sup.workloadControl) ∧
        (emitted.map Emission.ev).filter marks
          = [.workloadStarted w.pid.toUInt32 unit, .ready unit regionCount manifestGeneration]

/-- The announcement marks the boot by `Ready` alone. -/
theorem filter_readyEvents (unit : UInt32) (snapshot : ReadyManifest)
    (evidence : List RegionEvidence) :
  ((readyEvents unit snapshot evidence).map Prod.fst).filter marks
    = [.ready unit snapshot.regionCount snapshot.manifestGeneration]
  := by
  have hnone : ((evidence.flatMap evidenceEvents).map Prod.fst).filter marks = [] := by
    rw [List.filter_eq_nil_iff]
    intro ev hev
    obtain ⟨c, hc, rfl⟩ := List.mem_map.mp hev
    obtain ⟨e, _, hc⟩ := List.mem_flatMap.mp hc
    rcases List.mem_cons.mp hc with rfl | hc
    · simp [marks]
    · obtain rfl := List.mem_singleton.mp hc
      simp [marks]
  rw [readyEvents, List.map_cons, List.filter_cons_of_neg (by simp [crumb, marks]),
    List.map_append, List.filter_append, hnone]
  rfl

/-- A workload that has ended is never announced as ready, if it was the only holder of the other
end of its control socket. -/
theorem ready_alive (boot : BootManifest) (s : BootState server)
    (hsole : controls boot → SoleHolder s) :
  let next := (autostartAndReady boot).run s
  ∃ emitted, next.1.sup.emitted = s.sup.emitted ++ emitted ∧
    if next.2 = .ok () then
      Endures boot s next.1 emitted
    else
      ∀ e ∈ emitted, isReady e.ev = false
  := by
  have hmap : ∀ tail : List Emission, tail.map Emission.ev = (tail.map told).map Prod.fst := by
    intro tail
    rw [List.map_map]
    rfl
  have hend := triple_autostartAndReady boot True (fun h _ => hsole h) s rfl
  rcases hrun : (autostartAndReady boot).run s with ⟨t, _ | e | _⟩ <;> rw [hrun] at hend
  · dsimp only at hend ⊢
    rw [Ended] at hend
    cases hunit : boot.autostartUnit with
    | none =>
        rw [hunit] at hend
        obtain ⟨snapshot, hsnapshots, hadds⟩ := hend
        obtain ⟨tail, htail, htold⟩ := hadds.emitted
        refine ⟨tail, htail, ?_⟩
        rw [if_pos rfl]
        refine ⟨snapshot.regionCount, snapshot.manifestGeneration, ?_⟩
        rw [hunit]
        dsimp only
        rw [hmap, htold]
        rfl
    | some unit =>
        rw [hunit] at hend
        obtain ⟨s₁, snapshot, evidence, ⟨hunderway, hworkload⟩, hadds, _, _⟩ := hend
        obtain ⟨_, pid, before, hw, hbefore, hmarks⟩ := hunderway.alive (hworkload trivial)
        obtain ⟨tail, htail, htold⟩ := hadds.emitted
        refine ⟨before ++ tail, by rw [htail, hbefore, List.append_assoc], ?_⟩
        rw [if_pos rfl]
        refine ⟨snapshot.regionCount, snapshot.manifestGeneration, ?_⟩
        rw [hunit]
        dsimp only
        obtain ⟨w, hworkload, hsome⟩ := Option.map_eq_some_iff.mp (hadds.workload.trans hw)
        obtain ⟨rfl, hrest⟩ := Prod.mk.inj hsome
        obtain ⟨rfl, hcontrol⟩ := Prod.mk.inj hrest
        refine ⟨w, hworkload, rfl, hcontrol, ?_⟩
        rw [List.map_append, List.filter_append, hmarks, hmap, htold, filter_readyEvents]
        rfl
  · obtain ⟨quiet, hquiet, hready⟩ := hend
    refine ⟨quiet, hquiet, ?_⟩
    rw [if_neg (by simp)]
    exact fun e he => isReady_of_not_heralds (hready e he)
  · obtain ⟨quiet, hquiet, hready⟩ := hend
    refine ⟨quiet, hquiet, ?_⟩
    rw [if_neg (by simp)]
    exact fun e he => isReady_of_not_heralds (hready e he)

/-! ### A boot with a control leg -/

/-- The manifest area as the agent sets it up. -/
def bootArea : Slice :=
  ⟨ByteMem.write (fun _ => 0) 0 (canonicalHeader 0 0 0).fields.flatten, manifestTotalSize, []⟩

/-- A region server that nobody asks. -/
def quietServer : BootServer Unit where
  reverify _ now := ((), now, [])
  service _ _ now := ((), now, [], none)
  manifest _ := bootArea
  reverify_quiet _ _ _ h := nomatch h
  service_quiet _ _ _ _ h := nomatch h
  service_regional _ _ _ _ h := nomatch h
  service_idle _ _ := rfl

/-- A moment in which nothing happens. -/
def restfulMoment : Moment quietServer := ⟨id, fun _ => [], id, fun _ => rfl⟩

/-- One unit, with a control section, and no region to wait for. -/
def controlledBoot : BootManifest :=
  { autostartUnit := some 0
    units := [⟨0, ['/'], [], 31, some ⟨Boot.refworkCtl, 1, some ['/'], none⟩⟩]
    expectedRegions := [] }

/-- What a send of `n` bytes is answered: the other end is the workload's alone. -/
def answerSend (n : Nat) (sup : Supervisor Unit) : Except Int32 Nat :=
  if sup.workload = none then .error 32 else .ok n

/-- The workload answers the greeting at once, and loads the game while the agent waits. -/
def controlledState : BootState quietServer :=
  { sup := Supervisor.new [⟨0, 31⟩] ⟨[], 5, []⟩ none 0
    area := bootArea
    moments := [restfulMoment, restfulMoment]
    wakes := [.ok [.other]]
    polls := [.ok (some [5, 1, 0, 0]), .ok none, .ok (some (6 :: List.replicate 34 0)),
      .ok (some [8, 0])]
    sends := [answerSend 2, answerSend 3, answerSend 1]
    sent := []
    materialized := .ok ()
    socketpair := .ok ()
    unlinked := .ok () }

theorem run_controlledBoot :
  ((autostartAndReady controlledBoot).run controlledState).2 = .ok ()
  := by
  decide +kernel

theorem soleHolder_controlledState :
  SoleHolder controlledState
  := by
  intro answer hanswer sup hnone
  have hsends : answer ∈ [answerSend 2, answerSend 3, answerSend 1] := hanswer
  simp only [List.mem_cons, List.not_mem_nil, or_false] at hsends
  rcases hsends with rfl | rfl | rfl <;> exact ⟨32, if_pos hnone⟩

/-- The boot gets through its control leg, and the workload is announced as ready. -/
theorem ready_alive_controlled :
  let next := (autostartAndReady controlledBoot).run controlledState
  next.2 = .ok () ∧ ∃ emitted, next.1.sup.emitted = controlledState.sup.emitted ++ emitted ∧
    Endures controlledBoot controlledState next.1 emitted
  := by
  have hend := ready_alive controlledBoot controlledState fun _ => soleHolder_controlledState
  refine ⟨run_controlledBoot, hend.imp ?_⟩
  intro emitted h
  rw [if_pos run_controlledBoot] at h
  exact h

end Boots

end Protocol
