import DetGuest.Agent.Autostart
import DetGuest.Protocol.Service

/-!
# The region server among the agent's duties

To the supervisor a region server is a round of requests and a sweep.  The server behind its sockets
is one, in a build without overflow checks: it never panics, because it keeps a book, and it emits
only events about regions.
-/

namespace Protocol.Regions

open Wire Wire.Regionipc Agent Agent.RegionSockets

variable {τ : Type}

/-! ### What the server emits -/

/-- The server emits only events with a property. -/
def Emits (p : EventPayload → Bool) (s s' : RegionIpc τ) : Prop :=
  ∃ es, s'.emitted = s.emitted ++ es ∧ ∀ e ∈ es, p e.ev = true

instance (p : EventPayload → Bool) : IsPreorder (RegionIpc τ) (Emits p) where
  refl s := ⟨[], (List.append_nil _).symm, fun _ h => nomatch h⟩
  trans := by
    rintro s t u ⟨es, hes, hall⟩ ⟨es', hes', hall'⟩
    refine ⟨es ++ es', by rw [hes', hes, List.append_assoc], ?_⟩
    intro e he
    rcases List.mem_append.mp he with h | h
    · exact hall e h
    · exact hall' e h

section Emits

variable {p : EventPayload → Bool} {dbg : Bool} {f : Translator τ}

theorem emits_of_eq {s s' : RegionIpc τ} (h : s'.emitted = s.emitted) :
  Emits p s s'
  := ⟨[], by rw [h, List.append_nil], fun _ h => nomatch h⟩

theorem emits_emit {doorbell : Bool} {ev : EventPayload} (h : p ev = true) :
  Exec.Relates (Emits p) (RegionIpc.emit doorbell ev : RegionExec τ Unit)
  := by
  apply Exec.relates_modify
  intro s
  refine ⟨[⟨s.vnanos, 0, ev, doorbell⟩], rfl, ?_⟩
  intro e he
  rw [List.mem_singleton.mp he]
  exact h

theorem emits_onManifest {α : Type} (x : Exec Slice Status α) :
  Exec.Relates (Emits p) (RegionIpc.onManifest x : RegionExec τ (Except Status α))
  := by
  intro s
  rw [RegionIpc.onManifest]
  dsimp only
  rcases x.run s.manifest with ⟨manifest, a | e | _⟩ <;> exact emits_of_eq rfl

theorem emits_translate (pid : Int32) (gva len : UInt64) :
  Exec.Relates (Emits p) (RegionIpc.translate f pid gva len)
  := fun _ => emits_of_eq rfl

theorem emits_modify {g : RegionIpc τ → RegionIpc τ} (h : ∀ s, (g s).emitted = s.emitted) :
  Exec.Relates (Emits p) (Exec.modify g : RegionExec τ Unit)
  := Exec.relates_modify fun s => emits_of_eq (h s)

/-- A request emits the evidence about its region, or nothing. -/
theorem emits_handle (req : Request) (peerPid : Int32) (workloadPid : Option Int32) :
  Exec.Relates (Emits regional) (RegionIpc.handle dbg f req peerPid workloadPid)
  := by
  cases req with
  | register flags layoutVersion nameId gva len name =>
      rw [RegionIpc.handle]
      refine Exec.Relates.ite (Exec.relates_pure _) ?_
      refine (emits_translate _ _ _).bind fun answer => ?_
      cases answer with
      | error e => exact Exec.relates_pure _
      | ok extents =>
          refine (emits_onManifest _).bind fun written => ?_
          cases written with
          | error status => exact Exec.relates_pure _
          | ok written =>
              obtain ⟨regionId, generation⟩ := written
              refine Exec.Relates.ite (Exec.relates_pure _) ?_
              refine (emits_emit rfl).bind fun _ => (emits_emit rfl).bind fun _ => ?_
              refine Exec.Relates.bind (emits_modify ?_) fun _ => Exec.relates_pure _
              exact fun _ => rfl
  | unregister regionId =>
      rw [RegionIpc.handle]
      refine Exec.Relates.ite (Exec.relates_pure _) ?_
      refine Exec.relates_get.bind fun s => ?_
      cases s.records.find? fun r => r.regionId = regionId ∧ r.dead = false with
      | none => exact Exec.relates_pure _
      | some record =>
          refine (emits_onManifest _).bind fun marked => ?_
          cases marked with
          | error status => exact Exec.relates_pure _
          | ok generation =>
              refine Exec.Relates.bind (emits_modify ?_) fun _ => Exec.relates_pure _
              exact fun _ => rfl

/-- A datagram is handled as a request or not at all. -/
theorem emits_serve (datagram : Bytes) (peerPid : Int32) (workloadPid : Option Int32) :
  Exec.Relates (Emits regional) (RegionIpc.serve dbg f datagram peerPid workloadPid)
  := by
  rw [RegionIpc.serve]
  refine Exec.Relates.ite (Exec.relates_pure _) ?_
  cases decodeRequest datagram with
  | ok req => exact emits_handle req peerPid workloadPid
  | err e => exact Exec.relates_pure _
  | panic => exact Exec.relates_panic

/-- A sweep emits lines and updates. -/
theorem emits_reverify (hline : ∀ msg, p (.logLine agentStream 0 msg) = true)
    (hupdate : ∀ event, p (.regionUpdate event) = true) :
  Exec.Relates (Emits p) (RegionIpc.reverify dbg f)
  := by
  have hbury : ∀ record, Exec.Relates (Emits p)
      (RegionIpc.bury dbg record : RegionExec τ UInt64) := by
    intro record
    refine (emits_onManifest _).bind fun marked => ?_
    cases marked with
    | ok generation => exact Exec.relates_pure _
    | error status => exact Exec.relates_get.bind fun s => Exec.relates_pure _
  have hrecord : ∀ record, Exec.Relates (Emits p)
      (RegionIpc.reverifyRecord dbg f record) := by
    intro record
    refine (emits_translate _ _ _).bind fun answer => ?_
    cases answer with
    | error e => exact (hbury record).bind fun _ => Exec.relates_pure _
    | ok extents =>
        refine Exec.Relates.ite (Exec.relates_get.bind fun s => Exec.relates_pure _) ?_
        refine (emits_onManifest _).bind fun rewritten => ?_
        cases rewritten with
        | ok generation => exact Exec.relates_pure _
        | error status => exact (hbury record).bind fun _ => Exec.relates_pure _
  have hrecords : ∀ records, Exec.Relates (Emits p)
      (RegionIpc.reverifyRecords dbg f records) := by
    intro records
    induction records with
    | nil => exact Exec.relates_pure _
    | cons r rs ih =>
        refine Exec.Relates.ite ?_ ?_
        · exact ih.bind fun rest => Exec.relates_pure _
        · exact (hrecord r).bind fun next => ih.bind fun rest => Exec.relates_pure _
  have hupdates : ∀ updates, Exec.Relates (Emits p)
      (RegionIpc.emitUpdates updates : RegionExec τ Unit) := by
    intro updates
    induction updates with
    | nil => exact Exec.relates_pure _
    | cons update rest ih =>
        obtain ⟨event, alarm⟩ := update
        cases alarm with
        | none =>
            exact (Exec.relates_pure _).bind fun _ => (emits_emit (hupdate event)).bind fun _ => ih
        | some msg =>
            exact (emits_emit (hline msg)).bind fun _ => (emits_emit (hupdate event)).bind fun _ =>
              ih
  refine Exec.relates_get.bind fun s => (hrecords _).bind fun swept => ?_
  refine Exec.Relates.bind (emits_modify ?_) fun _ => hupdates _
  exact fun _ => rfl

end Emits

/-! ### A round -/

section Round

variable {dbg : Bool} {f : Translator τ} {workloadPid : Option Int32}
  {R : RegionIpc τ → RegionIpc τ → Prop} [IsPreorder (RegionIpc τ) R]

instance : IsPreorder (Desk τ) (fun d d' => R d.ipc d'.ipc) where
  refl d := refl d.ipc
  trans := fun _ _ _ h h' => trans_of R h h'

/-- The tasks of a round are the datagrams of the connections. -/
theorem tasks_round (workloadPid : Option Int32) (peers : Peers) :
  ∃ qs, (scheduleAct (.round workloadPid) peers).tasks = List.map (Task.answer workloadPid) qs
  := by
  rw [scheduleAct]
  split
  · exact ⟨_, rfl⟩
  · exact ⟨[], rfl⟩

theorem relates_answerQuery
    (h : ∀ datagram pid, Exec.Relates R (RegionIpc.serve dbg f datagram pid workloadPid))
    (q : Query) :
  Exec.Relates (fun d d' : Desk τ => R d.ipc d'.ipc) (answerQuery dbg f workloadPid q)
  := by
  rw [answerQuery, answer]
  refine Exec.Relates.bind (Exec.relates_focus (h q.bytes q.pid) fun _ _ h => h) fun reply => ?_
  rw [replyDatagram_eq, Exec.pure_bind]
  exact Exec.Relates.ite (Exec.relates_modify fun d => refl d.ipc) (Exec.relates_pure _)

/-- What each datagram that is served keeps to, a round keeps to. -/
theorem relates_service
    (h : ∀ datagram pid, Exec.Relates R (RegionIpc.serve dbg f datagram pid workloadPid))
    (s : RegionSockets τ) :
  R s.desk.ipc ((service dbg f workloadPid).run s).1.desk.ipc
  := by
  have hqueue : ∀ qs, Exec.Relates (fun d d' : Desk τ => R d.ipc d'.ipc)
      ((List.map (Task.answer workloadPid) qs).forM (Task.perform dbg f)) := by
    intro qs
    induction qs with
    | nil => exact Exec.relates_pure _
    | cons q qs ih => exact (relates_answerQuery h q).bind fun _ => ih
  obtain ⟨qs, htasks⟩ := tasks_round workloadPid s.peers
  have hfollows := service_follows dbg f workloadPid s.desk s.peers
  rw [hfollows.desk, htasks]
  exact hqueue qs s.desk

end Round

/-- Nobody is served without a workload. -/
theorem run_serve_none {dbg : Bool} {f : Translator τ} (datagram : Bytes) (peerPid : Int32)
    (s : RegionIpc τ) :
  ((RegionIpc.serve dbg f datagram peerPid none).run s).1 = s
  := by
  rw [RegionIpc.serve, Exec.run_ite]
  split
  · rfl
  · cases decodeRequest datagram with
    | ok req =>
        have hstranger : none ≠ some peerPid := Option.some_ne_none peerPid |>.symm
        exact congrArg Prod.fst (RegionIpc.run_handle_stranger hstranger)
    | err e => rfl
    | panic => rfl

/-! ### The server of the agent -/

/-- A server behind its sockets that keeps a book. -/
structure Served (τ : Type) where
  sockets : RegionSockets τ
  keeps : ∃ b, sockets.desk.ipc.Keeps b

namespace Served

variable {f : Translator τ}

/-- The server with the clock of the agent. -/
def clocked (r : Served τ) (now : UInt64) : RegionSockets τ :=
  { r.sockets with desk := { r.sockets.desk with ipc := { r.sockets.desk.ipc with
      vnanos := now
      emitted := [] } } }

theorem keeps_clocked (r : Served τ) (now : UInt64) :
  ∃ b, (r.clocked now).desk.ipc.Keeps b
  := by
  obtain ⟨b, hb⟩ := r.keeps
  exact ⟨b, hb.stored, hb.records⟩

/-- Tasks keep a book and do not panic, in a build without overflow checks. -/
theorem keeps_tasks {desk : Desk τ} (h : ∃ b, desk.ipc.Keeps b) (ts : List Task) :
  ∃ desk', (ts.forM (Task.perform false f)).run desk = (desk', .ok ()) ∧ ∃ b, desk'.ipc.Keeps b
  := by
  obtain ⟨b, hb⟩ := h
  have hstart : Run false f desk.ipc [] desk.ipc := .nil
  rcases run_tasks hb ts hstart with
    ⟨desk', xs, out, hdone, hrun, _, _⟩ | ⟨_, hdbg, _⟩
  · exact ⟨desk', hdone, hrun.keeps hb⟩
  · cases hdbg

theorem keeps_act {s : RegionSockets τ} (h : ∃ b, s.desk.ipc.Keeps b) (a : Act) :
  ∃ b, ((act false f a).run s).1.desk.ipc.Keeps b
  := by
  obtain ⟨desk', hdone, hkeeps⟩ := keeps_tasks (f := f) h (scheduleAct a s.peers).tasks
  have hfollows := act_follows false f a s.desk s.peers
  rw [hfollows.desk, hdone]
  exact hkeeps

/-- The server behind an act. -/
def after (f : Translator τ) (a : Act) (r : Served τ) (now : UInt64) : Served τ :=
  ⟨((act false f a).run (r.clocked now)).1, keeps_act (r.keeps_clocked now) a⟩

/-- A sweep. -/
def reverify (f : Translator τ) (r : Served τ) (now : UInt64) :
    Served τ × UInt64 × List Emission :=
  let r' := r.after f .sweep now
  (r', r'.sockets.desk.ipc.vnanos, r'.sockets.desk.ipc.emitted)

/-- A round of requests; the errno is the listener's. -/
def service (f : Translator τ) (r : Served τ) (workloadPid : Option Int32) (now : UInt64) :
    Served τ × UInt64 × List Emission × Option Int32 :=
  let r' := r.after f (.round workloadPid) now
  let outcome := ((act false f (.round workloadPid)).run (r.clocked now)).2
  (r', r'.sockets.desk.ipc.vnanos, r'.sockets.desk.ipc.emitted,
    match outcome with
    | .err errno => some errno
    | _ => none)

/-- No act of the server panics. -/
theorem act_ne_panic (r : Served τ) (now : UInt64) (a : Act) :
  ((act false f a).run (r.clocked now)).2 ≠ .panic
  := by
  obtain ⟨desk', hdone, _⟩ := keeps_tasks (f := f) (r.keeps_clocked now)
    (scheduleAct a (r.clocked now).peers).tasks
  have hfollows := act_follows false f a (r.clocked now).desk (r.clocked now).peers
  rw [(hfollows.done (congrArg Prod.snd hdone)).2]
  exact outcome_scheduleAct a _

/-- What a sweep emits. -/
theorem emits_sweep {p : EventPayload → Bool} (hline : ∀ msg, p (.logLine agentStream 0 msg) = true)
    (hupdate : ∀ event, p (.regionUpdate event) = true) (r : Served τ) (now : UInt64) :
  ∀ e ∈ (r.reverify f now).2.2, p e.ev = true
  := by
  have hsweep : Exec.Relates (Emits p) (RegionIpc.reverify false f) :=
    emits_reverify hline hupdate
  obtain ⟨es, hes, hall⟩ := hsweep (r.clocked now).desk.ipc
  intro e he
  have hmem : e ∈ ((RegionIpc.reverify false f).run (r.clocked now).desk.ipc).1.emitted := he
  rw [hes] at hmem
  exact hall e hmem

/-- What a round emits. -/
theorem emits_round (r : Served τ) (workloadPid : Option Int32) (now : UInt64) :
  ∀ e ∈ (r.service f workloadPid now).2.2.1, regional e.ev = true
  := by
  have hserve : ∀ datagram pid, Exec.Relates (Emits regional)
      (RegionIpc.serve false f datagram pid workloadPid) :=
    fun datagram pid => emits_serve datagram pid workloadPid
  obtain ⟨es, hes, hall⟩ := relates_service hserve (r.clocked now)
  intro e he
  have hmem : e ∈ ((RegionSockets.service false f workloadPid).run
    (r.clocked now)).1.desk.ipc.emitted := he
  rw [hes] at hmem
  exact hall e hmem

theorem service_of_none (r : Served τ) (now : UInt64) :
  (r.service f none now).1.sockets.desk.ipc.manifest = r.sockets.desk.ipc.manifest
  := by
  have hserve : ∀ datagram pid, Exec.Relates (fun s s' : RegionIpc τ => s = s')
      (RegionIpc.serve false f datagram pid none) :=
    fun datagram pid s => (run_serve_none datagram pid s).symm
  have hsame := relates_service hserve (r.clocked now)
  exact (congrArg RegionIpc.manifest hsame).symm

end Served

theorem notable_of_regional {ev : EventPayload} (h : regional ev = true) :
  notable ev = false
  := by
  cases ev <;> first | rfl | cases h

/-- The server of the agent, as the boot and the supervisor see it. -/
def bootServer (f : Translator τ) : BootServer (Served τ) where
  reverify := Served.reverify f
  service := Served.service f
  manifest r := r.sockets.desk.ipc.manifest
  reverify_quiet r now := fun e he => by
    simpa using Served.emits_sweep (p := fun ev => !notable ev) (fun _ => rfl) (fun _ => rfl)
      r now e he
  service_quiet r workloadPid now := fun e he =>
    notable_of_regional (r.emits_round workloadPid now e he)
  service_regional r workloadPid now := r.emits_round workloadPid now
  service_idle r now := r.service_of_none now

end Protocol.Regions
