import DetGuest.Agent.Service
import DetGuest.Protocol.Registry
import DetGuest.Wire.Framing

/-!
# The region server behind its sockets

Peers connect, send and leave at any time, and the agent serves rounds and sweeps the regions in
between.  In every such run the server does what it would do if it took one datagram at a time out
of a queue that only the peers fill.  The steps are those of a run of the server on its own.
-/

namespace Protocol.Regions

open Wire Wire.Regionipc Agent Agent.RegionSockets

variable {τ : Type}

/-! ### Acts -/

/-- What happens at the sockets. -/
inductive Act where
  | connect (arrival : Arrival)
  | deliver (fd : Nat) (inbound : List Inbound)
  | round (workloadPid : Option Int32)
  | sweep
  deriving DecidableEq, Repr

/-- A connection finds more in its inbox. -/
def pour (fd : Nat) (inbound : List Inbound) (c : Conn) : Conn :=
  if c.fd = fd then { c with inbox := c.inbox ++ inbound } else c

/-- A connection that is not accepted yet finds more in its inbox. -/
def pourPending (fd : Nat) (inbound : List Inbound) : Arrival → Arrival
  | .conn fd' peer inbox => .conn fd' peer (if fd' = fd then inbox ++ inbound else inbox)
  | .failed errno => .failed errno

/-- A connection is pending. -/
def connect (arrival : Arrival) (peers : Peers) : Peers :=
  { peers with backlog := peers.backlog ++ [arrival] }

/-- A peer sends. -/
def deliver (fd : Nat) (inbound : List Inbound) (peers : Peers) : Peers :=
  ⟨peers.backlog.map (pourPending fd inbound), peers.conns.map (pour fd inbound)⟩

/-- An act. -/
def act (dbg : Bool) (f : Translator τ) : Act → Exec (RegionSockets τ) Int32 Unit
  | .connect arrival => Exec.focus (peersPart τ) (Exec.modify (connect arrival))
  | .deliver fd inbound => Exec.focus (peersPart τ) (Exec.modify (deliver fd inbound))
  | .round workloadPid => service dbg f workloadPid
  | .sweep =>
      Exec.focus (deskPart τ)
        (Exec.mapErr Empty.elim (Exec.focus (ipcPart τ) (RegionIpc.reverify dbg f)))

/-- A server without regions that no process is connected to. -/
def idle (m : ByteMem) (t : τ) : RegionSockets τ := ⟨⟨initial m t, []⟩, ⟨[], []⟩⟩

/-! ### One queue -/

/-- What the server does at a time. -/
inductive Task where
  | answer (workloadPid : Option Int32) (q : Query)
  | sweep
  deriving DecidableEq, Repr

/-- Do one thing. -/
def Task.perform (dbg : Bool) (f : Translator τ) : Task → Exec (Desk τ) Empty Unit
  | .answer workloadPid q => answerQuery dbg f workloadPid q
  | .sweep => Exec.focus (ipcPart τ) (RegionIpc.reverify dbg f)

/-- The tasks that acts come to, the other ends behind them, and how the acts end. -/
structure Schedule where
  tasks : List Task
  peers : Peers
  outcome : Res Int32 Unit
  deriving DecidableEq, Repr

/-- The tasks of one act. -/
def scheduleAct (a : Act) (peers : Peers) : Schedule :=
  match a with
  | .round workloadPid =>
      match acceptAll peers.conns peers.backlog with
      | (accepted, .ok ()) =>
          ⟨(queue accepted.conns).map (.answer workloadPid),
            { accepted with conns := settle accepted.conns }, .ok ()⟩
      | (accepted, outcome) => ⟨[], accepted, outcome⟩
  | .sweep => ⟨[.sweep], peers, .ok ()⟩
  | .connect arrival => ⟨[], connect arrival peers, .ok ()⟩
  | .deliver fd inbound => ⟨[], deliver fd inbound peers, .ok ()⟩

/-- The tasks of a list of acts.  An error of the listener ends them. -/
def schedule : List Act → Peers → Schedule
  | [], peers => ⟨[], peers, .ok ()⟩
  | a :: as, peers =>
      let one := scheduleAct a peers
      match one.outcome with
      | .ok () =>
          let rest := schedule as one.peers
          { rest with tasks := one.tasks ++ rest.tasks }
      | _ => one

/-- The server behind its sockets has done the tasks of a schedule. -/
structure Follows (x : RegionSockets τ × Res Int32 Unit) (y : Desk τ × Res Empty Unit)
    (plan : Schedule) : Prop where
  desk : x.1.desk = y.1
  done : y.2 = .ok () → x.1.peers = plan.peers ∧ x.2 = plan.outcome
  panics : y.2 = .panic → x.2 = .panic

section Schedule

variable {dbg : Bool} {f : Translator τ}

theorem acceptAll_ne_panic (conns : List Conn) (backlog : List Arrival) :
  (acceptAll conns backlog).2 ≠ .panic
  := by
  induction backlog generalizing conns with
  | nil => exact fun h => nomatch h
  | cons arrival rest ih =>
      cases arrival with
      | failed errno => exact fun h => nomatch h
      | conn fd peer inbox =>
          cases peer with
          | error errno =>
              rw [acceptAll]
              split
              · exact ih conns
              · exact fun h => nomatch h
          | ok pid =>
              rw [acceptAll]
              split
              · exact ih conns
              · exact ih _

/-- There are never more connections than the greatest number. -/
theorem length_acceptAll {conns : List Conn} (h : conns.length ≤ maxConns)
    (backlog : List Arrival) :
  (acceptAll conns backlog).1.conns.length ≤ maxConns
  := by
  induction backlog generalizing conns with
  | nil => exact h
  | cons arrival rest ih =>
      cases arrival with
      | failed errno => exact h
      | conn fd peer inbox =>
          cases peer with
          | error errno =>
              rw [acceptAll]
              split
              · exact ih h
              · exact h
          | ok pid =>
              rw [acceptAll]
              split
              · exact ih h
              · apply ih
                rw [List.length_append, List.length_singleton]
                omega

theorem length_settle (conns : List Conn) :
  (settle conns).length ≤ conns.length
  := by
  rw [settle, List.length_map]
  exact List.length_filter_le _ _

theorem length_scheduleAct {a : Act} {peers : Peers} (h : peers.conns.length ≤ maxConns) :
  (scheduleAct a peers).peers.conns.length ≤ maxConns
  := by
  cases a with
  | connect arrival => exact h
  | deliver fd inbound => exact (List.length_map ..).trans_le h
  | sweep => exact h
  | round workloadPid =>
      have haccepted := length_acceptAll h peers.backlog
      rw [scheduleAct]
      split
      · rename_i accepted heq
        rw [heq] at haccepted
        exact Nat.le_trans (length_settle _) haccepted
      · rename_i accepted outcome _ heq
        rw [heq] at haccepted
        exact haccepted

theorem outcome_scheduleAct (a : Act) (peers : Peers) :
  (scheduleAct a peers).outcome ≠ .panic
  := by
  cases a with
  | connect arrival => exact fun h => nomatch h
  | deliver fd inbound => exact fun h => nomatch h
  | sweep => exact fun h => nomatch h
  | round workloadPid =>
      have haccepted := acceptAll_ne_panic peers.conns peers.backlog
      rw [scheduleAct]
      split
      · exact fun h => nomatch h
      · rename_i heq
        rw [heq] at haccepted
        exact haccepted

theorem length_schedule {as : List Act} {peers : Peers} (h : peers.conns.length ≤ maxConns) :
  (schedule as peers).peers.conns.length ≤ maxConns
  := by
  induction as generalizing peers with
  | nil => exact h
  | cons a as ih =>
      have hone := length_scheduleAct (a := a) h
      rw [schedule]
      dsimp only
      split
      · exact ih hone
      · exact hone

/-- Behind a round only connections that have not ended are left. -/
theorem run_closeEnded (conns : List Conn) (backlog : List Arrival) :
  (Exec.focus connsPart (ε := Int32) do
      Removal.removeAll (Removal.indices (fun c => ends c.inbox) 0 conns)
      Exec.modify (List.map drained)).run ⟨backlog, conns⟩
    = (⟨backlog, settle conns⟩, .ok ())
  := by
  have hremove := Removal.run_removeAll (ε := Int32) (fun c : Conn => ends c.inbox) conns
  exact Exec.run_focus ((Exec.run_bind_of_ok hremove).trans rfl)

/-- A round follows the queue of the connections that it has accepted. -/
theorem service_follows (dbg : Bool) (f : Translator τ) (workloadPid : Option Int32)
    (desk : Desk τ) (peers : Peers) :
  Follows ((service dbg f workloadPid).run ⟨desk, peers⟩)
    (((scheduleAct (.round workloadPid) peers).tasks.forM (Task.perform dbg f)).run desk)
    (scheduleAct (.round workloadPid) peers)
  := by
  rw [service, scheduleAct]
  rcases haccept : acceptAll peers.conns peers.backlog with ⟨accepted, ⟨⟩ | errno | _⟩
  · have hfirst : (Exec.focus (peersPart τ) acceptPending).run ⟨desk, peers⟩
        = (⟨desk, accepted⟩, .ok ()) := Exec.run_focus haccept
    rw [Exec.run_bind_of_ok hfirst, Exec.run_bind_of_ok (Exec.run_get _)]
    dsimp only
    have htasks : ((queue accepted.conns).map (Task.answer workloadPid)).forM (Task.perform dbg f)
        = (queue accepted.conns).forM (answerQuery dbg f workloadPid) := by
      induction queue accepted.conns with
      | nil => rfl
      | cons q qs ih => exact congrArg (answerQuery dbg f workloadPid q >>= fun _ => ·) ih
    rw [htasks, serveConns_eq]
    rcases hrun : ((queue accepted.conns).forM (answerQuery dbg f workloadPid)).run desk
      with ⟨desk', ⟨⟩ | e | _⟩
    · have hserve : (Exec.focus (deskPart τ) (Exec.mapErr (Empty.elim : Empty → Int32)
            ((queue accepted.conns).forM (answerQuery dbg f workloadPid) >>= fun _ =>
              pure (Removal.indices (fun c => ends c.inbox) 0 accepted.conns)))).run
            ⟨desk, accepted⟩
          = (⟨desk', accepted⟩, .ok (Removal.indices (fun c => ends c.inbox) 0 accepted.conns)) :=
        Exec.run_focus (Exec.run_mapErr_of_ok ((Exec.run_bind_of_ok hrun).trans rfl))
      rw [Exec.run_bind_of_ok hserve]
      have hclose := @Exec.run_focus _ _ _ _ (peersPart τ) _ ⟨desk', accepted⟩ _ _
        (run_closeEnded accepted.conns accepted.backlog)
      rw [hclose]
      exact ⟨rfl, fun _ => ⟨rfl, rfl⟩, fun h => nomatch h⟩
    · exact e.elim
    · have hserve : (Exec.focus (deskPart τ) (Exec.mapErr (Empty.elim : Empty → Int32)
            ((queue accepted.conns).forM (answerQuery dbg f workloadPid) >>= fun _ =>
              pure (Removal.indices (fun c => ends c.inbox) 0 accepted.conns)))).run
            ⟨desk, accepted⟩
          = (⟨desk', accepted⟩, .panic) :=
        Exec.run_focus (Exec.run_mapErr_of_panic (Exec.run_bind_of_panic hrun))
      rw [Exec.run_bind_of_panic hserve]
      exact ⟨rfl, fun h => (nomatch h), fun _ => rfl⟩
  · have hfirst : (Exec.focus (peersPart τ) acceptPending).run ⟨desk, peers⟩
        = (⟨desk, accepted⟩, .err errno) := Exec.run_focus haccept
    rw [Exec.run_bind_of_err hfirst]
    exact ⟨rfl, fun _ => ⟨rfl, rfl⟩, fun h => nomatch h⟩
  · have hpanic := acceptAll_ne_panic peers.conns peers.backlog
    rw [haccept] at hpanic
    exact absurd rfl hpanic

/-- An act follows its tasks. -/
theorem act_follows (dbg : Bool) (f : Translator τ) (a : Act) (desk : Desk τ) (peers : Peers) :
  Follows ((act dbg f a).run ⟨desk, peers⟩)
    (((scheduleAct a peers).tasks.forM (Task.perform dbg f)).run desk) (scheduleAct a peers)
  := by
  cases a with
  | connect arrival => exact ⟨rfl, fun _ => ⟨rfl, rfl⟩, fun h => nomatch h⟩
  | deliver fd inbound => exact ⟨rfl, fun _ => ⟨rfl, rfl⟩, fun h => nomatch h⟩
  | round workloadPid => exact service_follows dbg f workloadPid desk peers
  | sweep =>
      change Follows _ (((Task.perform dbg f .sweep) >>= fun _ => pure ()).run desk) _
      rw [Exec.run_bind_pure]
      rcases hrun : (Task.perform dbg f .sweep).run desk with ⟨desk', ⟨⟩ | e | _⟩
      · have hact : (act dbg f .sweep).run ⟨desk, peers⟩ = (⟨desk', peers⟩, .ok ()) :=
          Exec.run_focus (Exec.run_mapErr_of_ok hrun)
        rw [hact]
        exact ⟨rfl, fun _ => ⟨rfl, rfl⟩, fun h => nomatch h⟩
      · exact e.elim
      · have hact : (act dbg f .sweep).run ⟨desk, peers⟩ = (⟨desk', peers⟩, .panic) :=
          Exec.run_focus (Exec.run_mapErr_of_panic hrun)
        rw [hact]
        exact ⟨rfl, fun h => (nomatch h), fun _ => rfl⟩

/-- Acts follow their tasks: the server does what it does if it takes one datagram at a time out of
a queue that only the peers fill. -/
theorem acts_follow (dbg : Bool) (f : Translator τ) (as : List Act) (desk : Desk τ)
    (peers : Peers) :
  Follows ((as.forM (act dbg f)).run ⟨desk, peers⟩)
    (((schedule as peers).tasks.forM (Task.perform dbg f)).run desk) (schedule as peers)
  := by
  induction as generalizing desk peers with
  | nil => exact ⟨rfl, fun _ => ⟨rfl, rfl⟩, fun h => nomatch h⟩
  | cons a as ih =>
      have hone := act_follows dbg f a desk peers
      change Follows ((act dbg f a >>= fun _ => as.forM (act dbg f)).run _) _ _
      rw [schedule]
      rcases hrun : (act dbg f a).run ⟨desk, peers⟩ with ⟨⟨desk', peers'⟩, outcome⟩
      rw [hrun] at hone
      rcases htasks : ((scheduleAct a peers).tasks.forM (Task.perform dbg f)).run desk
        with ⟨desk'', ⟨⟩ | e | _⟩
      · rw [htasks] at hone
        obtain rfl : desk' = desk'' := hone.desk
        obtain ⟨rfl, rfl⟩ : peers' = _ ∧ outcome = _ := hone.done rfl
        rcases houtcome : (scheduleAct a peers).outcome with ⟨⟩ | errno | _
        · rw [houtcome] at hrun
          dsimp only
          rw [Exec.run_bind_of_ok hrun, Exec.forM_append, Exec.run_bind_of_ok htasks]
          have hrest := ih desk' (scheduleAct a peers).peers
          exact ⟨hrest.desk, hrest.done, hrest.panics⟩
        · rw [houtcome] at hrun
          dsimp only
          rw [Exec.run_bind_of_err hrun, htasks]
          exact ⟨rfl, fun _ => ⟨rfl, houtcome.symm⟩, fun h => nomatch h⟩
        · rw [houtcome] at hrun
          dsimp only
          rw [Exec.run_bind_of_panic hrun, htasks]
          exact ⟨rfl, fun _ => ⟨rfl, houtcome.symm⟩, fun h => nomatch h⟩
      · exact e.elim
      · rw [htasks] at hone
        obtain rfl : desk' = desk'' := hone.desk
        obtain rfl : outcome = .panic := hone.panics rfl
        rw [Exec.run_bind_of_panic hrun]
        split
        · dsimp only
          rw [Exec.forM_append, Exec.run_bind_of_panic htasks]
          exact ⟨rfl, fun h => (nomatch h), fun _ => rfl⟩
        · rw [htasks]
          exact ⟨rfl, fun h => (nomatch h), fun _ => rfl⟩

end Schedule

/-! ### The server on its own -/

/-- What is sent about a datagram that has a reply. -/
def posted (q : Query) (reply : Reply) : List (Nat × Bytes) :=
  if q.sendable then [(q.fd, replyBytes reply)] else []

/-- Tasks are done by the steps of the server on its own, in their order: each datagram that is a
request is handled by one step and is answered with its reply, and each other datagram is answered
as a bad request. -/
inductive Answered : List Task → List (Step τ) → List (Nat × Bytes) → Prop
  | nil : Answered [] [] []
  | request {ts : List Task} {xs : List (Step τ)} {out : List (Nat × Bytes)}
      {workloadPid : Option Int32} {q : Query} {req : Request} {reply : Reply}
      {before after : RegionIpc τ} (hlen : q.bytes.length ≤ maxDatagram)
      (hreq : decodeRequest q.bytes = .ok req) (h : Answered ts xs out) :
      Answered (.answer workloadPid q :: ts)
        (⟨before, .request req q.pid workloadPid, some reply, after⟩ :: xs) (posted q reply ++ out)
  | refused {ts : List Task} {xs : List (Step τ)} {out : List (Nat × Bytes)}
      {workloadPid : Option Int32} {q : Query}
      (hbad : q.bytes.length ≤ maxDatagram → ∀ req, decodeRequest q.bytes ≠ .ok req)
      (h : Answered ts xs out) :
      Answered (.answer workloadPid q :: ts) xs (posted q (errReply .badRequest) ++ out)
  | sweep {ts : List Task} {xs : List (Step τ)} {out : List (Nat × Bytes)}
      {before after : RegionIpc τ} (h : Answered ts xs out) :
      Answered (.sweep :: ts) (⟨before, .reverify, none, after⟩ :: xs) out

section Run

variable {dbg : Bool} {f : Translator τ} {s₀ : RegionIpc τ} {b₀ : Book} {xs : List (Step τ)}

/-- The datagram of a reply is the reply. -/
theorem replyDatagram_eq (reply : Reply) :
  (replyDatagram reply : Exec (Desk τ) Empty Bytes) = pure (replyBytes reply)
  := by
  rw [replyDatagram, run_encodeReply _ (by simp [Bytes.zeros, replyLen, maxDatagram])]
  dsimp only
  apply Exec.ext_run
  intro s
  rw [Exec.run_bind_of_ok (Exec.run_expect_of_ok (Exec.run_lift _ s)), ← length_replyBytes reply,
    List.take_left]

theorem run_answerQuery {workloadPid : Option Int32} {q : Query} {desk : Desk τ}
    {ipc : RegionIpc τ} {reply : Reply}
    (h : (RegionIpc.serve dbg f q.bytes q.pid workloadPid).run desk.ipc = (ipc, .ok reply)) :
  (answerQuery dbg f workloadPid q).run desk
    = (⟨ipc, desk.sent ++ posted q reply⟩, .ok ())
  := by
  have hserve : (Exec.focus (ipcPart τ) (RegionIpc.serve dbg f q.bytes q.pid workloadPid)).run desk
      = (⟨ipc, desk.sent⟩, .ok reply) := Exec.run_focus h
  rw [answerQuery, answer, Exec.run_bind_of_ok hserve, replyDatagram_eq, Exec.pure_bind, posted]
  cases q.sendable with
  | false =>
      change (_, _) = (Desk.mk ipc (desk.sent ++ []), _)
      rw [List.append_nil]
  | true => rfl

/-- The generation is so near the end of its range that an operation can reach it. -/
def Worn (s : RegionIpc τ) : Prop :=
  2 ^ 64 ≤ (ManifestHeader.ofMem s.manifest.mem).generation.toNat + 2 * regionCapacity

/-- A server that keeps a book keeps one in every run. -/
theorem Run.keeps {s : RegionIpc τ} (h₀ : s₀.Keeps b₀) (hrun : Run dbg f s₀ xs s) :
  ∃ b, s.Keeps b
  := by
  induction hrun with
  | nil => exact ⟨b₀, h₀⟩
  | @step xs s s' op out hrun hop hone ih =>
      obtain ⟨b, hs⟩ := ih
      obtain ⟨cs, _, _, _, ⟨s'', hdone⟩ | ⟨hpanic, _⟩⟩ := perform_effect (f := f) dbg hs hop
      · obtain ⟨rfl, _⟩ := Prod.mk.inj (hone.symm.trans hdone.run)
        exact ⟨_, hdone.keeps⟩
      · rw [hone] at hpanic
        cases hpanic

/-- Behind every run the next operation returns.  It panics only under a worn generation, in a
build with overflow checks. -/
theorem Run.next {s : RegionIpc τ} {op : Operation} (h₀ : s₀.Keeps b₀) (hrun : Run dbg f s₀ xs s)
    (hop : op.Possible) :
  (∃ s' out, (Regions.perform dbg f op).run s = (s', .ok out)) ∨
    ((Regions.perform dbg f op).run s).2 = .panic ∧ dbg = true ∧ Worn s
  := by
  obtain ⟨b, hs⟩ := hrun.keeps h₀
  obtain ⟨cs, out, _, _, ⟨s', hdone⟩ | ⟨hpanic, hdbg, hlast⟩⟩ :=
    perform_effect (f := f) dbg hs hop
  · exact .inl ⟨s', out, hdone.run⟩
  · right
    rw [Worn, generation_eq hs.stored]
    exact ⟨hpanic, hdbg, hlast⟩

/-- A request has its reply. -/
theorem run_handle_of_perform {req : Request} {pid : Int32} {workloadPid : Option Int32}
    {s s' : RegionIpc τ} {out : Option Reply}
    (h : (Regions.perform dbg f (.request req pid workloadPid)).run s = (s', .ok out)) :
  ∃ reply, out = some reply ∧
    (RegionIpc.handle dbg f req pid workloadPid).run s = (s', .ok reply)
  := by
  obtain ⟨u, reply, hhandle, hpair⟩ := Exec.run_bind_eq_ok.mp h
  obtain ⟨rfl, hout⟩ := Prod.mk.inj hpair
  exact ⟨reply, (Res.ok.inj hout).symm, hhandle⟩

theorem perform_panic {req : Request} {pid : Int32} {workloadPid : Option Int32} {s : RegionIpc τ}
    (h : ((Regions.perform dbg f (.request req pid workloadPid)).run s).2 = .panic) :
  ((RegionIpc.handle dbg f req pid workloadPid).run s).2 = .panic
  := by
  rw [Regions.perform] at h
  rcases hrun : (RegionIpc.handle dbg f req pid workloadPid).run s with ⟨s', reply | e | _⟩
  · rw [Exec.run_bind_of_ok hrun] at h
    cases h
  · exact e.elim
  · rfl

/-- A task is done by at most one step of the server on its own. -/
theorem run_task {desk : Desk τ} (h₀ : s₀.Keeps b₀) (task : Task)
    (hrun : Run dbg f s₀ xs desk.ipc) :
  (∃ desk' ys out, (task.perform dbg f).run desk = (desk', .ok ()) ∧
      Run dbg f s₀ (ys.reverse ++ xs) desk'.ipc ∧ desk'.sent = desk.sent ++ out ∧
      ∀ {ts : List Task} {zs : List (Step τ)} {out' : List (Nat × Bytes)},
        Answered ts zs out' → Answered (task :: ts) (ys ++ zs) (out ++ out')) ∨
    ((task.perform dbg f).run desk).2 = .panic ∧ dbg = true ∧ Worn desk.ipc
  := by
  cases task with
  | sweep =>
      have hop : Operation.reverify.Possible := trivial
      rcases hrun.next h₀ hop with ⟨s', out, hstep⟩ | ⟨hpanic, hdbg, hworn⟩
      · obtain ⟨u, _, hsweep, hpair⟩ := Exec.run_bind_eq_ok.mp hstep
        obtain ⟨rfl, hout⟩ := Prod.mk.inj hpair
        obtain rfl := Res.ok.inj hout
        left
        refine ⟨⟨u, desk.sent⟩, [⟨desk.ipc, .reverify, none, u⟩], [], Exec.run_focus hsweep,
          hrun.step trivial hstep, (List.append_nil _).symm, fun h => h.sweep⟩
      · right
        refine ⟨?_, hdbg, hworn⟩
        rcases hsweep : (RegionIpc.reverify dbg f).run desk.ipc with ⟨u, ⟨⟩ | e | _⟩
        · rw [Regions.perform, Exec.run_bind_of_ok hsweep] at hpanic
          cases hpanic
        · exact e.elim
        · rw [Task.perform, Exec.run_focus hsweep]
  | answer workloadPid q =>
      have hbad : (RegionIpc.serve dbg f q.bytes q.pid workloadPid).run desk.ipc
            = (desk.ipc, .ok (errReply .badRequest)) →
          (q.bytes.length ≤ maxDatagram → ∀ req, decodeRequest q.bytes ≠ .ok req) →
          ∃ desk' ys out, (answerQuery dbg f workloadPid q).run desk = (desk', .ok ()) ∧
            Run dbg f s₀ (ys.reverse ++ xs) desk'.ipc ∧ desk'.sent = desk.sent ++ out ∧
            ∀ {ts : List Task} {zs : List (Step τ)} {out' : List (Nat × Bytes)},
              Answered ts zs out' →
                Answered (.answer workloadPid q :: ts) (ys ++ zs) (out ++ out') :=
        fun hserve hnone =>
          ⟨_, [], _, run_answerQuery hserve, hrun, rfl, fun h => h.refused hnone⟩
      by_cases hlen : q.bytes.length > maxDatagram
      · left
        apply hbad
        · rw [RegionIpc.serve, if_pos hlen]
          rfl
        · exact fun hle => absurd hlen (Nat.not_lt.mpr hle)
      · cases hreq : decodeRequest q.bytes with
        | panic => exact absurd hreq (decodeRequest_ne_panic q.bytes)
        | err e =>
            left
            apply hbad
            · rw [RegionIpc.serve, if_neg hlen, hreq]
              rfl
            · intro _ req hok
              rw [hreq] at hok
              cases hok
        | ok req =>
            have hserve : RegionIpc.serve dbg f q.bytes q.pid workloadPid
                = RegionIpc.handle dbg f req q.pid workloadPid := by
              rw [RegionIpc.serve, if_neg hlen, hreq]
            have hop : (Operation.request req q.pid workloadPid).Possible := ⟨q.bytes, hreq⟩
            rcases hrun.next h₀ hop with ⟨s', out, hstep⟩ | ⟨hpanic, hdbg, hworn⟩
            · obtain ⟨reply, rfl, hhandle⟩ := run_handle_of_perform hstep
              left
              refine ⟨_, [⟨desk.ipc, _, some reply, s'⟩], _,
                run_answerQuery ((congrArg (fun x => x.run desk.ipc) hserve).trans hhandle),
                hrun.step hop hstep, rfl, fun h => h.request (Nat.not_lt.mp hlen) hreq⟩
            · right
              refine ⟨?_, hdbg, hworn⟩
              have hhandle := perform_panic hpanic
              rw [← hserve] at hhandle
              rcases hrun' : (RegionIpc.serve dbg f q.bytes q.pid workloadPid).run desk.ipc
                with ⟨u, reply | e | _⟩
              · rw [hrun'] at hhandle
                cases hhandle
              · exact e.elim
              · rw [Task.perform, answerQuery, answer,
                  Exec.run_bind_of_panic (Exec.run_focus hrun')]

/-- Tasks are done by the steps of the server on its own. -/
theorem run_tasks {desk : Desk τ} (h₀ : s₀.Keeps b₀) (ts : List Task)
    (hrun : Run dbg f s₀ xs desk.ipc) :
  (∃ desk' ys out, (ts.forM (Task.perform dbg f)).run desk = (desk', .ok ()) ∧
      Run dbg f s₀ (ys.reverse ++ xs) desk'.ipc ∧ desk'.sent = desk.sent ++ out ∧
      Answered ts ys out) ∨
    ((ts.forM (Task.perform dbg f)).run desk).2 = .panic ∧ dbg = true ∧
      ∃ zs s, Run dbg f s₀ zs s ∧ Worn s
  := by
  induction ts generalizing desk xs with
  | nil => exact .inl ⟨desk, [], [], rfl, hrun, (List.append_nil _).symm, .nil⟩
  | cons task ts ih =>
      rcases run_task h₀ task hrun with ⟨desk₁, ys, out, hone, hrun₁, hsent, hadd⟩
        | ⟨hpanic, hdbg, hworn⟩
      · rcases ih hrun₁ with ⟨desk₂, ys', out', hrest, hrun₂, hsent', hanswered⟩
          | ⟨hpanic, hdbg, hworn⟩
        · left
          refine ⟨desk₂, ys ++ ys', out ++ out', (Exec.run_bind_of_ok hone).trans hrest, ?_, ?_,
            hadd hanswered⟩
          · rw [List.reverse_append, List.append_assoc]
            exact hrun₂
          · rw [hsent', hsent, List.append_assoc]
        · right
          refine ⟨?_, hdbg, hworn⟩
          change ((task.perform dbg f >>= fun _ => ts.forM (Task.perform dbg f)).run desk).2 = _
          rw [Exec.run_bind_of_ok hone]
          exact hpanic
      · right
        exact ⟨Exec.panic_of_bind hpanic, hdbg, xs, desk.ipc, hrun, hworn⟩

/-- What peers do at the sockets comes to a queue of datagrams, from at most as many connections as
are allowed.  The server answers each of them by a step of a run on its own, so that the manifest and
the ledger agree, and panics only under a worn generation in a build with overflow checks. -/
theorem sockets_answered (dbg : Bool) (f : Translator τ) (m : ByteMem) (t : τ) (as : List Act) :
  (schedule as ⟨[], []⟩).peers.conns.length ≤ maxConns ∧
  ((∃ s xs, (as.forM (act dbg f)).run (idle m t) = (s, (schedule as ⟨[], []⟩).outcome) ∧
      s.peers = (schedule as ⟨[], []⟩).peers ∧ Run dbg f (initial m t) xs s.desk.ipc ∧
      Answered (schedule as ⟨[], []⟩).tasks xs.reverse s.desk.sent ∧
      ((∀ x ∈ xs, Early x.before) → Agrees s.desk.ipc)) ∨
    ((as.forM (act dbg f)).run (idle m t)).2 = .panic ∧ dbg = true ∧
      ∃ xs s, Run dbg f (initial m t) xs s ∧ Worn s)
  := by
  refine ⟨length_schedule (Nat.zero_le _), ?_⟩
  have hfollows := acts_follow dbg f as ⟨initial m t, []⟩ ⟨[], []⟩
  have hstart : Run dbg f (initial m t) [] (Desk.mk (initial m t) []).ipc := .nil
  rcases run_tasks (keeps_initial m t) (schedule as ⟨[], []⟩).tasks hstart with
    ⟨desk, xs, out, hdone, hrun, hsent, hanswered⟩ | ⟨hpanic, hdbg, hworn⟩
  · left
    rw [hdone] at hfollows
    obtain ⟨hpeers, houtcome⟩ := hfollows.done rfl
    have hdesk : ((as.forM (act dbg f)).run (idle m t)).1.desk = desk := hfollows.desk
    rw [List.append_nil] at hrun
    refine ⟨_, xs.reverse, Prod.ext rfl houtcome, hpeers, hdesk ▸ hrun, ?_, ?_⟩
    · rw [List.reverse_reverse, hdesk, hsent]
      exact hanswered
    · intro hearly
      obtain ⟨b, hs, howned⟩ := hrun.owned fun x hx => (hearly x hx).not_strands x.op
      rw [hdesk]
      exact agrees_of_keeps hs howned
  · exact .inr ⟨hfollows.panics hpanic, hdbg, hworn⟩

end Run

end Protocol.Regions
