import DetGuest.Host.Channel
import DetGuest.Wire.Ports

/-!
# Answering inject queries

A responder asks a fault plan about the query that the drain stored under the sequence
number, packs the decision and reports the answer.
-/

namespace Host

open Wire

/-- A fault plan: it decides about an inject point, given its sequence number, the id of
its name and, if the intern table has it, the name. -/
structure FaultPlan (π : Type) where
  decide : π → UInt32 → UInt32 → Option Bytes → π × FaultDecision

/-- A responder with its plan, next to the host it answers for. -/
structure Responder (π : Type) where
  plan : π
  host : HostState

/-- The channel without the query of a sequence number. -/
def Channel.dropPendingInject (ch : Channel) (iseq : UInt32) : Channel :=
  { ch with pendingInjects := ch.pendingInjects.erase iseq }

/-- Take the pending query of a sequence number. -/
def takePendingInject {π ε : Type} (iseq : UInt32) : Exec (Responder π) ε (Option UInt32) := do
  let r ← Exec.get
  Exec.set { r with host := { r.host with ch := r.host.ch.dropPendingInject iseq } }
  pure r.host.ch.pendingInjects[iseq]?

/-- Answer an inject query.  A sequence number without a query is counted and answered with
zero. -/
def answer {π ε : Type} (plan : FaultPlan π) (dbg : Bool) (iseq : UInt32) :
    Exec (Responder π) ε UInt32 := do
  let value ← match ← takePendingInject iseq with
    | some nameId => do
        let r ← Exec.get
        let (p, decision) := plan.decide r.plan iseq nameId (r.host.ch.internName nameId)
        Exec.set { r with plan := p }
        Exec.lift (decision.pack dbg)
    | none => do
        Exec.modify fun r => { r with host := { r.host with
          ch := { r.host.ch with unmatchedInjects := r.host.ch.unmatchedInjects + 1 } } }
        Exec.lift (FaultDecision.proceed.pack dbg)
  Exec.modify fun r => { r with host := { r.host with
    sink := r.host.sink ++ [.pioAnswer portInject value] } }
  pure value

/-- What a responder answers, and the state of its plan behind it. -/
def decided {π ε : Type} (plan : FaultPlan π) (dbg : Bool) (iseq : UInt32) (p : π) (ch : Channel) :
    π × Res ε UInt32 :=
  match ch.pendingInjects[iseq]? with
  | some nameId =>
      let (p, decision) := plan.decide p iseq nameId (ch.internName nameId)
      (p, decision.pack dbg)
  | none => (p, FaultDecision.proceed.pack dbg)

/-- The channel behind an answer. -/
def Channel.answered (ch : Channel) (iseq : UInt32) : Channel :=
  match ch.pendingInjects[iseq]? with
  | some _ => ch.dropPendingInject iseq
  | none => { ch.dropPendingInject iseq with unmatchedInjects := ch.unmatchedInjects + 1 }

/-- What is reported about an answer. -/
def answerOps {ε : Type} : Res ε UInt32 → List SinkOp
  | .ok value => [.pioAnswer portInject value]
  | _ => []

/-- An answer is reported unless packing it panics. -/
theorem run_answer {π ε : Type} (plan : FaultPlan π) (dbg : Bool) (iseq : UInt32)
    (r : Responder π) {p : π} {res : Res ε UInt32}
    (hd : decided plan dbg iseq r.plan r.host.ch = (p, res)) :
  (answer plan dbg iseq).run r
    = ({ plan := p
         host :=
          { ch := r.host.ch.answered iseq
            sink := r.host.sink ++ answerOps res
            io := r.host.io } }, res)
  := by
  have htake : (takePendingInject iseq : Exec (Responder π) ε (Option UInt32)).run r
      = ({ r with host := { r.host with ch := r.host.ch.dropPendingInject iseq } },
          .ok r.host.ch.pendingInjects[iseq]?) := rfl
  rw [answer, Exec.run_bind_of_ok htake]
  rw [decided] at hd
  rw [Channel.answered]
  cases hpending : r.host.ch.pendingInjects[iseq]? with
  | none =>
      rw [hpending] at hd
      obtain ⟨rfl, rfl⟩ := Prod.mk.inj hd
      rfl
  | some nameId =>
      rw [hpending] at hd
      obtain ⟨rfl, rfl⟩ := Prod.mk.inj hd
      have hname : (r.host.ch.dropPendingInject iseq).internName nameId
          = r.host.ch.internName nameId := rfl
      simp only [Exec.run_bind, Exec.run_get, Exec.run_set, Exec.run_lift, hname]
      cases (plan.decide r.plan iseq nameId (r.host.ch.internName nameId)).2.pack dbg with
      | ok value => rfl
      | err e => simp [answerOps]
      | panic => simp [answerOps]

/-! ### Replayed decisions -/

/-- A recorded decision. -/
structure LoggedDecision where
  iseq : UInt32
  nameId : UInt32
  decision : FaultDecision
  deriving DecidableEq, Repr

/-- A way in which a query differs from the log. -/
inductive LogDivergence where
  | iseqMismatch (expected got : UInt32)
  | nameIdMismatch (iseq expected got : UInt32)
  | pastEnd (got : UInt32)
  deriving DecidableEq, Repr

/-- A plan that returns recorded decisions in their order. -/
structure LogFaultPlan where
  log : List LoggedDecision
  cursor : Nat
  divergences : List LogDivergence
  deriving DecidableEq, Repr

/-- The plan at the start of a log. -/
def LogFaultPlan.new (decisions : List LoggedDecision) : LogFaultPlan :=
  { log := decisions, cursor := 0, divergences := [] }

/-- The number of decisions that no query has consumed. -/
def LogFaultPlan.remaining (p : LogFaultPlan) : Nat :=
  p.log.length - p.cursor

/-- Decide by the entry at the cursor.  A query that differs from it consumes it as well, and
is answered with `Proceed`. -/
def LogFaultPlan.decide (p : LogFaultPlan) (iseq nameId : UInt32) (_name : Option Bytes) :
    LogFaultPlan × FaultDecision :=
  match p.log[p.cursor]? with
  | none => ({ p with divergences := p.divergences ++ [.pastEnd iseq] }, .proceed)
  | some entry =>
      let p := { p with cursor := p.cursor + 1 }
      if entry.iseq ≠ iseq then
        ({ p with divergences := p.divergences ++ [.iseqMismatch entry.iseq iseq] }, .proceed)
      else if entry.nameId ≠ nameId then
        ({ p with divergences := p.divergences ++ [.nameIdMismatch iseq entry.nameId nameId] },
          .proceed)
      else
        (p, entry.decision)

/-- The replaying plan. -/
def logFaultPlan : FaultPlan LogFaultPlan where
  decide := LogFaultPlan.decide

/-- A plan next to the list of the queries it has been asked, with its decisions. -/
def FaultPlan.recording {π : Type} (plan : FaultPlan π) :
    FaultPlan (π × List LoggedDecision) where
  decide := fun (p, log) iseq nameId name =>
    let (p, decision) := plan.decide p iseq nameId name
    ((p, log ++ [{ iseq, nameId, decision }]), decision)

/-- The sequence number and the name of the query that a decision answers. -/
def LoggedDecision.key (entry : LoggedDecision) : UInt32 × UInt32 :=
  (entry.iseq, entry.nameId)

/-- A query as it is put to a plan. -/
structure Query where
  iseq : UInt32
  nameId : UInt32
  name : Option Bytes
  deriving DecidableEq, Repr

/-- The sequence number and the name of a query. -/
def Query.key (q : Query) : UInt32 × UInt32 :=
  (q.iseq, q.nameId)

/-- What a plan answers to a query. -/
def FaultPlan.ask {π : Type} (plan : FaultPlan π) (p : π) (q : Query) : π × FaultDecision :=
  plan.decide p q.iseq q.nameId q.name

/-- The entry of a recorded query. -/
def Query.logged (q : Query) (decision : FaultDecision) : LoggedDecision :=
  { iseq := q.iseq, nameId := q.nameId, decision }

/-! ### Divergences of a replay -/

section Divergences

variable {p : LogFaultPlan} {q : Query}

/-- A query that meets its entry is answered by it. -/
theorem ask_of_match {entry : LoggedDecision} (hentry : p.log[p.cursor]? = some entry)
    (hkey : q.key = entry.key) :
  logFaultPlan.ask p q = ({ p with cursor := p.cursor + 1 }, entry.decision)
  := by
  obtain ⟨hiseq, hname⟩ := Prod.mk.inj hkey
  simp only [FaultPlan.ask, logFaultPlan, LogFaultPlan.decide, hentry]
  rw [if_neg (not_not.mpr hiseq.symm), if_neg (not_not.mpr hname.symm)]

/-- A query that does not meet its entry is noted for good. -/
theorem ask_of_mismatch (h : ∀ entry, p.log[p.cursor]? = some entry → q.key ≠ entry.key) :
  ∃ d, (logFaultPlan.ask p q).1.divergences = p.divergences ++ [d]
  := by
  simp only [FaultPlan.ask, logFaultPlan, LogFaultPlan.decide]
  cases hentry : p.log[p.cursor]? with
  | none => exact ⟨_, rfl⟩
  | some entry =>
      dsimp only
      by_cases hiseq : entry.iseq = q.iseq
      · have hname : entry.nameId ≠ q.nameId := by
          intro hname
          apply h entry hentry
          simp [Query.key, LoggedDecision.key, hiseq, hname]
        rw [if_neg (not_not.mpr hiseq), if_pos hname]
        exact ⟨_, rfl⟩
      · rw [if_pos hiseq]
        exact ⟨_, rfl⟩

/-- No query takes a divergence back. -/
theorem ask_divergences_ne_nil (q : Query) (h : p.divergences ≠ []) :
  (logFaultPlan.ask p q).1.divergences ≠ []
  := by
  by_cases hmatch : ∃ entry, p.log[p.cursor]? = some entry ∧ q.key = entry.key
  · obtain ⟨entry, hentry, hkey⟩ := hmatch
    rw [ask_of_match hentry hkey]
    exact h
  · obtain ⟨d, hd⟩ : ∃ d, (logFaultPlan.ask p q).1.divergences = p.divergences ++ [d] := by
      apply ask_of_mismatch
      intro entry hentry hkey
      apply hmatch
      exact ⟨entry, hentry, hkey⟩
    rw [hd]
    simp

/-- The plan behind a sequence of queries. -/
def LogFaultPlan.askAll (p : LogFaultPlan) (qs : List Query) : LogFaultPlan :=
  qs.foldl (fun p q => (logFaultPlan.ask p q).1) p

theorem askAll_divergences_ne_nil (qs : List Query) (h : p.divergences ≠ []) :
  (p.askAll qs).divergences ≠ []
  := by
  induction qs generalizing p with
  | nil => exact h
  | cons q qs ih =>
      apply ih
      apply ask_divergences_ne_nil q h

/-- A sequence whose first query does not meet its entry leaves a divergence. -/
theorem askAll_of_mismatch (qs : List Query)
    (h : ∀ entry, p.log[p.cursor]? = some entry → q.key ≠ entry.key) :
  (p.askAll (q :: qs)).divergences ≠ []
  := by
  obtain ⟨d, hd⟩ := ask_of_mismatch h
  apply askAll_divergences_ne_nil (p := (logFaultPlan.ask p q).1) qs
  rw [hd]
  simp

/-- The plan with the entries `done` consumed, without a divergence, and `rest` ahead. -/
def LogFaultPlan.between (done rest : List LoggedDecision) : LogFaultPlan :=
  { log := done ++ rest, cursor := done.length, divergences := [] }

/-- A query that meets the next entry consumes it. -/
theorem ask_between {entry : LoggedDecision} (done rest : List LoggedDecision)
    (hkey : q.key = entry.key) :
  logFaultPlan.ask (.between done (entry :: rest)) q
    = (.between (done ++ [entry]) rest, entry.decision)
  := by
  have hentry : (done ++ entry :: rest)[done.length]? = some entry := by
    simp
  rw [LogFaultPlan.between, ask_of_match hentry hkey]
  simp [LogFaultPlan.between]

theorem remaining_between (done rest : List LoggedDecision) :
  (LogFaultPlan.between done rest).remaining = rest.length
  := by
  simp [LogFaultPlan.between, LogFaultPlan.remaining]

/-- Behind a sequence of queries there is no divergence and nothing left of the log exactly
when the queries are those of the log. -/
theorem askAll_clean_iff (done rest : List LoggedDecision) (qs : List Query) :
  (((LogFaultPlan.between done rest).askAll qs).divergences = [] ∧
      ((LogFaultPlan.between done rest).askAll qs).remaining = 0)
    ↔ qs.map Query.key = rest.map LoggedDecision.key
  := by
  induction qs generalizing done rest with
  | nil =>
      simp only [LogFaultPlan.askAll, List.foldl_nil, remaining_between]
      rw [List.length_eq_zero_iff]
      constructor
      · rintro ⟨_, rfl⟩
        rfl
      · intro h
        exact ⟨rfl, List.map_eq_nil_iff.mp h.symm⟩
  | cons q qs ih =>
      cases rest with
      | nil =>
          have hdiv : ((LogFaultPlan.between done []).askAll (q :: qs)).divergences ≠ [] := by
            apply askAll_of_mismatch
            simp [LogFaultPlan.between]
          simp [hdiv]
      | cons entry rest =>
          by_cases hkey : q.key = entry.key
          · have hnext : (LogFaultPlan.between done (entry :: rest)).askAll (q :: qs)
                = (LogFaultPlan.between (done ++ [entry]) rest).askAll qs := by
              rw [LogFaultPlan.askAll, List.foldl_cons, ask_between done rest hkey]
              rfl
            rw [hnext, ih, List.map_cons, List.map_cons, hkey]
            simp
          · have hdiv : ((LogFaultPlan.between done (entry :: rest)).askAll (q :: qs)).divergences
                ≠ [] := by
              apply askAll_of_mismatch
              simpa [LogFaultPlan.between] using hkey
            simp [hdiv, hkey]

end Divergences

end Host
