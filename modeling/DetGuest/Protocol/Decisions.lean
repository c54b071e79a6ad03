import DetGuest.Host.Step
import DetGuest.Lib.Machine

/-!
# Recorded decisions can be replayed

The queries that a run of the host puts to its fault plan are recorded with the decisions of
the plan.  The same run over the recorded decisions observes the same, and a log is used up
without a divergence exactly when the run asks what the log answers.
-/

namespace Protocol

open Wire Host

/-- The query that an operation puts to the plan. -/
def query (ch : Channel) : HostOp → Option Query
  | .answer iseq => ch.pendingInjects[iseq]?.map fun nameId =>
      { iseq, nameId, name := ch.internName nameId }
  | _ => none

/-! ### One operation -/

section Step

variable {π ρ : Type} (plan : FaultPlan π) (plan' : FaultPlan ρ) (dbg : Bool) {ch : Channel}

/-- An operation moves the plan by its query. -/
theorem hostStep_plan_of_query {op : HostOp} {q : Query} (p : π) (h : query ch op = some q) :
  (hostStep plan dbg ⟨p, ch⟩ op).1.plan = (plan.ask p q).1
  := by
  cases op with
  | answer iseq =>
      obtain ⟨nameId, hpending, rfl⟩ := Option.map_eq_some_iff.mp h
      simp only [hostStep, run_answer plan dbg iseq _ (Prod.eta _).symm, decided, hpending]
      rfl
  | _ => cases h

/-- An operation without a query leaves the plan alone. -/
theorem hostStep_plan_of_none {op : HostOp} (p : π) (h : query ch op = none) :
  (hostStep plan dbg ⟨p, ch⟩ op).1.plan = p
  := by
  cases op with
  | answer iseq =>
      rw [query, Option.map_eq_none_iff] at h
      simp only [hostStep, run_answer plan dbg iseq _ (Prod.eta _).symm, decided, h]
  | _ => rfl

/-- Two plans that agree on the query of an operation make it look the same. -/
theorem hostStep_congr {op : HostOp} (p : π) (p' : ρ)
    (h : ∀ q, query ch op = some q → (plan'.ask p' q).2 = (plan.ask p q).2) :
  (hostStep plan' dbg ⟨p', ch⟩ op).2 = (hostStep plan dbg ⟨p, ch⟩ op).2 ∧
    (hostStep plan' dbg ⟨p', ch⟩ op).1.ch = (hostStep plan dbg ⟨p, ch⟩ op).1.ch
  := by
  cases op with
  | answer iseq =>
      have hres : (decided plan' dbg iseq p' ch : ρ × Res Empty UInt32).2
          = (decided plan dbg iseq p ch).2 := by
        rw [decided, decided]
        cases hpending : ch.pendingInjects[iseq]? with
        | none => rfl
        | some nameId =>
            have hq := h _ (by rw [query, hpending, Option.map_some])
            simp only [FaultPlan.ask] at hq
            simp only [hq]
      simp only [hostStep, run_answer plan dbg iseq _ (Prod.eta _).symm,
        run_answer plan' dbg iseq _ (Prod.eta _).symm, HostState.observe, hres, and_self]
  | _ => exact ⟨rfl, rfl⟩

/-- An operation without a query is the same for every plan. -/
theorem hostStep_of_none {op : HostOp} (h : query ch op = none) (p : π) (p' : ρ) :
  hostStep plan' dbg ⟨p', ch⟩ op
    = (⟨p', (hostStep plan dbg ⟨p, ch⟩ op).1.ch⟩, (hostStep plan dbg ⟨p, ch⟩ op).2)
  := by
  have hsame := hostStep_congr plan plan' dbg p p'
    (fun q hq => absurd (h.symm.trans hq) (Option.some_ne_none q).symm)
  have hplan := hostStep_plan_of_none plan' dbg p' h
  rw [← hsame.1, ← hsame.2]
  generalize hostStep plan' dbg ⟨p', ch⟩ op = next at hplan ⊢
  rw [← hplan]

/-- An operation with a query is the same for every plan that decides the same. -/
theorem hostStep_of_query {op : HostOp} {q : Query} (h : query ch op = some q) (p : π) (p' : ρ)
    (hdecision : (plan'.ask p' q).2 = (plan.ask p q).2) :
  hostStep plan' dbg ⟨p', ch⟩ op
    = (⟨(plan'.ask p' q).1, (hostStep plan dbg ⟨p, ch⟩ op).1.ch⟩,
        (hostStep plan dbg ⟨p, ch⟩ op).2)
  := by
  have hagree : ∀ q', query ch op = some q' → (plan'.ask p' q').2 = (plan.ask p q').2 := by
    intro q' hq'
    obtain rfl := Option.some.inj (h.symm.trans hq')
    exact hdecision
  have hsame := hostStep_congr plan plan' dbg p p' hagree
  rw [← hsame.1, ← hsame.2, ← hostStep_plan_of_query plan' dbg p' h]

end Step

/-! ### Whole runs -/

/-- A recorded run observes what the run without the record does, and so does the run over
the record. -/
theorem run_recording {π : Type} (plan : FaultPlan π) (dbg : Bool) (p : π)
    (log : List LoggedDecision) (ch : Channel) (ops : List HostOp) :
  ∃ asked,
    (Machine.run (hostStep plan.recording dbg) ⟨(p, log), ch⟩ ops).1.plan.2 = log ++ asked ∧
    (Machine.run (hostStep plan.recording dbg) ⟨(p, log), ch⟩ ops).2
      = (Machine.run (hostStep plan dbg) ⟨p, ch⟩ ops).2 ∧
    ∀ done,
      (Machine.run (hostStep logFaultPlan dbg) ⟨.between done asked, ch⟩ ops).2
        = (Machine.run (hostStep plan dbg) ⟨p, ch⟩ ops).2 ∧
      (Machine.run (hostStep logFaultPlan dbg) ⟨.between done asked, ch⟩ ops).1.plan
        = .between (done ++ asked) []
  := by
  induction ops generalizing p log ch with
  | nil =>
      refine ⟨[], by simp [Machine.run], rfl, ?_⟩
      intro done
      simp [Machine.run]
  | cons op ops ih =>
      cases hq : query ch op with
      | none =>
          have hplain := hostStep_of_none plan plan dbg hq p p
          obtain ⟨asked, hlog, hseen, hreplay⟩ := ih p log (hostStep plan dbg ⟨p, ch⟩ op).1.ch
          refine ⟨asked, ?_, ?_, ?_⟩
          · rw [Machine.run, hostStep_of_none plan plan.recording dbg hq p]
            exact hlog
          · rw [Machine.run, Machine.run, hostStep_of_none plan plan.recording dbg hq p, hplain]
            dsimp only
            rw [hseen]
          · intro done
            obtain ⟨hsame, hplan⟩ := hreplay done
            rw [Machine.run, Machine.run, hostStep_of_none plan logFaultPlan dbg hq p, hplain]
            dsimp only
            exact ⟨by rw [hsame], hplan⟩
      | some q =>
          have hplain := hostStep_of_query plan plan dbg hq p p rfl
          have hrecord := hostStep_of_query plan plan.recording dbg hq p (p, log) rfl
          obtain ⟨asked, hlog, hseen, hreplay⟩ := ih (plan.ask p q).1
            (log ++ [q.logged (plan.ask p q).2]) (hostStep plan dbg ⟨p, ch⟩ op).1.ch
          refine ⟨q.logged (plan.ask p q).2 :: asked, ?_, ?_, ?_⟩
          · rw [Machine.run, hrecord]
            rw [List.append_assoc] at hlog
            exact hlog
          · rw [Machine.run, Machine.run, hrecord, hplain]
            dsimp only
            rw [← hseen]
            rfl
          · intro done
            have hask : logFaultPlan.ask (.between done (q.logged (plan.ask p q).2 :: asked)) q
                = (.between (done ++ [q.logged (plan.ask p q).2]) asked, (plan.ask p q).2) :=
              ask_between done asked rfl
            have hstep := hostStep_of_query plan logFaultPlan dbg hq p
              (.between done (q.logged (plan.ask p q).2 :: asked)) (by rw [hask])
            rw [hask] at hstep
            obtain ⟨hsame, hplan⟩ := hreplay (done ++ [q.logged (plan.ask p q).2])
            rw [List.append_assoc] at hplan
            rw [Machine.run, Machine.run, hstep, hplain]
            dsimp only
            exact ⟨by rw [hsame], hplan⟩

/-- A run over a log asks the log the queries that are recorded of it. -/
theorem run_askAll (dbg : Bool) (p : LogFaultPlan) (log : List LoggedDecision) (ch : Channel)
    (ops : List HostOp) :
  ∃ queries asked,
    (Machine.run (hostStep logFaultPlan.recording dbg) ⟨(p, log), ch⟩ ops).1.plan
      = (p.askAll queries, log ++ asked) ∧
    asked.map LoggedDecision.key = queries.map Query.key
  := by
  induction ops generalizing p log ch with
  | nil => exact ⟨[], [], by simp [Machine.run, LogFaultPlan.askAll], rfl⟩
  | cons op ops ih =>
      rw [Machine.run]
      cases hq : query ch op with
      | none =>
          have hstep := hostStep_of_none logFaultPlan.recording logFaultPlan.recording dbg hq
            (p, log) (p, log)
          obtain ⟨queries, asked, hrun, hkeys⟩ := ih p log
            (hostStep logFaultPlan.recording dbg ⟨(p, log), ch⟩ op).1.ch
          refine ⟨queries, asked, ?_, hkeys⟩
          rw [hstep]
          exact hrun
      | some q =>
          have hstep := hostStep_of_query logFaultPlan.recording logFaultPlan.recording dbg hq
            (p, log) (p, log) rfl
          obtain ⟨queries, asked, hrun, hkeys⟩ := ih (logFaultPlan.ask p q).1
            (log ++ [q.logged (logFaultPlan.ask p q).2])
            (hostStep logFaultPlan.recording dbg ⟨(p, log), ch⟩ op).1.ch
          refine ⟨q :: queries, q.logged (logFaultPlan.ask p q).2 :: asked, ?_, ?_⟩
          · rw [hstep]
            rw [List.append_assoc] at hrun
            exact hrun
          · rw [List.map_cons, List.map_cons, hkeys]
            rfl

/-- **Record and replay of decisions.**  The decisions of any plan in any run of the host,
replayed over the same run, give the same answers and the same reports; the log is then used
up without a divergence.  A log is used up without a divergence exactly when its queries are
asked, both query by query and in a run of the host. -/
theorem decisions_replayed {π : Type} (plan : FaultPlan π) (dbg : Bool) (p : π) (ch : Channel)
    (ops : List HostOp) :
  (let recorded := Machine.run (hostStep plan.recording dbg) ⟨(p, []), ch⟩ ops
    let replayed := Machine.run (hostStep logFaultPlan dbg) ⟨.new recorded.1.plan.2, ch⟩ ops
    recorded.2 = (Machine.run (hostStep plan dbg) ⟨p, ch⟩ ops).2 ∧
    replayed.2 = (Machine.run (hostStep plan dbg) ⟨p, ch⟩ ops).2 ∧
    replayed.1.plan.divergences = [] ∧ replayed.1.plan.remaining = 0) ∧
  (∀ (log : List LoggedDecision) (queries : List Query),
    let asked := (LogFaultPlan.new log).askAll queries
    asked.divergences = [] ∧ asked.remaining = 0
      ↔ queries.map Query.key = log.map LoggedDecision.key) ∧
  (∀ log : List LoggedDecision,
    let replayed := (Machine.run (hostStep logFaultPlan.recording dbg) ⟨(.new log, []), ch⟩ ops).1
    replayed.plan.1.divergences = [] ∧ replayed.plan.1.remaining = 0
      ↔ replayed.plan.2.map LoggedDecision.key = log.map LoggedDecision.key)
  := by
  refine ⟨?_, ?_, ?_⟩
  · obtain ⟨asked, hlog, hseen, hreplay⟩ := run_recording plan dbg p [] ch ops
    obtain ⟨hsame, hplan⟩ := hreplay []
    rw [List.nil_append] at hlog
    dsimp only
    rw [hlog]
    refine ⟨hseen, hsame, ?_, ?_⟩
    · rw [show LogFaultPlan.new asked = .between [] asked from rfl, hplan]
      rfl
    · rw [show LogFaultPlan.new asked = .between [] asked from rfl, hplan, remaining_between]
      rfl
  · intro log queries
    exact askAll_clean_iff [] log queries
  · intro log
    obtain ⟨queries, asked, hrun, hkeys⟩ := run_askAll dbg (.new log) [] ch ops
    dsimp only
    rw [hrun, List.nil_append, hkeys]
    exact askAll_clean_iff [] log queries

end Protocol
