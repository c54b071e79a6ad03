import DetGuest.Host.Replay
import DetGuest.Host.Step
import DetGuest.Lib.Machine

/-!
# Recorded runs can be replayed

The operations of a run are recorded as the mutations they report.  A second channel over
the same memory that applies them, with the same guest writes in between, goes through the
same contents of memory and reports the same mutations.
-/

namespace Protocol

open Wire Host

/-- A step of a replay: a write of the guest, or the mutations that one operation
reported. -/
inductive ReplayOp where
  | guestWrite (gpa : Nat) (bs : Bytes)
  | trace (ops : List SinkOp)

/-- What the replay does in place of an operation of the recorded run. -/
def replayOp : HostOp × Observed → ReplayOp
  | (.guestWrite gpa bs, _) => .guestWrite gpa bs
  | (_, o) => .trace o.reported

/-- What a step of a replay returns, reports and leaves in memory. -/
structure Replayed where
  res : Res MemError Unit
  reported : List SinkOp
  mem : ByteMem

/-- One step of a replay. -/
def replayStep (ch : Channel) (op : ReplayOp) : Channel × Replayed :=
  match op with
  | .guestWrite gpa bs =>
      let ch := ch.withMem (ch.gm.bytes.write gpa bs)
      (ch, { res := .ok (), reported := [], mem := ch.gm.bytes })
  | .trace ops =>
      let (h, res) := (applyTrace ops).run ⟨ch, [], []⟩
      (h.ch, { res, reported := h.sink, mem := h.ch.gm.bytes })

/-- What the replay of an operation should give. -/
def Faithful (a : HostOp × Observed) : Replayed :=
  { res := .ok (), reported := a.2.reported, mem := a.2.mem }

/-! ### One operation -/

section Step

variable {π : Type} {plan : FaultPlan π} {dbg : Bool} {s : HostSide π}

/-- An operation of the host reports what it writes. -/
theorem hostStep_recorded (hwrite : Writable s.ch.gm s.ch.base) (hacc : Accepted s.ch.header)
    {op : HostOp} (hop : ∀ gpa bs, op ≠ .guestWrite gpa bs) :
  Recorded s.ch (hostStep plan dbg s op).1.ch (hostStep plan dbg s op).2.reported
  := by
  cases op with
  | pushCommand cmd =>
      have hmax : recordLen (commandPayloadLen cmd) ≤ maxRecordLen := by
        rw [commandPayloadLen_eq]
        exact cmd.recordLen_le
      have hpush := pushOutcome_recorded dbg .C s.ch.nextSeqC hwrite hacc hmax
        (fun s => length_commandBytes s cmd)
      simp only [hostStep, HostState.observe,
        run_pushCommand dbg cmd ⟨s.ch, [], []⟩ (hacc.valid .C).size_pow rfl, List.nil_append]
      exact keepSeq_recorded hpush (fun _ _ => ⟨rfl, rfl, rfl⟩)
  | pushWorkloadCtrl rec =>
      have hpush := pushOutcome_recorded dbg .I s.ch.nextSeqI hwrite hacc (by decide)
        (fun s => length_workloadCtrlBytes s 0 rec)
      simp only [hostStep, HostState.observe,
        run_pushWorkloadCtrl dbg rec ⟨s.ch, [], []⟩ (hacc.valid .I).size_pow rfl, List.nil_append]
      exact keepSeq_recorded hpush (fun _ _ => ⟨rfl, rfl, rfl⟩)
  | drainEvents =>
      have hA := drainOutcome_recorded dbg .A s.ch
      have hW := drainOutcome_recorded dbg .W (drainOutcome dbg .A s.ch).ch
      simp only [hostStep, HostState.observe, run_drainEvents dbg ⟨s.ch, [], []⟩ rfl rfl]
      cases (drainOutcome dbg .A s.ch).res with
      | ok evs => exact hA.trans hW
      | err e => exact hA
      | panic => exact hA
  | answer iseq =>
      simp only [hostStep, HostState.observe, run_answer plan dbg iseq _ (Prod.eta _).symm,
        List.nil_append]
      apply answered_recorded
  | guestWrite gpa bs => exact absurd rfl (hop gpa bs)

/-- The observed memory is the memory of the channel. -/
theorem hostStep_mem (op : HostOp) :
  (hostStep plan dbg s op).2.mem = (hostStep plan dbg s op).1.ch.gm.bytes
  := by
  cases op <;> rfl

/-- An operation keeps the place of the channel. -/
theorem hostStep_place (hwrite : Writable s.ch.gm s.ch.base) (hacc : Accepted s.ch.header)
    (op : HostOp) :
  (hostStep plan dbg s op).1.ch.header = s.ch.header ∧
    (hostStep plan dbg s op).1.ch.base = s.ch.base ∧
    (hostStep plan dbg s op).1.ch.gm
      = { s.ch.gm with bytes := (hostStep plan dbg s op).2.mem }
  := by
  by_cases hguest : ∃ gpa bs, op = .guestWrite gpa bs
  · obtain ⟨gpa, bs, rfl⟩ := hguest
    exact ⟨rfl, rfl, rfl⟩
  · have hrec : Recorded s.ch (hostStep plan dbg s op).1.ch (hostStep plan dbg s op).2.reported :=
      hostStep_recorded hwrite hacc (by simpa using hguest)
    refine ⟨hrec.header, hrec.base, ?_⟩
    rw [hostStep_mem, hrec.gm]

/-- Replaying an operation at the same place repeats what it reports and leaves in
memory. -/
theorem replayStep_faithful {ch : Channel} (hgm : ch.gm = s.ch.gm) (hbase : ch.base = s.ch.base)
    (hheader : ch.header = s.ch.header) (hwrite : Writable s.ch.gm s.ch.base)
    (hacc : Accepted s.ch.header) (op : HostOp) :
  replayStep ch (replayOp (op, (hostStep plan dbg s op).2))
    = (ch.withMem (hostStep plan dbg s op).2.mem, Faithful (op, (hostStep plan dbg s op).2))
  := by
  by_cases hguest : ∃ gpa bs, op = .guestWrite gpa bs
  · obtain ⟨gpa, bs, rfl⟩ := hguest
    simp [replayOp, replayStep, Faithful, hostStep, HostState.observe, Channel.withMem, hgm]
  · have hne : ∀ gpa bs, op ≠ .guestWrite gpa bs := by simpa using hguest
    have hrec : Recorded s.ch (hostStep plan dbg s op).1.ch (hostStep plan dbg s op).2.reported :=
      hostStep_recorded hwrite hacc hne
    have hop : replayOp (op, (hostStep plan dbg s op).2)
        = .trace (hostStep plan dbg s op).2.reported := by
      cases op with
      | guestWrite gpa bs => exact absurd rfl (hne gpa bs)
      | _ => rfl
    have hfits : ∀ o ∈ (hostStep plan dbg s op).2.reported, o.Fits ch := by
      intro o ho
      rw [SinkOp.fits_congr hheader]
      apply hrec.fits o ho
    have hmem : (hostStep plan dbg s op).2.reported.foldl (SinkOp.effect ch) ch.gm.bytes
        = (hostStep plan dbg s op).2.mem := by
      rw [SinkOp.effect_congr hheader hbase, hgm, hostStep_mem, hrec.gm]
    have hwrite' : Writable ch.gm ch.base := by
      rw [hgm, hbase]
      exact hwrite
    have hacc' : Accepted ch.header := by
      rw [hheader]
      exact hacc
    obtain ⟨io, hrun⟩ := run_applyTrace (h := ⟨ch, [], []⟩) hfits hwrite' hacc'
    dsimp only at hrun
    rw [hop, replayStep, hrun, hmem]
    rfl

end Step

/-! ### Whole runs -/

/-- **Replay.**  Whatever the order of pushes, drains, answers and guest writes, applying the
recorded mutations to a second channel over the same memory, with the same guest writes in
between, succeeds, reports every operation's mutations again and leaves the same memory
behind each operation. -/
theorem replay_faithful {π : Type} (plan : FaultPlan π) (dbg : Bool) (p : π) {ch ch' : Channel}
    (hgm : ch'.gm = ch.gm) (hbase : ch'.base = ch.base) (hheader : ch'.header = ch.header)
    (hacc : Accepted ch.header) (hwrite : Writable ch.gm ch.base) (ops : List HostOp)
    {s : HostSide π} {tr : List (HostOp × Observed)}
    (hrun : Machine.run (hostStep plan dbg) ⟨p, ch⟩ ops = (s, tr)) :
  (Machine.run replayStep ch' (tr.map replayOp)).2.map Prod.snd = tr.map Faithful
  := by
  induction ops generalizing p ch ch' s tr with
  | nil =>
      rw [Machine.run, Prod.mk.injEq] at hrun
      obtain ⟨_, rfl⟩ := hrun
      rfl
  | cons op ops ih =>
      have hstep : replayStep ch' (replayOp (op, (hostStep plan dbg ⟨p, ch⟩ op).2)) = _ :=
        replayStep_faithful hgm hbase hheader hwrite hacc op
      obtain ⟨hheader₁, hbase₁, hgm₁⟩ : _ ∧ _ ∧ (hostStep plan dbg ⟨p, ch⟩ op).1.ch.gm = _ :=
        hostStep_place hwrite hacc op
      simp only [Machine.run, Prod.mk.injEq] at hrun
      obtain ⟨_, rfl⟩ := hrun
      simp only [List.map_cons, Machine.run, hstep]
      congr 1
      refine @ih (hostStep plan dbg ⟨p, ch⟩ op).1.plan (hostStep plan dbg ⟨p, ch⟩ op).1.ch _
        ?_ ?_ ?_ ?_ ?_ _ _ rfl
      · rw [hgm₁]
        simp [Channel.withMem, hgm]
      · exact hbase.trans hbase₁.symm
      · exact hheader.trans hheader₁.symm
      · rw [hheader₁]
        exact hacc
      · rw [hgm₁, hbase₁]
        exact hwrite

/-- A push, a guest write, a drain and an answer on the canonical channel are replayed. -/
theorem replay_faithful_canonical :
  let plan : FaultPlan Unit := { decide := fun _ _ _ _ => ((), .proceed) }
  let tr := (Machine.run (hostStep plan true) ⟨(), canonicalChannel⟩
    [.pushCommand .reverifyRegions, .guestWrite 0x10000 [0x20], .drainEvents, .answer 3]).2
  (Machine.run replayStep canonicalChannel (tr.map replayOp)).2.map Prod.snd = tr.map Faithful
  := by
  have hwrite : Writable canonicalChannel.gm canonicalChannel.base := fun _ _ _ _ => rfl
  exact replay_faithful { decide := fun _ _ _ _ => ((), .proceed) } true () rfl rfl rfl
    accepted_canonical hwrite
    [.pushCommand .reverifyRegions, .guestWrite 0x10000 [0x20], .drainEvents, .answer 3]
    (Prod.eta _).symm

end Protocol
