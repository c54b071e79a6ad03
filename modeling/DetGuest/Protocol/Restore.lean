import DetGuest.Host.Faults
import DetGuest.Host.Push
import DetGuest.Host.Step
import DetGuest.Lib.Machine

/-!
# Restored channels

A channel that is attached over the memory of another one, and restored from what that one
exports, cannot be told from it by any later operation: they agree on everything that an
operation reads, and only the metric counters and the header flags may differ.
-/

namespace Protocol

open Wire Host

/-- Two channels agree on everything an operation reads. -/
structure Agree (a b : Channel) : Prop where
  gm : a.gm = b.gm
  base : a.base = b.base
  rings : a.header.ringDesc = b.header.ringDesc
  interns : a.interns = b.interns
  pendingInjects : a.pendingInjects = b.pendingInjects
  nextSeqC : a.nextSeqC = b.nextSeqC
  nextSeqI : a.nextSeqI = b.nextSeqI

/-- Two outcomes that cannot be told apart. -/
structure Alike {ε α : Type} (o o' : Outcome ε α) : Prop where
  ch : Agree o.ch o'.ch
  ops : o.ops = o'.ops
  io : o.io = o'.io
  res : o.res = o'.res

section Agree

variable {a b : Channel}

theorem Agree.places (h : Agree a b) (ring : RingId) :
  a.prodGpa ring = b.prodGpa ring ∧ a.consGpa ring = b.consGpa ring ∧
    a.dataGpa ring = b.dataGpa ring ∧ a.ringDesc ring = b.ringDesc ring
  := by
  simp only [Channel.prodGpa, Channel.consGpa, Channel.dataGpa, Channel.ringDesc, h.base, h.rings,
    and_self]

/-- Storing the same memory keeps channels in agreement. -/
theorem Agree.withGm (h : Agree a b) (gm : GuestMem) :
  Agree { a with gm } { b with gm }
  := ⟨rfl, h.base, h.rings, h.interns, h.pendingInjects, h.nextSeqC, h.nextSeqI⟩

/-! ### Drains -/

theorem Agree.foldPayload (h : Agree a b) (owned : OwnedPayload) :
  Agree (a.foldPayload owned) (b.foldPayload owned)
  := by
  cases owned with
  | nameIntern nameId name decl =>
      simp only [Channel.foldPayload, h.interns]
      split
      · exact ⟨h.gm, h.base, h.rings, rfl, h.pendingInjects, h.nextSeqC, h.nextSeqI⟩
      · exact ⟨h.gm, h.base, h.rings, rfl, h.pendingInjects, h.nextSeqC, h.nextSeqI⟩
  | injectQuery iseq nameId =>
      refine ⟨h.gm, h.base, h.rings, h.interns, ?_, h.nextSeqC, h.nextSeqI⟩
      simp only [Channel.foldPayload, h.pendingInjects]
  | _ => exact h

theorem Agree.foldRec (h : Agree a b) (rec : Bytes) :
  Agree (a.foldRec rec) (b.foldRec rec)
  := by
  rw [Channel.foldRec, Channel.foldRec]
  split
  · split
    · exact h
    · apply h.foldPayload
  · exact ⟨h.gm, h.base, h.rings, h.interns, h.pendingInjects, h.nextSeqC, h.nextSeqI⟩
  · exact h

theorem Agree.foldRecs (h : Agree a b) (recs : List Bytes) :
  Agree (recs.foldl Channel.foldRec a) (recs.foldl Channel.foldRec b)
  := by
  induction recs generalizing a b with
  | nil => exact h
  | cons rec recs ih => exact ih (h.foldRec rec)

theorem Agree.bump (h : Agree a b) (ring : RingId) (cons pos : UInt32) (io : List Access)
    (evs : List GuestEvent) :
  Alike (bump a ring cons pos io evs) (Host.bump b ring cons pos io evs)
  := by
  simp only [Host.bump, h.gm, (h.places ring).2.1]
  split
  · exact ⟨h, rfl, rfl, rfl⟩
  split
  · exact ⟨h, rfl, rfl, rfl⟩
  · exact ⟨h.withGm _, rfl, rfl, rfl⟩

/-- Drains of channels in agreement cannot be told apart. -/
theorem Agree.drain (h : Agree a b) (dbg : Bool) (ring : RingId) :
  Alike (drainOutcome dbg ring a) (drainOutcome dbg ring b)
  := by
  obtain ⟨hprod, hcons, hdata, hdesc⟩ := h.places ring
  have hindices : ringIndices a ring = ringIndices b ring := by
    simp only [ringIndices, hprod, hcons, hdesc, h.gm]
  have hwalk : ∀ prod cons, ringWalk dbg a ring prod cons = ringWalk dbg b ring prod cons := by
    intro prod cons
    simp only [ringWalk, hdata, hdesc, h.gm]
  simp only [drainOutcome, hindices, hwalk]
  rcases ringIndices b ring with ⟨io, ⟨prod, cons⟩ | e | _⟩
  · have hfold := h.foldRecs (ringWalk dbg b ring prod cons).recs
    dsimp only
    cases (ringWalk dbg b ring prod cons).stop with
    | ok u => apply hfold.bump
    | err e => exact ⟨hfold, rfl, rfl, rfl⟩
    | panic => exact ⟨hfold, rfl, rfl, rfl⟩
  · exact ⟨h, rfl, rfl, rfl⟩
  · exact ⟨h, rfl, rfl, rfl⟩

/-! ### Pushes -/

theorem Agree.push (h : Agree a b) (dbg : Bool) (ring : RingId) (total : Nat)
    (bytes : UInt32 → Bytes) (seq : UInt32) :
  Alike (pushOutcome dbg ring total bytes seq a) (pushOutcome dbg ring total bytes seq b)
  := by
  obtain ⟨hprod, hcons, hdata, hdesc⟩ := h.places ring
  simp only [pushOutcome, storeOutcome, hprod, hcons, hdata, hdesc, h.gm]
  split
  · exact ⟨h, rfl, rfl, rfl⟩
  split
  · exact ⟨h, rfl, rfl, rfl⟩
  split
  · exact ⟨h, rfl, rfl, rfl⟩
  split
  · exact ⟨h, rfl, rfl, rfl⟩
  · exact ⟨h.withGm _, rfl, rfl, rfl⟩

theorem Alike.keepSeq {o o' : Outcome PushError (Nat × UInt32)} (h : Alike o o')
    {store : Channel → UInt32 → Channel}
    (hstore : ∀ a b seq, Agree a b → Agree (store a seq) (store b seq)) :
  Alike (o.keepSeq store) (o'.keepSeq store)
  := by
  rw [Outcome.keepSeq, Outcome.keepSeq, h.res]
  rcases o'.res with ⟨n, seq⟩ | e | _
  · exact ⟨hstore _ _ seq h.ch, h.ops, h.io, rfl⟩
  · exact ⟨h.ch, h.ops, h.io, rfl⟩
  · exact ⟨h.ch, h.ops, h.io, rfl⟩

theorem Agree.command (h : Agree a b) (dbg : Bool) (cmd : Command) :
  Alike (commandOutcome dbg cmd a) (commandOutcome dbg cmd b)
  := by
  rw [commandOutcome, commandOutcome, h.nextSeqC]
  apply (h.push dbg .C _ _ _).keepSeq
  intro a b seq h
  exact ⟨h.gm, h.base, h.rings, h.interns, h.pendingInjects, rfl, h.nextSeqI⟩

theorem Agree.workloadCtrl (h : Agree a b) (dbg : Bool) (rec : WorkloadCtrl) :
  Alike (workloadCtrlOutcome dbg rec a) (workloadCtrlOutcome dbg rec b)
  := by
  rw [workloadCtrlOutcome, workloadCtrlOutcome, h.nextSeqI]
  apply (h.push dbg .I _ _ _).keepSeq
  intro a b seq h
  exact ⟨h.gm, h.base, h.rings, h.interns, h.pendingInjects, h.nextSeqC, rfl⟩

end Agree

/-! ### Operations -/

/-- What no operation changes of a channel: its place, its rings and which accesses guest
memory refuses. -/
structure Fixed (ch ch' : Channel) : Prop where
  header : ch'.header = ch.header
  base : ch'.base = ch.base
  readErr : ch'.gm.readErr = ch.gm.readErr

theorem Fixed.refl (ch : Channel) :
  Fixed ch ch
  := ⟨rfl, rfl, rfl⟩

theorem Fixed.trans {a b c : Channel} (hab : Fixed a b) (hbc : Fixed b c) :
  Fixed a c
  := ⟨hbc.header.trans hab.header, hbc.base.trans hab.base, hbc.readErr.trans hab.readErr⟩

theorem writeAll_readErr (gm : GuestMem) (ws : List (Nat × Bytes)) :
  (writeAll gm ws).gm.readErr = gm.readErr
  := by
  induction ws generalizing gm with
  | nil => rfl
  | cons w ws ih =>
      obtain ⟨a, bs⟩ := w
      rw [writeAll]
      split
      · rfl
      · apply ih

theorem drainOutcome_fixed (dbg : Bool) (ring : RingId) (ch : Channel) :
  Fixed ch (drainOutcome dbg ring ch).ch
  := by
  have h := drainOutcome_beside dbg ring ch
  exact ⟨h.header, h.base, h.readErr⟩

theorem pushOutcome_fixed (dbg : Bool) (ring : RingId) (total : Nat) (bytes : UInt32 → Bytes)
    (seq : UInt32) (ch : Channel) :
  Fixed ch (pushOutcome dbg ring total bytes seq ch).ch
  := by
  rw [pushOutcome]
  split
  · apply Fixed.refl
  split
  · apply Fixed.refl
  dsimp only
  split
  · apply Fixed.refl
  split
  · apply Fixed.refl
  · exact ⟨rfl, rfl, writeAll_readErr _ _⟩

theorem keepSeq_fixed {ch : Channel} {o : Outcome PushError (Nat × UInt32)}
    {store : Channel → UInt32 → Channel} (h : Fixed ch o.ch)
    (hstore : ∀ ch seq, Fixed ch (store ch seq)) :
  Fixed ch (o.keepSeq store).ch
  := by
  rw [Outcome.keepSeq]
  rcases o.res with ⟨n, seq⟩ | e | _
  · exact h.trans (hstore o.ch seq)
  · exact h
  · exact h

section Steps

variable {π : Type} {plan : FaultPlan π} {dbg : Bool} {s s' : HostSide π}

/-- An operation changes nothing fixed. -/
theorem hostStep_fixed (hpow : ∀ ring, Word.isPowerOfTwo (s.ch.ringDesc ring).size) (op : HostOp) :
  Fixed s.ch (hostStep plan dbg s op).1.ch
  := by
  cases op with
  | pushCommand cmd =>
      simp only [hostStep, run_pushCommand dbg cmd ⟨s.ch, [], []⟩ (hpow .C) rfl]
      exact keepSeq_fixed (pushOutcome_fixed _ _ _ _ _ _) (fun _ _ => ⟨rfl, rfl, rfl⟩)
  | pushWorkloadCtrl rec =>
      simp only [hostStep, run_pushWorkloadCtrl dbg rec ⟨s.ch, [], []⟩ (hpow .I) rfl]
      exact keepSeq_fixed (pushOutcome_fixed _ _ _ _ _ _) (fun _ _ => ⟨rfl, rfl, rfl⟩)
  | drainEvents =>
      have hA := drainOutcome_fixed dbg .A s.ch
      have hW := drainOutcome_fixed dbg .W (drainOutcome dbg .A s.ch).ch
      simp only [hostStep, run_drainEvents dbg ⟨s.ch, [], []⟩ rfl rfl]
      cases (drainOutcome dbg .A s.ch).res with
      | ok evs => exact hA.trans hW
      | err e => exact hA
      | panic => exact hA
  | answer iseq =>
      simp only [hostStep, run_answer plan dbg iseq _ (Prod.eta _).symm, Channel.answered]
      split <;> exact ⟨rfl, rfl, rfl⟩
  | guestWrite gpa bs => exact ⟨rfl, rfl, rfl⟩

/-- What a responder decides depends on what channels in agreement agree on. -/
theorem Agree.decided {ε : Type} {a b : Channel} (h : Agree a b) (iseq : UInt32) (p : π) :
  (decided plan dbg iseq p a : π × Res ε UInt32) = Host.decided plan dbg iseq p b
  := by
  simp only [Host.decided, Channel.internName, h.interns, h.pendingInjects]

theorem Agree.answered {a b : Channel} (h : Agree a b) (iseq : UInt32) :
  Agree (a.answered iseq) (b.answered iseq)
  := by
  have herase : a.pendingInjects.erase iseq = b.pendingInjects.erase iseq := by
    rw [h.pendingInjects]
  simp only [Channel.answered, h.pendingInjects]
  split
  · exact ⟨h.gm, h.base, h.rings, h.interns, herase, h.nextSeqC, h.nextSeqI⟩
  · exact ⟨h.gm, h.base, h.rings, h.interns, herase, h.nextSeqC, h.nextSeqI⟩

/-- An operation on channels in agreement is observed the same and keeps them in
agreement. -/
theorem hostStep_agree (hplan : s.plan = s'.plan) (h : Agree s.ch s'.ch)
    (hpow : ∀ ring, Word.isPowerOfTwo (s.ch.ringDesc ring).size) (op : HostOp) :
  (hostStep plan dbg s op).2 = (hostStep plan dbg s' op).2 ∧
    (hostStep plan dbg s op).1.plan = (hostStep plan dbg s' op).1.plan ∧
    Agree (hostStep plan dbg s op).1.ch (hostStep plan dbg s' op).1.ch
  := by
  have hpow' : ∀ ring, Word.isPowerOfTwo (s'.ch.ringDesc ring).size := by
    intro ring
    rw [← (h.places ring).2.2.2]
    exact hpow ring
  cases op with
  | pushCommand cmd =>
      have hout := h.command dbg cmd
      simp only [hostStep, HostState.observe,
        run_pushCommand dbg cmd ⟨s.ch, [], []⟩ (hpow .C) rfl,
        run_pushCommand dbg cmd ⟨s'.ch, [], []⟩ (hpow' .C) rfl, hout.ops, hout.io, hout.res,
        hout.ch.gm]
      exact ⟨trivial, hplan, hout.ch⟩
  | pushWorkloadCtrl rec =>
      have hout := h.workloadCtrl dbg rec
      simp only [hostStep, HostState.observe,
        run_pushWorkloadCtrl dbg rec ⟨s.ch, [], []⟩ (hpow .I) rfl,
        run_pushWorkloadCtrl dbg rec ⟨s'.ch, [], []⟩ (hpow' .I) rfl, hout.ops, hout.io, hout.res,
        hout.ch.gm]
      exact ⟨trivial, hplan, hout.ch⟩
  | drainEvents =>
      have hA := h.drain dbg .A
      have hW := hA.ch.drain dbg .W
      simp only [hostStep, HostState.observe, run_drainEvents dbg ⟨s.ch, [], []⟩ rfl rfl,
        run_drainEvents dbg ⟨s'.ch, [], []⟩ rfl rfl, hA.res]
      cases (drainOutcome dbg .A s'.ch).res with
      | ok evs =>
          dsimp only
          rw [hA.ops, hA.io, hW.ops, hW.io, hW.res, hW.ch.gm]
          exact ⟨rfl, hplan, hW.ch⟩
      | err e =>
          dsimp only
          rw [hA.ops, hA.io, hA.ch.gm]
          exact ⟨rfl, hplan, hA.ch⟩
      | panic =>
          dsimp only
          rw [hA.ops, hA.io, hA.ch.gm]
          exact ⟨rfl, hplan, hA.ch⟩
  | answer iseq =>
      have hch := h.answered iseq
      simp only [hostStep, HostState.observe, run_answer plan dbg iseq _ (Prod.eta _).symm,
        h.decided, hplan, hch.gm]
      exact ⟨trivial, trivial, hch⟩
  | guestWrite gpa bs =>
      simp only [hostStep, HostState.observe, Channel.withMem, h.gm]
      exact ⟨trivial, hplan, h.withGm _⟩

/-- Runs from channels in agreement are observed the same and end in agreement. -/
theorem run_agree (hplan : s.plan = s'.plan) (h : Agree s.ch s'.ch)
    (hpow : ∀ ring, Word.isPowerOfTwo (s.ch.ringDesc ring).size) (ops : List HostOp) :
  (Machine.run (hostStep plan dbg) s ops).2 = (Machine.run (hostStep plan dbg) s' ops).2 ∧
    Agree (Machine.run (hostStep plan dbg) s ops).1.ch
      (Machine.run (hostStep plan dbg) s' ops).1.ch
  := by
  induction ops generalizing s s' with
  | nil => exact ⟨rfl, h⟩
  | cons op ops ih =>
      obtain ⟨hobs, hplan', h'⟩ := @hostStep_agree π plan dbg s s' hplan h hpow op
      have hfixed : Fixed s.ch (hostStep plan dbg s op).1.ch := hostStep_fixed hpow op
      have hpow' : ∀ ring,
          Word.isPowerOfTwo ((hostStep plan dbg s op).1.ch.ringDesc ring).size := by
        intro ring
        rw [Channel.ringDesc, hfixed.header]
        exact hpow ring
      obtain ⟨hrest, hend⟩ := ih hplan' h' hpow'
      simp only [Machine.run]
      exact ⟨by rw [hobs, hrest], hend⟩

end Steps

/-- A whole run changes nothing fixed. -/
theorem run_fixed {π : Type} (plan : FaultPlan π) (dbg : Bool) {s : HostSide π}
    (hpow : ∀ ring, Word.isPowerOfTwo (s.ch.ringDesc ring).size) (ops : List HostOp) :
  Fixed s.ch (Machine.run (hostStep plan dbg) s ops).1.ch
  := by
  induction ops generalizing s with
  | nil => apply Fixed.refl
  | cons op ops ih =>
      have hfixed : Fixed s.ch (hostStep plan dbg s op).1.ch := hostStep_fixed hpow op
      apply hfixed.trans
      apply ih
      intro ring
      rw [Channel.ringDesc, hfixed.header]
      exact hpow ring

/-! ### Snapshots -/

/-- What a channel exports for a snapshot. -/
structure Snapshot where
  seqs : ProducerSeqs
  interns : List InternSnapshotEntry
  pendingInjects : List (UInt32 × UInt32)

/-- The snapshot of a channel. -/
def snapshot (ch : Channel) : Snapshot :=
  { seqs := ch.producerSeqs
    interns := ch.internsSnapshot
    pendingInjects := ch.pendingInjectsSnapshot }

/-- Restore a channel from a snapshot. -/
def restore (dbg : Bool) (snap : Snapshot) : Exec Channel Empty Unit := do
  Exec.modify fun ch => ch.restoreProducerSeqs snap.seqs
  Channel.restoreInterns dbg snap.interns
  Channel.restorePendingInjects dbg snap.pendingInjects

/-- A map is the map of its entries. -/
theorem ofList_toList {α : Type} (t : BTreeMap α) :
  Std.ExtTreeMap.ofList t.toList compare = t
  := by
  apply Std.ExtTreeMap.ext_getElem?
  intro k
  cases hk : t[k]? with
  | some v =>
      apply Std.ExtTreeMap.getElem?_ofList_of_mem (Std.ReflCmp.compare_self)
        Std.ExtTreeMap.distinct_keys_toList
      exact Std.ExtTreeMap.mem_toList_iff_getElem?_eq_some.mpr hk
  | none =>
      apply Std.ExtTreeMap.getElem?_ofList_of_contains_eq_false
      rw [← Bool.not_eq_true, List.contains_iff_mem]
      intro hmem
      obtain ⟨⟨k', v⟩, hv, rfl⟩ := List.mem_map.mp hmem
      rw [Std.ExtTreeMap.mem_toList_iff_getElem?_eq_some] at hv
      rw [hk] at hv
      cases hv

/-- Channels in agreement export the same snapshot. -/
theorem Agree.snapshot {a b : Channel} (h : Agree a b) :
  snapshot a = Protocol.snapshot b
  := by
  simp only [Protocol.snapshot, Channel.producerSeqs, Channel.internsSnapshot,
    Channel.pendingInjectsSnapshot, h.interns, h.pendingInjects, h.nextSeqC, h.nextSeqI]

/-- Restoring a fresh channel from the snapshot of a channel at the same place brings the two
into agreement. -/
theorem run_restore (dbg : Bool) {ch : Channel} {header : ChannelHeader}
    (hrings : header.ringDesc = ch.header.ringDesc) :
  ∃ restored, (restore dbg (snapshot ch)).run (Channel.fresh ch.gm ch.base header)
      = (restored, .ok ()) ∧ Agree restored ch
  := by
  have hinterns : (ch.internsSnapshot.map fun e =>
      (e.nameId, ({ name := e.name, reachableDecl := e.reachableDecl } : InternEntry)))
      = ch.interns.toList := by
    rw [Channel.internsSnapshot, List.map_map]
    exact List.map_id _
  have hempty : (∅ : BTreeMap InternEntry).isEmpty = true := rfl
  have hempty' : (∅ : BTreeMap UInt32).isEmpty = true := rfl
  refine ⟨{ Channel.fresh ch.gm ch.base header with
    nextSeqC := ch.nextSeqC
    nextSeqI := ch.nextSeqI
    interns := ch.interns
    pendingInjects := ch.pendingInjects }, ?_, ⟨rfl, rfl, hrings, rfl, rfl, rfl, rfl⟩⟩
  simp only [restore, snapshot, Channel.restoreInterns, Channel.restorePendingInjects,
    Channel.restoreProducerSeqs, Channel.producerSeqs, Channel.fresh, Exec.run_bind,
    Exec.run_modify, Exec.run_get, Exec.run_set, hempty, hempty', Exec.run_debugAssert_of, hinterns,
    Channel.pendingInjectsSnapshot, ofList_toList]

/-- **Snapshots.**  After any run from an attached channel that leaves magic, version and
descriptors in memory as they were, attaching again and restoring the exported values
succeeds, and every later run is observed the same on both channels and ends with the same
snapshot. -/
theorem restore_transparent {π : Type} (plan : FaultPlan π) (dbg : Bool) (p : π) {gm : GuestMem}
    {base : PageBase} {ch : Channel} (hattach : attach gm base = .ok ch) (ops : List HostOp)
    {s : HostSide π} {tr : List (HostOp × Observed)}
    (hrun : Machine.run (hostStep plan dbg) ⟨p, ch⟩ ops = (s, tr)) {header : ChannelHeader}
    (hheader : ChannelHeader.readFrom (s.ch.gm.bytes.read base.gpa offReserved) = .ok header)
    (hmagic : header.magic = ch.header.magic)
    (hversion : header.protoVersion = ch.header.protoVersion)
    (hrings : header.ringDesc = ch.header.ringDesc) :
  ∃ fresh restored, attach s.ch.gm s.ch.base = .ok fresh ∧
    (restore dbg (snapshot s.ch)).run fresh = (restored, .ok ()) ∧
    ∀ later,
      (Machine.run (hostStep plan dbg) ⟨s.plan, restored⟩ later).2
        = (Machine.run (hostStep plan dbg) s later).2 ∧
      snapshot (Machine.run (hostStep plan dbg) ⟨s.plan, restored⟩ later).1.ch
        = snapshot (Machine.run (hostStep plan dbg) s later).1.ch
  := by
  obtain ⟨hread, _, _, hacc, rfl⟩ := attach_eq_ok.mp hattach
  have hpow : ∀ ring, Word.isPowerOfTwo ((Channel.fresh gm base _).ringDesc ring).size :=
    fun ring => (hacc.valid ring).size_pow
  have hfixed := run_fixed plan dbg (s := ⟨p, Channel.fresh gm base _⟩) hpow ops
  rw [hrun] at hfixed
  have hacc' : Accepted header := by
    refine ⟨hmagic.trans hacc.magic, hversion.trans hacc.version, ?_, ?_⟩
    · rw [hrings]
      exact hacc.valid
    · rw [hrings]
      exact hacc.disjoint
  have hrings' : header.ringDesc = s.ch.header.ringDesc := by
    rw [hfixed.header]
    exact hrings
  have hbase : s.ch.base = base := hfixed.base
  obtain ⟨restored, hrestore, hagree⟩ := run_restore dbg hrings'
  refine ⟨_, restored, ?_, hrestore, ?_⟩
  · rw [attach_eq_ok]
    refine ⟨?_, header, ?_, hacc', rfl⟩
    · rw [hfixed.readErr, hbase]
      exact hread
    · rw [hbase]
      exact hheader
  · intro later
    have hpow' : ∀ ring, Word.isPowerOfTwo (restored.ringDesc ring).size := by
      intro ring
      rw [(hagree.places ring).2.2.2, Channel.ringDesc, hfixed.header]
      exact hpow ring
    obtain ⟨hobs, hend⟩ := @run_agree π plan dbg ⟨s.plan, restored⟩ s rfl hagree hpow' later
    exact ⟨hobs, hend.snapshot⟩

/-- The guest binds a name and asks for it on ring W, the host drains that and pushes a command. -/
def askedOps : List HostOp :=
  [.guestWrite 0x20000 knownRecs.flatten,
    .guestWrite RingId.W.prodOffset (Bytes.ofU32 (.ofNat knownRecs.flatten.length)),
    .drainEvents, .pushCommand .reverifyRegions, .answer 3]

/-- With a name in its table and a query that waits for its answer, a restored channel behaves the
same. -/
theorem restore_transparent_asked :
  let plan : FaultPlan Unit := { decide := fun _ _ _ _ => ((), .proceed) }
  let s := (Machine.run (hostStep plan true) ⟨(), canonicalChannel⟩ askedOps).1
  (s.ch.internName 1 = some [0x61] ∧ s.ch.pendingInjects[(7 : UInt32)]? = some 1) ∧
    ∃ fresh restored, attach s.ch.gm s.ch.base = .ok fresh ∧
      (restore true (snapshot s.ch)).run fresh = (restored, .ok ()) ∧
      ∀ later,
        (Machine.run (hostStep plan true) ⟨s.plan, restored⟩ later).2
          = (Machine.run (hostStep plan true) s later).2 ∧
        snapshot (Machine.run (hostStep plan true) ⟨s.plan, restored⟩ later).1.ch
          = snapshot (Machine.run (hostStep plan true) s later).1.ch
  := by
  intro plan s
  have hread : s.ch.gm.bytes.read 0 offReserved = canonicalMem.bytes.read 0 offReserved := by
    decide +kernel
  have hheader : ChannelHeader.readFrom (s.ch.gm.bytes.read zeroBase.gpa offReserved)
      = .ok ChannelHeader.canonical := by
    apply Eq.trans _ readFrom_canonicalMem
    exact congrArg ChannelHeader.readFrom hread
  refine ⟨⟨by decide +kernel, by decide +kernel⟩, ?_⟩
  exact restore_transparent plan true () attach_canonical askedOps (Prod.eta _).symm hheader
    rfl rfl rfl

end Protocol
