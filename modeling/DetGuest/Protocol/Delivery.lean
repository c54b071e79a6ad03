import DetGuest.Agent.Channel
import DetGuest.Host.Rings
import DetGuest.Lib.Machine
import DetGuest.Sdk.Channel

/-!
# Host-to-guest delivery

The host pushes commands on ring C and workload-control records on ring I, where the agent
relays records too; the agent polls ring C and the workload polls ring I.  In every order
of these operations what is polled is what was pushed, in the order of the pushes.
-/

namespace Protocol

open Wire Host

/-! ### The operations -/

/-- The host with guest memory, and the scratch buffer of the agent. -/
structure CtrlState where
  host : HostState
  scratch : Bytes

/-- The shared memory. -/
def CtrlState.mem (s : CtrlState) : ByteMem := s.host.ch.gm.bytes

/-- The state after a guest call left other memory. -/
def CtrlState.setMem (s : CtrlState) (m : ByteMem) : CtrlState :=
  { s with host := { s.host with ch := { s.host.ch with gm := { s.host.ch.gm with bytes := m } } } }

/-- An operation of the host, of the agent or of the workload. -/
inductive CtrlOp where
  | pushCommand (cmd : Command)
  | pushWorkloadCtrl (rec : WorkloadCtrl)
  | relayWorkloadCtrl (vnanos : UInt64) (rec : WorkloadCtrl)
  | pollCommand
  | pollWorkloadCtrl

/-- The result of an operation, and the records a command push published. -/
inductive CtrlAnswer where
  | pushedCommand (res : Res PushError Unit) (written : List Bytes)
  | pushedCtrl (res : Res PushError Unit)
  | relayed (res : Res RingFull Unit)
  | command (res : Res DecodeError (Option Command))
  | ctrl (res : Res Sdk.InitError (Option WorkloadCtrl))

/-- One operation on a channel whose page lies at `base`. -/
def ctrlStep (dbg : Bool) (base : Nat) (s : CtrlState) (op : CtrlOp) : CtrlState × CtrlAnswer :=
  match op with
  | .pushCommand cmd =>
      let (h, res) := (Host.pushCommand dbg cmd).run s.host
      ({ s with host := h },
        .pushedCommand res (published (RingMap.canonical base .C) s.mem h.ch.gm.bytes))
  | .pushWorkloadCtrl rec =>
      let (h, res) := (Host.pushWorkloadCtrl dbg rec).run s.host
      ({ s with host := h }, .pushedCtrl res)
  | .relayWorkloadCtrl vnanos rec =>
      let (m, res) := (Agent.relayWorkloadCtrl dbg base vnanos rec).run s.mem
      (s.setMem m, .relayed res)
  | .pollCommand =>
      let (c, res) := (Agent.pollCommand dbg base).run ⟨s.mem, s.scratch⟩
      ({ s.setMem c.mem with scratch := c.scratch }, .command res)
  | .pollWorkloadCtrl =>
      let (m, res) := (Sdk.pollWorkloadCtrl dbg (RingMap.canonical base .I)).run s.mem
      (s.setMem m, .ctrl res)

/-- The command one operation sends. -/
def CtrlAnswer.sentCommand : CtrlOp × CtrlAnswer → List Command
  | (.pushCommand cmd, .pushedCommand (.ok ()) _) => [cmd]
  | _ => []

/-- The workload-control record one operation sends. -/
def CtrlAnswer.sentCtrl : CtrlOp × CtrlAnswer → List WorkloadCtrl
  | (.pushWorkloadCtrl rec, .pushedCtrl (.ok ())) => [rec]
  | (.relayWorkloadCtrl _ rec, .relayed (.ok ())) => [rec]
  | _ => []

/-- The command one operation receives. -/
def CtrlAnswer.gotCommand : CtrlOp × CtrlAnswer → List Command
  | (_, .command (.ok (some cmd))) => [cmd]
  | _ => []

/-- The workload-control record one operation receives. -/
def CtrlAnswer.gotCtrl : CtrlOp × CtrlAnswer → List WorkloadCtrl
  | (_, .ctrl (.ok (some rec))) => [rec]
  | _ => []

/-- The records one operation writes to ring C. -/
def CtrlAnswer.written : CtrlOp × CtrlAnswer → List Bytes
  | (_, .pushedCommand _ recs) => recs
  | _ => []

def commandsSent (tr : List (CtrlOp × CtrlAnswer)) : List Command :=
  tr.flatMap CtrlAnswer.sentCommand

def commandsReceived (tr : List (CtrlOp × CtrlAnswer)) : List Command :=
  tr.flatMap CtrlAnswer.gotCommand

def ctrlsSent (tr : List (CtrlOp × CtrlAnswer)) : List WorkloadCtrl :=
  tr.flatMap CtrlAnswer.sentCtrl

def ctrlsReceived (tr : List (CtrlOp × CtrlAnswer)) : List WorkloadCtrl :=
  tr.flatMap CtrlAnswer.gotCtrl

/-- The records written to ring C, `Pad`s included. -/
def commandsWritten (tr : List (CtrlOp × CtrlAnswer)) : List Bytes :=
  tr.flatMap CtrlAnswer.written

/-- No poll fails, and a push fails only for want of room. -/
def CtrlAnswer.Fine : CtrlAnswer → Prop
  | .pushedCommand res _ => res = .ok () ∨ res = .err .ringFull
  | .pushedCtrl res => res = .ok () ∨ res = .err .ringFull
  | .relayed res => res ≠ .panic
  | .command res => ∃ cmd, res = .ok cmd
  | .ctrl res => ∃ rec, res = .ok rec

/-! ### Mailboxes -/

/-- What `take` finds in a record, if anything. -/
def valueOf {α : Type} (take : Bytes → Res DecodeError (Option α)) (rec : Bytes) : Option α :=
  match take rec with
  | .ok a => a
  | _ => none

/-- Of what was sent over a ring, the rest that was not received lies in the ring. -/
def Mailbox {α : Type} (r : RingMap) (take : Bytes → Res DecodeError (Option α)) (m : ByteMem)
    (sent received : List α) : Prop :=
  ∃ recs, Queue r m recs ∧ (∀ rec ∈ recs, take rec = .ok (valueOf take rec)) ∧
    sent = received ++ recs.filterMap (valueOf take)

section Mailbox

variable {α : Type} {r : RingMap} {take : Bytes → Res DecodeError (Option α)} {m m' : ByteMem}
  {sent received : List α}

theorem Mailbox.frame (h : Mailbox r take m sent received) (hmem : ∀ i, r.Owns i → m' i = m i) :
  Mailbox r take m' sent received
  := by
  obtain ⟨recs, hq, htake, hsent⟩ := h
  exact ⟨recs, hq.frame hmem, htake, hsent⟩

/-- Publishing the records of a push sends its value. -/
theorem Mailbox.push {recs : List Bytes} {tail n : Nat} {s t : UInt32} {bytes : UInt32 → Bytes}
    {a : α} (htake : ∀ rec ∈ recs, take rec = .ok (valueOf take rec))
    (hsent : sent = received ++ recs.filterMap (valueOf take))
    (hq : Queue r m' (recs ++ pushRecs tail n s t bytes))
    (hpad : tail < n → take (padBytes tail s) = .ok none)
    (hbytes : ∀ s, take (bytes s) = .ok (some a)) :
  Mailbox r take m' (sent ++ [a]) received
  := by
  have hvalue : ∀ s, valueOf take (bytes s) = some a := by
    intro s
    rw [valueOf, hbytes]
  have hnew : ∀ rec ∈ pushRecs tail n s t bytes, take rec = .ok (valueOf take rec) := by
    apply forall_pushRecs
    · intro hlt
      rw [valueOf, hpad hlt]
    · intro s
      rw [valueOf, hbytes]
  refine ⟨_, hq, ?_, ?_⟩
  · intro rec hrec
    rcases List.mem_append.mp hrec with hrec | hrec
    · apply htake rec hrec
    · apply hnew rec hrec
  · rw [List.filterMap_append, hsent, List.append_assoc, pushRecs]
    congr 2
    split
    · simp [hvalue]
    next hlt =>
        have hnone : valueOf take (padBytes tail s) = none := by
          rw [valueOf, hpad (by omega)]
        simp [hvalue, hnone]

/-- A poll receives the next value, or there is none. -/
theorem Mailbox.poll (h : Mailbox r take m sent received) (dbg : Bool) {scratch : Bytes}
    (hscratch : maxRecordLen ≤ scratch.length) :
  ∃ c next, (Consumer.popUntil dbg r take).run ⟨m, scratch⟩ = (c, .ok next) ∧
    Mailbox r take c.mem sent (received ++ next.toList) ∧ (next = none → sent = received) ∧
    c.scratch.length = scratch.length ∧ ∀ i, ¬ r.Owns i → c.mem i = m i
  := by
  obtain ⟨recs, hq, htake, hsent⟩ := h
  obtain ⟨c, rest, hrun, hq', hsuffix, hrest, hlen, hmem⟩ := run_popUntil dbg hq htake hscratch
  refine ⟨c, _, hrun, ⟨rest, hq', ?_, ?_⟩, ?_, hlen, hmem⟩
  · intro rec hrec
    apply htake rec (hsuffix.subset hrec)
  · rw [hsent, hrest]
    cases recs.filterMap (valueOf take) with
    | nil => simp
    | cons a as => simp
  · intro hnone
    rw [List.head?_eq_none_iff] at hnone
    rw [hsent, hnone, List.append_nil]

end Mailbox

/-! ### The invariant -/

/-- The invariant of a run on a channel with page base `base`. -/
structure CtrlInv (ch : Channel) (s : CtrlState) (tr : List (CtrlOp × CtrlAnswer)) : Prop where
  header : s.host.ch.header = ch.header
  base : s.host.ch.base = ch.base
  mapped : Mapped s.host.ch.gm s.host.ch.base
  scratch : s.scratch.length = maxRecordLen
  commands : Mailbox (RingMap.canonical ch.base.gpa .C) Agent.takeCommand s.mem
    (commandsSent tr) (commandsReceived tr)
  ctrls : Mailbox (RingMap.canonical ch.base.gpa .I) Sdk.takeWorkloadCtrl s.mem
    (ctrlsSent tr) (ctrlsReceived tr)
  seqs : (commandsWritten tr).map seqOf = consecutive ch.nextSeqC (commandsWritten tr).length
  next : s.host.ch.nextSeqC = ch.nextSeqC + UInt32.ofNat (commandsWritten tr).length
  fine : ∀ a ∈ tr, a.2.Fine

/-- The canonical rings of a channel whose header has the canonical descriptors. -/
theorem ringAt_canonical {ch : Channel} (ring : RingId)
    (hdesc : ch.header.ringDesc ring = ring.canonicalDesc) :
  RingAt (RingMap.canonical ch.base.gpa ring) ch ring
  := by
  constructor
  · rw [Channel.dataGpa, Channel.ringDesc, hdesc, RingMap.canonical]
  · rw [Channel.ringDesc, hdesc, RingMap.canonical]
  · rfl
  · rfl

section Steps

variable {dbg : Bool} {ch : Channel} {s : CtrlState} {tr : List (CtrlOp × CtrlAnswer)}

/-- A step that keeps the place of the channel and accounts for what it sends, receives
and writes keeps the invariant. -/
theorem CtrlInv.append {s' : CtrlState} {a : CtrlOp × CtrlAnswer} (h : CtrlInv ch s tr)
    (hheader : s'.host.ch.header = s.host.ch.header) (hbase : s'.host.ch.base = s.host.ch.base)
    (hmapped : Mapped s'.host.ch.gm s'.host.ch.base) (hscratch : s'.scratch.length = maxRecordLen)
    (hcommands : Mailbox (RingMap.canonical ch.base.gpa .C) Agent.takeCommand s'.mem
      (commandsSent tr ++ CtrlAnswer.sentCommand a) (commandsReceived tr ++ CtrlAnswer.gotCommand a))
    (hctrls : Mailbox (RingMap.canonical ch.base.gpa .I) Sdk.takeWorkloadCtrl s'.mem
      (ctrlsSent tr ++ CtrlAnswer.sentCtrl a) (ctrlsReceived tr ++ CtrlAnswer.gotCtrl a))
    (hseqs : (CtrlAnswer.written a).map seqOf
      = consecutive s.host.ch.nextSeqC (CtrlAnswer.written a).length)
    (hnext : s'.host.ch.nextSeqC
      = s.host.ch.nextSeqC + UInt32.ofNat (CtrlAnswer.written a).length)
    (hfine : a.2.Fine) :
  CtrlInv ch s' (tr ++ [a])
  := by
  have hwritten : commandsWritten (tr ++ [a]) = commandsWritten tr ++ CtrlAnswer.written a := by
    simp [commandsWritten]
  refine ⟨?_, ?_, hmapped, hscratch, ?_, ?_, ?_, ?_, ?_⟩
  · rw [hheader, h.header]
  · rw [hbase, h.base]
  · simpa [commandsSent, commandsReceived] using hcommands
  · simpa [ctrlsSent, ctrlsReceived] using hctrls
  · rw [hwritten, List.map_append, h.seqs, hseqs, h.next, consecutive_append,
      ← List.length_append]
  · rw [hwritten, hnext, h.next, Word.add_ofNat_add, ← List.length_append]
  · intro b hb
    rcases List.mem_append.mp hb with hb | hb
    · apply h.fine b hb
    · rw [List.mem_singleton] at hb
      subst hb
      exact hfine

/-- An operation that finds no room leaves the channel as it is. -/
theorem CtrlInv.same {s' : CtrlState} {a : CtrlOp × CtrlAnswer} (h : CtrlInv ch s tr)
    (hch : s'.host.ch = s.host.ch) (hscratch : s'.scratch = s.scratch)
    (hcommand : CtrlAnswer.sentCommand a = [] ∧ CtrlAnswer.gotCommand a = [])
    (hctrl : CtrlAnswer.sentCtrl a = [] ∧ CtrlAnswer.gotCtrl a = [])
    (hwritten : CtrlAnswer.written a = []) (hfine : a.2.Fine) :
  CtrlInv ch s' (tr ++ [a])
  := by
  have hmem : s'.mem = s.mem := by rw [CtrlState.mem, hch, CtrlState.mem]
  apply h.append
  · rw [hch]
  · rw [hch]
  · rw [hch]
    exact h.mapped
  · rw [hscratch, h.scratch]
  · rw [hcommand.1, hcommand.2, List.append_nil, List.append_nil, hmem]
    exact h.commands
  · rw [hctrl.1, hctrl.2, List.append_nil, List.append_nil, hmem]
    exact h.ctrls
  · rw [hwritten]
    rfl
  · rw [hwritten, hch]
    exact (UInt32.add_zero _).symm
  · exact hfine

/-- Publishing a workload-control record on ring I sends it. -/
theorem CtrlInv.sendCtrl {s' : CtrlState} {a : CtrlOp × CtrlAnswer} {recs new : List Bytes}
    {rec : WorkloadCtrl} {vnanos : UInt64} {s₁ s₂ : UInt32} (h : CtrlInv ch s tr)
    (hapart : (RingMap.canonical ch.base.gpa .C).Apart (RingMap.canonical ch.base.gpa .I))
    (hheader : s'.host.ch.header = s.host.ch.header) (hbase : s'.host.ch.base = s.host.ch.base)
    (hmapped : Mapped s'.host.ch.gm s'.host.ch.base) (hscratch : s'.scratch = s.scratch)
    (hseq : s'.host.ch.nextSeqC = s.host.ch.nextSeqC)
    (hq : Queue (RingMap.canonical ch.base.gpa .I) s.mem recs)
    (htake : ∀ rec ∈ recs, Sdk.takeWorkloadCtrl rec = .ok (valueOf Sdk.takeWorkloadCtrl rec))
    (hrecs : ctrlsSent tr = ctrlsReceived tr ++ recs.filterMap (valueOf Sdk.takeWorkloadCtrl))
    (hmem : s'.mem = (RingMap.canonical ch.base.gpa .I).publish s.mem new)
    (hnew : new = pushRecs ((RingMap.canonical ch.base.gpa .I).tail
      (s.mem.u32 (RingMap.canonical ch.base.gpa .I).prod)) (recordLen 8) s₁ s₂
      (fun s => workloadCtrlBytes s vnanos rec))
    (hwhole : Circular.Whole (RingMap.canonical ch.base.gpa .I).size.toNat
      (s.mem.u32 (RingMap.canonical ch.base.gpa .I).prod).toNat new)
    (hq' : Queue (RingMap.canonical ch.base.gpa .I) s'.mem (recs ++ new))
    (hcommand : CtrlAnswer.sentCommand a = [] ∧ CtrlAnswer.gotCommand a = [])
    (hctrl : CtrlAnswer.sentCtrl a = [rec] ∧ CtrlAnswer.gotCtrl a = [])
    (hwritten : CtrlAnswer.written a = []) (hfine : a.2.Fine) :
  CtrlInv ch s' (tr ++ [a])
  := by
  obtain ⟨hmod, hmin⟩ := (RingMap.canonical ch.base.gpa .I).tail_rules hq.prod_aligned
  have hmax : recordLen 8 ≤ maxRecordLen := by decide
  apply h.append hheader hbase hmapped
  · rw [hscratch, h.scratch]
  · rw [hcommand.1, hcommand.2, List.append_nil, List.append_nil, hmem]
    apply h.commands.frame
    intro i hi
    apply publish_of_not_owns hwhole (hapart i hi)
  · rw [hctrl.1, hctrl.2, List.append_nil]
    rw [hnew] at hq'
    apply Mailbox.push htake hrecs hq'
    · intro hlt
      apply Sdk.takeWorkloadCtrl_padBytes s₁ hmod hmin
      omega
    · intro s
      apply Sdk.takeWorkloadCtrl_workloadCtrlBytes
  · rw [hwritten]
    rfl
  · rw [hwritten, hseq]
    exact (UInt32.add_zero _).symm
  · exact hfine

/-- Polling a command. -/
theorem CtrlInv.pollCommand (h : CtrlInv ch s tr) (dbg : Bool)
    (hapart : (RingMap.canonical ch.base.gpa .I).Apart (RingMap.canonical ch.base.gpa .C)) :
  ∃ next, (ctrlStep dbg ch.base.gpa s .pollCommand).2 = .command (.ok next) ∧
    (next = none → commandsSent tr = commandsReceived tr) ∧
    CtrlInv ch (ctrlStep dbg ch.base.gpa s .pollCommand).1
      (tr ++ [(.pollCommand, .command (.ok next))])
  := by
  obtain ⟨c, next, hrun, hbox, hall, hlen, hmem⟩ := h.commands.poll dbg
    (Nat.le_of_eq h.scratch.symm)
  have hstep : ctrlStep dbg ch.base.gpa s .pollCommand
      = ({ s.setMem c.mem with scratch := c.scratch }, .command (.ok next)) := by
    simp only [ctrlStep, Agent.pollCommand, hrun]
  have hgot : CtrlAnswer.gotCommand (.pollCommand, .command (.ok next)) = next.toList := by
    cases next with
    | none => rfl
    | some cmd => rfl
  rw [hstep]
  refine ⟨next, rfl, hall, ?_⟩
  apply h.append
  · rfl
  · rfl
  · exact h.mapped
  · exact hlen.trans h.scratch
  · have hnone : CtrlAnswer.sentCommand (.pollCommand, .command (.ok next)) = [] := rfl
    rw [hgot, hnone, List.append_nil]
    exact hbox
  · apply Mailbox.frame (m := s.mem)
    · simpa [CtrlAnswer.sentCtrl, CtrlAnswer.gotCtrl] using h.ctrls
    · intro i hi
      apply hmem i (hapart i hi)
  · rfl
  · exact (UInt32.add_zero _).symm
  · exact ⟨next, rfl⟩

/-- Polling a workload-control record. -/
theorem CtrlInv.pollWorkloadCtrl (h : CtrlInv ch s tr) (dbg : Bool)
    (hapart : (RingMap.canonical ch.base.gpa .C).Apart (RingMap.canonical ch.base.gpa .I)) :
  ∃ next, (ctrlStep dbg ch.base.gpa s .pollWorkloadCtrl).2 = .ctrl (.ok next) ∧
    (next = none → ctrlsSent tr = ctrlsReceived tr) ∧
    CtrlInv ch (ctrlStep dbg ch.base.gpa s .pollWorkloadCtrl).1
      (tr ++ [(.pollWorkloadCtrl, .ctrl (.ok next))])
  := by
  have hscratch : maxRecordLen ≤ (Bytes.zeros maxRecordLen).length := by simp
  obtain ⟨c, next, hrun, hbox, hall, _, hmem⟩ := h.ctrls.poll dbg hscratch
  have hpoll : (Sdk.pollWorkloadCtrl dbg (RingMap.canonical ch.base.gpa .I)).run s.mem
      = (c.mem, .ok next) := by
    rw [Sdk.pollWorkloadCtrl, Exec.run_bind_of_ok (Exec.run_get _)]
    simp only [Exec.run_mapErr, hrun]
    rfl
  have hstep : ctrlStep dbg ch.base.gpa s .pollWorkloadCtrl
      = (s.setMem c.mem, .ctrl (.ok next)) := by
    simp only [ctrlStep, hpoll]
  have hgot : CtrlAnswer.gotCtrl (.pollWorkloadCtrl, .ctrl (.ok next)) = next.toList := by
    cases next with
    | none => rfl
    | some rec => rfl
  rw [hstep]
  refine ⟨next, rfl, hall, ?_⟩
  apply h.append
  · rfl
  · rfl
  · exact h.mapped
  · exact h.scratch
  · apply Mailbox.frame (m := s.mem)
    · simpa [CtrlAnswer.sentCommand, CtrlAnswer.gotCommand] using h.commands
    · intro i hi
      apply hmem i (hapart i hi)
  · have hnone : CtrlAnswer.sentCtrl (.pollWorkloadCtrl, .ctrl (.ok next)) = [] := rfl
    rw [hgot, hnone, List.append_nil]
    exact hbox
  · rfl
  · exact (UInt32.add_zero _).symm
  · exact ⟨next, rfl⟩

/-- Two canonical rings of a channel share no address. -/
theorem canonical_apart {ch : Channel} {a b : RingId} (hacc : Accepted ch.header)
    (hdesc : ∀ ring, ch.header.ringDesc ring = ring.canonicalDesc) (hab : a ≠ b) :
  (RingMap.canonical ch.base.gpa a).Apart (RingMap.canonical ch.base.gpa b)
  := ringAt_apart hacc (ringAt_canonical a (hdesc a)) (ringAt_canonical b (hdesc b)) hab

theorem seqOf_commandBytes (seq : UInt32) (cmd : Command) :
  seqOf (commandBytes seq cmd) = seq
  := by
  rw [seqOf, commandBytes, recordBytes, framed_extract_seq, Bytes.toU32_ofU32]

/-- Pushing a command. -/
theorem CtrlInv.pushCommand (h : CtrlInv ch s tr) (dbg : Bool) (hacc : Accepted ch.header)
    (hdesc : ∀ ring, ch.header.ringDesc ring = ring.canonicalDesc) (cmd : Command) :
  CtrlInv ch (ctrlStep dbg ch.base.gpa s (.pushCommand cmd)).1
    (tr ++ [(.pushCommand cmd, (ctrlStep dbg ch.base.gpa s (.pushCommand cmd)).2)])
  := by
  have hacc' : Accepted s.host.ch.header := by
    rw [h.header]
    exact hacc
  have hat : RingAt (RingMap.canonical ch.base.gpa .C) s.host.ch .C :=
    (ringAt_canonical .C (hdesc .C)).congr h.header h.base
  have hapart : (RingMap.canonical ch.base.gpa .I).Apart (RingMap.canonical ch.base.gpa .C) :=
    canonical_apart hacc hdesc (by decide)
  obtain ⟨recs, hq, htake, hsent⟩ := h.commands
  rcases run_pushCommand_queue dbg cmd s.host h.mapped hacc' hat hq
    with ⟨h', hrun, hch⟩ | ⟨h', new, hrun, hpushed, hnew, hnext⟩
  · have hstep : ctrlStep dbg ch.base.gpa s (.pushCommand cmd)
        = ({ s with host := h' }, .pushedCommand (.err .ringFull) []) := by
      simp only [ctrlStep, hrun, CtrlState.mem, hch, published_self]
    rw [hstep]
    exact h.same hch rfl ⟨rfl, rfl⟩ ⟨rfl, rfl⟩ rfl (Or.inr rfl)
  · have hstep : ctrlStep dbg ch.base.gpa s (.pushCommand cmd)
        = ({ s with host := h' }, .pushedCommand (.ok ()) new) := by
      simp only [ctrlStep, hrun, CtrlState.mem, hpushed.published]
    rw [hstep]
    apply h.append
    · exact hpushed.header
    · exact hpushed.base
    · exact hpushed.mapped
    · exact h.scratch
    · have hq' := hpushed.queue
      rw [hnew] at hq'
      apply Mailbox.push htake _ hq'
      · intro _
        apply Agent.takeCommand_padBytes
      · intro s
        apply Agent.takeCommand_commandBytes
      · simpa [CtrlAnswer.gotCommand] using hsent
    · apply Mailbox.frame (m := s.mem)
      · simpa [CtrlAnswer.sentCtrl, CtrlAnswer.gotCtrl] using h.ctrls
      · intro i hi
        apply Eq.trans (congrFun hpushed.bytes i)
        apply publish_of_not_owns hpushed.whole (hapart i hi)
    · rw [CtrlAnswer.written, hnew]
      apply map_seqOf_pushRecs
      intro s
      apply seqOf_commandBytes
    · exact hnext
    · exact Or.inl rfl

/-- Pushing a workload-control record. -/
theorem CtrlInv.pushWorkloadCtrl (h : CtrlInv ch s tr) (dbg : Bool) (hacc : Accepted ch.header)
    (hdesc : ∀ ring, ch.header.ringDesc ring = ring.canonicalDesc) (rec : WorkloadCtrl) :
  CtrlInv ch (ctrlStep dbg ch.base.gpa s (.pushWorkloadCtrl rec)).1
    (tr ++ [(.pushWorkloadCtrl rec, (ctrlStep dbg ch.base.gpa s (.pushWorkloadCtrl rec)).2)])
  := by
  have hacc' : Accepted s.host.ch.header := by
    rw [h.header]
    exact hacc
  have hat : RingAt (RingMap.canonical ch.base.gpa .I) s.host.ch .I :=
    (ringAt_canonical .I (hdesc .I)).congr h.header h.base
  have hapart : (RingMap.canonical ch.base.gpa .C).Apart (RingMap.canonical ch.base.gpa .I) :=
    canonical_apart hacc hdesc (by decide)
  obtain ⟨recs, hq, htake, hsent⟩ := h.ctrls
  rcases run_pushWorkloadCtrl_queue dbg rec s.host h.mapped hacc' hat hq
    with ⟨h', hrun, hch⟩ | ⟨h', new, hrun, hpushed, hnew, hnext⟩
  · have hstep : ctrlStep dbg ch.base.gpa s (.pushWorkloadCtrl rec)
        = ({ s with host := h' }, .pushedCtrl (.err .ringFull)) := by
      simp only [ctrlStep, hrun]
    rw [hstep]
    exact h.same hch rfl ⟨rfl, rfl⟩ ⟨rfl, rfl⟩ rfl (Or.inr rfl)
  · have hstep : ctrlStep dbg ch.base.gpa s (.pushWorkloadCtrl rec)
        = ({ s with host := h' }, .pushedCtrl (.ok ())) := by
      simp only [ctrlStep, hrun]
    rw [hstep]
    exact h.sendCtrl hapart hpushed.header hpushed.base hpushed.mapped rfl hnext hq htake hsent
      hpushed.bytes hnew hpushed.whole hpushed.queue ⟨rfl, rfl⟩ ⟨rfl, rfl⟩ rfl (Or.inl rfl)

/-- Relaying a workload-control record. -/
theorem CtrlInv.relayWorkloadCtrl (h : CtrlInv ch s tr) (dbg : Bool) (hacc : Accepted ch.header)
    (hdesc : ∀ ring, ch.header.ringDesc ring = ring.canonicalDesc) (vnanos : UInt64)
    (rec : WorkloadCtrl) :
  CtrlInv ch (ctrlStep dbg ch.base.gpa s (.relayWorkloadCtrl vnanos rec)).1
    (tr ++ [(.relayWorkloadCtrl vnanos rec,
      (ctrlStep dbg ch.base.gpa s (.relayWorkloadCtrl vnanos rec)).2)])
  := by
  have hapart : (RingMap.canonical ch.base.gpa .C).Apart (RingMap.canonical ch.base.gpa .I) :=
    canonical_apart hacc hdesc (by decide)
  obtain ⟨recs, hq, htake, hsent⟩ := h.ctrls
  by_cases hroom : free (s.mem.u32 (RingMap.canonical ch.base.gpa .I).prod)
      (s.mem.u32 (RingMap.canonical ch.base.gpa .I).cons) (RingMap.canonical ch.base.gpa .I).size
      < bytesNeeded (s.mem.u32 (RingMap.canonical ch.base.gpa .I).prod)
        (RingMap.canonical ch.base.gpa .I).size (UInt32.ofNat (recordLen 8))
  · have hstep : ctrlStep dbg ch.base.gpa s (.relayWorkloadCtrl vnanos rec)
        = (s.setMem s.mem, .relayed (.err .ringFull)) := by
      simp only [ctrlStep, Agent.run_relayWorkloadCtrl_full rfl hroom]
    rw [hstep]
    refine h.same rfl rfl ⟨rfl, rfl⟩ ⟨rfl, rfl⟩ rfl ?_
    intro hpanic
    cases hpanic
  · have hframed : ∀ s, WellFramed (workloadCtrlBytes s vnanos rec) := by
      intro s
      apply wellFramed_recordBytes
      rw [rec.length_payload]
      decide
    obtain ⟨hwhole, hq', _⟩ := hq.push rfl (by decide)
      (fun s => length_workloadCtrlBytes s vnanos rec) hframed hroom
    have hstep : ctrlStep dbg ch.base.gpa s (.relayWorkloadCtrl vnanos rec)
        = (s.setMem ((RingMap.canonical ch.base.gpa .I).publish s.mem
            (Agent.relayRecs (RingMap.canonical ch.base.gpa .I)
              (s.mem.u32 (RingMap.canonical ch.base.gpa .I).prod) vnanos rec)),
          .relayed (.ok ())) := by
      simp only [ctrlStep, Agent.run_relayWorkloadCtrl_ok rfl hq.prod_aligned hroom]
    rw [hstep]
    refine h.sendCtrl hapart rfl rfl h.mapped rfl rfl hq htake hsent rfl rfl hwhole hq' ⟨rfl, rfl⟩
      ⟨rfl, rfl⟩ rfl ?_
    intro hpanic
    cases hpanic

end Steps

/-! ### Every run -/

/-- A run keeps the invariant. -/
theorem CtrlInv.run (dbg : Bool) {ch : Channel} {s : CtrlState} (hacc : Accepted ch.header)
    (hdesc : ∀ ring, ch.header.ringDesc ring = ring.canonicalDesc) (h : CtrlInv ch s [])
    (ops : List CtrlOp) :
  CtrlInv ch (Machine.run (ctrlStep dbg ch.base.gpa) s ops).1
    (Machine.run (ctrlStep dbg ch.base.gpa) s ops).2
  := by
  apply Machine.run_induction _ ops (fun _ _ => trivial) h
  intro s tr op _ h
  cases op with
  | pushCommand cmd => apply h.pushCommand dbg hacc hdesc
  | pushWorkloadCtrl rec => apply h.pushWorkloadCtrl dbg hacc hdesc
  | relayWorkloadCtrl vnanos rec => apply h.relayWorkloadCtrl dbg hacc hdesc
  | pollCommand =>
      obtain ⟨next, hanswer, _, hinv⟩ :=
        h.pollCommand dbg (canonical_apart hacc hdesc (by decide))
      rw [hanswer]
      exact hinv
  | pollWorkloadCtrl =>
      obtain ⟨next, hanswer, _, hinv⟩ :=
        h.pollWorkloadCtrl dbg (canonical_apart hacc hdesc (by decide))
      rw [hanswer]
      exact hinv

/-- An empty ring is an empty mailbox. -/
theorem mailbox_empty {α : Type} {r : RingMap} (take : Bytes → Res DecodeError (Option α))
    {m : ByteMem} (hempty : m.u32 r.prod = m.u32 r.cons) (haligned : (m.u32 r.cons).toNat % 8 = 0) :
  Mailbox r take m [] []
  := by
  refine ⟨[], ?_, by simp, rfl⟩
  constructor
  · apply Nat.zero_le
  · apply Eq.trans hempty
    exact (UInt32.add_zero _).symm
  · trivial
  · simp
  · exact haligned

/-- Before the first operation the rings are empty. -/
theorem ctrlInv_start {ch : Channel} {scratch : Bytes} (hmapped : Mapped ch.gm ch.base)
    (hscratch : scratch.length = maxRecordLen)
    (hempty : ∀ ring ∈ [RingId.C, .I], ch.gm.bytes.u32 (RingMap.canonical ch.base.gpa ring).prod
      = ch.gm.bytes.u32 (RingMap.canonical ch.base.gpa ring).cons)
    (haligned : ∀ ring ∈ [RingId.C, .I],
      (ch.gm.bytes.u32 (RingMap.canonical ch.base.gpa ring).cons).toNat % 8 = 0) :
  CtrlInv ch ⟨⟨ch, [], []⟩, scratch⟩ []
  := by
  refine ⟨rfl, rfl, hmapped, hscratch, ?_, ?_, rfl, (UInt32.add_zero _).symm, by simp⟩
  · apply mailbox_empty _ (hempty .C (by simp)) (haligned .C (by simp))
  · apply mailbox_empty _ (hempty .I (by simp)) (haligned .I (by simp))

/-- What was received is a prefix of what was sent. -/
theorem Mailbox.received_prefix {α : Type} {r : RingMap}
    {take : Bytes → Res DecodeError (Option α)} {m : ByteMem} {sent received : List α}
    (h : Mailbox r take m sent received) :
  received <+: sent
  := by
  obtain ⟨recs, _, _, hsent⟩ := h
  rw [hsent]
  apply List.prefix_append

/-- **Host-to-guest delivery.**  On a channel with the canonical rings, whatever the order
of pushes, relays and polls: no poll fails, and a push fails only for want of room; what is
polled is a prefix of what was pushed, and all of it when the next poll finds nothing; and
the records of ring C carry consecutive sequence numbers. -/
theorem ctrl_delivered (dbg : Bool) {ch : Channel} (hacc : Accepted ch.header)
    (hdesc : ∀ ring, ch.header.ringDesc ring = ring.canonicalDesc)
    (hmapped : Mapped ch.gm ch.base) {scratch : Bytes} (hscratch : scratch.length = maxRecordLen)
    (hempty : ∀ ring ∈ [RingId.C, .I], ch.gm.bytes.u32 (RingMap.canonical ch.base.gpa ring).prod
      = ch.gm.bytes.u32 (RingMap.canonical ch.base.gpa ring).cons)
    (haligned : ∀ ring ∈ [RingId.C, .I],
      (ch.gm.bytes.u32 (RingMap.canonical ch.base.gpa ring).cons).toNat % 8 = 0)
    (ops : List CtrlOp) {s : CtrlState} {tr : List (CtrlOp × CtrlAnswer)}
    (hrun : Machine.run (ctrlStep dbg ch.base.gpa) ⟨⟨ch, [], []⟩, scratch⟩ ops = (s, tr)) :
  (∀ a ∈ tr, a.2.Fine) ∧
    commandsReceived tr <+: commandsSent tr ∧ ctrlsReceived tr <+: ctrlsSent tr ∧
    ((ctrlStep dbg ch.base.gpa s .pollCommand).2 = .command (.ok none) →
      commandsReceived tr = commandsSent tr) ∧
    ((ctrlStep dbg ch.base.gpa s .pollWorkloadCtrl).2 = .ctrl (.ok none) →
      ctrlsReceived tr = ctrlsSent tr) ∧
    (commandsWritten tr).map seqOf = consecutive ch.nextSeqC (commandsWritten tr).length
  := by
  have h : CtrlInv ch s tr := by
    have h := CtrlInv.run dbg hacc hdesc (ctrlInv_start hmapped hscratch hempty haligned) ops
    rw [hrun] at h
    exact h
  refine ⟨h.fine, h.commands.received_prefix, h.ctrls.received_prefix, ?_, ?_, h.seqs⟩
  · obtain ⟨next, hanswer, hall, _⟩ := h.pollCommand dbg (canonical_apart hacc hdesc (by decide))
    rw [hanswer]
    intro hnone
    rw [CtrlAnswer.command.injEq, Res.ok.injEq] at hnone
    rw [hall hnone]
  · obtain ⟨next, hanswer, hall, _⟩ :=
      h.pollWorkloadCtrl dbg (canonical_apart hacc hdesc (by decide))
    rw [hanswer]
    intro hnone
    rw [CtrlAnswer.ctrl.injEq, Res.ok.injEq] at hnone
    rw [hall hnone]

/-- On the canonical channel a command, a record of the host and a relayed record are polled
as they were pushed. -/
theorem ctrl_delivered_canonical :
  let ops : List CtrlOp := [.pushCommand .reverifyRegions, .pushWorkloadCtrl (.quiesceReq 5), .pollCommand,
    .relayWorkloadCtrl 9 (.resume 6), .pollWorkloadCtrl]
  let tr := (Machine.run (ctrlStep true 0)
    ⟨⟨canonicalChannel, [], []⟩, Bytes.zeros maxRecordLen⟩ ops).2
  commandsReceived tr <+: commandsSent tr ∧ ctrlsReceived tr <+: ctrlsSent tr
  := by
  have hscratch : (Bytes.zeros maxRecordLen).length = maxRecordLen := by simp
  have hdesc : ∀ ring, canonicalChannel.header.ringDesc ring = ring.canonicalDesc := by
    intro ring
    cases ring <;> rfl
  have h := ctrl_delivered true accepted_canonical hdesc mapped_canonical hscratch (by decide)
    (by decide)
    [.pushCommand .reverifyRegions, .pushWorkloadCtrl (.quiesceReq 5), .pollCommand,
      .relayWorkloadCtrl 9 (.resume 6), .pollWorkloadCtrl] (Prod.eta _).symm
  exact ⟨h.2.1, h.2.2.1⟩

end Protocol
