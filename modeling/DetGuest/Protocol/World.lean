import DetGuest.Protocol.Delivery
import DetGuest.Protocol.Fifo

/-!
# The contents of a channel

The rings of a channel over one memory as queues: the records on rings A and W, the commands
on ring C and the workload-control records on ring I.  Each operation on the memory is an
operation on one of these queues and leaves the others alone.
-/

namespace Protocol

open Wire Host

/-- What the rings of a channel hold. -/
structure Contents where
  events : GuestRing → List Bytes
  commands : List Command
  ctrls : List WorkloadCtrl

/-- Nothing in any ring. -/
def Contents.empty : Contents := { events := fun _ => [], commands := [], ctrls := [] }

/-- The contents with further records on a guest-to-host ring. -/
def Contents.push (c : Contents) (g : GuestRing) (new : List Bytes) : Contents :=
  { c with events := Function.update c.events g (c.events g ++ new) }

@[simp]
theorem Contents.push_self (c : Contents) (g : GuestRing) (new : List Bytes) :
  (c.push g new).events g = c.events g ++ new
  := Function.update_self _ _ _

@[simp]
theorem Contents.push_of_ne (c : Contents) {g g' : GuestRing} (hne : g' ≠ g) (new : List Bytes) :
  (c.push g new).events g' = c.events g'
  := Function.update_of_ne hne _ _

/-- The contents behind a drain. -/
def Contents.drained (c : Contents) : Contents := { c with events := fun _ => [] }

/-- The contents with one more workload-control record. -/
def Contents.send (c : Contents) (rec : WorkloadCtrl) : Contents :=
  { c with ctrls := c.ctrls ++ [rec] }

/-- A channel whose header has the canonical rings. -/
structure Canonical (ch : Channel) : Prop where
  accepted : Accepted ch.header
  desc : ∀ ring, ch.header.ringDesc ring = ring.canonicalDesc

/-- The canonical ring of a channel. -/
def ringOf (ch : Channel) (ring : RingId) : RingMap := RingMap.canonical ch.base.gpa ring

/-- The rings of the channel `ch` hold the given contents. -/
structure Holds (ch : Channel) (s : EventState) (c : Contents) : Prop where
  header : s.host.ch.header = ch.header
  base : s.host.ch.base = ch.base
  mapped : Mapped s.host.ch.gm s.host.ch.base
  events : ∀ g, Queue (ringOf ch g.id) s.mem (c.events g)
  accepts : ∀ g, ∀ rec ∈ c.events g, accepts rec = .ok ()
  commands : Mailbox (ringOf ch .C) Agent.takeCommand s.mem c.commands []
  ctrls : Mailbox (ringOf ch .I) Sdk.takeWorkloadCtrl s.mem c.ctrls []

/-- An address outside all rings of the channel. -/
def OutsideRings (ch : Channel) (i : Nat) : Prop := ∀ ring, ¬ (ringOf ch ring).Owns i

/-- The state over other contents of memory. -/
def EventState.setMem (s : EventState) (m : ByteMem) : EventState :=
  { s with host := { s.host with ch := s.host.ch.withMem m } }

section Operations

variable {ch : Channel} {s : EventState} {c : Contents}

theorem Canonical.ringAt (hch : Canonical ch) (h : Holds ch s c) (ring : RingId) :
  RingAt (ringOf ch ring) s.host.ch ring
  := (ringAt_canonical ring (hch.desc ring)).congr h.header h.base

theorem Canonical.apart (hch : Canonical ch) {a b : RingId} (hab : a ≠ b) :
  (ringOf ch a).Apart (ringOf ch b)
  := canonical_apart hch.accepted hch.desc hab

theorem Canonical.accepted_of_holds (hch : Canonical ch) (h : Holds ch s c) :
  Accepted s.host.ch.header
  := by
  rw [h.header]
  exact hch.accepted

/-- What a step must show: the place of the channel is kept, and each ring is either left
alone or holds its new contents. -/
theorem Holds.step {s' : EventState} {c' : Contents} (h : Holds ch s c)
    (hheader : s'.host.ch.header = s.host.ch.header) (hbase : s'.host.ch.base = s.host.ch.base)
    (hmapped : Mapped s'.host.ch.gm s'.host.ch.base)
    (hevents : ∀ g, (Queue (ringOf ch g.id) s'.mem (c'.events g) ∧
        ∀ rec ∈ c'.events g, Host.accepts rec = .ok ()) ∨
      (c'.events g = c.events g ∧ ∀ i, (ringOf ch g.id).Owns i → s'.mem i = s.mem i))
    (hcommands : Mailbox (ringOf ch .C) Agent.takeCommand s'.mem c'.commands [] ∨
      (c'.commands = c.commands ∧ ∀ i, (ringOf ch .C).Owns i → s'.mem i = s.mem i))
    (hctrls : Mailbox (ringOf ch .I) Sdk.takeWorkloadCtrl s'.mem c'.ctrls [] ∨
      (c'.ctrls = c.ctrls ∧ ∀ i, (ringOf ch .I).Owns i → s'.mem i = s.mem i)) :
  Holds ch s' c'
  := by
  refine ⟨hheader.trans h.header, hbase.trans h.base, hmapped, ?_, ?_, ?_, ?_⟩
  · intro g
    rcases hevents g with ⟨hq, _⟩ | ⟨hsame, hmem⟩
    · exact hq
    · rw [hsame]
      exact (h.events g).frame hmem
  · intro g
    rcases hevents g with ⟨_, haccepts⟩ | ⟨hsame, _⟩
    · exact haccepts
    · rw [hsame]
      exact h.accepts g
  · rcases hcommands with hbox | ⟨hsame, hmem⟩
    · exact hbox
    · rw [hsame]
      exact h.commands.frame hmem
  · rcases hctrls with hbox | ⟨hsame, hmem⟩
    · exact hbox
    · rw [hsame]
      exact h.ctrls.frame hmem

/-- Writes outside the rings leave the contents alone. -/
theorem Holds.outside {m : ByteMem} (h : Holds ch s c)
    (hm : ∀ i, ¬ OutsideRings ch i → m i = s.mem i) :
  Holds ch (s.setMem m) c
  := by
  have hsame : ∀ ring i, (ringOf ch ring).Owns i → m i = s.mem i := by
    intro ring i hi
    apply hm
    intro hout
    exact hout ring hi
  apply h.step
  · rfl
  · rfl
  · exact h.mapped
  · intro g
    exact Or.inr ⟨rfl, hsame g.id⟩
  · exact Or.inr ⟨rfl, hsame .C⟩
  · exact Or.inr ⟨rfl, hsame .I⟩

/-! ### The operations -/

/-- The records of a push of an event, for the producer index `prod`. -/
def eventRecs (r : RingMap) (prod seq : UInt32) (vnanos : UInt64) (extraFlags : UInt8)
    (ev : EventPayload) : List Bytes :=
  pushRecs (r.tail prod) (encodedEventLen ev) seq (seq + 1)
    (fun s => eventBytes s vnanos extraFlags ev)

/-- There is no room for the record of an event and the `Pad` in front of it. -/
def NoRoom (r : RingMap) (m : ByteMem) (ev : EventPayload) : Prop :=
  free (m.u32 r.prod) (m.u32 r.cons) r.size
    < bytesNeeded (m.u32 r.prod) r.size (UInt32.ofNat (encodedEventLen ev))

/-- A push of an event on a guest-to-host ring finds no room and changes nothing, or appends
its records. -/
theorem Holds.pushEvent (h : Holds ch s c) (hch : Canonical ch) (dbg : Bool) (g : GuestRing)
    (vnanos : UInt64) (extraFlags : UInt8) {ev : EventPayload} (hev : ev.Encodable)
    {push : Producer × Res RingFull UInt32}
    (hpush : push = (Producer.tryPush dbg (ringOf ch g.id) (encodedEventLen ev)
      (fun seq => encodeEvent dbg seq vnanos extraFlags ev)).run ⟨s.mem, s.nextSeq g⟩) :
  (NoRoom (ringOf ch g.id) s.mem ev ∧ push = (⟨s.mem, s.nextSeq g⟩, .err .ringFull)) ∨
    ∃ new, new = eventRecs (ringOf ch g.id) (s.mem.u32 (ringOf ch g.id).prod) (s.nextSeq g) vnanos
        extraFlags ev ∧
      push = (⟨(ringOf ch g.id).publish s.mem new, s.nextSeq g + UInt32.ofNat new.length⟩,
        .ok (s.nextSeq g + UInt32.ofNat (new.length - 1))) ∧
      Holds ch (s.setProducer g push.1) (c.push g new) ∧
      ∀ i, ¬ (ringOf ch g.id).Owns i → push.1.mem i = s.mem i
  := by
  have hbounds := encodedEventLen_bounds hev
  have hmax : encodedEventLen ev ≤ maxRecordLen := Nat.le_trans hbounds.2 (by decide)
  have hmin : padMinLen ≤ encodedEventLen ev := Nat.le_trans (by decide) hbounds.1
  rcases (h.events g).tryPush dbg (s.nextSeq g) (encodedEventLen_mod ev) hmin hmax
    (encodes_event dbg vnanos extraFlags hev) (fun s => length_eventBytes s vnanos extraFlags ev)
    (fun s => wellFramed_eventBytes hev) with ⟨hroom, hfull⟩ | ⟨new, hnew, hok, hwhole, hq, _⟩
  · exact Or.inl ⟨hroom, hpush.trans hfull⟩
  · right
    rw [hok] at hpush
    subst hpush
    obtain ⟨htmod, htmin⟩ := (ringOf ch g.id).tail_rules (h.events g).prod_aligned
    obtain ⟨_, haccepts, _⟩ := pushRecs_events dbg g hev htmod htmin hnew
    have hframe : ∀ i, ¬ (ringOf ch g.id).Owns i →
        (ringOf ch g.id).publish s.mem new i = s.mem i :=
      fun i hi => publish_of_not_owns hwhole hi
    refine ⟨new, hnew, rfl, ?_, hframe⟩
    have hother : ∀ ring, ring ≠ g.id → ∀ i, (ringOf ch ring).Owns i →
        (ringOf ch g.id).publish s.mem new i = s.mem i := by
      intro ring hne i hi
      exact hframe i (hch.apart hne i hi)
    apply h.step
    · rfl
    · rfl
    · exact h.mapped
    · intro g'
      by_cases hg : g' = g
      · subst hg
        left
        rw [Contents.push_self]
        refine ⟨hq, ?_⟩
        intro rec hrec
        rcases List.mem_append.mp hrec with hrec | hrec
        · exact h.accepts g' rec hrec
        · exact haccepts rec hrec
      · right
        rw [Contents.push_of_ne c hg]
        exact ⟨rfl, hother g'.id (fun heq => hg (GuestRing.id_injective heq))⟩
    · exact Or.inr ⟨rfl, hother .C (by cases g <;> decide)⟩
    · exact Or.inr ⟨rfl, hother .I (by cases g <;> decide)⟩

/-- A push of an event by the SDK. -/
theorem Holds.pushEventW (h : Holds ch s c) (hch : Canonical ch) (dbg : Bool) (vnanos : UInt64)
    (extraFlags : UInt8) {ev : EventPayload} (hev : ev.Encodable) :
  (NoRoom (ringOf ch .W) s.mem ev ∧
    (Sdk.pushEvent dbg (ringOf ch .W) (encodedEventLen ev) vnanos extraFlags ev).run
      ⟨s.mem, s.nextSeq .W⟩ = (⟨s.mem, s.nextSeq .W⟩, .err .ringFull)) ∨
    ∃ p new, (Sdk.pushEvent dbg (ringOf ch .W) (encodedEventLen ev) vnanos extraFlags ev).run
        ⟨s.mem, s.nextSeq .W⟩ = (p, .ok ()) ∧
      new = eventRecs (ringOf ch .W) (s.mem.u32 (ringOf ch .W).prod) (s.nextSeq .W) vnanos
        extraFlags ev ∧
      p.nextSeq = s.nextSeq .W + UInt32.ofNat new.length ∧
      Holds ch (s.setProducer .W p) (c.push .W new) ∧
      ∀ i, ¬ (ringOf ch .W).Owns i → p.mem i = s.mem i
  := by
  rcases h.pushEvent hch dbg .W vnanos extraFlags hev rfl
    with ⟨hroom, hfull⟩ | ⟨new, hnew, hok, hholds, hframe⟩
  · left
    refine ⟨hroom, ?_⟩
    dsimp only [GuestRing.id] at hfull
    rw [Sdk.pushEvent, Exec.run_bind_of_err hfull]
  · right
    rw [hok] at hholds hframe
    dsimp only [GuestRing.id] at hok
    have hrun : (Sdk.pushEvent dbg (ringOf ch .W) (encodedEventLen ev) vnanos extraFlags ev).run
        ⟨s.mem, s.nextSeq .W⟩
        = (⟨(ringOf ch .W).publish s.mem new, s.nextSeq .W + UInt32.ofNat new.length⟩, .ok ()) := by
      rw [Sdk.pushEvent, Exec.run_bind_of_ok hok, Exec.run_pure]
    exact ⟨_, new, hrun, hnew, rfl, hholds, hframe⟩

/-- The events of the records in rings A and W, in the order of a drain. -/
def Contents.drainedEvents (c : Contents) : List GuestEvent :=
  (c.events .A).filterMap (eventOf .A) ++ (c.events .W).filterMap (eventOf .W)

/-- Folding records does not look at memory. -/
theorem foldRecs_withMem (recs : List Bytes) (ch : Channel) (m : ByteMem) :
  recs.foldl Channel.foldRec (ch.withMem m) = (recs.foldl Channel.foldRec ch).withMem m
  := by
  have hone : ∀ (ch : Channel) rec, (ch.withMem m).foldRec rec = (ch.foldRec rec).withMem m := by
    intro ch rec
    rw [Channel.foldRec, Channel.foldRec]
    split
    · split
      · rfl
      · rename_i owned _
        cases owned with
        | nameIntern nameId name decl =>
            simp only [Channel.foldPayload, Channel.withMem]
            split <;> rfl
        | _ => rfl
    · rfl
    · rfl
  induction recs generalizing ch with
  | nil => rfl
  | cons rec recs ih => rw [List.foldl_cons, List.foldl_cons, hone, ih]

/-- The contents behind a drain of one ring. -/
def Contents.without (c : Contents) (g : GuestRing) : Contents :=
  { c with events := Function.update c.events g [] }

/-- A drain of one ring takes its records and folds them into the tables. -/
theorem Holds.drainRing (h : Holds ch s c) (hch : Canonical ch) (dbg : Bool) (g : GuestRing)
    (out : List GuestEvent) :
  ∃ h', (Host.drainRing dbg g.id out).run s.host
      = (h', .ok (out ++ (c.events g).filterMap (eventOf g.id))) ∧
    Holds ch { s with host := h' } (c.without g) ∧
    h'.ch = ((c.events g).foldl Channel.foldRec s.host.ch).withMem h'.ch.gm.bytes ∧
    ∀ i, ¬ (ringOf ch g.id).Owns i → h'.ch.gm.bytes i = s.mem i
  := by
  have hacc := hch.accepted_of_holds h
  have hat := hch.ringAt h g.id
  have hplace := foldRecs_place (c.events g) s.host.ch
  obtain ⟨hres, hout⟩ := drainOutcome_queue dbg h.mapped hacc hat (h.events g) (h.accepts g)
  have hrun := run_drainRing dbg g.id out s.host rfl
  rw [hres, Res.ok_bind] at hrun
  rw [Channel.storeCons, hplace.gm, hplace.consGpa, ← hat.cons] at hout
  have hframe : ∀ i, ¬ (ringOf ch g.id).Owns i →
      (drainOutcome dbg g.id s.host.ch).ch.gm.bytes i = s.mem i := by
    intro i hi
    rw [hout]
    apply write_cons_of_not_owns hi
  have hother : ∀ ring, ring ≠ g.id → ∀ i, (ringOf ch ring).Owns i →
      (drainOutcome dbg g.id s.host.ch).ch.gm.bytes i = s.mem i := by
    intro ring hne i hi
    exact hframe i (hch.apart hne i hi)
  refine ⟨_, hrun, ?_, ?_, hframe⟩
  · apply h.step
    · dsimp only
      rw [hout]
      exact hplace.header
    · dsimp only
      rw [hout]
      exact hplace.base
    · dsimp only
      rw [hout, hplace.base]
      exact h.mapped
    · intro g'
      by_cases hg : g' = g
      · subst hg
        left
        have hnil : (c.without g').events g' = [] := Function.update_self _ _ _
        have hmem : EventState.mem { s with host :=
            { ch := (drainOutcome dbg g'.id s.host.ch).ch
              sink := s.host.sink ++ (drainOutcome dbg g'.id s.host.ch).ops
              io := s.host.io ++ (drainOutcome dbg g'.id s.host.ch).io } }
            = s.mem.write (ringOf ch g'.id).cons (Bytes.ofU32 (s.mem.u32 (ringOf ch g'.id).cons
              + UInt32.ofNat (Circular.span (c.events g')))) := by
          rw [EventState.mem, hout]
          rfl
        rw [hnil, hmem]
        exact ⟨(h.events g').clear, by simp⟩
      · right
        have hsame : (c.without g).events g' = c.events g' := Function.update_of_ne hg _ _
        exact ⟨hsame, hother g'.id (fun heq => hg (GuestRing.id_injective heq))⟩
    · exact Or.inr ⟨rfl, hother .C (by cases g <;> decide)⟩
    · exact Or.inr ⟨rfl, hother .I (by cases g <;> decide)⟩
  · dsimp only
    rw [hout, Channel.withMem, hplace.gm]

/-- A drain takes all records of rings A and W and folds them into the tables, those of ring A
first. -/
theorem Holds.drain (h : Holds ch s c) (hch : Canonical ch) (dbg : Bool) :
  ∃ h', (drainEvents dbg).run s.host = (h', .ok c.drainedEvents) ∧
    Holds ch { s with host := h' } c.drained ∧
    h'.ch = ((c.events .A ++ c.events .W).foldl Channel.foldRec s.host.ch).withMem
      h'.ch.gm.bytes ∧
    ∀ i, OutsideRings ch i → h'.ch.gm.bytes i = s.mem i
  := by
  obtain ⟨h₁, hrun₁, hholds₁, hch₁, hmem₁⟩ := h.drainRing hch dbg .A []
  obtain ⟨h₂, hrun₂, hholds₂, hch₂, hmem₂⟩ := hholds₁.drainRing hch dbg .W
    ([] ++ (c.events .A).filterMap (eventOf .A))
  have hnone : (c.without .A).without .W = c.drained := by
    rw [Contents.without, Contents.without, Contents.drained, Contents.mk.injEq]
    refine ⟨?_, rfl, rfl⟩
    funext g
    cases g <;> rfl
  refine ⟨h₂, ?_, ?_, ?_, ?_⟩
  · have hfirst : (Host.drainRing dbg .A []).run s.host = _ := hrun₁
    rw [drainEvents, Exec.run_bind_of_ok hfirst]
    exact hrun₂
  · rw [← hnone]
    exact hholds₂
  · rw [hch₂, List.foldl_append]
    dsimp only
    rw [hch₁, foldRecs_withMem]
    rfl
  · intro i hi
    rw [hmem₂ i (hi .W)]
    exact hmem₁ i (hi .A)

/-- A workload-control record published on ring I is behind those in it. -/
theorem Holds.sendCtrl {s' : EventState} {recs new : List Bytes} {rec : WorkloadCtrl}
    {vnanos : UInt64} {s₁ s₂ : UInt32} (h : Holds ch s c) (hch : Canonical ch)
    (hheader : s'.host.ch.header = s.host.ch.header) (hbase : s'.host.ch.base = s.host.ch.base)
    (hmapped : Mapped s'.host.ch.gm s'.host.ch.base) (hq : Queue (ringOf ch .I) s.mem recs)
    (htake : ∀ rec ∈ recs, Sdk.takeWorkloadCtrl rec = .ok (valueOf Sdk.takeWorkloadCtrl rec))
    (hrecs : c.ctrls = [] ++ recs.filterMap (valueOf Sdk.takeWorkloadCtrl))
    (hmem : s'.mem = (ringOf ch .I).publish s.mem new)
    (hnew : new = pushRecs ((ringOf ch .I).tail (s.mem.u32 (ringOf ch .I).prod)) (recordLen 8)
      s₁ s₂ (fun s => workloadCtrlBytes s vnanos rec))
    (hwhole : Circular.Whole (ringOf ch .I).size.toNat (s.mem.u32 (ringOf ch .I).prod).toNat new)
    (hq' : Queue (ringOf ch .I) s'.mem (recs ++ new)) :
  Holds ch s' (c.send rec)
  := by
  obtain ⟨hmod, hmin⟩ := (ringOf ch .I).tail_rules hq.prod_aligned
  have hmax : recordLen 8 ≤ maxRecordLen := by decide
  have hother : ∀ ring, ring ≠ .I → ∀ i, (ringOf ch ring).Owns i → s'.mem i = s.mem i := by
    intro ring hne i hi
    rw [hmem]
    exact publish_of_not_owns hwhole (hch.apart hne i hi)
  apply h.step hheader hbase hmapped
  · intro g
    exact Or.inr ⟨rfl, hother g.id (by cases g <;> decide)⟩
  · exact Or.inr ⟨rfl, hother .C (by decide)⟩
  · left
    rw [hnew] at hq'
    apply Mailbox.push htake hrecs hq'
    · intro hlt
      apply Sdk.takeWorkloadCtrl_padBytes s₁ hmod hmin
      omega
    · intro s
      apply Sdk.takeWorkloadCtrl_workloadCtrlBytes

/-- A push of a workload-control record by the host finds no room, or sends the record. -/
theorem Holds.pushWorkloadCtrl (h : Holds ch s c) (hch : Canonical ch) (dbg : Bool)
    (rec : WorkloadCtrl) :
  ∃ h', ((Host.pushWorkloadCtrl dbg rec).run s.host = (h', .err .ringFull) ∧
      Holds ch { s with host := h' } c) ∨
    ((Host.pushWorkloadCtrl dbg rec).run s.host = (h', .ok ()) ∧
      Holds ch { s with host := h' } (c.send rec))
  := by
  obtain ⟨recs, hq, htake, hrecs⟩ := h.ctrls
  rcases run_pushWorkloadCtrl_queue dbg rec s.host h.mapped (hch.accepted_of_holds h)
    (hch.ringAt h .I) hq with ⟨h', hrun, hsame⟩ | ⟨h', new, hrun, hpushed, hnew, _⟩
  · refine ⟨h', Or.inl ⟨hrun, ?_⟩⟩
    have hmem : EventState.mem { s with host := h' } = s.mem := by
      rw [EventState.mem, EventState.mem, hsame]
    apply h.step
    · exact congrArg Channel.header hsame
    · exact congrArg Channel.base hsame
    · rw [hsame]
      exact h.mapped
    · intro g
      exact Or.inr ⟨rfl, fun i _ => congrFun hmem i⟩
    · exact Or.inr ⟨rfl, fun i _ => congrFun hmem i⟩
    · exact Or.inr ⟨rfl, fun i _ => congrFun hmem i⟩
  · exact ⟨h', Or.inr ⟨hrun, h.sendCtrl hch hpushed.header hpushed.base hpushed.mapped hq htake
      hrecs hpushed.bytes hnew hpushed.whole hpushed.queue⟩⟩

/-- A relay by the agent finds no room, or sends the record; it leaves the other rings alone. -/
theorem Holds.relayWorkloadCtrl (h : Holds ch s c) (hch : Canonical ch) (dbg : Bool)
    (vnanos : UInt64) (rec : WorkloadCtrl) :
  ((Agent.relayWorkloadCtrl dbg ch.base.gpa vnanos rec).run s.mem = (s.mem, .err .ringFull)) ∨
    ∃ m, (Agent.relayWorkloadCtrl dbg ch.base.gpa vnanos rec).run s.mem = (m, .ok ()) ∧
      Holds ch (s.setMem m) (c.send rec) ∧ ∀ i, ¬ (ringOf ch .I).Owns i → m i = s.mem i
  := by
  obtain ⟨recs, hq, htake, hrecs⟩ := h.ctrls
  by_cases hroom : free (s.mem.u32 (ringOf ch .I).prod) (s.mem.u32 (ringOf ch .I).cons)
      (ringOf ch .I).size
      < bytesNeeded (s.mem.u32 (ringOf ch .I).prod) (ringOf ch .I).size (UInt32.ofNat (recordLen 8))
  · left
    exact Agent.run_relayWorkloadCtrl_full rfl hroom
  · right
    have hframed : ∀ s, WellFramed (workloadCtrlBytes s vnanos rec) := by
      intro s
      apply wellFramed_recordBytes
      rw [rec.length_payload]
      decide
    obtain ⟨hwhole, hq', _⟩ := hq.push rfl (by decide)
      (fun s => length_workloadCtrlBytes s vnanos rec) hframed hroom
    refine ⟨_, Agent.run_relayWorkloadCtrl_ok rfl hq.prod_aligned hroom, ?_, ?_⟩
    · exact h.sendCtrl hch rfl rfl h.mapped hq htake hrecs rfl rfl hwhole hq'
    · intro i hi
      exact publish_of_not_owns hwhole hi

/-- A poll of the workload takes the first record of ring I, if there is one. -/
theorem Holds.pollWorkloadCtrl (h : Holds ch s c) (hch : Canonical ch) (dbg : Bool) :
  ∃ m, (Sdk.pollWorkloadCtrl dbg (ringOf ch .I)).run s.mem = (m, .ok c.ctrls.head?) ∧
    Holds ch (s.setMem m) { c with ctrls := c.ctrls.tail }
  := by
  have hscratch : maxRecordLen ≤ (Bytes.zeros maxRecordLen).length := by simp
  obtain ⟨k, next, hrun, hbox, hall, _, hmem⟩ := h.ctrls.poll dbg hscratch
  have hnext : next = c.ctrls.head? ∧
      Mailbox (ringOf ch .I) Sdk.takeWorkloadCtrl k.mem c.ctrls.tail [] := by
    obtain ⟨recs, hq, htake, hrecs⟩ := hbox
    cases next with
    | none =>
        rw [hall rfl]
        refine ⟨rfl, recs, hq, htake, ?_⟩
        rw [hall rfl] at hrecs
        exact hrecs
    | some rec =>
        rw [List.nil_append] at hrecs
        rw [hrecs]
        exact ⟨rfl, recs, hq, htake, rfl⟩
  have hother : ∀ ring, ring ≠ .I → ∀ i, (ringOf ch ring).Owns i → k.mem i = s.mem i := by
    intro ring hne i hi
    exact hmem i (hch.apart hne i hi)
  refine ⟨k.mem, ?_, ?_⟩
  · rw [Sdk.pollWorkloadCtrl, Exec.run_bind_of_ok (Exec.run_get _)]
    simp only [Exec.run_mapErr, hrun, ← hnext.1]
    rfl
  · apply h.step
    · rfl
    · rfl
    · exact h.mapped
    · intro g
      exact Or.inr ⟨rfl, hother g.id (by cases g <;> decide)⟩
    · exact Or.inr ⟨rfl, hother .C (by decide)⟩
    · exact Or.inl hnext.2

end Operations

/-- A channel over empty rings holds nothing. -/
theorem holds_empty {ch : Channel} (start : GuestRing → UInt32) (hmapped : Mapped ch.gm ch.base)
    (hempty : ∀ ring, ch.gm.bytes.u32 (ringOf ch ring).prod = ch.gm.bytes.u32 (ringOf ch ring).cons)
    (haligned : ∀ ring, (ch.gm.bytes.u32 (ringOf ch ring).cons).toNat % 8 = 0) :
  Holds ch ⟨⟨ch, [], []⟩, start⟩ .empty
  := by
  refine ⟨rfl, rfl, hmapped, ?_, by simp [Contents.empty], ?_, ?_⟩
  · intro g
    constructor
    · apply Nat.zero_le
    · apply Eq.trans (hempty g.id)
      exact (UInt32.add_zero _).symm
    · trivial
    · simp [Contents.empty]
    · exact haligned g.id
  · exact mailbox_empty _ (hempty .C) (haligned .C)
  · exact mailbox_empty _ (hempty .I) (haligned .I)

theorem canonical_canonicalChannel : Canonical canonicalChannel := by
  refine ⟨accepted_canonical, ?_⟩
  intro ring
  cases ring <;> rfl

theorem canonicalChannel_empty (ring : RingId) :
  canonicalChannel.gm.bytes.u32 (ringOf canonicalChannel ring).prod
    = canonicalChannel.gm.bytes.u32 (ringOf canonicalChannel ring).cons
  := by
  cases ring <;> rfl

theorem canonicalChannel_aligned (ring : RingId) :
  (canonicalChannel.gm.bytes.u32 (ringOf canonicalChannel ring).cons).toNat % 8 = 0
  := by
  cases ring <;> rfl

end Protocol
