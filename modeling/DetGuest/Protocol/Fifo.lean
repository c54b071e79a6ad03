import DetGuest.Host.Rings
import DetGuest.Lib.Machine

/-!
# Guest-to-host delivery

The agent pushes events on ring A and a workload on ring W; the host drains both rings.
In every order of these operations each event arrives once, in the order of the pushes,
as it was encoded.
-/

namespace Protocol

open Wire Host

/-- The guest-to-host rings. -/
inductive GuestRing where
  | A
  | W
  deriving DecidableEq, Repr

/-- The ring of the channel. -/
def GuestRing.id : GuestRing → RingId
  | A => .A
  | W => .W

/-- The host with guest memory, and the next sequence numbers of the producers. -/
structure EventState where
  host : HostState
  nextSeq : GuestRing → UInt32

/-- The shared memory. -/
def EventState.mem (s : EventState) : ByteMem := s.host.ch.gm.bytes

/-- The state after a producer left other memory and another sequence number. -/
def EventState.setProducer (s : EventState) (g : GuestRing) (p : Producer) : EventState :=
  { host := { s.host with ch := { s.host.ch with gm := { s.host.ch.gm with bytes := p.mem } } }
    nextSeq := Function.update s.nextSeq g p.nextSeq }

/-- A push of an event by a producer, or a drain by the host. -/
inductive EventOp where
  | push (g : GuestRing) (vnanos : UInt64) (extraFlags : UInt8) (ev : EventPayload)
  | drain

/-- The result of an operation, and the records a push published. -/
inductive EventAnswer where
  | pushed (res : Res RingFull UInt32) (written : List Bytes)
  | drained (res : Res WireError (List GuestEvent))

/-- One operation. -/
def eventStep (dbg : Bool) (rings : GuestRing → RingMap) (s : EventState) (op : EventOp) :
    EventState × EventAnswer :=
  match op with
  | .push g vnanos extraFlags ev =>
      let (p, res) := (Producer.tryPush dbg (rings g) (encodedEventLen ev)
        (fun seq => encodeEvent dbg seq vnanos extraFlags ev)).run ⟨s.mem, s.nextSeq g⟩
      (s.setProducer g p, .pushed res (published (rings g) s.mem p.mem))
  | .drain =>
      let (h, res) := (drainEvents dbg).run s.host
      ({ s with host := h }, .drained res)

/-- The event a successful push with sequence number `seq` should deliver; a `Pad` delivers
none.  The raw record is what the encoder writes to an empty buffer. -/
def sentEvent (dbg : Bool) (g : GuestRing) (seq : UInt32) (vnanos : UInt64) (extraFlags : UInt8)
    (ev : EventPayload) : Option GuestEvent :=
  (toOwned (eventFlags extraFlags ev) ev.clip).map fun owned =>
    { ring := g.id
      seq
      vnanos
      truncated := eventFlags extraFlags ev &&& flagTruncated != 0
      rawRecord := ((encodeEvent dbg seq vnanos extraFlags ev).run
        (Bytes.zeros (encodedEventLen ev))).1
      payload := owned }

/-- What one operation sends on a ring. -/
def EventAnswer.sent (dbg : Bool) (g : GuestRing) : EventOp × EventAnswer → Option GuestEvent
  | (.push g' vnanos extraFlags ev, .pushed (.ok seq) _) =>
      if g' = g then sentEvent dbg g seq vnanos extraFlags ev else none
  | _ => none

/-- What one operation receives from a ring. -/
def EventAnswer.received (g : GuestRing) : EventOp × EventAnswer → List GuestEvent
  | (_, .drained (.ok evs)) => evs.filter fun ev => ev.ring = g.id
  | _ => []

/-- The records one operation writes to a ring. -/
def EventAnswer.written (g : GuestRing) : EventOp × EventAnswer → List Bytes
  | (.push g' _ _ _, .pushed _ recs) => if g' = g then recs else []
  | _ => []

/-- The events sent on a ring, in the order of the pushes. -/
def sentOn (dbg : Bool) (g : GuestRing) (tr : List (EventOp × EventAnswer)) : List GuestEvent :=
  tr.filterMap (EventAnswer.sent dbg g)

/-- The events drained from a ring. -/
def receivedFrom (g : GuestRing) (tr : List (EventOp × EventAnswer)) : List GuestEvent :=
  tr.flatMap (EventAnswer.received g)

/-- The records written to a ring, `Pad`s included. -/
def writtenTo (g : GuestRing) (tr : List (EventOp × EventAnswer)) : List Bytes :=
  tr.flatMap (EventAnswer.written g)

/-- No drain fails, and a push fails only for want of room. -/
def EventAnswer.Fine : EventAnswer → Prop
  | .pushed res _ => res ≠ .panic
  | .drained res => ∃ evs, res = .ok evs

/-- The events the encoder accepts. -/
def EventOp.Encodable : EventOp → Prop
  | .push _ _ _ ev => ev.Encodable
  | .drain => True

/-! ### Records of events -/

theorem seqOf_eventBytes (seq : UInt32) (vnanos : UInt64) (extraFlags : UInt8)
    (ev : EventPayload) :
  seqOf (eventBytes seq vnanos extraFlags ev) = seq
  := by
  by_cases h : ev = .pad
  · subst h
    apply seqOf_padBytes
  · rw [eventBytes_of_ne_pad h, seqOf, recordBytes, framed_extract_seq, Bytes.toU32_ofU32]

theorem eventOf_padBytes (ring : RingId) {tailLen : Nat} (seq : UInt32)
    (hmod : tailLen % recordAlign = 0) (hmin : padMinLen ≤ tailLen)
    (hmax : tailLen ≤ maxRecordLen) :
  accepts (padBytes tailLen seq) = .ok () ∧ eventOf ring (padBytes tailLen seq) = none
  := by
  simp [accepts, eventOf, decodeEvent_padBytes seq hmod hmin hmax, toOwned]

/-- The record of an event delivers the event. -/
theorem eventOf_eventBytes (dbg : Bool) (g : GuestRing) (seq : UInt32) (vnanos : UInt64)
    (extraFlags : UInt8) {ev : EventPayload} (hev : ev.Encodable) :
  accepts (eventBytes seq vnanos extraFlags ev) = .ok () ∧
    eventOf g.id (eventBytes seq vnanos extraFlags ev) = sentEvent dbg g seq vnanos extraFlags ev
  := by
  have hraw := encodes_event dbg vnanos extraFlags hev seq (Bytes.zeros (encodedEventLen ev))
    (List.length_replicate ..)
  rw [sentEvent, hraw, accepts, eventOf, decodeEvent_eventBytes hev]
  cases ev <;> exact ⟨rfl, rfl⟩

/-! ### The records of a run -/

/-- Of the records written to a ring so far, `old` were drained and `recs` lie in the
ring. -/
structure RingLog (dbg : Bool) (r : RingMap) (g : GuestRing) (start : UInt32) (s : EventState)
    (tr : List (EventOp × EventAnswer)) (old recs : List Bytes) : Prop where
  queue : Queue r s.mem recs
  written : writtenTo g tr = old ++ recs
  received : receivedFrom g tr = old.filterMap (eventOf g.id)
  sent : sentOn dbg g tr = (old ++ recs).filterMap (eventOf g.id)
  accepted : ∀ rec ∈ recs, accepts rec = .ok ()
  seqs : (old ++ recs).map seqOf = consecutive start (old ++ recs).length
  next : s.nextSeq g = start + UInt32.ofNat (old ++ recs).length

/-- The invariant of a run. -/
structure EventInv (dbg : Bool) (ch : Channel) (rings : GuestRing → RingMap)
    (start : GuestRing → UInt32) (s : EventState) (tr : List (EventOp × EventAnswer)) : Prop where
  header : s.host.ch.header = ch.header
  base : s.host.ch.base = ch.base
  mapped : Mapped s.host.ch.gm s.host.ch.base
  logs : ∀ g, ∃ old recs, RingLog dbg (rings g) g (start g) s tr old recs
  fine : ∀ a ∈ tr, a.2.Fine

section Steps

variable {dbg : Bool} {r : RingMap} {g : GuestRing} {start : UInt32} {s : EventState}
  {tr : List (EventOp × EventAnswer)} {old recs : List Bytes}

/-- An operation that leaves a ring alone leaves its log alone. -/
theorem RingLog.frame {s' : EventState} {a : EventOp × EventAnswer}
    (h : RingLog dbg r g start s tr old recs) (hmem : ∀ i, r.Owns i → s'.mem i = s.mem i)
    (hnext : s'.nextSeq g = s.nextSeq g) (hwritten : EventAnswer.written g a = [])
    (hreceived : EventAnswer.received g a = []) (hsent : EventAnswer.sent dbg g a = none) :
  RingLog dbg r g start s' (tr ++ [a]) old recs
  := by
  constructor
  · exact h.queue.frame hmem
  · simpa [writtenTo, hwritten] using h.written
  · simpa [receivedFrom, hreceived] using h.received
  · simpa [sentOn, hsent] using h.sent
  · exact h.accepted
  · exact h.seqs
  · rw [hnext, h.next]

/-- A push that appends records with consecutive sequence numbers appends them to the
log. -/
theorem RingLog.push {s' : EventState} {a : EventOp × EventAnswer} {new : List Bytes}
    (h : RingLog dbg r g start s tr old recs) (hq : Queue r s'.mem (recs ++ new))
    (hnext : s'.nextSeq g = s.nextSeq g + UInt32.ofNat new.length)
    (hwritten : EventAnswer.written g a = new) (hreceived : EventAnswer.received g a = [])
    (hsent : (EventAnswer.sent dbg g a).toList = new.filterMap (eventOf g.id))
    (haccepted : ∀ rec ∈ new, accepts rec = .ok ())
    (hseqs : new.map seqOf = consecutive (s.nextSeq g) new.length) :
  RingLog dbg r g start s' (tr ++ [a]) old (recs ++ new)
  := by
  have hassoc : old ++ (recs ++ new) = (old ++ recs) ++ new := (List.append_assoc ..).symm
  constructor
  · exact hq
  · have hw := h.written
    rw [writtenTo] at hw ⊢
    rw [List.flatMap_append, hw, List.flatMap_singleton, hwritten, List.append_assoc]
  · simpa [receivedFrom, hreceived] using h.received
  · have hs := h.sent
    rw [sentOn] at hs ⊢
    rw [List.filterMap_append, hs, hassoc, List.filterMap_append (l := old ++ recs), ← hsent]
    congr 1
  · intro rec hrec
    rcases List.mem_append.mp hrec with hrec | hrec
    · apply h.accepted rec hrec
    · apply haccepted rec hrec
  · rw [hassoc, List.map_append, h.seqs, hseqs, h.next, consecutive_append, ← List.length_append]
  · rw [hassoc, hnext, h.next, Word.add_ofNat_add, ← List.length_append]

/-- A drain of the ring delivers the records in it. -/
theorem RingLog.drain {s' : EventState} {a : EventOp × EventAnswer}
    (h : RingLog dbg r g start s tr old recs) (hq : Queue r s'.mem [])
    (hnext : s'.nextSeq g = s.nextSeq g) (hwritten : EventAnswer.written g a = [])
    (hreceived : EventAnswer.received g a = recs.filterMap (eventOf g.id))
    (hsent : EventAnswer.sent dbg g a = none) :
  RingLog dbg r g start s' (tr ++ [a]) (old ++ recs) []
  := by
  constructor
  · exact hq
  · simpa [writtenTo, hwritten] using h.written
  · have hr := h.received
    rw [receivedFrom] at hr ⊢
    rw [List.flatMap_append, hr, List.flatMap_singleton, hreceived, List.filterMap_append]
  · simpa [sentOn, hsent] using h.sent
  · simp
  · simpa using h.seqs
  · rw [hnext, h.next, List.append_nil]

end Steps

/-! ### One operation -/

theorem GuestRing.id_injective {g g' : GuestRing} (h : g.id = g'.id) :
  g = g'
  := by
  cases g <;> cases g' <;> first | rfl | cases h

section Step

variable {dbg : Bool} {ch : Channel} {rings : GuestRing → RingMap} {start : GuestRing → UInt32}
  {s : EventState} {tr : List (EventOp × EventAnswer)}

/-- The records of a push: their sequence numbers, and the event they deliver. -/
theorem pushRecs_events (dbg : Bool) (g : GuestRing) {vnanos : UInt64} {extraFlags : UInt8}
    {ev : EventPayload} {seq : UInt32} {tail : Nat} {new : List Bytes} (hev : ev.Encodable)
    (hmod : tail % recordAlign = 0) (hmin : padMinLen ≤ tail)
    (hnew : new = pushRecs tail (encodedEventLen ev) seq (seq + 1)
      (fun s => eventBytes s vnanos extraFlags ev)) :
  new.map seqOf = consecutive seq new.length ∧ (∀ rec ∈ new, accepts rec = .ok ()) ∧
    (sentEvent dbg g (seq + UInt32.ofNat (new.length - 1)) vnanos extraFlags ev).toList
      = new.filterMap (eventOf g.id)
  := by
  have hlen : encodedEventLen ev ≤ maxRecordLen :=
    Nat.le_trans (encodedEventLen_bounds hev).2 (by decide)
  have hbytes := fun s => eventOf_eventBytes dbg g s vnanos extraFlags hev
  have hone : ∀ s, (sentEvent dbg g s vnanos extraFlags ev).toList
      = [eventBytes s vnanos extraFlags ev].filterMap (eventOf g.id) := by
    intro s
    rw [List.filterMap_cons, (hbytes s).2]
    cases sentEvent dbg g s vnanos extraFlags ev with
    | none => rfl
    | some owned => rfl
  subst hnew
  refine ⟨?_, ?_, ?_⟩
  · apply map_seqOf_pushRecs
    intro s
    apply seqOf_eventBytes
  · apply forall_pushRecs
    · intro hlt
      exact (eventOf_padBytes g.id seq hmod hmin (by omega)).1
    · intro s
      exact (hbytes s).1
  · rw [pushRecs]
    split
    · simpa using hone seq
    · rw [List.filterMap_cons, (eventOf_padBytes g.id seq hmod hmin (by omega)).2]
      apply hone (seq + 1)

theorem EventInv.push {g : GuestRing} {vnanos : UInt64} {extraFlags : UInt8} {ev : EventPayload}
    (hacc : Accepted ch.header) (hat : ∀ g, RingAt (rings g) ch g.id) (hev : ev.Encodable)
    (h : EventInv dbg ch rings start s tr) :
  EventInv dbg ch rings start (eventStep dbg rings s (.push g vnanos extraFlags ev)).1
    (tr ++ [(.push g vnanos extraFlags ev,
      (eventStep dbg rings s (.push g vnanos extraFlags ev)).2)])
  := by
  obtain ⟨old, recs, hlog⟩ := h.logs g
  have hbounds := encodedEventLen_bounds hev
  have hmax : encodedEventLen ev ≤ maxRecordLen := Nat.le_trans hbounds.2 (by decide)
  have hmin : padMinLen ≤ encodedEventLen ev := Nat.le_trans (by decide) hbounds.1
  rcases hlog.queue.tryPush dbg (s.nextSeq g) (encodedEventLen_mod ev) hmin hmax
    (encodes_event dbg vnanos extraFlags hev) (fun s => length_eventBytes s vnanos extraFlags ev)
    (fun s => wellFramed_eventBytes hev) with ⟨_, hfull⟩ | ⟨new, hnew, hok, hwhole, hq, hpub⟩
  · -- no room: the state stays as it is
    have hstep : eventStep dbg rings s (.push g vnanos extraFlags ev)
        = (s, .pushed (.err .ringFull) []) := by
      simp only [eventStep, hfull, EventState.setProducer, Function.update_eq_self, published_self]
      rfl
    rw [hstep]
    refine ⟨h.header, h.base, h.mapped, ?_, ?_⟩
    · intro g'
      obtain ⟨old, recs, hlog⟩ := h.logs g'
      use old, recs
      apply hlog.frame
      · intro i _
        rfl
      · rfl
      · simp [EventAnswer.written]
      · rfl
      · rfl
    · intro a ha
      rcases List.mem_append.mp ha with ha | ha
      · apply h.fine a ha
      · rw [List.mem_singleton] at ha
        subst ha
        simp [EventAnswer.Fine]
  · -- the records of the push are behind those in the ring
    have hstep : eventStep dbg rings s (.push g vnanos extraFlags ev)
        = (s.setProducer g
            ⟨(rings g).publish s.mem new, s.nextSeq g + UInt32.ofNat new.length⟩,
          .pushed (.ok (s.nextSeq g + UInt32.ofNat (new.length - 1))) new) := by
      simp only [eventStep, hok, hpub]
    obtain ⟨htmod, htmin⟩ := (rings g).tail_rules hlog.queue.prod_aligned
    obtain ⟨hseqs, haccepts, hsent⟩ := pushRecs_events dbg g hev htmod htmin hnew
    rw [hstep]
    refine ⟨h.header, h.base, h.mapped, ?_, ?_⟩
    · intro g'
      by_cases hg : g' = g
      · subst hg
        use old, recs ++ new
        apply hlog.push
        · exact hq
        · apply Function.update_self
        · simp [EventAnswer.written]
        · rfl
        · rw [← hsent]
          simp [EventAnswer.sent]
        · exact haccepts
        · exact hseqs
      · obtain ⟨old', recs', hlog'⟩ := h.logs g'
        have hapart : (rings g').Apart (rings g) :=
          ringAt_apart hacc (hat g') (hat g) (fun heq => hg (GuestRing.id_injective heq))
        use old', recs'
        apply hlog'.frame
        · intro i hi
          apply publish_of_not_owns hwhole (hapart i hi)
        · apply Function.update_of_ne hg
        · simp [EventAnswer.written, Ne.symm hg]
        · rfl
        · simp [EventAnswer.sent, Ne.symm hg]
    · intro a ha
      rcases List.mem_append.mp ha with ha | ha
      · apply h.fine a ha
      · rw [List.mem_singleton] at ha
        subst ha
        simp [EventAnswer.Fine]

/-- The part of the events of both rings that comes from one of them. -/
theorem filter_ring {g : GuestRing} {recs : GuestRing → List Bytes} :
  ((recs .A).filterMap (eventOf .A) ++ (recs .W).filterMap (eventOf .W)).filter
      (fun ev => ev.ring = g.id)
    = (recs g).filterMap (eventOf g.id)
  := by
  have hkeep : ∀ ring recs, (List.filterMap (eventOf ring) recs).filter (fun ev => ev.ring = ring)
      = List.filterMap (eventOf ring) recs := by
    intro ring recs
    apply List.filter_eq_self.mpr
    intro ev hev
    simpa using ring_of_eventOf ev hev
  have hdrop : ∀ ring ring' recs, ring ≠ ring' →
      (List.filterMap (eventOf ring) recs).filter (fun ev => ev.ring = ring') = [] := by
    intro ring ring' recs hne
    apply List.filter_eq_nil_iff.mpr
    intro ev hev
    simpa [ring_of_eventOf ev hev] using hne
  rw [List.filter_append]
  cases g with
  | A => rw [GuestRing.id, hkeep, hdrop _ _ _ (by decide), List.append_nil]
  | W => rw [GuestRing.id, hkeep, hdrop _ _ _ (by decide), List.nil_append]

/-- A drain succeeds, keeps the invariant and leaves the rings empty. -/
theorem EventInv.drain (hacc : Accepted ch.header) (hat : ∀ g, RingAt (rings g) ch g.id)
    (h : EventInv dbg ch rings start s tr) {s' : EventState} {a : EventAnswer}
    (hstep : eventStep dbg rings s .drain = (s', a)) :
  EventInv dbg ch rings start s' (tr ++ [(.drain, a)]) ∧
    ∀ g, ∃ old, RingLog dbg (rings g) g (start g) s' (tr ++ [(.drain, a)]) old []
  := by
  choose old recs hlog using h.logs
  have hacc' : Accepted s.host.ch.header := by
    rw [h.header]
    exact hacc
  have hatA : RingAt (rings .A) s.host.ch RingId.A := (hat .A).congr h.header h.base
  have hatW : RingAt (rings .W) s.host.ch RingId.W := (hat .W).congr h.header h.base
  have hapart : (rings .W).Apart (rings .A) := ringAt_apart hacc (hat .W) (hat .A) (by decide)
  have hapart' : (rings .A).Apart (rings .W) := ringAt_apart hacc (hat .A) (hat .W) (by decide)
  -- ring A first: its consumer cell is all that changes
  obtain ⟨h₁, hrun₁, hheader₁, hbase₁, hmapped₁, hmem₁⟩ :=
    run_drainRing_queue dbg s.host [] h.mapped hacc' hatA (hlog .A).queue (hlog .A).accepted
  have hacc₁ : Accepted h₁.ch.header := by
    rw [hheader₁]
    exact hacc'
  have hw₁ : Queue (rings .W) h₁.ch.gm.bytes (recs .W) := by
    apply (hlog .W).queue.frame
    intro i hi
    rw [hmem₁]
    apply write_cons_of_not_owns (hapart i hi)
  obtain ⟨h₂, hrun₂, hheader₂, hbase₂, hmapped₂, hmem₂⟩ :=
    run_drainRing_queue dbg h₁ ([] ++ (recs .A).filterMap (eventOf .A)) hmapped₁ hacc₁
      (hatW.congr hheader₁ hbase₁) hw₁ (hlog .W).accepted
  have hdrain : (drainEvents dbg).run s.host
      = (h₂, .ok ((recs .A).filterMap (eventOf .A) ++ (recs .W).filterMap (eventOf .W))) := by
    rw [drainEvents, Exec.run_bind_of_ok hrun₁]
    exact hrun₂
  simp only [eventStep, hdrain, Prod.mk.injEq] at hstep
  obtain ⟨rfl, rfl⟩ := hstep
  have hqueue : ∀ g, Queue (rings g) h₂.ch.gm.bytes [] := by
    intro g
    cases g with
    | A =>
        apply Queue.frame (m := h₁.ch.gm.bytes)
        · rw [hmem₁]
          apply (hlog .A).queue.clear
        · intro i hi
          rw [hmem₂]
          apply write_cons_of_not_owns (hapart' i hi)
    | W =>
        rw [hmem₂]
        apply hw₁.clear
  have hlogs : ∀ g, RingLog dbg (rings g) g (start g) { s with host := h₂ }
      (tr ++ [(.drain, .drained (.ok ((recs .A).filterMap (eventOf .A)
        ++ (recs .W).filterMap (eventOf .W))))]) (old g ++ recs g) [] := by
    intro g
    apply (hlog g).drain
    · exact hqueue g
    · rfl
    · rfl
    · apply filter_ring
    · rfl
  refine ⟨⟨?_, ?_, hmapped₂, fun g => ⟨_, _, hlogs g⟩, ?_⟩, fun g => ⟨_, hlogs g⟩⟩
  · rw [hheader₂, hheader₁, h.header]
  · rw [hbase₂, hbase₁, h.base]
  · intro a ha
    rcases List.mem_append.mp ha with ha | ha
    · apply h.fine a ha
    · rw [List.mem_singleton] at ha
      subst ha
      exact ⟨_, rfl⟩

end Step

/-! ### Every run -/

/-- Before the first operation both rings are empty. -/
theorem eventInv_start {dbg : Bool} {ch : Channel} {rings : GuestRing → RingMap}
    (start : GuestRing → UInt32) (hmapped : Mapped ch.gm ch.base)
    (hempty : ∀ g, ch.gm.bytes.u32 (rings g).prod = ch.gm.bytes.u32 (rings g).cons)
    (haligned : ∀ g, (ch.gm.bytes.u32 (rings g).cons).toNat % 8 = 0) :
  EventInv dbg ch rings start ⟨⟨ch, [], []⟩, start⟩ []
  := by
  refine ⟨rfl, rfl, hmapped, ?_, by simp⟩
  intro g
  refine ⟨[], [], ?_, rfl, rfl, rfl, by simp, rfl, by simp⟩
  constructor
  · apply Nat.zero_le
  · apply Eq.trans (hempty g)
    apply UInt32.add_zero _ |>.symm
  · trivial
  · simp
  · exact haligned g

/-- A run keeps the invariant. -/
theorem EventInv.run {dbg : Bool} {ch : Channel} {rings : GuestRing → RingMap}
    {start : GuestRing → UInt32} {s : EventState} (hacc : Accepted ch.header)
    (hat : ∀ g, RingAt (rings g) ch g.id) (h : EventInv dbg ch rings start s [])
    {ops : List EventOp} (hops : ∀ op ∈ ops, op.Encodable) :
  EventInv dbg ch rings start (Machine.run (eventStep dbg rings) s ops).1
    (Machine.run (eventStep dbg rings) s ops).2
  := by
  apply Machine.run_induction _ ops hops h
  intro s tr op hop h
  cases op with
  | push g vnanos extraFlags ev => apply h.push hacc hat hop
  | drain => apply (h.drain hacc hat rfl).1

/-- **Guest-to-host delivery.**  Whatever the order of pushes and drains, no drain fails
and no push panics; the drained events of a ring are a prefix of those sent on it, and all
of them after a drain; the records of a ring carry consecutive sequence numbers; and the
indices stay aligned and at most one ring size apart. -/
theorem events_delivered (dbg : Bool) {gm : GuestMem} {base : PageBase} {ch : Channel}
    (hattach : attach gm base = .ok ch) (hmapped : Mapped gm base)
    (rings : GuestRing → RingMap) (hat : ∀ g, RingAt (rings g) ch g.id)
    (hempty : ∀ g, gm.bytes.u32 (rings g).prod = gm.bytes.u32 (rings g).cons)
    (haligned : ∀ g, (gm.bytes.u32 (rings g).cons).toNat % 8 = 0)
    (start : GuestRing → UInt32) (ops : List EventOp) (hops : ∀ op ∈ ops, op.Encodable)
    {s : EventState} {tr : List (EventOp × EventAnswer)}
    (hrun : Machine.run (eventStep dbg rings) ⟨⟨ch, [], []⟩, start⟩ ops = (s, tr)) :
  (∀ a ∈ tr, a.2.Fine) ∧
    ∀ g, receivedFrom g tr <+: sentOn dbg g tr ∧
      (ops.getLast? = some .drain → receivedFrom g tr = sentOn dbg g tr) ∧
      (writtenTo g tr).map seqOf = consecutive (start g) (writtenTo g tr).length ∧
      (used (s.mem.u32 (rings g).prod) (s.mem.u32 (rings g).cons)).toNat
        ≤ (rings g).size.toNat ∧
      (s.mem.u32 (rings g).prod).toNat % 8 = 0 ∧ (s.mem.u32 (rings g).cons).toNat % 8 = 0
  := by
  obtain ⟨_, header, _, hacc, rfl⟩ := attach_eq_ok.mp hattach
  have hstart : EventInv dbg (Channel.fresh gm base header) rings start
      ⟨⟨Channel.fresh gm base header, [], []⟩, start⟩ [] :=
    eventInv_start start hmapped hempty haligned
  have h := hstart.run hacc hat hops
  rw [hrun] at h
  refine ⟨h.fine, ?_⟩
  intro g
  obtain ⟨old, recs, hlog⟩ := h.logs g
  refine ⟨?_, ?_, ?_, ?_, ?_, ?_⟩
  · rw [hlog.received, hlog.sent, List.filterMap_append]
    apply List.prefix_append
  · intro hlast
    -- the last drain leaves nothing behind
    obtain ⟨is, rfl⟩ := List.getLast?_eq_some_iff.mp hlast
    have hprev := hstart.run hacc hat (fun op hop => hops op (List.mem_append_left _ hop))
    rw [Machine.run_concat] at hrun
    obtain ⟨rfl, rfl⟩ := Prod.mk.inj hrun
    obtain ⟨old, hlog⟩ := (hprev.drain hacc hat (Prod.eta _).symm).2 g
    rw [hlog.received, hlog.sent, List.append_nil]
  · rw [hlog.written]
    exact hlog.seqs
  · rw [hlog.queue.used_eq]
    exact hlog.queue.span_le
  · exact hlog.queue.prod_aligned
  · exact hlog.queue.aligned

/-- On a fresh canonical channel an event and a `Pad` on ring A and a name on ring W are
drained as they were sent. -/
theorem events_delivered_canonical :
  let ops : List EventOp := [.push .A 7 0 (.frameMark 5), .push .A 8 0 .pad,
    .push .W 9 2 (.nameIntern 1 [0x61]), .drain]
  let tr := (Machine.run (eventStep true (fun g => canonicalRing g.id))
    ⟨⟨canonicalChannel, [], []⟩, fun _ => 0⟩ ops).2
  receivedFrom .A tr = sentOn true .A tr ∧ receivedFrom .W tr = sentOn true .W tr
  := by
  have h := events_delivered true attach_canonical mapped_canonical (fun g => canonicalRing g.id)
    (fun g => canonicalChannel.ringMap_at g.id _ _)
    (fun g => by cases g <;> decide) (fun g => by cases g <;> decide) (fun _ => 0)
    [.push .A 7 0 (.frameMark 5), .push .A 8 0 .pad, .push .W 9 2 (.nameIntern 1 [0x61]), .drain]
    (by simp [EventOp.Encodable, EventPayload.Encodable, maxName]) (Prod.eta _).symm
  constructor
  · apply (h.2 .A).2.1 rfl
  · apply (h.2 .W).2.1 rfl

end Protocol
