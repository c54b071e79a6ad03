import DetGuest.Lib.Hoare
import DetGuest.Protocol.Progress
import DetGuest.Protocol.Workload

/-!
# Leaving the SDK

What the others do while the SDK has left its own code, and what becomes of an event that it hands
to ring W.  An invariant of a run has to survive each of these steps.
-/

namespace Protocol

open Wire Host

variable {π τ ε : Type}

/-! ### Invariants -/

/-- The world after a step that nobody takes notice of: memory without new records on rings A and
W, the clocks and the script. -/
def World.quietly (w : World π τ) (m : ByteMem) (vnanos agentVnanos : UInt64)
    (pauses : List Pause) (bells : List Bell) : World π τ :=
  { w with
    events := w.events.setMem m
    vnanos
    agent := { w.agent with vnanos := agentVnanos }
    pauses
    bells }

/-- The world after a drain that left the host in `h`. -/
def World.drainedBy (w : World π τ) (c : Contents) (h : HostState) : World π τ :=
  { w with
    events := { w.events with host := h }
    drained := w.drained ++ [{ res := .ok c.drainedEvents, ch := h.ch }] }

/-- The world after records were published on a ring. -/
def World.publish (w : World π τ) (g : GuestRing) (p : Producer) (new : List Bytes) : World π τ :=
  { w with
    events := w.events.setProducer g p
    landed := w.landed ++ new.map fun bytes => { ring := g, caller := w.caller, bytes } }

/-- A condition on the world and on what its rings hold that the steps of the others keep. -/
structure Stable (S : Setting π τ) (I : World π τ → Contents → Prop) : Prop where
  holds : ∀ {w c}, I w c → Holds S.ch w.events c
  quiet : ∀ {w c c'} m vnanos agentVnanos pauses {bells}, I w c →
    Holds S.ch (w.events.setMem m) c' → c'.events = c.events → bells <:+ w.bells →
    I (w.quietly m vnanos agentVnanos pauses bells) c'
  drain : ∀ {w c} h, I w c → Holds S.ch { w.events with host := h } c.drained →
    h.ch = ((c.events .A ++ c.events .W).foldl Channel.foldRec w.events.host.ch).withMem
      h.ch.gm.bytes →
    I (w.drainedBy c h) c.drained

/-- A computation on the memory. -/
theorem run_memory {δ α : Type} {x : Exec ByteMem δ α} {w : World π τ} {m : ByteMem} {res : Res δ α}
    (h : x.run w.events.mem = (m, res)) :
  (Exec.focus Setting.memory x).run w = (w.setMem m, res)
  := Exec.run_focus h

section Steps

variable {S : Setting π τ} {I J : World π τ → Contents → Prop} {w : World π τ} {c : Contents}

/-- A drain. -/
theorem run_drain (hI : Stable S I) (hch : Canonical S.ch) (h : I w c) :
  ∃ h', (S.drain : Exec (World π τ) ε Unit).run w = (w.drainedBy c h', .ok ()) ∧
    I (w.drainedBy c h') c.drained
  := by
  obtain ⟨h', hrun, hholds, hfold, _⟩ := (hI.holds h).drain hch S.dbg
  refine ⟨h', ?_, hI.drain h' h hholds hfold⟩
  rw [Setting.drain, Exec.run_modify, hrun]
  rfl

/-- A relay leaves the script and the other rings alone. -/
theorem run_relay (hI : Stable S I) (hch : Canonical S.ch) (h : I w c) (rec : WorkloadCtrl) :
  ∃ w' c', (S.relay rec : Exec (World π τ) ε Unit).run w = (w', .ok ()) ∧ I w' c' ∧
    c'.events = c.events ∧ w'.pauses = w.pauses ∧ w'.bells = w.bells ∧
    ∀ i, ¬ (ringOf S.ch .I).Owns i → w'.mem i = w.mem i
  := by
  have hholds := hI.holds h
  have hquiet : ∀ m res, (Agent.relayWorkloadCtrl S.dbg S.ch.base.gpa w.agent.vnanos rec).run
        w.events.mem = (m, res) → res ≠ .panic →
      (S.relay rec : Exec (World π τ) ε Unit).run w
        = (w.quietly m w.vnanos (w.agent.vnanos + 1) w.pauses w.bells, .ok ()) := by
    intro m res hrun hres
    have hfocus : (Exec.focus Setting.memory
        (Agent.relayWorkloadCtrl S.dbg S.ch.base.gpa w.agent.vnanos rec)).run
        { w with agent := { w.agent with vnanos := w.agent.vnanos + 1 } }
        = (w.quietly m w.vnanos (w.agent.vnanos + 1) w.pauses w.bells, res) := by
      apply run_memory
      dsimp only
      exact hrun
    rw [Setting.relay, Exec.run_bind_of_ok (Exec.run_get w),
      Exec.run_bind_of_ok (Exec.run_modify _ w)]
    cases res with
    | ok a =>
        rw [Exec.run_bind_of_ok (Exec.run_attempt_of_ok hfocus), Exec.run_pure]
    | err e =>
        rw [Exec.run_bind_of_ok (Exec.run_attempt_of_err hfocus), Exec.run_pure]
    | panic => exact absurd rfl hres
  rcases hholds.relayWorkloadCtrl hch S.dbg w.agent.vnanos rec with hfull | ⟨m, hrun, hsent, hframe⟩
  · refine ⟨w.quietly w.events.mem w.vnanos (w.agent.vnanos + 1) w.pauses w.bells, c,
      hquiet w.events.mem (.err .ringFull) hfull (by simp), ?_, rfl, rfl, rfl, fun i _ => rfl⟩
    exact hI.quiet w.mem w.vnanos _ w.pauses h hholds rfl (List.suffix_refl _)
  · refine ⟨w.quietly m w.vnanos (w.agent.vnanos + 1) w.pauses w.bells, c.send rec,
      hquiet m (.ok ()) hrun (by simp), ?_, rfl, rfl, rfl, hframe⟩
    exact hI.quiet m w.vnanos _ w.pauses h hsent rfl (List.suffix_refl _)

theorem run_relayAll (hI : Stable S I) (hch : Canonical S.ch) (recs : List WorkloadCtrl)
    (h : I w c) :
  ∃ w' c', (S.relayAll recs : Exec (World π τ) ε Unit).run w = (w', .ok ()) ∧ I w' c' ∧
    c'.events = c.events ∧ w'.pauses = w.pauses ∧ w'.bells = w.bells ∧
    ∀ i, ¬ (ringOf S.ch .I).Owns i → w'.mem i = w.mem i
  := by
  induction recs generalizing w c with
  | nil => exact ⟨w, c, rfl, h, rfl, rfl, rfl, fun _ _ => rfl⟩
  | cons rec recs ih =>
      obtain ⟨w₁, c₁, hrun₁, h₁, hevents₁, hpauses₁, hbells₁, hframe₁⟩ := run_relay hI hch h rec
      obtain ⟨w₂, c₂, hrun₂, h₂, hevents₂, hpauses₂, hbells₂, hframe₂⟩ := ih h₁
      refine ⟨w₂, c₂, ?_, h₂, hevents₂.trans hevents₁, hpauses₂.trans hpauses₁,
        hbells₂.trans hbells₁, ?_⟩
      · rw [Setting.relayAll, Exec.run_bind_of_ok hrun₁]
        exact hrun₂
      · intro i hi
        rw [hframe₂ i hi, hframe₁ i hi]

/-- A pause takes one entry of the script.  Either the rings are empty behind it, or ring W is as
it was. -/
theorem run_pause (hI : Stable S I) (hch : Canonical S.ch) (h : I w c) :
  ∃ w' c', (S.pause : Exec (World π τ) ε Pause).run w = (w', .ok w.nextPause) ∧ I w' c' ∧
    w'.pauses = w.pauses.tail ∧ w'.bells = w.bells ∧
    if w.nextPause.drains = true then c'.events = fun _ => []
    else ∀ i, ¬ (ringOf S.ch .I).Owns i → w'.mem i = w.mem i
  := by
  have hpop : I { w with pauses := w.pauses.tail } c :=
    hI.quiet w.mem w.vnanos w.agent.vnanos w.pauses.tail h (hI.holds h) rfl (List.suffix_refl _)
  obtain ⟨w₁, c₁, hrun₁, h₁, _, hpauses₁, hbells₁, hframe₁⟩ :=
    run_relayAll (ε := ε) hI hch w.nextPause.sends hpop
  have hstart : (S.pause : Exec (World π τ) ε Pause).run w
      = (do
          if w.nextPause.drains then S.drain
          pure w.nextPause : Exec (World π τ) ε Pause).run w₁ := by
    rw [Setting.pause, Exec.run_bind_of_ok (Exec.run_get w),
      Exec.run_bind_of_ok (Exec.run_modify _ w), Exec.run_bind_of_ok hrun₁]
  rw [hstart]
  by_cases hdrains : w.nextPause.drains = true
  · obtain ⟨h', hrun, hdrained⟩ := run_drain (ε := ε) hI hch h₁
    refine ⟨_, _, ?_, hdrained, hpauses₁, hbells₁, ?_⟩
    · rw [if_pos hdrains, Exec.run_bind_of_ok hrun]
      rfl
    · rw [if_pos hdrains]
      rfl
  · refine ⟨w₁, c₁, ?_, h₁, hpauses₁, hbells₁, ?_⟩
    · rw [if_neg hdrains]
      rfl
    · rw [if_neg hdrains]
      exact hframe₁

/-- A detcall takes one entry of the script.  Either the rings are empty behind it, or nothing
else happens. -/
theorem run_bell (hI : Stable S I) (hch : Canonical S.ch) (h : I w c) :
  ∃ w' c', (S.bell : Exec (World π τ) ε Bell).run w = (w', .ok w.nextBell) ∧ I w' c' ∧
    w'.pauses = w.pauses ∧ w'.bells = w.bells.tail ∧
    if w.nextBell.drains = true then c'.events = fun _ => [] else w'.mem = w.mem
  := by
  have hpop : I { w with bells := w.bells.tail } c :=
    hI.quiet w.mem w.vnanos w.agent.vnanos w.pauses h (hI.holds h) rfl (List.tail_suffix _)
  have hstart : (S.bell : Exec (World π τ) ε Bell).run w
      = (do
          if w.nextBell.drains then S.drain
          pure w.nextBell : Exec (World π τ) ε Bell).run { w with bells := w.bells.tail } := by
    rw [Setting.bell, Exec.run_bind_of_ok (Exec.run_get w),
      Exec.run_bind_of_ok (Exec.run_modify _ w)]
  rw [hstart]
  by_cases hdrains : w.nextBell.drains = true
  · obtain ⟨h', hrun, hdrained⟩ := run_drain (ε := ε) hI hch hpop
    refine ⟨_, _, ?_, hdrained, rfl, rfl, ?_⟩
    · rw [if_pos hdrains, Exec.run_bind_of_ok hrun]
      rfl
    · rw [if_pos hdrains]
      rfl
  · refine ⟨_, c, ?_, hpop, rfl, rfl, ?_⟩
    · rw [if_neg hdrains]
      rfl
    · rw [if_neg hdrains]
      rfl

/-! ### Publishing -/

/-- What a push publishes are the records of its event. -/
theorem published_tryPush {g : GuestRing} {vnanos : UInt64} {flags : UInt8} {ev : EventPayload}
    {s : EventState} {ch : Channel} {p : Producer} {dbg : Bool} {seq : UInt32} (h : Holds ch s c)
    (hev : ev.Encodable)
    (hpush : (Producer.tryPush dbg (ringOf ch g.id) (encodedEventLen ev)
      (fun seq => encodeEvent dbg seq vnanos flags ev)).run ⟨s.mem, s.nextSeq g⟩ = (p, .ok seq)) :
  published (ringOf ch g.id) s.mem p.mem
    = eventRecs (ringOf ch g.id) (s.mem.u32 (ringOf ch g.id).prod) (s.nextSeq g) vnanos flags ev
  := by
  have hbounds := encodedEventLen_bounds hev
  rcases (h.events g).tryPush dbg (s.nextSeq g) (encodedEventLen_mod ev)
    (Nat.le_trans (by decide) hbounds.1) (Nat.le_trans hbounds.2 (by decide))
    (encodes_event dbg vnanos flags hev) (fun s => length_eventBytes s vnanos flags ev)
    (fun s => wellFramed_eventBytes hev) with ⟨_, hfull⟩ | ⟨new, hnew, hok, _, _, hpub⟩
  · rw [hfull] at hpush
    cases hpush
  · rw [hok] at hpush
    obtain ⟨hp, _⟩ := Prod.mk.inj hpush
    rw [← hp, hpub, hnew]
    rfl

/-- A push on a guest-to-host ring finds no room, or publishes the records of the event. -/
theorem run_tryPush (h : Holds S.ch w.events c) (hch : Canonical S.ch) (g : GuestRing)
    (vnanos : UInt64) (flags : UInt8) {ev : EventPayload} (hev : ev.Encodable) :
  (NoRoom (ringOf S.ch g.id) w.events.mem ev ∧
    (Producer.tryPush S.dbg (ringOf S.ch g.id) (encodedEventLen ev)
      (fun seq => encodeEvent S.dbg seq vnanos flags ev)).run ((S.ring g).get w)
      = ((S.ring g).get w, .err .ringFull)) ∨
    ∃ p seq new, new = eventRecs (ringOf S.ch g.id) (w.events.mem.u32 (ringOf S.ch g.id).prod)
        (w.events.nextSeq g) vnanos flags ev ∧
      (Producer.tryPush S.dbg (ringOf S.ch g.id) (encodedEventLen ev)
        (fun seq => encodeEvent S.dbg seq vnanos flags ev)).run ((S.ring g).get w) = (p, .ok seq) ∧
      (S.ring g).set w p = w.publish g p new ∧
      Holds S.ch (w.events.setProducer g p) (c.push g new)
  := by
  rcases h.pushEvent hch S.dbg g vnanos flags hev rfl
    with ⟨hroom, hfull⟩ | ⟨new, hnew, hok, hholds, _⟩
  · exact Or.inl ⟨hroom, hfull⟩
  · right
    have hpub := published_tryPush h hev hok
    rw [← hnew] at hpub
    rw [hok] at hholds
    refine ⟨_, _, new, hnew, hok, ?_, hholds⟩
    have hset : ∀ p : Producer, published (ringOf S.ch g.id) w.events.mem p.mem = new →
        (S.ring g).set w p = w.publish g p new := by
      intro p hp
      rw [← hp]
      rfl
    exact hset _ hpub

/-! ### Counting a drop -/

/-- The counters in the header of a channel are outside its rings. -/
theorem outsideRings_header {ch : Channel} {i : Nat} (hlt : i < ch.base.gpa + 0x100) :
  OutsideRings ch i
  := by
  intro ring howns
  have hdata : 0x100 ≤ ring.canonicalDesc.offset.toNat := by cases ring <;> decide
  have hprod : 0x100 ≤ ring.prodOffset := by cases ring <;> decide
  have hcons : 0x100 ≤ ring.consOffset := by cases ring <;> decide
  simp only [ringOf, RingMap.canonical, RingMap.Owns] at howns
  omega

/-- A step that leaves the producer index alone publishes nothing. -/
theorem published_of_prod {r : RingMap} {m m' : ByteMem} (h : m'.u32 r.prod = m.u32 r.prod) :
  published r m m' = []
  := by
  rw [published, h, UInt32.sub_self]
  rfl

/-- Memory with a counter raised. -/
def counted (m : ByteMem) (a : Nat) (v : UInt64) : ByteMem := m.write a (Bytes.ofU64 (m.u64 a + v))

/-- Memory with a drop counted. -/
def bumped (base : Nat) (kind : EventKind) (n : Nat) (m : ByteMem) : ByteMem :=
  counted (counted (counted m (base + offRingWDroppedRecords) 1)
    (base + offRingWDroppedBytes) (UInt64.ofNat n))
    (base + offRingWDroppedByKind + kind.toU8.toNat * 8) 1

theorem counted_outside {m : ByteMem} {a b i : Nat} {v : UInt64} (ha : a + 8 ≤ b) (hi : b ≤ i) :
  counted m a v i = m i
  := by
  apply ByteMem.write_apply_of_le
  rw [Bytes.length_ofU64]
  omega

/-- A counted drop changes the header only. -/
theorem bumped_outside {base : Nat} {kind : EventKind} {n : Nat} {m : ByteMem} {i : Nat}
    (hi : base + 0x100 ≤ i) :
  bumped base kind n m i = m i
  := by
  have hkind : kind.toU8.toNat ≤ 14 := by cases kind <;> decide
  have hrecords : base + offRingWDroppedRecords + 8 ≤ base + 0x100 := by
    simp only [offRingWDroppedRecords]
    omega
  have hbytes : base + offRingWDroppedBytes + 8 ≤ base + 0x100 := by
    simp only [offRingWDroppedBytes]
    omega
  have hby : base + offRingWDroppedByKind + kind.toU8.toNat * 8 + 8 ≤ base + 0x100 := by
    simp only [offRingWDroppedByKind]
    omega
  rw [bumped, counted_outside hby hi, counted_outside hbytes hi, counted_outside hrecords hi]

/-- Counting a dropped event changes the counters only. -/
theorem run_bump (hI : Stable S I) (h : I w c) (kind : EventKind) (n : Nat) :
  let w' := w.quietly (bumped S.ch.base.gpa kind n w.events.mem) w.vnanos w.agent.vnanos w.pauses
    w.bells
  (Exec.focus (S.ring .W) (Sdk.bump S.ch.base.gpa kind n) : Exec (World π τ) ε Unit).run w
    = (w', .ok ()) ∧ I w' c
  := by
  have hsame : ∀ i, ¬ OutsideRings S.ch i →
      bumped S.ch.base.gpa kind n w.events.mem i = w.events.mem i := by
    intro i hi
    apply bumped_outside
    by_contra hlt
    exact hi (outsideRings_header (by omega))
  have hprod : (bumped S.ch.base.gpa kind n w.events.mem).u32 (ringOf S.ch .W).prod
      = w.events.mem.u32 (ringOf S.ch .W).prod := by
    apply ByteMem.u32_congr
    intro i hi
    apply hsame
    intro hout
    exact hout .W (Or.inr (Or.inl ⟨by omega, by omega⟩))
  refine ⟨?_, hI.quiet _ w.vnanos w.agent.vnanos w.pauses h ((hI.holds h).outside hsame) rfl
    (List.suffix_refl _)⟩
  have hrun : (Sdk.bump S.ch.base.gpa kind n : Exec Producer ε Unit).run ((S.ring .W).get w)
      = (⟨bumped S.ch.base.gpa kind n w.events.mem, w.events.nextSeq .W⟩, .ok ()) := rfl
  rw [Exec.run_focus hrun]
  have hnone := published_of_prod hprod
  simp [Setting.ring, World.quietly, World.mem, hnone, EventState.setProducer, GuestRing.id,
    EventState.setMem, Channel.withMem]

/-! ### Emitting on ring W -/

/-- The condition with the right contents. -/
def Holding (I : World π τ → Contents → Prop) (w : World π τ) : Prop := ∃ c, I w c

/-- With `I` in front of it, a push of the event leads to `J`. -/
def Publishes (S : Setting π τ) (I J : World π τ → Contents → Prop) (flags : UInt8)
    (ev : EventPayload) : Prop :=
  ∀ w c p vnanos new, I w c → new = eventRecs (ringOf S.ch .W) (w.events.mem.u32 (ringOf S.ch .W).prod)
      (w.events.nextSeq .W) vnanos flags ev →
    Holds S.ch (w.events.setProducer .W p) (c.push .W new) →
    J (w.publish .W p new) (c.push .W new)

/-- The detcalls of a script succeed until one of them empties the rings. -/
def answered : List Bell → Bool
  | [] => true
  | b :: bs => b.answers && (b.drains || answered bs)

theorem answered_of_all {bells : List Bell} (h : ∀ b ∈ bells, b.answers = true) :
  answered bells = true
  := by
  induction bells with
  | nil => rfl
  | cons b bs ih => simp [answered, h b, ih fun b hb => h b (List.mem_cons_of_mem _ hb)]

/-- An empty ring has room for every event. -/
theorem room_of_nil {ch : Channel} {s : EventState} {g : GuestRing} {ev : EventPayload}
    (h : Holds ch s c) (hnil : c.events g = []) (hev : ev.Encodable) :
  ¬ NoRoom (ringOf ch g.id) s.mem ev
  := by
  have hq := h.events g
  rw [hnil] at hq
  have hempty : s.mem.u32 (ringOf ch g.id).cons = s.mem.u32 (ringOf ch g.id).prod := by
    rw [hq.prod_eq]
    exact (UInt32.add_zero _).symm
  exact room_empty (p := ⟨s.mem, 0⟩) hev hempty

/-- A detcall of the SDK. -/
theorem triple_detcall (hI : Stable S I) (hch : Canonical S.ch) :
  Exec.Triple (Holding I) S.detcall (fun _ => Holding I) (Holding I)
  := by
  rintro w ⟨c, h⟩
  obtain ⟨w', c', hrun, h', _⟩ := run_bell (ε := Sdk.InitError) hI hch h
  rw [Setting.detcall, Exec.run_bind_of_ok hrun]
  cases hanswers : w.nextBell.answers with
  | true =>
      rw [Exec.run_failIf_of_not (by simp)]
      exact ⟨c', h'⟩
  | false =>
      rw [Exec.run_failIf_of rfl]
      exact ⟨c', h'⟩

section Emission

variable {vnanos : UInt64} {flags : UInt8} {ev : EventPayload}

variable (vnanos) in
/-- A round of the SDK that tries to push an event. -/
theorem run_pushEvent (hI : Stable S I) (hch : Canonical S.ch) (h : I w c) (hev : ev.Encodable)
    (hpub : Publishes S I J flags ev) :
  (NoRoom (ringOf S.ch .W) w.events.mem ev ∧
    (Exec.focus (S.ring .W) (Sdk.pushEvent S.dbg (ringOf S.ch .W) (encodedEventLen ev) vnanos
      flags ev)).run w = (w, .err .ringFull)) ∨
    ∃ p new, (Exec.focus (S.ring .W) (Sdk.pushEvent S.dbg (ringOf S.ch .W) (encodedEventLen ev)
        vnanos flags ev)).run w = (w.publish .W p new, .ok ()) ∧
      J (w.publish .W p new) (c.push .W new)
  := by
  rcases run_tryPush (hI.holds h) hch .W vnanos flags hev
    with ⟨hroom, hfull⟩ | ⟨p, seq, new, hnew, hok, hset, hholds⟩
  · exact Or.inl ⟨hroom, Exec.run_focus_same (pushEvent_of_tryPush hfull)⟩
  · right
    refine ⟨p, new, ?_, hpub w c p vnanos new h hnew hholds⟩
    rw [← hset]
    exact Exec.run_focus (pushEvent_of_tryPush hok)

/-- The loop of a critical event ends with the event published, or with a doorbell that fails. -/
theorem triple_emitCritical (hI : Stable S I) (hch : Canonical S.ch) (hev : ev.Encodable)
    (hpub : Publishes S I J flags ev) (fuel : Nat) :
  Exec.Triple (Holding I)
    (Sdk.emitCritical S.dbg (S.ring .W) (ringOf S.ch .W) (encodedEventLen ev) vnanos flags ev
      S.detcall fuel) (fun _ => Holding J) (Holding I)
  := by
  induction fuel with
  | zero => exact Exec.triple_panic fun _ h => h
  | succ fuel ih =>
      rintro w ⟨c, h⟩
      rcases run_pushEvent vnanos hI hch h hev hpub
        with ⟨_, hfull⟩ | ⟨p, new, hok, hJ⟩
      · rw [Sdk.emitCritical, Exec.run_bind_of_ok (Exec.run_attempt_of_err hfull)]
        exact ((triple_detcall hI hch).bind fun _ => ih) w ⟨c, h⟩
      · rw [Sdk.emitCritical, Exec.run_bind_of_ok (Exec.run_attempt_of_ok hok)]
        exact ⟨_, hJ⟩

/-- The loop of a critical event publishes it when there is room, or when the detcalls succeed
until one of them empties the rings. -/
theorem run_emitCritical_inTime (hI : Stable S I) (hch : Canonical S.ch) (hev : ev.Encodable)
    (hpub : Publishes S I J flags ev) {fuel : Nat} (hfuel : w.bells.length + 2 ≤ fuel)
    (h : I w c) (htime : ¬ NoRoom (ringOf S.ch .W) w.events.mem ev ∨ answered w.bells = true) :
  ∃ w', (Sdk.emitCritical S.dbg (S.ring .W) (ringOf S.ch .W) (encodedEventLen ev) vnanos flags ev
      S.detcall fuel).run w = (w', .ok ()) ∧ Holding J w'
  := by
  induction fuel generalizing w c with
  | zero => omega
  | succ fuel ih =>
      rcases run_pushEvent vnanos hI hch h hev hpub
        with ⟨hroom, hfull⟩ | ⟨p, new, hok, hJ⟩
      · rw [Sdk.emitCritical, Exec.run_bind_of_ok (Exec.run_attempt_of_err hfull)]
        rcases htime with hno | hanswered
        · exact absurd hroom hno
        obtain ⟨w', c', hrun, h', _, hbells, hrings⟩ := run_bell (ε := Sdk.InitError) hI hch h
        have hanswers : w.nextBell.answers = true := by
          rw [World.nextBell]
          cases hscript : w.bells with
          | nil => rfl
          | cons b bs =>
              rw [hscript, answered, Bool.and_eq_true] at hanswered
              exact hanswered.1
        have hcall : S.detcall.run w = (w', .ok ()) := by
          rw [Setting.detcall, Exec.run_bind_of_ok hrun, hanswers, Exec.run_failIf_of_not (by simp)]
        dsimp only
        rw [Exec.run_bind_of_ok hcall]
        -- the next round finds room, or the detcalls go on
        by_cases hdrains : w.nextBell.drains = true
        · rw [if_pos hdrains] at hrings
          have hnext := room_of_nil (hI.holds h') (g := .W) (by rw [hrings]) hev
          rcases run_pushEvent vnanos hI hch h' hev hpub
            with ⟨hroom', _⟩ | ⟨p, new, hok, hJ⟩
          · exact absurd hroom' hnext
          · obtain ⟨n, rfl⟩ : ∃ n, fuel = n + 1 := Nat.exists_eq_succ_of_ne_zero (by omega)
            refine ⟨_, ?_, _, hJ⟩
            rw [Sdk.emitCritical, Exec.run_bind_of_ok (Exec.run_attempt_of_ok hok)]
            rfl
        · cases hscript : w.bells with
          | nil =>
              rw [World.nextBell, hscript] at hdrains
              exact absurd rfl hdrains
          | cons b bs =>
              rw [hscript, List.tail_cons] at hbells
              apply ih
              · rw [hbells]
                rw [hscript, List.length_cons] at hfuel
                omega
              · exact h'
              · right
                rw [hbells]
                rw [hscript, answered, Bool.and_eq_true, Bool.or_eq_true] at hanswered
                rw [World.nextBell, hscript] at hdrains
                exact hanswered.2.resolve_left hdrains
      · rw [Sdk.emitCritical, Exec.run_bind_of_ok (Exec.run_attempt_of_ok hok)]
        exact ⟨_, rfl, _, hJ⟩

/-- Behind a detcall that does not empty the rings, the script has an entry less. -/
theorem length_bells_tail (hdrains : w.nextBell.drains ≠ true) :
  w.bells.tail.length + 1 = w.bells.length
  := by
  rw [World.nextBell] at hdrains
  cases hscript : w.bells with
  | nil =>
      rw [hscript] at hdrains
      exact absurd rfl hdrains
  | cons b bs => rfl

/-- The loop of a critical event does not go on for ever. -/
theorem run_emitCritical_total (hI : Stable S I) (hch : Canonical S.ch) (hev : ev.Encodable)
    {fuel : Nat} (hfuel : w.bells.length + 2 ≤ fuel) (h : I w c) :
  ((Sdk.emitCritical S.dbg (S.ring .W) (ringOf S.ch .W) (encodedEventLen ev) vnanos flags ev
      S.detcall fuel).run w).2 ≠ .panic
  := by
  have hpub : Publishes S I (fun _ _ => True) flags ev := fun _ _ _ _ _ _ _ _ => trivial
  induction fuel generalizing w c with
  | zero => omega
  | succ fuel ih =>
      rcases run_pushEvent vnanos hI hch h hev hpub with ⟨_, hfull⟩ | ⟨p, new, hok, _⟩
      · rw [Sdk.emitCritical, Exec.run_bind_of_ok (Exec.run_attempt_of_err hfull)]
        dsimp only
        obtain ⟨w', c', hrun, h', _, hbells, hrings⟩ := run_bell (ε := Sdk.InitError) hI hch h
        by_cases hanswers : w.nextBell.answers = false
        · have hcall : S.detcall.run w = (w', .err .pioPermissionDenied) := by
            rw [Setting.detcall, Exec.run_bind_of_ok hrun, Exec.run_failIf_of hanswers]
          rw [Exec.run_bind_of_err hcall]
          simp
        · have hcall : S.detcall.run w = (w', .ok ()) := by
            rw [Setting.detcall, Exec.run_bind_of_ok hrun, Exec.run_failIf_of_not hanswers]
          rw [Exec.run_bind_of_ok hcall]
          by_cases hdrains : w.nextBell.drains = true
          · rw [if_pos hdrains] at hrings
            have hnext := room_of_nil (hI.holds h') (g := .W) (by rw [hrings]) hev
            rcases run_pushEvent vnanos hI hch h' hev hpub with ⟨hroom, _⟩ | ⟨p, new, hok, _⟩
            · exact absurd hroom hnext
            · obtain ⟨n, rfl⟩ : ∃ n, fuel = n + 1 := Nat.exists_eq_succ_of_ne_zero (by omega)
              rw [Sdk.emitCritical, Exec.run_bind_of_ok (Exec.run_attempt_of_ok hok)]
              simp
          · apply ih _ h'
            have hshort := length_bells_tail hdrains
            rw [hbells]
            omega
      · rw [Sdk.emitCritical, Exec.run_bind_of_ok (Exec.run_attempt_of_ok hok)]
        simp

end Emission

variable {e : Sdk.Emission}

/-- The clock and the others go on before the SDK tries to push an event. -/
theorem run_emitWEvent (hI : Stable S I) (hch : Canonical S.ch) (h : I w c) :
  ∃ w' c', I w' c' ∧ w'.bells = w.bells ∧
    (if w.nextPause.drains = true then c'.events = fun _ => []
      else ∀ i, ¬ (ringOf S.ch .I).Owns i → w'.mem i = w.mem i) ∧
    (S.platform.emitWEvent e).run w
      = (Sdk.emit S.dbg (S.ring .W) (ringOf S.ch .W) S.ch.base.gpa w.vnanos e.extraFlags e.ev e.cls
          S.detcall (Setting.fuel w')).run w'
  := by
  have htick : I { w with vnanos := w.vnanos + 1 } c :=
    hI.quiet w.mem (w.vnanos + 1) w.agent.vnanos w.pauses h (hI.holds h) rfl (List.suffix_refl _)
  obtain ⟨w', c', hrun, h', _, hbells, hrings⟩ := run_pause (ε := Sdk.InitError) hI hch htick
  refine ⟨w', c', h', hbells, hrings, ?_⟩
  have hvnanos : S.platform.vnanos.run w = ({ w with vnanos := w.vnanos + 1 }, .ok w.vnanos) := rfl
  have hidle : S.platform.idle.run { w with vnanos := w.vnanos + 1 } = (w', .ok ()) := by
    change (S.pause >>= fun _ => pure ()).run _ = _
    rw [Exec.run_bind_of_ok hrun, Exec.run_pure]
  rw [Sdk.Platform.emitWEvent, Exec.run_bind_of_ok hvnanos, Exec.run_bind_of_ok hidle,
    Exec.run_bind_of_ok (Exec.run_get w')]
  rfl

/-- Events that the encoder accepts are not too long. -/
theorem emit_fits {ev : EventPayload} (hev : ev.Encodable) :
  ¬ encodedEventLen ev > maxRecordLen
  := by
  have hlen := (encodedEventLen_bounds hev).2
  simp only [maxRecordLen]
  omega

/-- An event that is handed to ring W is published; or it may be dropped; or a doorbell fails. -/
theorem triple_emitWEvent (hI : Stable S I) (hch : Canonical S.ch) (hev : e.ev.Encodable)
    (hpub : Publishes S I J e.extraFlags e.ev) :
  Exec.Triple (Holding I) (S.platform.emitWEvent e)
    (fun _ w => Holding J w ∨ e.cls = .droppable ∧ Holding I w) (Holding I)
  := by
  rintro w ⟨c, h⟩
  obtain ⟨w', c', h', _, _, hrun⟩ := run_emitWEvent (e := e) hI hch h
  rw [hrun, Sdk.emit.eq_def]
  dsimp only
  rw [Exec.run_bind_of_ok (Exec.run_failIf_of_not (emit_fits hev) w')]
  cases hcls : e.cls with
  | critical =>
      apply (triple_emitCritical hI hch hev hpub _).post _ w' ⟨c', h'⟩
      exact fun _ _ hJ => Or.inl hJ
  | droppable =>
      dsimp only
      rcases run_pushEvent w.vnanos hI hch h' hev hpub
        with ⟨_, hfull⟩ | ⟨p, new, hok, hJ⟩
      · obtain ⟨hbump, hbumped⟩ := run_bump (ε := Sdk.InitError) hI h' e.ev.kind
          (encodedEventLen e.ev)
        rw [Sdk.emitDroppable, Exec.run_bind_of_ok (Exec.run_attempt_of_err hfull)]
        dsimp only
        rw [hbump]
        exact Or.inr ⟨rfl, c', hbumped⟩
      · rw [Sdk.emitDroppable, Exec.run_bind_of_ok (Exec.run_attempt_of_ok hok)]
        exact Or.inl ⟨_, hJ⟩

/-- Handing an event to ring W comes to an end. -/
theorem run_emitWEvent_total (hI : Stable S I) (hch : Canonical S.ch) (hev : e.ev.Encodable)
    (h : I w c) :
  ((S.platform.emitWEvent e).run w).2 ≠ .panic
  := by
  obtain ⟨w', c', h', _, _, hrun⟩ := run_emitWEvent (e := e) hI hch h
  rw [hrun, Sdk.emit.eq_def]
  dsimp only
  rw [Exec.run_bind_of_ok (Exec.run_failIf_of_not (emit_fits hev) w')]
  cases e.cls with
  | critical =>
      apply run_emitCritical_total hI hch hev _ h'
      simp only [Setting.fuel]
      omega
  | droppable =>
      dsimp only
      have hpub : Publishes S I (fun _ _ => True) e.extraFlags e.ev :=
        fun _ _ _ _ _ _ _ _ => trivial
      rcases run_pushEvent w.vnanos hI hch h' hev hpub with ⟨_, hfull⟩ | ⟨p, new, hok, _⟩
      · rw [Sdk.emitDroppable, Exec.run_bind_of_ok (Exec.run_attempt_of_err hfull)]
        dsimp only
        rw [(run_bump (ε := Sdk.InitError) hI h' e.ev.kind (encodedEventLen e.ev)).1]
        simp
      · rw [Sdk.emitDroppable, Exec.run_bind_of_ok (Exec.run_attempt_of_ok hok)]
        simp

/-- A critical event is in time for ring W: it has room, or it gets room before a doorbell
fails. -/
def OnTime (S : Setting π τ) (w : World π τ) (ev : EventPayload) : Prop :=
  ¬ NoRoom (ringOf S.ch .W) w.mem ev ∨ w.nextPause.drains = true ∨ answered w.bells = true

/-- Room depends on the indices of the ring. -/
theorem noRoom_congr {r : RingMap} {m m' : ByteMem} {ev : EventPayload}
    (hprod : m'.u32 r.prod = m.u32 r.prod) (hcons : m'.u32 r.cons = m.u32 r.cons) :
  NoRoom r m' ev ↔ NoRoom r m ev
  := by
  rw [NoRoom, NoRoom, hprod, hcons]

/-- A critical event that is in time is published. -/
theorem run_emitWEvent_inTime (hI : Stable S I) (hch : Canonical S.ch) (hev : e.ev.Encodable)
    (hcls : e.cls = .critical) (hpub : Publishes S I J e.extraFlags e.ev) (h : I w c)
    (htime : OnTime S w e.ev) :
  ∃ w', (S.platform.emitWEvent e).run w = (w', .ok ()) ∧ Holding J w'
  := by
  obtain ⟨w', c', h', hbells, hrings, hrun⟩ := run_emitWEvent (e := e) hI hch h
  rw [hrun, Sdk.emit.eq_def, hcls]
  dsimp only
  rw [Exec.run_bind_of_ok (Exec.run_failIf_of_not (emit_fits hev) w')]
  apply run_emitCritical_inTime hI hch hev hpub _ h'
  · by_cases hdrains : w.nextPause.drains = true
    · rw [if_pos hdrains] at hrings
      left
      exact room_of_nil (hI.holds h') (g := .W) (by rw [hrings]) hev
    · rw [if_neg hdrains] at hrings
      rcases htime with hroom | hdrained | hanswered
      · left
        have hcell : ∀ a, (∀ i < 4, (ringOf S.ch .W).Owns (a + i)) → w'.mem.u32 a = w.mem.u32 a := by
          intro a ha
          apply ByteMem.u32_congr
          intro i hi
          exact hrings _ (hch.apart (by decide) _ (ha i hi))
        rw [noRoom_congr (m := w.mem)]
        · exact hroom
        · apply hcell
          intro i hi
          exact Or.inr (Or.inl ⟨by omega, by omega⟩)
        · apply hcell
          intro i hi
          exact Or.inr (Or.inr ⟨by omega, by omega⟩)
      · exact absurd hdrained hdrains
      · right
        rw [hbells]
        exact hanswered
  · simp only [Setting.fuel]
    omega

end Steps

end Protocol
