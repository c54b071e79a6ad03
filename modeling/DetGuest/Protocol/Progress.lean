import DetGuest.Agent.Emit
import DetGuest.Sdk.Emit

/-!
# Critical events make progress

An event is short, even behind a tail that had to be filled, in comparison to a ring.  So it fits
into an empty ring at every position, and a doorbell that empties the ring ends the retry loop of
a critical event.
-/

namespace Protocol

open Wire

section Room

variable {r : RingMap} {ev : EventPayload} {p : Producer}

/-- A record of an eighth of the least ring fits behind any tail that is too short for it. -/
theorem bytesNeeded_le_size (r : RingMap) (prod : UInt32) {n : Nat} (hn : n ≤ 2048) :
  (bytesNeeded prod r.size (UInt32.ofNat n)).toNat ≤ r.size.toNat
  := by
  have hsize : 4096 ≤ r.size.toNat := r.size_ge
  rw [r.toNat_bytesNeeded prod (Nat.le_trans hn (by decide))]
  split
  · omega
  · omega

/-- In an empty ring there is room for every event. -/
theorem room_empty (hev : ev.Encodable) (hempty : p.mem.u32 r.cons = p.mem.u32 r.prod) :
  ¬ free (p.mem.u32 r.prod) (p.mem.u32 r.cons) r.size
    < bytesNeeded (p.mem.u32 r.prod) r.size (UInt32.ofNat (encodedEventLen ev))
  := by
  have hlen := (encodedEventLen_bounds hev).2
  have hneeded := bytesNeeded_le_size r (p.mem.u32 r.prod) (show encodedEventLen ev ≤ 2048 by omega)
  have hfree : (free (p.mem.u32 r.prod) (p.mem.u32 r.cons) r.size).toNat = r.size.toNat := by
    rw [hempty, free, used, Word.toNat_saturatingSub, UInt32.sub_self]
    rfl
  rw [UInt32.lt_iff_toNat_lt, hfree]
  omega

/-- A push of an event publishes it, or finds no room and changes nothing. -/
theorem tryPush_event (dbg : Bool) (vnanos : UInt64) (flags : UInt8) (hev : ev.Encodable)
    (halign : (p.mem.u32 r.prod).toNat % 8 = 0) :
  (∃ q seq, (Producer.tryPush dbg r (encodedEventLen ev)
      (fun seq => encodeEvent dbg seq vnanos flags ev)).run p = (q, .ok seq)) ∨
    (Producer.tryPush dbg r (encodedEventLen ev)
      (fun seq => encodeEvent dbg seq vnanos flags ev)).run p = (p, .err .ringFull) ∧
      p.mem.u32 r.cons ≠ p.mem.u32 r.prod
  := by
  obtain ⟨hmin, hmax⟩ := encodedEventLen_bounds hev
  have hmin' : padMinLen ≤ encodedEventLen ev := Nat.le_trans (by decide) hmin
  have hmax' : encodedEventLen ev ≤ maxRecordLen := Nat.le_trans hmax (by decide)
  by_cases hroom : free (p.mem.u32 r.prod) (p.mem.u32 r.cons) r.size
      < bytesNeeded (p.mem.u32 r.prod) r.size (UInt32.ofNat (encodedEventLen ev))
  · right
    use run_tryPush_full (encodedEventLen_mod ev) hmin' hmax' hroom
    intro hempty
    exact room_empty hev hempty hroom
  · left
    exact ⟨_, _, run_tryPush_ok rfl (encodedEventLen_mod ev) hmin' hmax' halign
      (encodes_event dbg vnanos flags hev) (fun s => length_eventBytes s vnanos flags ev) hroom⟩

end Room

/-! ### The retry loops -/

section Loops

variable {σ ε : Type} {part : Exec.Part σ Producer} {r : RingMap} {ev : EventPayload} {s s' : σ}

/-- The doorbell at the state `s` returns, and the ring is empty behind it, at the same producer
position. -/
def Empties (part : Exec.Part σ Producer) (r : RingMap) (doorbell : Exec σ ε Unit) (s : σ) : Prop :=
  ∃ s', doorbell.run s = (s', .ok ()) ∧
    (part.get s').mem.u32 r.prod = (part.get s).mem.u32 r.prod ∧
    (part.get s').mem.u32 r.cons = (part.get s).mem.u32 r.prod

theorem pushEvent_of_tryPush {dbg : Bool} {vnanos : UInt64} {flags : UInt8} {p q : Producer}
    {res : Res RingFull UInt32} {n : Nat} (h : (Producer.tryPush dbg r n
      (fun seq => encodeEvent dbg seq vnanos flags ev)).run p = (q, res)) :
  (Sdk.pushEvent dbg r n vnanos flags ev).run p = (q, res >>= fun _ => .ok ())
  := by
  rw [Sdk.pushEvent]
  cases res with
  | ok seq =>
      rw [Exec.run_bind_of_ok h]
      rfl
  | err e =>
      rw [Exec.run_bind_of_err h]
      rfl
  | panic =>
      rw [Exec.run_bind_of_panic h]
      rfl

/-- The loop of the SDK for a critical event returns after at most two rounds. -/
theorem run_emitCritical (dbg : Bool) (vnanos : UInt64) (flags : UInt8) (hev : ev.Encodable)
    {doorbell : Exec σ Sdk.InitError Unit} (halign : ((part.get s).mem.u32 r.prod).toNat % 8 = 0)
    (hbell : Empties part r doorbell s) :
  ∃ s', ∀ fuel, (Sdk.emitCritical dbg part r (encodedEventLen ev) vnanos flags ev doorbell
    (fuel + 2)).run s = (s', .ok ())
  := by
  rcases tryPush_event dbg vnanos flags hev halign with ⟨q, seq, hpush⟩ | ⟨hfull, _⟩
  · use part.set s q
    intro fuel
    rw [Sdk.emitCritical, Exec.run_bind_of_ok
      (Exec.run_attempt_of_ok (Exec.run_focus (pushEvent_of_tryPush hpush)))]
    rfl
  · -- the second round finds the ring empty
    obtain ⟨t, hrun, hprod, hcons⟩ := hbell
    rcases tryPush_event dbg vnanos flags (p := part.get t) hev (by rw [hprod]; exact halign) with
      ⟨q, seq, hpush⟩ | ⟨_, hne⟩
    · use part.set t q
      intro fuel
      rw [Sdk.emitCritical, Exec.run_bind_of_ok
        (Exec.run_attempt_of_err (Exec.run_focus_same (pushEvent_of_tryPush hfull)))]
      dsimp only
      rw [Exec.run_bind_of_ok hrun, Sdk.emitCritical, Exec.run_bind_of_ok
        (Exec.run_attempt_of_ok (Exec.run_focus (pushEvent_of_tryPush hpush)))]
      rfl
    · exact absurd (hcons.trans hprod.symm) hne

/-- The loop of the agent for an event of a critical kind returns after at most two rounds. -/
theorem run_agentEmit (dbg : Bool) (base : Nat) (vnanos : UInt64) (flags : UInt8)
    (hev : ev.Encodable) (hcritical : ev.kind.isCritical = true) {doorbell : Exec σ ε Unit}
    (halign : ((part.get s).mem.u32 r.prod).toNat % 8 = 0) (hbell : Empties part r doorbell s) :
  ∃ s', ∀ fuel, (Agent.emit dbg part r base vnanos flags ev doorbell (fuel + 2)).run s
    = (s', .ok true)
  := by
  rcases tryPush_event dbg vnanos flags hev halign with ⟨q, seq, hpush⟩ | ⟨hfull, _⟩
  · use part.set s q
    intro fuel
    rw [Agent.emit, Exec.run_bind_of_ok (Exec.run_attempt_of_ok (Exec.run_focus hpush))]
    rfl
  · obtain ⟨t, hrun, hprod, hcons⟩ := hbell
    rcases tryPush_event dbg vnanos flags (p := part.get t) hev (by rw [hprod]; exact halign) with
      ⟨q, seq, hpush⟩ | ⟨_, hne⟩
    · use part.set t q
      intro fuel
      rw [Agent.emit, Exec.run_bind_of_ok (Exec.run_attempt_of_err (Exec.run_focus_same hfull))]
      dsimp only
      rw [if_pos hcritical, Exec.run_bind_of_ok hrun, Agent.emit,
        Exec.run_bind_of_ok (Exec.run_attempt_of_ok (Exec.run_focus hpush))]
      rfl
    · exact absurd (hcons.trans hprod.symm) hne

/-- Critical events make progress.  An event is at most 1048 bytes long, and with the tail in
front of it at most as long as the ring, so a push on an empty ring succeeds; and when the doorbell
empties the ring, the retry loops of the SDK and of the agent return after at most one retry. -/
theorem critical_progress (dbg : Bool) (r : RingMap) {ev : EventPayload} (hev : ev.Encodable) :
  encodedEventLen ev ≤ 1048 ∧
  (∀ prod : UInt32, prod.toNat % 8 = 0 →
    (bytesNeeded prod r.size (UInt32.ofNat (encodedEventLen ev))).toNat ≤ r.size.toNat) ∧
  (∀ (p : Producer) (vnanos : UInt64) (flags : UInt8), (p.mem.u32 r.prod).toNat % 8 = 0 →
    p.mem.u32 r.cons = p.mem.u32 r.prod →
    ∃ q seq, (Producer.tryPush dbg r (encodedEventLen ev)
      (fun seq => encodeEvent dbg seq vnanos flags ev)).run p = (q, .ok seq)) ∧
  (∀ (σ : Type) (part : Exec.Part σ Producer) (base : Nat) (vnanos : UInt64) (flags : UInt8)
      (s : σ), ((part.get s).mem.u32 r.prod).toNat % 8 = 0 →
    (∀ doorbell, Empties part r doorbell s → ∃ s', ∀ fuel,
      (Sdk.emit dbg part r base vnanos flags ev .critical doorbell (fuel + 2)).run s
        = (s', .ok ())) ∧
    (∀ (ε : Type) (doorbell : Exec σ ε Unit), Empties part r doorbell s →
      ev.kind.isCritical = true → ∃ s', ∀ fuel,
        (Agent.emit dbg part r base vnanos flags ev doorbell (fuel + 2)).run s = (s', .ok true)))
  := by
  have hlen := (encodedEventLen_bounds hev).2
  refine ⟨hlen, ?_, ?_, ?_⟩
  · intro prod _
    apply bytesNeeded_le_size
    omega
  · intro p vnanos flags halign hempty
    rcases tryPush_event dbg vnanos flags hev halign with hpush | ⟨_, hne⟩
    · exact hpush
    · exact absurd hempty hne
  · intro σ part base vnanos flags s halign
    constructor
    · intro doorbell hbell
      obtain ⟨s', hrun⟩ := run_emitCritical dbg vnanos flags hev halign hbell
      have hfits : ¬ encodedEventLen ev > maxRecordLen := by
        simp only [maxRecordLen]
        omega
      use s'
      intro fuel
      rw [Sdk.emit, Exec.run_bind_of_ok (Exec.run_failIf_of_not hfits _)]
      apply hrun
    · intro ε doorbell hbell hcritical
      apply run_agentEmit dbg base vnanos flags hev hcritical halign hbell

/-- A host that drains the ring completely: it stores the producer index as the consumer
index. -/
def emptyRing (r : RingMap) : Exec Producer Sdk.InitError Unit :=
  Exec.modify fun p => { p with mem := p.mem.write r.cons (Bytes.ofU32 (p.mem.u32 r.prod)) }

theorem empties_emptyRing (r : RingMap) (p : Producer) :
  Empties .whole r (emptyRing r) p
  := by
  refine ⟨_, Exec.run_modify _ _, ?_, ?_⟩
  · apply ByteMem.u32_write_outside
    rw [Bytes.length_ofU32]
    exact r.cell_sep
  · apply ByteMem.u32_write_self

/-- Ring W of the canonical layout, full. -/
def fullRingW : Producer :=
  { mem := ByteMem.write (fun _ => 0) (RingMap.canonical 0 .W).prod
      (Bytes.ofU32 (RingMap.canonical 0 .W).size)
    nextSeq := 0 }

theorem fullRingW_prod :
  fullRingW.mem.u32 (RingMap.canonical 0 .W).prod = (RingMap.canonical 0 .W).size
  := ByteMem.u32_write_self ..

/-- A frame mark on a full ring W. -/
theorem critical_progress_frameMark :
  ∃ s', ∀ fuel, (Sdk.emit true .whole (RingMap.canonical 0 .W) 0 1 0 (.frameMark 3) .critical
    (emptyRing (RingMap.canonical 0 .W)) (fuel + 2)).run fullRingW = (s', .ok ())
  := by
  have hev : EventPayload.Encodable (.frameMark 3) := by decide
  have halign : (fullRingW.mem.u32 (RingMap.canonical 0 .W).prod).toNat % 8 = 0 := by
    rw [fullRingW_prod]
    decide
  obtain ⟨_, _, _, hloops⟩ := critical_progress true (RingMap.canonical 0 .W) hev
  apply (hloops Producer .whole 0 1 0 fullRingW halign).1
  apply empties_emptyRing

end Loops

end Protocol
