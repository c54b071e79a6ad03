import DetGuest.Protocol.Exits
import Mathlib.Data.UInt

/-!
# What is dropped is counted

Events are handed to ring W by the SDK and to ring A by the agent.  An event lands once on its ring,
or it is of no critical kind, there was no room for it, and it is counted once in the header of the
channel.
-/

namespace Protocol

open Wire Host

/-! ### Counters -/

/-- What a dropped event adds to the counters of the header, by their offsets. -/
def increments : GuestRing → EventPayload → List (Nat × UInt64)
  | .A, ev =>
      [(offRingADroppedRecords, 1), (offRingADroppedBytes, UInt64.ofNat (encodedEventLen ev))]
  | .W, ev =>
      [(offRingWDroppedRecords, 1), (offRingWDroppedBytes, UInt64.ofNat (encodedEventLen ev)),
        (offRingWDroppedByKind + ev.kind.toU8.toNat * 8, 1)]

/-- Memory with counters of the header at address `base` raised. -/
def raised (base : Nat) (m : ByteMem) (incs : List (Nat × UInt64)) : ByteMem :=
  incs.foldl (fun m inc => counted m (base + inc.1) inc.2) m

/-- What increments add to the counter at an offset. -/
def gained (incs : List (Nat × UInt64)) (off : Nat) : UInt64 :=
  ((incs.filter fun inc => inc.1 = off).map Prod.snd).sum

/-- A counter lies in the header at a multiple of eight bytes. -/
def IsCounter (off : Nat) : Prop := off % 8 = 0 ∧ off + 8 ≤ 0x100

instance (off : Nat) : Decidable (IsCounter off) := inferInstanceAs (Decidable (_ ∧ _))

section Counters

variable {base off : Nat} {m m' : ByteMem} {incs : List (Nat × UInt64)} {ev : EventPayload}

theorem isCounter_increments (g : GuestRing) (ev : EventPayload) :
  ∀ inc ∈ increments g ev, IsCounter inc.1
  := by
  have hkind : ev.kind.toU8.toNat ≤ 14 := by cases ev.kind <;> decide
  intro inc hinc
  cases g with
  | A =>
      simp only [increments, List.mem_cons, List.not_mem_nil, or_false] at hinc
      rcases hinc with rfl | rfl
      · decide
      · exact (by decide : IsCounter offRingADroppedBytes)
  | W =>
      simp only [increments, List.mem_cons, List.not_mem_nil, or_false] at hinc
      rcases hinc with rfl | rfl | rfl
      · decide
      · exact (by decide : IsCounter offRingWDroppedBytes)
      · simp only [IsCounter, offRingWDroppedByKind]
        omega

@[simp] theorem gained_nil (off : Nat) : gained [] off = 0 := rfl

@[simp] theorem gained_cons (inc : Nat × UInt64) (incs : List (Nat × UInt64)) (off : Nat) :
  gained (inc :: incs) off = (if inc.1 = off then inc.2 else 0) + gained incs off
  := by
  by_cases heq : inc.1 = off <;> simp [gained, heq]

/-- A counter that is raised, read at the same place or beside it. -/
theorem u64_counted {a b : Nat} (v : UInt64) (ha : a % 8 = 0) (hb : b % 8 = 0) :
  (counted m (base + a) v).u64 (base + b) = m.u64 (base + b) + if a = b then v else 0
  := by
  by_cases hab : a = b
  · subst hab
    rw [if_pos rfl, counted, ByteMem.u64]
    have hlen : (Bytes.ofU64 (m.u64 (base + a) + v)).length = 8 := Bytes.length_ofU64 _
    have hself := ByteMem.read_write_self m (base + a) (Bytes.ofU64 (m.u64 (base + a) + v))
    rw [hlen] at hself
    rw [hself, Bytes.toU64_ofU64]
  · rw [if_neg hab, UInt64.add_zero, counted, ByteMem.u64, ByteMem.read_write_outside, ← ByteMem.u64]
    rw [Bytes.length_ofU64]
    omega

/-- Raised counters tell what they were and what was added. -/
theorem u64_raised (hincs : ∀ inc ∈ incs, IsCounter inc.1) (hoff : IsCounter off) :
  (raised base m incs).u64 (base + off) = m.u64 (base + off) + gained incs off
  := by
  induction incs generalizing m with
  | nil => exact (UInt64.add_zero _).symm
  | cons inc incs ih =>
      rw [raised, List.foldl_cons, ← raised, ih fun i hi => hincs i (List.mem_cons_of_mem _ hi),
        u64_counted inc.2 (hincs inc List.mem_cons_self).1 hoff.1, UInt64.add_assoc, gained_cons]

/-- Counters are raised in the header only. -/
theorem raised_outside (hincs : ∀ inc ∈ incs, IsCounter inc.1) {i : Nat} (hi : base + 0x100 ≤ i) :
  raised base m incs i = m i
  := by
  induction incs generalizing m with
  | nil => rfl
  | cons inc incs ih =>
      have hinc := (hincs inc List.mem_cons_self).2
      rw [raised, List.foldl_cons, ← raised, ih fun i hi => hincs i (List.mem_cons_of_mem _ hi)]
      exact counted_outside (b := base + 0x100) (by omega) hi

end Counters

/-! ### Emissions -/

/-- The rings with the host, and the records that were published on them. -/
structure EmitState where
  events : EventState
  landed : GuestRing → List Bytes

/-- An event is handed to ring W by the SDK or to ring A by the agent, or the host drains the
rings. -/
inductive EmitOp where
  | sdk (vnanos : UInt64) (e : Sdk.Emission)
  | agent (vnanos : UInt64) (flags : UInt8) (ev : EventPayload)
  | drain

/-- The memory before an operation, the records that it published, and whether it returned. -/
structure EmitAnswer where
  before : ByteMem
  written : List Bytes
  returned : Bool

variable {ε : Type}

/-- A ring of the channel as its producer sees it. -/
def ringPart (ch : Channel) (g : GuestRing) : Exec.Part EmitState Producer where
  get s := ⟨s.events.mem, s.events.nextSeq g⟩
  set s p :=
    { events := s.events.setProducer g p
      landed := Function.update s.landed g
        (s.landed g ++ published (ringOf ch g.id) s.events.mem p.mem) }
  get_set s p := by
    simp [EventState.setProducer, EventState.mem]
  set_get s := by
    simp [published_self, EventState.setProducer, EventState.mem]

/-- The host drains the rings. -/
def hostDrain (dbg : Bool) : Exec EmitState ε Unit :=
  Exec.modify fun s => { s with events := { s.events with host :=
    ((drainEvents dbg).run s.events.host).1 } }

/-- An operation.  The doorbells succeed and make the host drain the rings, and a retry loop has at
least two rounds. -/
def emitStep (dbg : Bool) (ch : Channel) (rounds : Nat) (s : EmitState) :
    EmitOp → EmitState × EmitAnswer
  | .sdk vnanos e =>
      let (s', res) := (Sdk.emit dbg (ringPart ch .W) (ringOf ch .W) ch.base.gpa vnanos e.extraFlags
        e.ev e.cls (hostDrain dbg) (rounds + 2)).run s
      (s', { before := s.events.mem
             written := (s'.landed .W).drop (s.landed .W).length
             returned := res = .ok () })
  | .agent vnanos flags ev =>
      let (s', res) := (Agent.emit dbg (ringPart ch .A) (ringOf ch .A) ch.base.gpa vnanos flags ev
        (hostDrain dbg : Exec EmitState Empty Unit) (rounds + 2)).run s
      (s', { before := s.events.mem
             written := (s'.landed .A).drop (s.landed .A).length
             returned := !res.isPanic })
  | .drain =>
      let (s', _) := (hostDrain dbg : Exec EmitState Empty Unit).run s
      (s', { before := s.events.mem, written := [], returned := true })

/-- An event that is handed to a ring. -/
structure Handed where
  ring : GuestRing
  vnanos : UInt64
  flags : UInt8
  ev : EventPayload

/-- The event that an operation hands to a ring. -/
def EmitOp.handed : EmitOp → Option Handed
  | .sdk vnanos e => some ⟨.W, vnanos, e.extraFlags, e.ev⟩
  | .agent vnanos flags ev => some ⟨.A, vnanos, flags, ev⟩
  | .drain => none

/-- The class of an event of the SDK is that of its kind. -/
def Classed (e : Sdk.Emission) : Prop := e.cls = .critical ↔ e.ev.kind.isCritical = true

/-- The event of an operation can be encoded, and has the class of its kind. -/
def EmitOp.Proper : EmitOp → Prop
  | .sdk _ e => e.ev.Encodable ∧ Classed e
  | .agent _ _ ev => ev.Encodable
  | .drain => True

/-- The event that an operation drops: nothing is published of it. -/
def dropOf (a : EmitOp × EmitAnswer) : Option (GuestRing × EventPayload) :=
  match a.1.handed with
  | some h => if a.2.written = [] then some (h.ring, h.ev) else none
  | none => none

/-- The events that a run drops. -/
def drops (tr : List (EmitOp × EmitAnswer)) : List (GuestRing × EventPayload) := tr.filterMap dropOf

/-- Records hold an event once, behind a `Pad` at most. -/
def Once (h : Handed) (recs : List Bytes) : Prop :=
  ∃ seq, recs = [eventBytes seq h.vnanos h.flags h.ev] ∨
    ∃ tail, recs = [padBytes tail seq, eventBytes (seq + 1) h.vnanos h.flags h.ev]

/-- An operation returns, and its event is published once; or it is of no critical kind, there was
no room for it and its `Pad`, and nothing is published. -/
def Reckoned (ch : Channel) (a : EmitOp × EmitAnswer) : Prop :=
  a.2.returned = true ∧ ∀ h, a.1.handed = some h →
    Once h a.2.written ∨
      (a.2.written = [] ∧ h.ev.kind.isCritical = false ∧
        NoRoom (ringOf ch h.ring.id) a.2.before h.ev)

section Steps

variable {dbg : Bool} {ch : Channel} {s : EmitState} {c : Contents} {ev : EventPayload}

/-- Two memories with the same counters. -/
def SameCounters (ch : Channel) (m m' : ByteMem) : Prop :=
  ∀ i < ch.base.gpa + 0x100, m' i = m i

theorem SameCounters.u64 {m m' : ByteMem} (h : SameCounters ch m m') {off : Nat}
    (hoff : off + 8 ≤ 0x100) :
  m'.u64 (ch.base.gpa + off) = m.u64 (ch.base.gpa + off)
  := by
  rw [ByteMem.u64, ByteMem.u64]
  congr 1
  apply ByteMem.read_congr
  intro i hi
  apply h
  omega

/-- The host drains the rings and leaves the counters alone. -/
theorem run_hostDrain (hch : Canonical ch) (h : Holds ch s.events c) (dbg : Bool) :
  ∃ s', (hostDrain dbg : Exec EmitState ε Unit).run s = (s', .ok ()) ∧
    Holds ch s'.events c.drained ∧ s'.landed = s.landed ∧
    SameCounters ch s.events.mem s'.events.mem
  := by
  obtain ⟨h', hrun, hholds, _, hframe⟩ := h.drain hch dbg
  refine ⟨{ s with events := { s.events with host := h' } }, ?_, hholds, rfl, ?_⟩
  · rw [hostDrain, Exec.run_modify, hrun]
  · intro i hi
    exact hframe i (outsideRings_header hi)

/-- A push of an event by its producer: it is published once, or there is no room for it. -/
theorem run_tryPush_once (hch : Canonical ch) (h : Holds ch s.events c) (dbg : Bool) (g : GuestRing)
    (vnanos : UInt64) (flags : UInt8) (hev : ev.Encodable) :
  (NoRoom (ringOf ch g.id) s.events.mem ev ∧
    (Producer.tryPush dbg (ringOf ch g.id) (encodedEventLen ev)
      fun seq => encodeEvent dbg seq vnanos flags ev).run ((ringPart ch g).get s)
        = ((ringPart ch g).get s, .err .ringFull)) ∨
    ∃ p seq new, (Producer.tryPush dbg (ringOf ch g.id) (encodedEventLen ev)
      fun seq => encodeEvent dbg seq vnanos flags ev).run ((ringPart ch g).get s) = (p, .ok seq) ∧
      Once ⟨g, vnanos, flags, ev⟩ new ∧
      Holds ch ((ringPart ch g).set s p).events (c.push g new) ∧
      ((ringPart ch g).set s p).landed = Function.update s.landed g (s.landed g ++ new) ∧
      SameCounters ch s.events.mem ((ringPart ch g).set s p).events.mem
  := by
  rcases h.pushEvent hch dbg g vnanos flags hev rfl
    with ⟨hroom, hfull⟩ | ⟨new, hnew, hok, hholds, hframe⟩
  · exact Or.inl ⟨hroom, hfull⟩
  · right
    have hpub := published_tryPush h hev hok
    rw [← hnew] at hpub
    rw [hok] at hholds hframe
    refine ⟨_, _, new, hok, ?_, hholds, ?_, ?_⟩
    · rw [hnew, eventRecs, pushRecs]
      split
      · exact ⟨s.events.nextSeq g, Or.inl rfl⟩
      · exact ⟨s.events.nextSeq g, Or.inr ⟨_, rfl⟩⟩
    · exact congrArg (fun recs => Function.update s.landed g (s.landed g ++ recs)) hpub
    · intro i hi
      exact hframe i (outsideRings_header hi _)

/-- An event that was handed to a ring has landed, or it was dropped and counted. -/
inductive Outcome (ch : Channel) (s s' : EmitState) (hd : Handed) : Prop where
  | landed (new : List Bytes) (honce : Once hd new)
      (hlanded : s'.landed = Function.update s.landed hd.ring (s.landed hd.ring ++ new))
      (hsame : SameCounters ch s.events.mem s'.events.mem) : Outcome ch s s' hd
  | dropped (hlanded : s'.landed = s.landed) (hkind : hd.ev.kind.isCritical = false)
      (hroom : NoRoom (ringOf ch hd.ring.id) s.events.mem hd.ev)
      (hcounted : ∀ off, IsCounter off → s'.events.mem.u64 (ch.base.gpa + off)
        = s.events.mem.u64 (ch.base.gpa + off) + gained (increments hd.ring hd.ev) off) :
      Outcome ch s s' hd

/-- Memory with raised counters, as a producer leaves it. -/
theorem ringPart_raised (h : Holds ch s.events c) (g : GuestRing) (ev : EventPayload) :
  let m := raised ch.base.gpa s.events.mem (increments g ev)
  let s' := (ringPart ch g).set s ⟨m, s.events.nextSeq g⟩
  Holds ch s'.events c ∧ s'.landed = s.landed ∧ s'.events.mem = m
  := by
  intro m s'
  have hsame : ∀ i, ¬ OutsideRings ch i → m i = s.events.mem i := by
    intro i hi
    apply raised_outside (isCounter_increments g ev)
    by_contra hlt
    exact hi (outsideRings_header (Nat.not_le.mp hlt))
  have hprod : m.u32 (ringOf ch g.id).prod = s.events.mem.u32 (ringOf ch g.id).prod := by
    apply ByteMem.u32_congr
    intro i hi
    apply hsame
    intro hout
    exact hout g.id (Or.inr (Or.inl ⟨by omega, by omega⟩))
  have hevents : s'.events = s.events.setMem m := by
    simp [s', ringPart, EventState.setProducer, EventState.setMem, Channel.withMem]
  refine ⟨?_, ?_, rfl⟩
  · rw [hevents]
    exact h.outside hsame
  · have hnone := published_of_prod (r := ringOf ch g.id) hprod
    change Function.update s.landed g (s.landed g ++ published (ringOf ch g.id) s.events.mem m) = _
    rw [hnone, List.append_nil, Function.update_eq_self]

/-- A drop, with its counters raised. -/
theorem outcome_raised (h : Holds ch s.events c) (hd : Handed)
    (hkind : hd.ev.kind.isCritical = false)
    (hroom : NoRoom (ringOf ch hd.ring.id) s.events.mem hd.ev) :
  Outcome ch s ((ringPart ch hd.ring).set s
    ⟨raised ch.base.gpa s.events.mem (increments hd.ring hd.ev), s.events.nextSeq hd.ring⟩) hd
  := by
  obtain ⟨_, hlanded, hmem⟩ := ringPart_raised h hd.ring hd.ev
  refine .dropped hlanded hkind hroom ?_
  intro off hoff
  rw [hmem]
  exact u64_raised (isCounter_increments hd.ring hd.ev) hoff

/-- Behind a drain there is room for every event. -/
theorem outcome_drained {s₁ s₂ : EmitState} {hd : Handed} {new : List Bytes}
    (hlanded₁ : s₁.landed = s.landed) (hsame₁ : SameCounters ch s.events.mem s₁.events.mem)
    (honce : Once hd new)
    (hlanded₂ : s₂.landed = Function.update s₁.landed hd.ring (s₁.landed hd.ring ++ new))
    (hsame₂ : SameCounters ch s₁.events.mem s₂.events.mem) :
  Outcome ch s s₂ hd
  := by
  rw [hlanded₁] at hlanded₂
  exact .landed new honce hlanded₂ fun i hi => (hsame₂ i hi).trans (hsame₁ i hi)

/-- The SDK counts a drop. -/
theorem run_bump_raised (p : Producer) (ev : EventPayload) (base : Nat) :
  (Sdk.bump base ev.kind (encodedEventLen ev) : Exec Producer ε Unit).run p
    = ({ p with mem := raised base p.mem (increments .W ev) }, .ok ())
  := by
  rw [Sdk.bump, Nat.add_assoc]
  rfl

/-- An event of the SDK lands, or it is dropped and counted. -/
theorem run_sdkEmit (hch : Canonical ch) (h : Holds ch s.events c) (dbg : Bool) (rounds : Nat)
    (vnanos : UInt64) {e : Sdk.Emission} (hev : e.ev.Encodable) (hcls : Classed e) :
  ∃ s' c', (Sdk.emit dbg (ringPart ch .W) (ringOf ch .W) ch.base.gpa vnanos e.extraFlags e.ev e.cls
      (hostDrain dbg) (rounds + 2)).run s = (s', .ok ()) ∧ Holds ch s'.events c' ∧
    Outcome ch s s' ⟨.W, vnanos, e.extraFlags, e.ev⟩
  := by
  rw [Sdk.emit.eq_def]
  dsimp only
  rw [Exec.run_bind_of_ok (Exec.run_failIf_of_not (emit_fits hev) s)]
  have hpush := run_tryPush_once hch h dbg .W vnanos e.extraFlags hev
  dsimp only [GuestRing.id] at hpush
  cases hc : e.cls with
  | droppable =>
      dsimp only
      have hkind : e.ev.kind.isCritical = false := by
        rw [Classed, hc] at hcls
        simpa using hcls
      rcases hpush with ⟨hroom, hfull⟩ | ⟨p, seq, new, hok, honce, hholds, hlanded, hsame⟩
      · obtain ⟨hholds, _⟩ := ringPart_raised h .W e.ev
        refine ⟨_, c, ?_, hholds, outcome_raised h ⟨.W, vnanos, e.extraFlags, e.ev⟩ hkind hroom⟩
        rw [Sdk.emitDroppable, Exec.run_bind_of_ok (Exec.run_attempt_of_err
          (Exec.run_focus_same (pushEvent_of_tryPush hfull)))]
        exact Exec.run_focus (run_bump_raised _ e.ev _)
      · refine ⟨_, _, ?_, hholds, .landed new honce hlanded hsame⟩
        rw [Sdk.emitDroppable, Exec.run_bind_of_ok (Exec.run_attempt_of_ok
          (Exec.run_focus (pushEvent_of_tryPush hok)))]
        rfl
  | critical =>
      dsimp only
      rw [Sdk.emitCritical]
      rcases hpush with ⟨hroom, hfull⟩ | ⟨p, seq, new, hok, honce, hholds, hlanded, hsame⟩
      · -- the doorbell empties the ring, and the second round finds room
        obtain ⟨s₁, hbell, h₁, hlanded₁, hsame₁⟩ := run_hostDrain (ε := Sdk.InitError) hch h dbg
        have hpush₁ := run_tryPush_once hch h₁ dbg .W vnanos e.extraFlags hev
        dsimp only [GuestRing.id] at hpush₁
        rcases hpush₁ with ⟨hroom₁, _⟩ | ⟨p, seq, new, hok, honce, hholds, hlanded, hsame⟩
        · exact absurd hroom₁ (room_of_nil h₁ (g := .W) rfl hev)
        · refine ⟨_, _, ?_, hholds, outcome_drained hlanded₁ hsame₁ honce hlanded hsame⟩
          rw [Exec.run_bind_of_ok (Exec.run_attempt_of_err
            (Exec.run_focus_same (pushEvent_of_tryPush hfull)))]
          dsimp only
          rw [Exec.run_bind_of_ok hbell, Sdk.emitCritical, Exec.run_bind_of_ok
            (Exec.run_attempt_of_ok (Exec.run_focus (pushEvent_of_tryPush hok)))]
          rfl
      · refine ⟨_, _, ?_, hholds, .landed new honce hlanded hsame⟩
        rw [Exec.run_bind_of_ok (Exec.run_attempt_of_ok
          (Exec.run_focus (pushEvent_of_tryPush hok)))]
        rfl

/-- The counters of ring A have room for a drop. -/
def Countable (dbg : Bool) (ch : Channel) (m : ByteMem) (ev : EventPayload) : Prop :=
  dbg = true → (m.u64 (ch.base.gpa + offRingADroppedRecords)).toNat + 1 < 2 ^ 64 ∧
    (m.u64 (ch.base.gpa + offRingADroppedBytes)).toNat + encodedEventLen ev < 2 ^ 64

/-- The agent counts a drop. -/
theorem run_bumpDropCounters {p : Producer} (hfits : Countable dbg ch p.mem ev) :
  (Agent.bumpDropCounters dbg ch.base.gpa (encodedEventLen ev) : Exec Producer ε Unit).run p
    = ({ p with mem := raised ch.base.gpa p.mem (increments .A ev) }, .ok ())
  := by
  have hone : ∀ (p : Producer) (a v : Nat), (dbg = true → (p.mem.u64 a).toNat + v < 2 ^ 64) →
      (Agent.addU64 dbg a v : Exec Producer ε Unit).run p
        = ({ p with mem := counted p.mem a (UInt64.ofNat v) }, .ok ()) := by
    intro p a v hv
    rw [Agent.addU64, Exec.run_bind_of_ok (Exec.run_get p),
      Exec.run_bind_of_ok (Exec.run_debugAssert_of_imp hv p)]
    rfl
  have hbytes : (counted p.mem (ch.base.gpa + offRingADroppedRecords) 1).u64
      (ch.base.gpa + offRingADroppedBytes) = p.mem.u64 (ch.base.gpa + offRingADroppedBytes) := by
    rw [u64_counted 1 rfl rfl, if_neg (by decide), UInt64.add_zero]
  rw [Agent.bumpDropCounters, Exec.run_bind_of_ok (hone p _ 1 fun hdbg => (hfits hdbg).1)]
  rw [hone]
  · rfl
  · intro hdbg
    have hnext := (hfits hdbg).2
    rw [← hbytes] at hnext
    exact hnext

/-- An event of the agent lands, or it is dropped and counted. -/
theorem run_agentEmit_outcome (hch : Canonical ch) (h : Holds ch s.events c) (rounds : Nat)
    (vnanos : UInt64) (flags : UInt8) (hev : ev.Encodable)
    (hfits : ev.kind.isCritical = false → Countable dbg ch s.events.mem ev) :
  ∃ s' c' landed, (Agent.emit dbg (ringPart ch .A) (ringOf ch .A) ch.base.gpa vnanos flags ev
      (hostDrain dbg : Exec EmitState ε Unit) (rounds + 2)).run s = (s', .ok landed) ∧
    Holds ch s'.events c' ∧ Outcome ch s s' ⟨.A, vnanos, flags, ev⟩
  := by
  rw [Agent.emit]
  have hpush := run_tryPush_once hch h dbg .A vnanos flags hev
  dsimp only [GuestRing.id] at hpush
  rcases hpush with ⟨hroom, hfull⟩ | ⟨p, seq, new, hok, honce, hholds, hlanded, hsame⟩
  · rw [Exec.run_bind_of_ok (Exec.run_attempt_of_err (Exec.run_focus_same hfull))]
    dsimp only
    cases hcritical : ev.kind.isCritical with
    | true =>
        obtain ⟨s₁, hbell, h₁, hlanded₁, hsame₁⟩ := run_hostDrain (ε := ε) hch h dbg
        rw [if_pos rfl, Exec.run_bind_of_ok hbell, Agent.emit]
        have hpush₁ := run_tryPush_once hch h₁ dbg .A vnanos flags hev
        dsimp only [GuestRing.id] at hpush₁
        rcases hpush₁ with ⟨hroom₁, _⟩ | ⟨p, seq, new, hok, honce, hholds, hlanded, hsame⟩
        · exact absurd hroom₁ (room_of_nil h₁ (g := .A) rfl hev)
        · refine ⟨_, _, true, ?_, hholds, outcome_drained hlanded₁ hsame₁ honce hlanded hsame⟩
          rw [Exec.run_bind_of_ok (Exec.run_attempt_of_ok (Exec.run_focus hok))]
          rfl
    | false =>
        obtain ⟨hholds, _⟩ := ringPart_raised h .A ev
        refine ⟨_, c, false, ?_, hholds,
          outcome_raised h ⟨.A, vnanos, flags, ev⟩ hcritical hroom⟩
        rw [if_neg Bool.false_ne_true]
        have hbump := run_bumpDropCounters (ε := ε) (p := (ringPart ch .A).get s) (hfits hcritical)
        rw [Exec.run_bind_of_ok (Exec.run_focus hbump)]
        rfl
  · refine ⟨_, _, true, ?_, hholds, .landed new honce hlanded hsame⟩
    rw [Exec.run_bind_of_ok (Exec.run_attempt_of_ok (Exec.run_focus hok))]
    rfl

end Steps

/-! ### Tallies -/

/-- The events that were dropped on a ring. -/
def dropsOn (g : GuestRing) (ds : List (GuestRing × EventPayload)) : List EventPayload :=
  ds.filterMap fun d => if d.1 = g then some d.2 else none

/-- The kinds of events. -/
def eventKinds : List EventKind :=
  [.pad, .hello, .nameIntern, .assertViolation, .reachable, .beacon, .injectQuery, .regionRegister,
    .regionUpdate, .workloadStarted, .workloadExited, .logLine, .quiesceReady, .frameMark, .ready]

/-- The drops of ring W that were counted under a kind. -/
def droppedByKind (base : Nat) (m : ByteMem) (kind : EventKind) : UInt64 :=
  m.u64 (base + (offRingWDroppedByKind + kind.toU8.toNat * 8))

/-- The drops of ring W that were counted under some kind. -/
def droppedOfAllKinds (base : Nat) (m : ByteMem) : UInt64 :=
  (eventKinds.map (droppedByKind base m)).sum

/-- Since the counters were those of `m₀`, they have counted drops, their bytes and on ring W their
kinds. -/
structure Tallies (base : Nat) (m₀ m : ByteMem) (ds : List (GuestRing × EventPayload)) : Prop where
  recordsA : m.u64 (base + offRingADroppedRecords)
    = m₀.u64 (base + offRingADroppedRecords) + UInt64.ofNat (dropsOn .A ds).length
  bytesA : m.u64 (base + offRingADroppedBytes)
    = m₀.u64 (base + offRingADroppedBytes)
      + UInt64.ofNat ((dropsOn .A ds).map encodedEventLen).sum
  recordsW : m.u64 (base + offRingWDroppedRecords)
    = m₀.u64 (base + offRingWDroppedRecords) + UInt64.ofNat (dropsOn .W ds).length
  bytesW : m.u64 (base + offRingWDroppedBytes)
    = m₀.u64 (base + offRingWDroppedBytes)
      + UInt64.ofNat ((dropsOn .W ds).map encodedEventLen).sum
  byKind : ∀ kind, droppedByKind base m kind
    = droppedByKind base m₀ kind
      + UInt64.ofNat ((dropsOn .W ds).filter fun ev => ev.kind = kind).length
  allKinds : droppedOfAllKinds base m₀ = m₀.u64 (base + offRingWDroppedRecords) →
    droppedOfAllKinds base m = m.u64 (base + offRingWDroppedRecords)

section Tallies

variable {base : Nat} {m₀ m m' : ByteMem} {ds : List (GuestRing × EventPayload)}

theorem dropsOn_append (g : GuestRing) (ds ds' : List (GuestRing × EventPayload)) :
  dropsOn g (ds ++ ds') = dropsOn g ds ++ dropsOn g ds'
  := List.filterMap_append

theorem kind_le (kind : EventKind) : kind.toU8.toNat ≤ 14 := by cases kind <;> decide

theorem isCounter_byKind (kind : EventKind) :
  IsCounter (offRingWDroppedByKind + kind.toU8.toNat * 8)
  := by
  have := kind_le kind
  simp only [IsCounter, offRingWDroppedByKind]
  omega

theorem kind_ext {kind kind' : EventKind} (h : kind.toU8 = kind'.toU8) : kind = kind'
  := by cases kind <;> cases kind' <;> first | rfl | exact absurd h (by decide)

/-- What a drop of ring W adds below the counters of the kinds. -/
theorem gained_low (ev : EventPayload) {off : Nat} (hoff : off < offRingWDroppedByKind) :
  gained (increments .W ev) off
    = (if offRingWDroppedRecords = off then 1 else 0)
      + if offRingWDroppedBytes = off then UInt64.ofNat (encodedEventLen ev) else 0
  := by
  have hne : offRingWDroppedByKind + ev.kind.toU8.toNat * 8 ≠ off := by omega
  simp [increments, hne]

/-- What a drop of ring W adds to the counter of a kind. -/
theorem gained_byKind (ev : EventPayload) (kind : EventKind) :
  gained (increments .W ev) (offRingWDroppedByKind + kind.toU8.toNat * 8)
    = if ev.kind = kind then 1 else 0
  := by
  have hrecords : offRingWDroppedRecords ≠ offRingWDroppedByKind + kind.toU8.toNat * 8 := by
    simp only [offRingWDroppedRecords, offRingWDroppedByKind]
    omega
  have hbytes : offRingWDroppedBytes ≠ offRingWDroppedByKind + kind.toU8.toNat * 8 := by
    simp only [offRingWDroppedBytes, offRingWDroppedByKind]
    omega
  by_cases heq : ev.kind = kind
  · simp [increments, hrecords, hbytes, heq]
  · have hne : ev.kind.toU8.toNat ≠ kind.toU8.toNat := by
      intro h
      apply heq
      apply kind_ext
      exact UInt8.toNat_inj.mp h
    simp [increments, hrecords, hbytes, heq, hne]

/-- Sums of counters that were raised. -/
theorem sum_map_add_u64 (kinds : List EventKind) (f f' : EventKind → UInt64) :
  (kinds.map fun k => f k + f' k).sum = (kinds.map f).sum + (kinds.map f').sum
  := by
  induction kinds with
  | nil => rfl
  | cons k kinds ih =>
      simp only [List.map_cons, List.sum_cons, ih]
      ac_rfl

theorem tallies_refl (base : Nat) (m : ByteMem) : Tallies base m m []
  := by
  refine ⟨?_, ?_, ?_, ?_, ?_, fun h => h⟩ <;> simp [dropsOn]

/-- Tallies look at counters only. -/
theorem Tallies.congr (h : Tallies base m₀ m ds)
    (hsame : ∀ off, IsCounter off → m'.u64 (base + off) = m.u64 (base + off)) :
  Tallies base m₀ m' ds
  := by
  have hkinds : droppedByKind base m' = droppedByKind base m := by
    funext kind
    exact hsame _ (isCounter_byKind kind)
  constructor
  · rw [hsame _ (by decide), h.recordsA]
  · rw [hsame _ (by decide), h.bytesA]
  · rw [hsame _ (by decide), h.recordsW]
  · rw [hsame _ (by decide), h.bytesW]
  · rw [hkinds]
    exact h.byKind
  · intro hstart
    rw [droppedOfAllKinds, hkinds, hsame _ (by decide)]
    exact h.allKinds hstart

/-- A drop on ring A that is counted. -/
theorem Tallies.dropA (h : Tallies base m₀ m ds) (ev : EventPayload)
    (hcounted : ∀ off, IsCounter off →
      m'.u64 (base + off) = m.u64 (base + off) + gained (increments .A ev) off) :
  Tallies base m₀ m' (ds ++ [(.A, ev)])
  := by
  have hA : dropsOn .A (ds ++ [(.A, ev)]) = dropsOn .A ds ++ [ev] := dropsOn_append ..
  have hW : dropsOn .W (ds ++ [(.A, ev)]) = dropsOn .W ds := by
    rw [dropsOn_append]
    exact List.append_nil _
  have hother : ∀ off, IsCounter off → off ≠ offRingADroppedRecords → off ≠ offRingADroppedBytes →
      m'.u64 (base + off) = m.u64 (base + off) := by
    intro off hoff hrecords hbytes
    rw [hcounted off hoff]
    simp [increments, hrecords.symm, hbytes.symm]
  have hkinds : droppedByKind base m' = droppedByKind base m := by
    funext kind
    have := kind_le kind
    apply hother _ (isCounter_byKind kind) <;>
      simp only [offRingWDroppedByKind, offRingADroppedRecords, offRingADroppedBytes] <;> omega
  constructor
  · rw [hcounted _ (by decide), h.recordsA, hA, List.length_append, UInt64.ofNat_add,
      UInt64.add_assoc]
    rfl
  · rw [hcounted _ (by decide), h.bytesA, hA, List.map_append, List.sum_append, UInt64.ofNat_add,
      UInt64.add_assoc]
    simp [increments, offRingADroppedRecords, offRingADroppedBytes]
  · rw [hother _ (by decide) (by decide) (by decide), h.recordsW, hW]
  · rw [hother _ (by decide) (by decide) (by decide), h.bytesW, hW]
  · rw [hkinds, hW]
    exact h.byKind
  · intro hstart
    rw [droppedOfAllKinds, hkinds, hother _ (by decide) (by decide) (by decide)]
    exact h.allKinds hstart

/-- A drop on ring W that is counted. -/
theorem Tallies.dropW (h : Tallies base m₀ m ds) (ev : EventPayload)
    (hcounted : ∀ off, IsCounter off →
      m'.u64 (base + off) = m.u64 (base + off) + gained (increments .W ev) off) :
  Tallies base m₀ m' (ds ++ [(.W, ev)])
  := by
  have hA : dropsOn .A (ds ++ [(.W, ev)]) = dropsOn .A ds := by
    rw [dropsOn_append]
    exact List.append_nil _
  have hW : dropsOn .W (ds ++ [(.W, ev)]) = dropsOn .W ds ++ [ev] := dropsOn_append ..
  have hrecords : m'.u64 (base + offRingWDroppedRecords)
      = m.u64 (base + offRingWDroppedRecords) + 1 := by
    rw [hcounted _ (by decide), gained_low ev (by decide)]
    rfl
  have hkinds : ∀ kind, droppedByKind base m' kind
      = droppedByKind base m kind + if ev.kind = kind then 1 else 0 := by
    intro kind
    rw [droppedByKind, hcounted _ (isCounter_byKind kind), gained_byKind, droppedByKind]
  constructor
  · rw [hcounted _ (by decide), h.recordsA, hA, gained_low ev (by decide)]
    exact UInt64.add_zero _
  · rw [hcounted _ (by decide), h.bytesA, hA, gained_low ev (by decide)]
    exact UInt64.add_zero _
  · rw [hrecords, h.recordsW, hW, List.length_append, UInt64.ofNat_add, UInt64.add_assoc]
    rfl
  · rw [hcounted _ (by decide), h.bytesW, hW, List.map_append, List.sum_append, UInt64.ofNat_add,
      UInt64.add_assoc, gained_low ev (by decide)]
    simp [offRingWDroppedRecords, offRingWDroppedBytes]
  · intro kind
    rw [hkinds, h.byKind, hW, List.filter_append, List.length_append, UInt64.ofNat_add,
      UInt64.add_assoc]
    by_cases heq : ev.kind = kind
    · simp [heq]
    · simp [heq]
  · intro hstart
    have hone : (eventKinds.map fun k => if ev.kind = k then (1 : UInt64) else 0).sum = 1 := by
      cases ev.kind <;> rfl
    rw [droppedOfAllKinds, funext hkinds, sum_map_add_u64, hone, ← droppedOfAllKinds,
      h.allKinds hstart, hrecords]

end Tallies

/-! ### What the host reads -/

section Counters

variable {ch : Channel} {sink : List SinkOp}

/-- The drop counters in the header. -/
def countersAt (base : Nat) (m : ByteMem) : DropCounters :=
  { ringARecords := m.u64 (base + offRingADroppedRecords)
    ringABytes := m.u64 (base + offRingADroppedBytes)
    ringWRecords := m.u64 (base + offRingWDroppedRecords)
    ringWBytes := m.u64 (base + offRingWDroppedBytes)
    ringWByKind := (List.range' 0 droppedByKindSlots).map fun i =>
      m.u64 (base + (offRingWDroppedByKind + i * 8)) }

/-- A counter is read as it stands in the header. -/
theorem run_readCounter (hmapped : Mapped ch.gm ch.base) (io : List Access) {off : Nat}
    (hoff : off + 8 ≤ 0x100) :
  (gmReadU64 (ch.base.gpa + off)).run ⟨ch, sink, io⟩
    = (⟨ch, sink, io ++ [.read (ch.base.gpa + off) 8]⟩, .ok (ch.gm.bytes.u64 (ch.base.gpa + off)))
  := by
  apply run_gmReadU64
  apply (hmapped _ _ (Nat.le_add_right _ _) _).1
  rw [channelSize]
  omega

theorem run_droppedByKind (hmapped : Mapped ch.gm ch.base) (io : List Access) {i n : Nat}
    (hend : i + n ≤ droppedByKindSlots) :
  ∃ io', (Host.droppedByKind ch.base i n).run ⟨ch, sink, io⟩ = (⟨ch, sink, io'⟩,
    .ok ((List.range' i n).map fun k =>
      ch.gm.bytes.u64 (ch.base.gpa + (offRingWDroppedByKind + k * 8))))
  := by
  induction n generalizing i io with
  | zero => exact ⟨io, rfl⟩
  | succ n ih =>
      have hoff : offRingWDroppedByKind + i * 8 + 8 ≤ 0x100 := by
        simp only [offRingWDroppedByKind, droppedByKindSlots] at hend ⊢
        omega
      obtain ⟨io', hrest⟩ := ih (io ++ [.read (ch.base.gpa + (offRingWDroppedByKind + i * 8)) 8])
        (by omega : i + 1 + n ≤ droppedByKindSlots)
      rw [Host.droppedByKind, Exec.run_bind_of_ok (run_readCounter hmapped io hoff),
        Exec.run_bind_of_ok hrest]
      exact ⟨io', rfl⟩

/-- The host reads the counters as they stand in the header. -/
theorem run_dropCounters {h : HostState} (hmapped : Mapped h.ch.gm h.ch.base) :
  (dropCounters.run h).2 = .ok (countersAt h.ch.base.gpa h.ch.gm.bytes)
  := by
  obtain ⟨ch, sink, io⟩ := h
  have hcounter := @run_readCounter ch sink hmapped
  rw [dropCounters, Exec.run_bind_of_ok (Exec.run_get _),
    Exec.run_bind_of_ok (hcounter io (by decide)), Exec.run_bind_of_ok (hcounter _ (by decide)),
    Exec.run_bind_of_ok (hcounter _ (by decide)), Exec.run_bind_of_ok (hcounter _ (by decide)),
    Exec.run_bind_of_ok (run_droppedByKind (i := 0) hmapped _ (by decide)).choose_spec]
  rfl

end Counters

/-! ### Whole runs -/

/-- The records that the operations of a run published on a ring. -/
def writtenOn (g : GuestRing) (tr : List (EmitOp × EmitAnswer)) : List Bytes :=
  tr.flatMap fun a => if a.1.handed.map Handed.ring = some g then a.2.written else []

/-- The bytes of the event that the agent hands to ring A. -/
def EmitOp.agentBytes : EmitOp → Nat
  | .agent _ _ ev => encodedEventLen ev
  | _ => 0

/-- In a debug build the counters of ring A have room for all events of the agent. -/
def Roomy (dbg : Bool) (base : Nat) (m : ByteMem) (ops : List EmitOp) : Prop :=
  dbg = true →
    (m.u64 (base + offRingADroppedRecords)).toNat + (ops.map EmitOp.agentBytes).sum < 2 ^ 64 ∧
    (m.u64 (base + offRingADroppedBytes)).toNat + (ops.map EmitOp.agentBytes).sum < 2 ^ 64

/-- What one operation does: it is accounted for, its records are behind the others on their ring,
and the tallies go on. -/
structure Settled (dbg : Bool) (ch : Channel) (s s' : EmitState) (a : EmitOp × EmitAnswer) :
    Prop where
  reckoned : Reckoned ch a
  landed : ∀ g, s'.landed g = s.landed g ++ writtenOn g [a]
  tallies : ∀ {m₀ ds}, Tallies ch.base.gpa m₀ s.events.mem ds →
    Tallies ch.base.gpa m₀ s'.events.mem (ds ++ drops [a])
  roomy : ∀ {ops}, Roomy dbg ch.base.gpa s.events.mem (a.1 :: ops) →
    Roomy dbg ch.base.gpa s'.events.mem ops

section Runs

variable {dbg : Bool} {ch : Channel} {s s' : EmitState} {c : Contents} {op : EmitOp} {hd : Handed}

theorem Once.ne_nil {recs : List Bytes} (h : Once hd recs) : recs ≠ []
  := by
  obtain ⟨seq, rfl | ⟨tail, rfl⟩⟩ := h <;> exact List.cons_ne_nil _ _

theorem Roomy.tail {base : Nat} {m m' : ByteMem} {ops : List EmitOp}
    (h : Roomy dbg base m (op :: ops))
    (hrecords : (m'.u64 (base + offRingADroppedRecords)).toNat
      ≤ (m.u64 (base + offRingADroppedRecords)).toNat + op.agentBytes)
    (hbytes : (m'.u64 (base + offRingADroppedBytes)).toNat
      ≤ (m.u64 (base + offRingADroppedBytes)).toNat + op.agentBytes) :
  Roomy dbg base m' ops
  := by
  intro hdbg
  have hroomy := h hdbg
  rw [List.map_cons, List.sum_cons] at hroomy
  omega

/-- Where no counter moved, there is no less room. -/
theorem Roomy.congr {base : Nat} {m m' : ByteMem} {ops : List EmitOp}
    (h : Roomy dbg base m (op :: ops))
    (hsame : ∀ off, IsCounter off → m'.u64 (base + off) = m.u64 (base + off)) :
  Roomy dbg base m' ops
  := by
  apply h.tail
  · rw [hsame _ (by decide)]
    exact Nat.le_add_right _ _
  · rw [hsame _ (by decide)]
    exact Nat.le_add_right _ _

theorem toNat_add_le (a : UInt64) (n : Nat) : (a + UInt64.ofNat n).toNat ≤ a.toNat + n
  := by
  rw [UInt64.toNat_add, UInt64.toNat_ofNat']
  omega

/-- An event that was handed to a ring is settled. -/
theorem Outcome.settled (h : Outcome ch s s' hd) (hop : op.handed = some hd)
    (hbytes : hd.ring = .A → op.agentBytes = encodedEventLen hd.ev)
    (hlen : 1 ≤ encodedEventLen hd.ev) :
  Settled dbg ch s s' (op,
    { before := s.events.mem
      written := (s'.landed hd.ring).drop (s.landed hd.ring).length
      returned := true })
  := by
  cases h with
  | landed new honce hlanded hsame =>
      have hwritten : (s'.landed hd.ring).drop (s.landed hd.ring).length = new := by
        rw [hlanded, Function.update_self, List.drop_left]
      have hcounters : ∀ off, IsCounter off →
          s'.events.mem.u64 (ch.base.gpa + off) = s.events.mem.u64 (ch.base.gpa + off) :=
        fun off hoff => hsame.u64 hoff.2
      have hdrops : drops [(op, { before := s.events.mem, written := new, returned := true })]
          = [] := by
        simp [drops, dropOf, hop, honce.ne_nil]
      rw [hwritten]
      refine ⟨⟨rfl, ?_⟩, ?_, ?_, fun hroomy => hroomy.congr hcounters⟩
      · intro hd' hop'
        rw [hop, Option.some.injEq] at hop'
        subst hop'
        exact Or.inl honce
      · intro g
        by_cases hg : hd.ring = g
        · subst hg
          simp [hlanded, writtenOn, hop]
        · simp [hlanded, writtenOn, hop, hg, Function.update_of_ne (Ne.symm hg)]
      · intro m₀ ds htallies
        rw [hdrops, List.append_nil]
        exact htallies.congr hcounters
  | dropped hlanded hkind hroom hcounted =>
      have hwritten : (s'.landed hd.ring).drop (s.landed hd.ring).length = [] := by
        rw [hlanded, List.drop_length]
      have hdrops : drops [(op, { before := s.events.mem, written := [], returned := true })]
          = [(hd.ring, hd.ev)] := by
        simp [drops, dropOf, hop]
      rw [hwritten]
      refine ⟨⟨rfl, ?_⟩, ?_, ?_, ?_⟩
      · intro hd' hop'
        rw [hop, Option.some.injEq] at hop'
        subst hop'
        exact Or.inr ⟨rfl, hkind, hroom⟩
      · intro g
        simp [hlanded, writtenOn]
      · intro m₀ ds htallies
        rw [hdrops]
        cases hring : hd.ring with
        | A =>
            rw [hring] at hcounted
            exact htallies.dropA hd.ev hcounted
        | W =>
            rw [hring] at hcounted
            exact htallies.dropW hd.ev hcounted
      · intro ops hroomy
        cases hring : hd.ring with
        | A =>
            rw [hring] at hcounted
            have hsum := hbytes hring
            apply hroomy.tail
            · rw [hcounted _ (by decide)]
              have hle := toNat_add_le (s.events.mem.u64 (ch.base.gpa + offRingADroppedRecords)) 1
              exact hle.trans (Nat.add_le_add_left (hsum ▸ hlen) _)
            · rw [hcounted _ (by decide), hsum]
              have hgained : gained (increments .A hd.ev) offRingADroppedBytes
                  = UInt64.ofNat (encodedEventLen hd.ev) := by
                simp [increments, offRingADroppedRecords, offRingADroppedBytes]
              rw [hgained]
              exact toNat_add_le _ _
        | W =>
            rw [hring] at hcounted
            apply hroomy.tail
            · rw [hcounted _ (by decide), gained_low _ (by decide)]
              exact (toNat_add_le _ 0).trans (Nat.add_le_add_left (Nat.zero_le _) _)
            · rw [hcounted _ (by decide), gained_low _ (by decide)]
              exact (toNat_add_le _ 0).trans (Nat.add_le_add_left (Nat.zero_le _) _)

/-- One operation. -/
theorem emitStep_settled (hch : Canonical ch) (h : Holds ch s.events c) (rounds : Nat)
    (hop : op.Proper) {ops : List EmitOp} (hroomy : Roomy dbg ch.base.gpa s.events.mem (op :: ops)) :
  ∃ c', Holds ch (emitStep dbg ch rounds s op).1.events c' ∧
    Settled dbg ch s (emitStep dbg ch rounds s op).1 (op, (emitStep dbg ch rounds s op).2)
  := by
  cases op with
  | sdk vnanos e =>
      obtain ⟨hev, hcls⟩ := hop
      obtain ⟨s', c', hrun, hholds, houtcome⟩ := run_sdkEmit hch h dbg rounds vnanos hev hcls
      rw [emitStep, hrun]
      refine ⟨c', hholds, ?_⟩
      have hlen := (encodedEventLen_bounds hev).1
      have hsettled : Settled dbg ch s s' (.sdk vnanos e, _) :=
        houtcome.settled rfl (by simp) (Nat.le_trans (by decide) hlen)
      simpa using hsettled
  | agent vnanos flags ev =>
      have hlen := (encodedEventLen_bounds hop).1
      have hfits : ev.kind.isCritical = false → Countable dbg ch s.events.mem ev := by
        intro _ hdbg
        have hroomy := hroomy hdbg
        rw [List.map_cons, List.sum_cons, EmitOp.agentBytes] at hroomy
        have hpos : 1 ≤ encodedEventLen ev := Nat.le_trans (by decide) hlen
        omega
      obtain ⟨s', c', landed, hrun, hholds, houtcome⟩ :=
        run_agentEmit_outcome (ε := Empty) hch h rounds vnanos flags hop hfits
      rw [emitStep, hrun]
      refine ⟨c', hholds, ?_⟩
      exact houtcome.settled rfl (fun _ => rfl)
        (Nat.le_trans (by decide) hlen)
  | drain =>
      obtain ⟨s', hrun, hholds, hlanded, hsame⟩ := run_hostDrain (ε := Empty) hch h dbg
      have hcounters : ∀ off, IsCounter off →
          s'.events.mem.u64 (ch.base.gpa + off) = s.events.mem.u64 (ch.base.gpa + off) :=
        fun off hoff => hsame.u64 hoff.2
      rw [emitStep, hrun]
      refine ⟨c.drained, hholds, ⟨rfl, by simp [EmitOp.handed]⟩, ?_, ?_,
        fun hroomy => hroomy.congr hcounters⟩
      · intro g
        simp [hlanded, writtenOn]
      · intro m₀ ds htallies
        have hdrops : drops [(EmitOp.drain, ⟨s.events.mem, [], true⟩)] = [] := rfl
        rw [hdrops, List.append_nil]
        exact htallies.congr hcounters

/-- A run that starts with tallies. -/
theorem run_settled (hch : Canonical ch) (rounds : Nat) (ops : List EmitOp)
    (hops : ∀ op ∈ ops, op.Proper) {s : EmitState} {c : Contents} (h : Holds ch s.events c)
    (hroomy : Roomy dbg ch.base.gpa s.events.mem ops) :
  let r := Machine.run (emitStep dbg ch rounds) s ops
  (∀ a ∈ r.2, Reckoned ch a) ∧ (∀ g, r.1.landed g = s.landed g ++ writtenOn g r.2) ∧
    (∀ {m₀ ds}, Tallies ch.base.gpa m₀ s.events.mem ds →
      Tallies ch.base.gpa m₀ r.1.events.mem (ds ++ drops r.2)) ∧
    ∃ c', Holds ch r.1.events c'
  := by
  induction ops generalizing s c with
  | nil =>
      refine ⟨by simp [Machine.run], by simp [Machine.run, writtenOn], ?_, c, h⟩
      intro m₀ ds htallies
      simpa [Machine.run, drops] using htallies
  | cons op ops ih =>
      obtain ⟨c', hholds, hsettled⟩ :=
        emitStep_settled hch h rounds (hops op List.mem_cons_self) hroomy
      obtain ⟨haccounted, hlanded, htallies, hend⟩ :=
        ih (fun op hop => hops op (List.mem_cons_of_mem _ hop)) hholds (hsettled.roomy hroomy)
      refine ⟨?_, ?_, ?_, hend⟩
      · intro a ha
        rw [Machine.run, List.mem_cons] at ha
        rcases ha with rfl | ha
        · exact hsettled.reckoned
        · exact haccounted a ha
      · intro g
        rw [Machine.run, hlanded, hsettled.landed, List.append_assoc]
        simp [writtenOn]
      · intro m₀ ds hds
        have hnext := htallies (hsettled.tallies hds)
        rw [List.append_assoc, drops, drops, ← List.filterMap_append] at hnext
        exact hnext

/-- **What is dropped is counted.**  In a run of emissions of the SDK and of the agent, with drains
in between, every event is published once on its ring, or it is of no critical kind, found no room
and is dropped; rings A and W carry what was published, in order, and the counters of the header, which
are what the host reads, tell how many events were dropped on each ring, their bytes and, on ring W,
how many of each kind. -/
theorem drops_accounted (hch : Canonical ch) (rounds : Nat) {ops : List EmitOp}
    (hops : ∀ op ∈ ops, op.Proper) (h : Holds ch s.events c)
    (hroomy : Roomy dbg ch.base.gpa s.events.mem ops) :
  let r := Machine.run (emitStep dbg ch rounds) s ops
  (∀ a ∈ r.2, Reckoned ch a) ∧ (∀ g, r.1.landed g = s.landed g ++ writtenOn g r.2) ∧
    Tallies ch.base.gpa s.events.mem r.1.events.mem (drops r.2) ∧
    (dropCounters.run r.1.events.host).2 = .ok (countersAt ch.base.gpa r.1.events.mem)
  := by
  obtain ⟨haccounted, hlanded, htallies, c', hend⟩ := run_settled hch rounds ops hops h hroomy
  refine ⟨haccounted, hlanded, htallies (tallies_refl _ _), ?_⟩
  rw [run_dropCounters hend.mapped, hend.base]
  rfl

/-- The pads that fill ring A. -/
def fillingPads : List Bytes := List.replicate 16 (padBytes maxRecordLen 0)

/-- A channel with nothing in its rings but the pads that fill ring A. -/
def fullState : EmitState :=
  { events := EventState.setMem ⟨⟨canonicalChannel, [], []⟩, fun _ => 0⟩
      ((ringOf canonicalChannel .A).publish canonicalMem.bytes fillingPads)
    landed := fun _ => [] }

theorem whole_fillingPads (n k : Nat) (h : k + n ≤ 16) :
  Circular.Whole 0x10000 (k * maxRecordLen) (List.replicate n (padBytes maxRecordLen 0))
  := by
  induction n generalizing k with
  | zero => trivial
  | succ n ih =>
      have hlen : (padBytes maxRecordLen 0).length = maxRecordLen := length_padBytes 0 (by decide)
      rw [List.replicate_succ, Circular.Whole, hlen, ← Nat.succ_mul]
      refine ⟨?_, ih (k + 1) (by omega)⟩
      rw [maxRecordLen, Nat.mod_eq_of_lt (by omega)]
      omega

theorem holds_fullState :
  Holds canonicalChannel fullState.events (Contents.empty.push .A fillingPads)
  := by
  have hch := canonical_canonicalChannel
  have hempty : Holds canonicalChannel ⟨⟨canonicalChannel, [], []⟩, fun _ => 0⟩ .empty :=
    holds_empty (fun _ => 0) mapped_canonical canonicalChannel_empty canonicalChannel_aligned
  have hwhole : Circular.Whole (ringOf canonicalChannel .A).size.toNat
      (canonicalMem.bytes.u32 (ringOf canonicalChannel .A).prod).toNat fillingPads :=
    whole_fillingPads 16 0 (Nat.le_refl _)
  have hspan : Circular.span fillingPads = 0x10000 := by decide +kernel
  have hpad : ∀ rec ∈ fillingPads, rec = padBytes maxRecordLen 0 :=
    fun rec hrec => List.eq_of_mem_replicate hrec
  have hframe : ∀ {ring}, ring ≠ .A → ∀ i, (ringOf canonicalChannel ring).Owns i →
      fullState.events.mem i = canonicalMem.bytes i :=
    fun hne i hi => publish_of_not_owns hwhole (hch.apart hne i hi)
  apply Holds.step hempty
  · rfl
  · rfl
  · exact fun _ _ _ _ => ⟨rfl, rfl⟩
  · intro g
    cases g with
    | A =>
        refine .inl ⟨?_, fun rec hrec => ?_⟩
        · apply (hempty.events .A).publish hwhole
          · rw [hspan]
            exact Nat.le_refl _
          · intro rec hrec
            rw [hpad rec hrec]
            exact wellFramed_padBytes 0 (by decide) (by decide) (by decide)
        · rw [hpad rec hrec]
          exact (eventOf_padBytes .A 0 (by decide) (by decide) (by decide)).1
    | W => exact .inr ⟨rfl, hframe (by decide)⟩
  · exact .inr ⟨rfl, hframe (by decide)⟩
  · exact .inr ⟨rfl, hframe (by decide)⟩

/-- An event for ring A, and one for ring W. -/
def fullOps : List EmitOp :=
  [.agent 1 0 (.logLine 1 1 [104, 105]), .sdk 2 ⟨0, .beacon 5, .droppable⟩, .drain]

theorem drops_fullOps :
  drops (Machine.run (emitStep true canonicalChannel 0) fullState fullOps).2
    = [(.A, .logLine 1 1 [104, 105])]
  := by
  decide +kernel

theorem roomy_fullOps :
  Roomy true canonicalChannel.base.gpa fullState.events.mem fullOps
  := by
  intro _
  decide +kernel

/-- Ring A is full, and its event is dropped and counted. -/
theorem drops_accounted_full :
  let r := Machine.run (emitStep true canonicalChannel 0) fullState fullOps
  drops r.2 = [(.A, .logLine 1 1 [104, 105])] ∧ (∀ a ∈ r.2, Reckoned canonicalChannel a) ∧
    (∀ g, r.1.landed g = fullState.landed g ++ writtenOn g r.2) ∧
    Tallies canonicalChannel.base.gpa fullState.events.mem r.1.events.mem (drops r.2) ∧
    (dropCounters.run r.1.events.host).2
      = .ok (countersAt canonicalChannel.base.gpa r.1.events.mem)
  := by
  have hops : ∀ op ∈ fullOps, op.Proper := by
    simp [fullOps, EmitOp.Proper, EventPayload.Encodable, Classed, EventPayload.kind,
      EventKind.isCritical]
  exact ⟨drops_fullOps,
    drops_accounted canonical_canonicalChannel 0 hops holds_fullState roomy_fullOps⟩

end Runs

end Protocol
