import DetGuest.Agent.Supervise

/-!
# Emitting events on ring A

The agent rings the doorbell and tries again as long as ring A is full for an event of a critical
kind; an event of another kind is counted in the header of the channel and dropped.
-/

namespace Agent

open Wire

variable {σ ε : Type}

/-- Add to a counter in the header, which overflows at its end. -/
def addU64 (dbg : Bool) (a : Nat) (v : Nat) : Exec Producer ε Unit := do
  let p ← Exec.get
  Exec.debugAssert dbg ((p.mem.u64 a).toNat + v < 2 ^ 64)
  Exec.set { p with mem := p.mem.write a (Bytes.ofU64 (p.mem.u64 a + UInt64.ofNat v)) }

/-- Count a dropped event of ring A in the header at address `base`. -/
def bumpDropCounters (dbg : Bool) (base bytes : Nat) : Exec Producer ε Unit := do
  addU64 dbg (base + offRingADroppedRecords) 1
  addU64 dbg (base + offRingADroppedBytes) bytes

/-- Emit an event on ring A; returns whether it landed.  `fuel` bounds the rounds of the loop: a
loop that used all of it has not returned, and stands as a panic. -/
def emit (dbg : Bool) (part : Exec.Part σ Producer) (r : RingMap) (base : Nat) (vnanos : UInt64)
    (flags : UInt8) (ev : EventPayload) (doorbell : Exec σ ε Unit) : Nat → Exec σ ε Bool
  | 0 => Exec.panic
  | fuel + 1 => do
      let len := encodedEventLen ev
      match ← Exec.attempt (Exec.focus part
          (Producer.tryPush dbg r len fun seq => encodeEvent dbg seq vnanos flags ev)) with
      | .ok _ => pure true
      | .error .ringFull =>
          if ev.kind.isCritical then do
            doorbell
            emit dbg part r base vnanos flags ev doorbell fuel
          else do
            Exec.focus part (bumpDropCounters dbg base len)
            pure false

/-- Emit an event on ring A and ring the doorbell behind it. -/
def emitWithDoorbell (dbg : Bool) (part : Exec.Part σ Producer) (r : RingMap) (base : Nat)
    (vnanos : UInt64) (flags : UInt8) (ev : EventPayload) (doorbell : Exec σ ε Unit) (fuel : Nat) :
    Exec σ ε Bool := do
  let landed ← emit dbg part r base vnanos flags ev doorbell fuel
  doorbell
  pure landed

/-- Whether the event of an emission is of a critical kind. -/
def Emission.isCritical (e : Emission) : Bool := e.ev.kind.isCritical

/-- Hand an event to ring A; returns whether it landed. -/
def emitOne (dbg : Bool) (part : Exec.Part σ Producer) (r : RingMap) (base : Nat)
    (doorbell : Exec σ ε Unit) (fuel : Nat) (e : Emission) : Exec σ ε Bool :=
  if e.doorbell then emitWithDoorbell dbg part r base e.vnanos e.flags e.ev doorbell fuel
  else emit dbg part r base e.vnanos e.flags e.ev doorbell fuel

/-- Hand events to ring A one after the other; returns those that landed. -/
def emitAll (dbg : Bool) (part : Exec.Part σ Producer) (r : RingMap) (base : Nat)
    (doorbell : Exec σ ε Unit) (fuel : Nat) : List Emission → Exec σ ε (List Emission)
  | [] => pure []
  | e :: es => do
      let landed ← emitOne dbg part r base doorbell fuel e
      let rest ← emitAll dbg part r base doorbell fuel es
      pure (if landed then e :: rest else rest)

/-! ### What lands -/

section Lands

variable {dbg : Bool} {part : Exec.Part σ Producer} {r : RingMap} {base fuel : Nat}
  {vnanos : UInt64} {flags : UInt8} {ev : EventPayload} {doorbell : Exec σ ε Unit} {s s' : σ}
  {landed : Bool} {es es' : List Emission}

/-- An emission that returns has published its event, or the event is of no critical kind and
there was no room for it. -/
theorem emit_returned
    (h : (emit dbg part r base vnanos flags ev doorbell fuel).run s = (s', .ok landed)) :
  (landed = true ∧ ∃ t q seq, s' = part.set t q ∧ (Producer.tryPush dbg r (encodedEventLen ev)
      fun seq => encodeEvent dbg seq vnanos flags ev).run (part.get t) = (q, .ok seq)) ∨
    (landed = false ∧ ev.kind.isCritical = false ∧
      ((Producer.tryPush dbg r (encodedEventLen ev)
        fun seq => encodeEvent dbg seq vnanos flags ev).run (part.get s)).2 = .err .ringFull)
  := by
  induction fuel generalizing s with
  | zero => cases h
  | succ fuel ih =>
      rw [emit] at h
      rcases hpush : (Producer.tryPush dbg r (encodedEventLen ev)
        fun seq => encodeEvent dbg seq vnanos flags ev).run (part.get s) with ⟨q, res⟩
      cases res with
      | ok seq =>
          rw [Exec.run_bind_of_ok (Exec.run_attempt_of_ok (Exec.run_focus hpush))] at h
          obtain ⟨hs, hlanded⟩ := Prod.mk.inj h
          exact Or.inl ⟨(Res.ok.inj hlanded).symm, s, q, seq, hs.symm, hpush⟩
      | err e =>
          cases e
          rw [Exec.run_bind_of_ok (Exec.run_attempt_of_err (Exec.run_focus hpush))] at h
          dsimp only at h
          cases hcritical : ev.kind.isCritical with
          | true =>
              rw [if_pos hcritical] at h
              obtain ⟨t, _, _, hrest⟩ := Exec.run_bind_eq_ok.mp h
              rcases ih hrest with hland | ⟨_, hnot, _⟩
              · exact Or.inl hland
              · rw [hcritical] at hnot
                cases hnot
          | false =>
              rw [if_neg (by rw [hcritical]; decide)] at h
              obtain ⟨t, _, _, hpure⟩ := Exec.run_bind_eq_ok.mp h
              obtain ⟨_, hlanded⟩ := Prod.mk.inj hpure
              exact Or.inr ⟨(Res.ok.inj hlanded).symm, rfl, rfl⟩
      | panic =>
          have hpanic : (Exec.attempt (Exec.focus part (Producer.tryPush dbg r (encodedEventLen ev)
              fun seq => encodeEvent dbg seq vnanos flags ev)) : Exec σ ε _).run s
              = (part.set s q, .panic) := by
            simp only [Exec.attempt, Exec.run_focus hpush]
          rw [Exec.run_bind_of_panic hpanic] at h
          cases h

/-- An event of a critical kind that was handed to ring A has landed. -/
theorem emit_critical
    (h : (emit dbg part r base vnanos flags ev doorbell fuel).run s = (s', .ok landed))
    (hcritical : ev.kind.isCritical = true) :
  landed = true
  := by
  rcases emit_returned h with ⟨hlanded, _⟩ | ⟨_, hnot, _⟩
  · exact hlanded
  · rw [hcritical] at hnot
    cases hnot

/-- An event of a critical kind that was handed to ring A, with or without a doorbell behind it, has
landed. -/
theorem emitOne_critical {e : Emission}
    (h : (emitOne dbg part r base doorbell fuel e).run s = (s', .ok landed))
    (hcritical : e.isCritical = true) :
  landed = true
  := by
  rw [emitOne] at h
  split at h
  · rw [emitWithDoorbell] at h
    obtain ⟨_, a, hemit, hbell⟩ := Exec.run_bind_eq_ok.mp h
    obtain ⟨_, _, _, hend⟩ := Exec.run_bind_eq_ok.mp hbell
    obtain ⟨_, ha⟩ := Prod.mk.inj hend
    rw [← Res.ok.inj ha]
    exact emit_critical hemit hcritical
  · exact emit_critical h hcritical

/-- Events are handed to ring A one after the other, with anything in between; those that land. -/
inductive Handed (dbg : Bool) (part : Exec.Part σ Producer) (r : RingMap) (base : Nat)
    (doorbell : Exec σ ε Unit) (fuel : Nat) : List Emission → List Emission → Prop
  | nil : Handed dbg part r base doorbell fuel [] []
  | landed {s s' : σ} {e : Emission} {es es' : List Emission}
      (h : (emitOne dbg part r base doorbell fuel e).run s = (s', .ok true))
      (rest : Handed dbg part r base doorbell fuel es es') :
      Handed dbg part r base doorbell fuel (e :: es) (e :: es')
  | dropped {s s' : σ} {e : Emission} {es es' : List Emission}
      (h : (emitOne dbg part r base doorbell fuel e).run s = (s', .ok false))
      (rest : Handed dbg part r base doorbell fuel es es') :
      Handed dbg part r base doorbell fuel (e :: es) es'

/-- Whatever happens in between, the events land in the order in which they were handed to ring A, and
only those of no critical kind may be missing. -/
theorem Handed.lands (h : Handed dbg part r base doorbell fuel es es') :
  es'.Sublist es ∧ es'.filter Emission.isCritical = es.filter Emission.isCritical
  := by
  induction h with
  | nil => exact ⟨.slnil, rfl⟩
  | @landed _ _ e _ _ _ _ ih =>
      refine ⟨ih.1.cons_cons e, ?_⟩
      rw [List.filter_cons, List.filter_cons, ih.2]
  | @dropped _ _ e _ _ hone _ ih =>
      have hnot : ¬ e.isCritical = true := by
        intro hcritical
        cases emitOne_critical hone hcritical
      rw [List.filter_cons_of_neg hnot]
      exact ⟨ih.1.cons e, ih.2⟩

/-- Nothing need happen in between. -/
theorem handed_of_emitAll
    (h : (emitAll dbg part r base doorbell fuel es).run s = (s', .ok es')) :
  Handed dbg part r base doorbell fuel es es'
  := by
  induction es generalizing s s' es' with
  | nil =>
      obtain ⟨_, hnil⟩ := Prod.mk.inj h
      rw [← Res.ok.inj hnil]
      exact .nil
  | cons e es ih =>
      rw [emitAll] at h
      obtain ⟨t, landed, hone, hrest⟩ := Exec.run_bind_eq_ok.mp h
      obtain ⟨t', rest, hall, hpure⟩ := Exec.run_bind_eq_ok.mp hrest
      obtain ⟨_, hes⟩ := Prod.mk.inj hpure
      rw [← Res.ok.inj hes]
      cases landed with
      | true => exact .landed hone (ih hall)
      | false => exact .dropped hone (ih hall)

/-- What lands of events that are handed to ring A at once. -/
theorem emitAll_lands (h : (emitAll dbg part r base doorbell fuel es).run s = (s', .ok es')) :
  es'.Sublist es ∧ es'.filter Emission.isCritical = es.filter Emission.isCritical
  := (handed_of_emitAll h).lands

end Lands

end Agent
