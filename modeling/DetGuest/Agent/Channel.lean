import DetGuest.Wire.Queue

/-!
# The agent's side of the channel

The agent polls the commands of ring C and relays workload-control records onto ring I,
where it continues the producer index of the host.
-/

namespace Agent

open Wire

/-! ### Polling commands -/

/-- The command of a record of ring C.  A `Pad` and a record of unknown kind are skipped. -/
def takeCommand (rec : Bytes) : Res DecodeError (Option Command) := do
  if (← rec.byte 2) = EventKind.pad.toU8 then
    pure none
  else
    match decodeCommand rec with
    | .ok (_, cmd) => .ok (some cmd)
    | .err (.unknownKind _) => .ok none
    | .err e => .err e
    | .panic => .panic

/-- Poll one command off ring C. -/
def pollCommand (dbg : Bool) (base : Nat) : Exec Consumer DecodeError (Option Command) :=
  Consumer.popUntil dbg (RingMap.canonical base .C) takeCommand

/-! ### Relaying workload-control records -/

/-- Fill the tail of ring I by a `Pad`; returns the position behind it.  The sequence
number is derived from the position. -/
def relayPad (dbg : Bool) (r : RingMap) (prod : UInt32) : Exec ByteMem RingFull UInt32 := do
  let tail := (contiguousTail prod r.size).toNat
  let (pad, res) := (encodePad dbg tail (prod >>> 3)).run (Bytes.zeros tail)
  let _ ← Exec.expect (Exec.lift res)
  Exec.modify fun m => m.write (r.data + (prod &&& (r.size - 1)).toNat) pad
  pure (prod + UInt32.ofNat tail)

/-- Relay a workload-control record onto ring I. -/
def relayWorkloadCtrl (dbg : Bool) (base : Nat) (vnanos : UInt64) (rec : WorkloadCtrl) :
    Exec ByteMem RingFull Unit := do
  let r := RingMap.canonical base .I
  let m ← Exec.get
  let prod := m.u32 r.prod
  let cons := m.u32 r.cons
  let total := recordLen 8
  let needed := bytesNeeded prod r.size (UInt32.ofNat total)
  Exec.failIf (free prod cons r.size < needed) .ringFull
  let pos ← if needed > UInt32.ofNat total then relayPad dbg r prod else pure prod
  let (buf, res) := (encodeWorkloadCtrl dbg (pos >>> 3) vnanos rec).run (Bytes.zeros 32)
  let n ← Exec.expect (Exec.lift res)
  Exec.modify fun m => m.write (r.data + (pos &&& (r.size - 1)).toNat) (buf.take n)
  Exec.modify fun m => m.write r.prod (Bytes.ofU32 (prod + needed))

/-! ### What the relay writes -/

section Relay

variable {base : Nat} {m : ByteMem}

/-- The records of a relay: the sequence numbers follow from the positions. -/
def relayRecs (r : RingMap) (prod : UInt32) (vnanos : UInt64) (rec : WorkloadCtrl) : List Bytes :=
  pushRecs (r.tail prod) (recordLen 8) (prod >>> 3)
    ((prod + UInt32.ofNat (r.tail prod)) >>> 3) (fun s => workloadCtrlBytes s vnanos rec)

theorem run_relayPad {dbg : Bool} {r : RingMap} {prod : UInt32} (hpos : prod.toNat % 8 = 0)
    (htail : r.tail prod < maxRecordLen) :
  (relayPad dbg r prod).run m
    = (m.write (r.data + prod.toNat % r.size.toNat) (padBytes (r.tail prod) (prod >>> 3)),
        .ok (prod + UInt32.ofNat (r.tail prod)))
  := by
  obtain ⟨htmod, htmin⟩ := r.tail_rules hpos
  have htail' : r.tail prod < 4096 := htail
  have hpad : (encodePad dbg (r.tail prod) (prod >>> 3)).run (Bytes.zeros (r.tail prod))
      = (padBytes (r.tail prod) (prod >>> 3), .ok (r.tail prod)) := by
    rw [run_encodePad (fun _ => htmod) htmin (by omega) (by simp)]
    simp
  rw [relayPad, r.toNat_contiguousTail]
  simp only [hpad]
  rw [Exec.run_bind_of_ok (Exec.run_expect_of_ok (Exec.run_lift _ _)),
    Exec.run_bind_of_ok (Exec.run_modify _ _), r.mask_toNat]
  rfl

/-- A relay without room changes nothing. -/
theorem run_relayWorkloadCtrl_full {dbg : Bool} {vnanos : UInt64} {rec : WorkloadCtrl}
    {r : RingMap} (hr : r = RingMap.canonical base .I)
    (hfull : free (m.u32 r.prod) (m.u32 r.cons) r.size
      < bytesNeeded (m.u32 r.prod) r.size (UInt32.ofNat (recordLen 8))) :
  (relayWorkloadCtrl dbg base vnanos rec).run m = (m, .err .ringFull)
  := by
  subst hr
  rw [relayWorkloadCtrl, Exec.run_bind_of_ok (Exec.run_get _),
    Exec.run_bind_of_err (Exec.run_failIf_of hfull _)]

/-- A relay with room publishes its records. -/
theorem run_relayWorkloadCtrl_ok {dbg : Bool} {vnanos : UInt64} {rec : WorkloadCtrl}
    {r : RingMap} (hr : r = RingMap.canonical base .I) (hpos : (m.u32 r.prod).toNat % 8 = 0)
    (hroom : ¬ free (m.u32 r.prod) (m.u32 r.cons) r.size
      < bytesNeeded (m.u32 r.prod) r.size (UInt32.ofNat (recordLen 8))) :
  (relayWorkloadCtrl dbg base vnanos rec).run m
    = (r.publish m (relayRecs r (m.u32 r.prod) vnanos rec), .ok ())
  := by
  have hmax : recordLen 8 ≤ maxRecordLen := by decide
  obtain ⟨htmod, htmin⟩ := r.tail_rules hpos
  have htmin' : 8 ≤ r.tail (m.u32 r.prod) := htmin
  have hlong := bytesNeeded_gt r.size_pow (m.u32 r.prod) hmax
  have hneeded := r.bytesNeeded_eq (m.u32 r.prod) hmax
  rw [r.toNat_contiguousTail] at hlong
  have hbuf : ∀ s : UInt32, (encodeWorkloadCtrl dbg s vnanos rec).run (Bytes.zeros 32)
      = (workloadCtrlBytes s vnanos rec ++ Bytes.zeros 8, .ok (recordLen 8)) := by
    intro s
    rw [run_encodeWorkloadCtrl (by decide)]
    rfl
  have htake : ∀ s : UInt32, (workloadCtrlBytes s vnanos rec ++ Bytes.zeros 8).take (recordLen 8)
      = workloadCtrlBytes s vnanos rec :=
    fun s => List.take_left' (length_workloadCtrlBytes s vnanos rec)
  rw [RingMap.publish, relayRecs]
  generalize hprod : m.u32 r.prod = prod at *
  rw [relayWorkloadCtrl, Exec.run_bind_of_ok (Exec.run_get _)]
  simp only [← hr, hprod]
  rw [Exec.run_bind_of_ok (Exec.run_failIf_of_not hroom _)]
  by_cases hle : recordLen 8 ≤ r.tail prod
  · rw [if_pos hle] at hneeded
    rw [if_neg (by rw [hlong]; omega), Exec.run_bind_of_ok (Exec.run_pure _ _), pushRecs,
      if_pos hle]
    simp only [hbuf]
    rw [Exec.run_bind_of_ok (Exec.run_expect_of_ok (Exec.run_lift _ _)),
      Exec.run_bind_of_ok (Exec.run_modify _ _), htake, r.mask_toNat, hneeded]
    simp [Circular.lay, length_workloadCtrlBytes]
  · have htail : r.tail prod < maxRecordLen := by omega
    have hmask : (prod + UInt32.ofNat (r.tail prod)).toNat % r.size.toNat
        = (prod.toNat + r.tail prod) % r.size.toNat := Word.toNat_add_mod r.size_pow _ _
    rw [if_neg hle] at hneeded
    rw [if_pos (by rw [hlong]; omega), Exec.run_bind_of_ok (run_relayPad hpos htail), pushRecs,
      if_neg hle]
    simp only [hbuf]
    rw [Exec.run_bind_of_ok (Exec.run_expect_of_ok (Exec.run_lift _ _)),
      Exec.run_bind_of_ok (Exec.run_modify _ _), htake, r.mask_toNat, hmask, hneeded]
    simp [Circular.lay, length_workloadCtrlBytes, length_padBytes _ htmin]

end Relay

/-! ### What a poll finds -/

theorem takeCommand_padBytes {tailLen : Nat} (seq : UInt32) :
  takeCommand (padBytes tailLen seq) = .ok none
  := rfl

theorem takeCommand_commandBytes (seq : UInt32) (cmd : Command) :
  takeCommand (commandBytes seq cmd) = .ok (some cmd)
  := by
  have hkind : ((commandBytes seq cmd).byte 2 : Res DecodeError UInt8) = .ok cmd.kind.toU8 := rfl
  have hne : cmd.kind.toU8 ≠ EventKind.pad.toU8 := by
    generalize cmd.kind = kind
    cases kind <;> decide
  rw [takeCommand, hkind, Res.ok_bind, if_neg hne, decodeCommand_commandBytes]

end Agent
