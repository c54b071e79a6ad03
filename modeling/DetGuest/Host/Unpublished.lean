import DetGuest.Host.Rings

/-!
# Pushes and the published bytes

A push writes a record, with a `Pad` in front of it when one is needed, behind the published bytes
and publishes it by its last write.  Each of the writes may be refused.  Then the bytes that were
written stay unpublished: the producer index, the next sequence number and the trace are as they
were before the call.
-/

namespace Host

open Wire

/-! ### Writes that may be refused -/

section Writes

variable {gm : GuestMem} {ws : List (Nat × Bytes)}

/-- An address beside all of the writes. -/
def BesideAll (ws : List (Nat × Bytes)) (i : Nat) : Prop :=
  ∀ w ∈ ws, i < w.1 ∨ w.1 + w.2.length ≤ i

theorem writeAll_beside {i : Nat} (h : BesideAll ws i) :
  (writeAll gm ws).gm.bytes i = gm.bytes i
  := by
  induction ws generalizing gm with
  | nil => rfl
  | cons w ws ih =>
      obtain ⟨a, bs⟩ := w
      have hw := h (a, bs) (by simp)
      rw [writeAll]
      cases gm.writeErr a bs.length with
      | some e => rfl
      | none =>
          dsimp only
          rw [ih fun w hw => h w (by simp [hw])]
          rcases hw with hlt | hle
          · apply ByteMem.write_apply_of_lt _ _ hlt
          · apply ByteMem.write_apply_of_le _ _ hle

/-- Writes that end well have all been made. -/
theorem writeAll_bytes_of_ok (h : (writeAll gm ws).res = .ok ()) :
  (writeAll gm ws).gm.bytes = ws.foldl (fun m w => m.write w.1 w.2) gm.bytes
  := by
  induction ws generalizing gm with
  | nil => rfl
  | cons w ws ih =>
      obtain ⟨a, bs⟩ := w
      rw [writeAll] at h ⊢
      cases herr : gm.writeErr a bs.length with
      | some e =>
          rw [herr] at h
          cases h
      | none =>
          rw [herr] at h
          apply ih h

/-- Writes of which one is refused do not get to their last one. -/
theorem writeAll_concat_of_err {w : Nat × Bytes} {e : MemError}
    (h : (writeAll gm (ws ++ [w])).res = .err e) :
  (writeAll gm (ws ++ [w])).gm = (writeAll gm ws).gm
  := by
  rw [writeAll_append] at h ⊢
  cases hres : (writeAll gm ws).res with
  | ok u =>
      rw [hres] at h
      dsimp only at h ⊢
      rw [writeAll] at h ⊢
      cases herr : (writeAll gm ws).gm.writeErr w.1 w.2.length with
      | some e' => rfl
      | none =>
          rw [herr] at h
          cases h
  | err e' => rfl
  | panic => rfl

/-- Records are placed one behind the other, each in one piece. -/
theorem mem_placed {size : UInt32} {data : Nat} {pos : UInt32} {new : List Bytes}
    (hpow : Word.isPowerOfTwo size) (hwhole : Circular.Whole size.toNat pos.toNat new)
    {w : Nat × Bytes} (hw : w ∈ placed data (size - 1) pos new) :
  ∃ j, w.1 = data + (pos.toNat + j) % size.toNat ∧
    (pos.toNat + j) % size.toNat + w.2.length ≤ size.toNat ∧
    j + w.2.length ≤ Circular.span new
  := by
  induction new generalizing pos with
  | nil => cases hw
  | cons r rs ih =>
      obtain ⟨hend, hrest⟩ := hwhole
      rw [Circular.span_cons]
      rw [placed] at hw
      rcases List.mem_cons.mp hw with rfl | hw
      · use 0
        rw [Word.toNat_and_mask hpow]
        exact ⟨rfl, hend, by dsimp only; omega⟩
      · have hmod := Word.toNat_add_mod hpow pos r.length
        obtain ⟨j, hj, hjend, hjspan⟩ := ih ((Circular.whole_mod_congr hmod).mpr hrest) hw
        have hpos : ((pos + UInt32.ofNat r.length).toNat + j) % size.toNat
            = (pos.toNat + (r.length + j)) % size.toNat := by
          rw [Nat.add_mod, hmod, ← Nat.add_mod, Nat.add_assoc]
        rw [hpos] at hj hjend
        exact ⟨r.length + j, hj, hjend, by omega⟩

end Writes

/-! ### The published bytes -/

/-- The addresses of the bytes between the indices of a ring. -/
def Published (r : RingMap) (m : ByteMem) (i : Nat) : Prop :=
  ∃ k < (used (m.u32 r.prod) (m.u32 r.cons)).toNat,
    i = r.data + ((m.u32 r.cons).toNat + k) % r.size.toNat

section Region

variable {r : RingMap} {ch : Channel} {ring : RingId} {total : Nat} {bytes : UInt32 → Bytes}
variable {seq : UInt32} {dbg : Bool} {new : List Bytes}

/-- A push with room writes beside the published bytes. -/
theorem placed_beside_published {m : ByteMem} (hwhole : Circular.Whole r.size.toNat
      (m.u32 r.prod).toNat new)
    (hroom : (used (m.u32 r.prod) (m.u32 r.cons)).toNat + Circular.span new ≤ r.size.toNat)
    {i : Nat} (hi : Published r m i) :
  BesideAll (placed r.data (r.size - 1) (m.u32 r.prod) new) i
  := by
  obtain ⟨k, hk, rfl⟩ := hi
  intro w hw
  obtain ⟨j, hj, hend, hspan⟩ := mem_placed r.size_pow hwhole hw
  have hprod : (m.u32 r.prod).toNat % r.size.toNat = ((m.u32 r.cons).toNat
      + (used (m.u32 r.prod) (m.u32 r.cons)).toNat) % r.size.toNat := by
    rw [← Word.toNat_add_mod r.size_pow, UInt32.ofNat_toNat, used, UInt32.add_comm,
      UInt32.sub_add_cancel]
  generalize (used (m.u32 r.prod) (m.u32 r.cons)).toNat = n at *
  have hpos : ((m.u32 r.prod).toNat + j) % r.size.toNat
      = ((m.u32 r.cons).toNat + n + j) % r.size.toNat := by
    rw [Nat.add_mod, hprod, ← Nat.add_mod]
  rw [hpos] at hj hend
  rcases Circular.mod_outside (i := (m.u32 r.cons).toNat + k) hend (by omega) (by omega)
    with hlt | hle
  · left
    omega
  · right
    omega

/-- What a push leaves behind: it does not panic, and the published bytes are as they were.  On an
error nothing is reported and the producer index has not moved; a push that succeeds reports the
`Pad` and the record as they stand in the ring now. -/
structure Kept (r : RingMap) (ring : RingId) (total : Nat) (bytes : UInt32 → Bytes) (seq : UInt32)
    (ch : Channel) (o : Outcome PushError (Nat × UInt32)) : Prop where
  returns : o.res ≠ .panic
  rest : o.ch = { ch with gm := o.ch.gm }
  published : ∀ i, Published r ch.gm.bytes i → o.ch.gm.bytes i = ch.gm.bytes i
  unpublished : ∀ e, o.res = .err e →
    o.ops = [] ∧ o.ch.gm.bytes.u32 r.prod = ch.gm.bytes.u32 r.prod
  reported : ∀ x, o.res = .ok x → ∃ new newProd,
    new = pushRecs (r.tail (ch.gm.bytes.u32 r.prod)) total seq (seq + 1) bytes ∧
    newProd = ch.gm.bytes.u32 r.prod + UInt32.ofNat (Circular.span new) ∧
    o.ops = [.ringPush ring new.flatten newProd] ∧
    Circular.Laid o.ch.gm.bytes r.data r.size.toNat (ch.gm.bytes.u32 r.prod).toNat new ∧
    o.ch.gm.bytes.u32 r.prod = newProd ∧ x = (total, seq + UInt32.ofNat new.length)

/-- A push that did not get to its writes. -/
theorem kept_of_same (io : List Access) (e : PushError) :
  Kept r ring total bytes seq ch { ch, ops := [], io, res := .err e }
  := by
  constructor
  · simp
  · rfl
  · intro i _
    rfl
  · intro e _
    exact ⟨rfl, rfl⟩
  · intro x hx
    cases hx

/-- The published bytes lie in the data area. -/
theorem published_inside {m : ByteMem} {i : Nat} (hi : Published r m i) :
  r.data ≤ i ∧ i < r.data + r.size.toNat
  := by
  obtain ⟨k, hk, rfl⟩ := hi
  have hlt := Nat.mod_lt ((m.u32 r.cons).toNat + k) r.size_pos
  omega

/-- The writes of a push with room. -/
theorem kept_storeOutcome (hat : RingAt r ch ring) (io : List Access)
    (hnew : new = pushRecs (r.tail (ch.gm.bytes.u32 r.prod)) total seq (seq + 1) bytes)
    (hwhole : Circular.Whole r.size.toNat (ch.gm.bytes.u32 r.prod).toNat new)
    (hroom : (used (ch.gm.bytes.u32 r.prod) (ch.gm.bytes.u32 r.cons)).toNat + Circular.span new
      ≤ r.size.toNat) :
  Kept r ring total bytes seq ch
    (storeOutcome ring total seq (ch.gm.bytes.u32 r.prod) new ch io)
  := by
  have hinside := @placed_inside _ r.data _ _ r.size_pow hwhole
  have hbeside := fun i => placed_beside_published hwhole hroom (i := i)
  have hcell := r.prod_sep
  simp only [storeOutcome, ← hat.data, ← hat.size, ← hat.prod]
  generalize hprod : ch.gm.bytes.u32 r.prod = prod at *
  generalize hws : placed r.data (r.size - 1) prod new = ws at *
  generalize hnewProd : prod + UInt32.ofNat (Circular.span new) = newProd at *
  have hlen := Bytes.length_ofU32 newProd
  constructor
  · have hres := writeAll_res ch.gm (ws ++ [(r.prod, Bytes.ofU32 newProd)])
    dsimp only
    generalize (writeAll ch.gm (ws ++ [(r.prod, Bytes.ofU32 newProd)])).res = res at *
    cases res with
    | ok u => simp
    | err e => simp
    | panic => exact absurd rfl hres
  · rfl
  · intro i hi
    have hin := published_inside hi
    apply writeAll_beside
    intro w hw
    rcases List.mem_append.mp hw with hw | hw
    · apply hbeside i hi w hw
    · rw [List.mem_singleton] at hw
      subst hw
      dsimp only
      omega
  · intro e he
    cases hres : (writeAll ch.gm (ws ++ [(r.prod, Bytes.ofU32 newProd)])).res with
    | ok u =>
        rw [hres] at he
        cases he
    | panic =>
        rw [hres] at he
        cases he
    | err e' =>
        dsimp only
        refine ⟨rfl, ?_⟩
        rw [writeAll_concat_of_err hres]
        apply ByteMem.u32_congr
        intro i hi
        apply writeAll_beside
        intro w hw
        obtain ⟨hlo, hhi⟩ := hinside w hw
        omega
  · intro x hx
    obtain ⟨u, hu, hok⟩ := Res.bind_eq_ok.mp hx
    have hres : (writeAll ch.gm (ws ++ [(r.prod, Bytes.ofU32 newProd)])).res = .ok () := by
      generalize (writeAll ch.gm (ws ++ [(r.prod, Bytes.ofU32 newProd)])).res = res at *
      cases res with
      | ok u => rfl
      | err e => cases hu
      | panic => cases hu
    have hmem : (writeAll ch.gm (ws ++ [(r.prod, Bytes.ofU32 newProd)])).gm.bytes
        = (Circular.lay ch.gm.bytes r.data r.size.toNat prod.toNat new).write r.prod
            (Bytes.ofU32 newProd) := by
      rw [writeAll_bytes_of_ok hres, List.foldl_append, ← hws, foldl_placed r.size_pow]
      rfl
    refine ⟨new, newProd, ?_, ?_, ?_, ?_, ?_, (Res.ok.inj hok).symm⟩
    · rw [hprod, hnew]
    · rw [hprod, hnewProd]
    · dsimp only
      rw [hres]
    · rw [hprod]
      dsimp only
      rw [hmem]
      apply Circular.laid_write_outside r.size_pos
      · rw [hlen]
        exact hcell
      · have hlay := @Circular.laid_lay ch.gm.bytes r.data r.size.toNat prod.toNat [] new (by simpa using hwhole) (by simp; omega) trivial
        simpa using hlay
    · dsimp only
      rw [hmem, ByteMem.u32_write_self]

variable (dbg seq) in
/-- A push onto a ring with an aligned producer index, wherever the consumer index stands and
whichever accesses are refused. -/
theorem kept_pushOutcome (hat : RingAt r ch ring)
    (hprod : (ch.gm.bytes.u32 r.prod).toNat % 8 = 0) (hpos : 0 < total)
    (hmax : total ≤ maxRecordLen) (hbytes : ∀ s, (bytes s).length = total) :
  Kept r ring total bytes seq ch (pushOutcome dbg ring total bytes seq ch)
  := by
  obtain ⟨htmod, htmin⟩ := r.tail_rules hprod
  have hfits : PadFits dbg (r.tail (ch.gm.bytes.u32 r.prod)) := ⟨htmin, fun _ => htmod⟩
  simp only [pushOutcome, ← hat.prod, ← hat.cons, ← hat.size, r.toNat_contiguousTail]
  split
  · apply kept_of_same
  split
  · apply kept_of_same
  split
  · apply kept_of_same
  next hroom =>
  rw [if_neg (fun h => h.2 hfits)]
  have htail := r.toNat_contiguousTail (ch.gm.bytes.u32 r.prod)
  have hmin : (contiguousTail (ch.gm.bytes.u32 r.prod) r.size).toNat < total →
      padMinLen ≤ (contiguousTail (ch.gm.bytes.u32 r.prod) r.size).toNat := by
    rw [htail]
    exact fun _ => htmin
  have hwhole := whole_pushRecs_of_room seq r.size_pow hmax hbytes hroom hmin
  rw [htail] at hwhole
  apply kept_storeOutcome hat _ rfl hwhole
  have hneeded := toNat_bytesNeeded r.size_pow (ch.gm.bytes.u32 r.prod) hmax
  have hspan : Circular.span (pushRecs (r.tail (ch.gm.bytes.u32 r.prod)) total seq (seq + 1) bytes)
      = (bytesNeeded (ch.gm.bytes.u32 r.prod) r.size (UInt32.ofNat total)).toNat := by
    rw [hneeded, htail, pushRecs]
    split <;> simp [Circular.span, hbytes, length_padBytes seq htmin]
  rw [hspan]
  rw [UInt32.lt_iff_toNat_lt, free, Word.toNat_saturatingSub, not_lt] at hroom
  have hgt : 0 < (bytesNeeded (ch.gm.bytes.u32 r.prod) r.size (UInt32.ofNat total)).toNat := by
    rw [hneeded]
    split <;> omega
  omega

end Region

/-! ### The two producers of the host -/

/-- The records a host pushes. -/
inductive HostPush where
  | command (cmd : Command)
  | workloadCtrl (rec : WorkloadCtrl)

/-- The ring of a push. -/
def HostPush.ring : HostPush → RingId
  | command _ => .C
  | workloadCtrl _ => .I

/-- The length of the record. -/
def HostPush.total : HostPush → Nat
  | command cmd => recordLen (commandPayloadLen cmd)
  | workloadCtrl _ => recordLen 8

/-- The record under a sequence number. -/
def HostPush.bytes : HostPush → UInt32 → Bytes
  | command cmd, seq => commandBytes seq cmd
  | workloadCtrl rec, seq => workloadCtrlBytes seq 0 rec

/-- The next sequence number of the producer. -/
def HostPush.nextSeq : HostPush → Channel → UInt32
  | command _, ch => ch.nextSeqC
  | workloadCtrl _, ch => ch.nextSeqI

/-- The call of a push. -/
def HostPush.call (dbg : Bool) : HostPush → Exec HostState PushError Unit
  | command cmd => pushCommand dbg cmd
  | workloadCtrl rec => pushWorkloadCtrl dbg rec

/-- Store the next sequence number of the producer. -/
def HostPush.keep : HostPush → Channel → UInt32 → Channel
  | command _, ch, seq => { ch with nextSeqC := seq }
  | workloadCtrl _, ch, seq => { ch with nextSeqI := seq }

/-- A push is its record's push, followed by storing the next sequence number. -/
theorem HostPush.run_call (dbg : Bool) (p : HostPush) (h : HostState)
    (hpow : Word.isPowerOfTwo (h.ch.ringDesc p.ring).size) {o : Outcome PushError Unit}
    (ho : o = (pushOutcome dbg p.ring p.total p.bytes (p.nextSeq h.ch) h.ch).keepSeq p.keep) :
  (p.call dbg).run h = ({ ch := o.ch, sink := h.sink ++ o.ops, io := h.io ++ o.io }, o.res)
  := by
  cases p with
  | command cmd => apply run_pushCommand dbg cmd h hpow ho
  | workloadCtrl rec => apply run_pushWorkloadCtrl dbg rec h hpow ho

theorem HostPush.total_le (p : HostPush) :
  0 < p.total ∧ p.total ≤ maxRecordLen
  := by
  cases p with
  | command cmd =>
      rw [HostPush.total, commandPayloadLen_eq]
      exact ⟨by simp only [recordLen, recordHeaderLen]; omega, cmd.recordLen_le⟩
  | workloadCtrl rec => exact ⟨Nat.zero_lt_succ _, by rw [HostPush.total]; decide⟩

theorem HostPush.length_bytes (p : HostPush) (seq : UInt32) :
  (p.bytes seq).length = p.total
  := by
  cases p with
  | command cmd => apply length_commandBytes
  | workloadCtrl rec => apply length_workloadCtrlBytes

/-- Whichever accesses are refused, a push returns and leaves the published bytes alone.  When it
fails, the sequence numbers, the producer index and the trace are as they were.  When it succeeds,
the trace has grown by the one report of the `Pad` and the record, which stand in the ring as they
were reported, and the sequence number has advanced by the number of the records. -/
theorem push_keeps_published (dbg : Bool) (p : HostPush) (h : HostState)
    (hacc : Accepted h.ch.header)
    (hge : maxRecordLen ≤ (h.ch.ringDesc p.ring).size.toNat)
    (hprod : (h.ch.gm.bytes.u32 (h.ch.prodGpa p.ring)).toNat % 8 = 0) :
  let r := h.ch.ringMap p.ring hacc hge
  let m := h.ch.gm.bytes
  let h' := ((p.call dbg).run h).1
  let m' := h'.ch.gm.bytes
  let res := ((p.call dbg).run h).2
  res ≠ .panic ∧
  (∀ i, Published r m i → m' i = m i) ∧
  (∀ e, res = .err e → h'.ch.nextSeqC = h.ch.nextSeqC ∧ h'.ch.nextSeqI = h.ch.nextSeqI ∧
    m'.u32 r.prod = m.u32 r.prod ∧ h'.sink = h.sink) ∧
  (res = .ok () → ∃ new newProd,
    new = pushRecs (r.tail (m.u32 r.prod)) p.total (p.nextSeq h.ch) (p.nextSeq h.ch + 1) p.bytes ∧
    newProd = m.u32 r.prod + UInt32.ofNat (Circular.span new) ∧
    h'.sink = h.sink ++ [.ringPush p.ring new.flatten newProd] ∧
    Circular.Laid m' r.data r.size.toNat (m.u32 r.prod).toNat new ∧
    m'.u32 r.prod = newProd ∧
    p.nextSeq h'.ch = p.nextSeq h.ch + UInt32.ofNat new.length)
  := by
  have hat := h.ch.ringMap_at p.ring hacc hge
  obtain ⟨hpos, hmax⟩ := p.total_le
  have hkept := kept_pushOutcome (p.nextSeq h.ch) dbg hat hprod hpos hmax
    p.length_bytes
  have hrun := p.run_call dbg h (hacc.valid p.ring).size_pow rfl
  generalize pushOutcome dbg p.ring p.total p.bytes (p.nextSeq h.ch) h.ch = o at *
  intro r m h' m' res
  obtain ⟨hreturns, hrest, hpublished, hfailed, hdone⟩ := hkept
  have hfst : h' = _ := congrArg Prod.fst hrun
  have hsnd : res = _ := congrArg Prod.snd hrun
  dsimp only [m']
  rcases hres : o.res with ⟨n, seq⟩ | e | _
  · obtain ⟨new, newProd, hnew, hnewProd, hops, hlaid, hcell, hseq⟩ := hdone _ hres
    obtain ⟨rfl, rfl⟩ := Prod.mk.inj hseq
    have hgm : ∀ seq, (p.keep o.ch seq).gm = o.ch.gm := by cases p <;> exact fun _ => rfl
    have hnext : ∀ seq, p.nextSeq (p.keep o.ch seq) = seq := by cases p <;> exact fun _ => rfl
    simp only [Outcome.keepSeq, hres] at hfst hsnd
    rw [hfst, hsnd, hgm]
    refine ⟨by simp, hpublished, by simp, fun _ => ?_⟩
    refine ⟨new, newProd, hnew, hnewProd, ?_, hlaid, hcell, hnext _⟩
    rw [hops]
  · obtain ⟨hops, hcell⟩ := hfailed e hres
    simp only [Outcome.keepSeq, hres] at hfst hsnd
    rw [hfst, hsnd]
    refine ⟨by simp, hpublished, fun _ _ => ⟨?_, ?_, hcell, by simp [hops]⟩, by simp⟩
    · rw [hrest]
    · rw [hrest]
  · exact absurd hres hreturns

/-- Memory with a command on ring C that ends eight bytes before the end of the ring. -/
def queuedMem : ByteMem :=
  ((canonicalMem.bytes.write 0xBFE0 (commandBytes 0 (.resume 5))).write
    RingId.C.consOffset (Bytes.ofU32 0x3FE0)).write RingId.C.prodOffset (Bytes.ofU32 0x3FF8)

/-- The host over that memory, which refuses the writes at an address. -/
def queuedHost (refused : Nat) : HostState :=
  { ch := { canonicalChannel with
      gm := {
        bytes := queuedMem
        readErr := fun _ _ => none
        writeErr := fun gpa len => if gpa = refused then some (.unmapped gpa len) else none } }
    sink := []
    io := [] }

/-- A push behind the command. -/
def nextPush (refused : Nat) : HostState × Res PushError Unit :=
  (HostPush.call true (.command (.resume 6))).run (queuedHost refused)

theorem aligned_queuedHost (refused : Nat) :
  ((queuedHost refused).ch.gm.bytes.u32 ((queuedHost refused).ch.prodGpa .C)).toNat % 8 = 0
  := by
  have hcell : queuedMem.u32 RingId.C.prodOffset = 0x3FF8 := by decide +kernel
  change (queuedMem.u32 (0 + RingId.C.prodOffset)).toNat % 8 = 0
  rw [Nat.zero_add, hcell]
  rfl

/-- A second command goes behind a `Pad`, or fails when the write of the index is refused; the first
one, which is published, stays. -/
theorem push_keeps_published_queued :
  (nextPush 0).2 = .ok () ∧ (nextPush 0x100).2 = .err (.mem (.unmapped 0x100 4)) ∧
    Published (canonicalRing .C) queuedMem 0xBFE0 ∧
    ∀ i, Published (canonicalRing .C) queuedMem i →
      (nextPush 0).1.ch.gm.bytes i = queuedMem i ∧ (nextPush 0x100).1.ch.gm.bytes i = queuedMem i
  := by
  have hge : maxRecordLen ≤ (canonicalChannel.ringDesc .C).size.toNat := by decide
  have hkeeps : ∀ refused i, Published (canonicalRing .C) queuedMem i →
      (nextPush refused).1.ch.gm.bytes i = queuedMem i := by
    intro refused i hi
    have hacc : Accepted (queuedHost refused).ch.header := accepted_canonical
    have hpublished : Published ((queuedHost refused).ch.ringMap .C hacc hge)
        (queuedHost refused).ch.gm.bytes i := hi
    rw [nextPush]
    exact (push_keeps_published true (.command (.resume 6)) (queuedHost refused) hacc hge
      (aligned_queuedHost refused)).2.1 i hpublished
  refine ⟨by decide +kernel, by decide +kernel, ⟨0, by decide +kernel, by decide +kernel⟩, ?_⟩
  intro i hi
  exact ⟨hkeeps 0 i hi, hkeeps 0x100 i hi⟩

end Host
