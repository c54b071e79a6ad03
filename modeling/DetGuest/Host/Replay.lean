import DetGuest.Host.Faults
import DetGuest.Host.Inject

/-!
# Replaying recorded mutations

Every mutation of channel memory is reported to the sink.  A recorded trace is applied to a
channel operation by operation: where a span was written is reconstructed from the new
producer index and the number of bytes.
-/

namespace Host

open Wire

/-- Write a recorded span: in one piece if it ends in front of the end of the ring, else its
tail and the rest from the start of the ring on. -/
def replaySpan (data : Nat) (off : UInt32) (tail : Nat) (bytes : Bytes) :
    Exec HostState MemError Unit :=
  if bytes.length ≤ tail then
    gmWrite (data + off.toNat) bytes
  else do
    gmWrite (data + off.toNat) (bytes.take tail)
    gmWrite data (bytes.drop tail)

/-- Apply one recorded mutation, and report it again. -/
def applySinkOp (op : SinkOp) : Exec HostState MemError Unit :=
  match op with
  | .ringPush ring bytes newProd => do
      let h ← Exec.get
      let size := (h.ch.ringDesc ring).size
      let mask := size - 1
      let data := h.ch.dataGpa ring
      let oldProd := newProd - UInt32.ofNat bytes.length
      let off := oldProd &&& mask
      let tail := (size - off).toNat
      replaySpan data off tail bytes
      gmWriteU32 (h.ch.prodGpa ring) newProd
      report (.ringPush ring bytes newProd)
  | .consBump ring newCons => do
      let h ← Exec.get
      gmWriteU32 (h.ch.consGpa ring) newCons
      report (.consBump ring newCons)
  | .pioAnswer port value => report (.pioAnswer port value)

/-- Apply a whole recorded trace, in order. -/
def applyTrace : List SinkOp → Exec HostState MemError Unit
  | [] => pure ()
  | op :: ops => do
      applySinkOp op
      applyTrace ops

/-! ### What a recorded mutation writes -/

/-- The writes of a recorded span. -/
def spanWrites (data : Nat) (off : UInt32) (tail : Nat) (bytes : Bytes) : List (Nat × Bytes) :=
  if bytes.length ≤ tail then
    [(data + off.toNat, bytes)]
  else
    [(data + off.toNat, bytes.take tail), (data, bytes.drop tail)]

/-- The writes of a recorded mutation. -/
def SinkOp.writes (ch : Channel) (op : SinkOp) : List (Nat × Bytes) :=
  match op with
  | .ringPush ring bytes newProd =>
      let size := (ch.ringDesc ring).size
      let oldProd := newProd - UInt32.ofNat bytes.length
      spanWrites (ch.dataGpa ring) (oldProd &&& (size - 1)) (contiguousTail oldProd size).toNat bytes
        ++ [(ch.prodGpa ring, Bytes.ofU32 newProd)]
  | .consBump ring newCons => [(ch.consGpa ring, Bytes.ofU32 newCons)]
  | .pioAnswer _ _ => []

/-- Memory after a recorded mutation. -/
def SinkOp.effect (ch : Channel) (m : ByteMem) (op : SinkOp) : ByteMem :=
  (op.writes ch).foldl (fun m w => m.write w.1 w.2) m

theorem performs_replaySpan (data : Nat) (off : UInt32) (tail : Nat) (bytes : Bytes) :
  Performs (replaySpan data off tail bytes) (spanWrites data off tail bytes)
  := by
  rw [replaySpan, spanWrites]
  by_cases hle : bytes.length ≤ tail
  · rw [if_pos hle, if_pos hle]
    apply performs_gmWrite
  · rw [if_neg hle, if_neg hle]
    apply Performs.cons
    apply performs_gmWrite

/-- Writes behind others. -/
theorem Performs.append {x y : Exec HostState MemError Unit} {ws vs : List (Nat × Bytes)}
    (hx : Performs x ws) (hy : Performs y vs) :
  Performs (do x; y) (ws ++ vs)
  := by
  intro h
  rw [writeAll_append]
  have hrun := hx h
  cases hres : (writeAll h.ch.gm ws).res with
  | ok u =>
      rw [hres] at hrun
      rw [Exec.run_bind_of_ok hrun, hy]
      simp [HostState.after]
  | err e =>
      rw [hres] at hrun
      rw [Exec.run_bind_of_err hrun]
      simp [hres]
  | panic => exact absurd hres (writeAll_res _ _)

/-- Applying a mutation performs its writes and reports it, unless a write is refused. -/
theorem run_applySinkOp {op : SinkOp} {h : HostState}
    (hok : ∀ w ∈ op.writes h.ch, h.ch.gm.writeErr w.1 w.2.length = none) :
  (applySinkOp op).run h
    = ({ ch := h.ch.withMem (op.effect h.ch h.ch.gm.bytes)
         sink := h.sink ++ [op]
         io := h.io ++ (op.writes h.ch).map fun w => .write w.1 w.2 }, .ok ())
  := by
  have hall := writeAll_of_ok hok
  rw [SinkOp.effect]
  cases op with
  | ringPush ring bytes newProd =>
      have hperform := (performs_replaySpan (h.ch.dataGpa ring)
        (newProd - UInt32.ofNat bytes.length &&& ((h.ch.ringDesc ring).size - 1))
        (contiguousTail (newProd - UInt32.ofNat bytes.length) (h.ch.ringDesc ring).size).toNat
        bytes).append (performs_gmWrite (h.ch.prodGpa ring) (Bytes.ofU32 newProd)) h
      rw [SinkOp.writes] at hall ⊢
      rw [hall] at hperform
      rw [applySinkOp, Exec.run_bind_of_ok (Exec.run_get _)]
      exact Exec.run_bind_bind_of_ok hperform
  | consBump ring newCons =>
      have hperform := performs_gmWrite (h.ch.consGpa ring) (Bytes.ofU32 newCons) h
      rw [SinkOp.writes] at hall ⊢
      rw [hall] at hperform
      rw [applySinkOp, Exec.run_bind_of_ok (Exec.run_get _)]
      exact Exec.run_bind_of_ok hperform
  | pioAnswer port value => simp [applySinkOp, report, SinkOp.writes, Channel.withMem]

/-! ### What a call reports is what it writes -/

/-- Writes inside the channel page are not refused. -/
def Writable (gm : GuestMem) (base : PageBase) : Prop :=
  ∀ gpa len, base.gpa ≤ gpa → gpa + len ≤ base.gpa + channelSize → gm.writeErr gpa len = none

/-- A recorded span is not longer than its ring. -/
def SinkOp.Fits (ch : Channel) : SinkOp → Prop
  | .ringPush ring bytes _ => bytes.length ≤ (ch.ringDesc ring).size.toNat
  | _ => True

/-- A call changed memory exactly as the operations say that it reported. -/
structure Recorded (ch ch' : Channel) (ops : List SinkOp) : Prop where
  header : ch'.header = ch.header
  base : ch'.base = ch.base
  gm : ch'.gm = { ch.gm with bytes := ops.foldl (SinkOp.effect ch) ch.gm.bytes }
  fits : ∀ op ∈ ops, op.Fits ch

section Effects

variable {ch ch' : Channel}

/-- The writes of an operation depend on the place of the channel only. -/
theorem SinkOp.writes_congr (hheader : ch'.header = ch.header) (hbase : ch'.base = ch.base)
    (op : SinkOp) :
  op.writes ch' = op.writes ch
  := by
  cases op with
  | ringPush ring bytes newProd =>
      simp only [SinkOp.writes, Channel.dataGpa, Channel.ringDesc, Channel.prodGpa, hheader, hbase]
  | consBump ring newCons => simp only [SinkOp.writes, Channel.consGpa, hbase]
  | pioAnswer port value => rfl

theorem SinkOp.effect_congr (hheader : ch'.header = ch.header) (hbase : ch'.base = ch.base) :
  SinkOp.effect ch' = SinkOp.effect ch
  := by
  funext m op
  rw [SinkOp.effect, op.writes_congr hheader hbase, SinkOp.effect]

theorem SinkOp.fits_congr (hheader : ch'.header = ch.header) (op : SinkOp) :
  op.Fits ch' ↔ op.Fits ch
  := by
  cases op with
  | ringPush ring bytes newProd => rw [SinkOp.Fits, Channel.ringDesc, hheader]; rfl
  | _ => exact Iff.rfl

theorem Recorded.refl (ch : Channel) :
  Recorded ch ch []
  := ⟨rfl, rfl, rfl, by simp⟩

theorem Recorded.trans {ch'' : Channel} {ops ops' : List SinkOp} (h : Recorded ch ch' ops)
    (h' : Recorded ch' ch'' ops') :
  Recorded ch ch'' (ops ++ ops')
  := by
  refine ⟨h'.header.trans h.header, h'.base.trans h.base, ?_, ?_⟩
  · rw [h'.gm, SinkOp.effect_congr h.header h.base, h.gm, List.foldl_append]
  · intro op hop
    rcases List.mem_append.mp hop with hop | hop
    · apply h.fits op hop
    · rw [← SinkOp.fits_congr h.header]
      apply h'.fits op hop

/-- A drain reports the consumer index it stores. -/
theorem drainOutcome_recorded (dbg : Bool) (ring : RingId) (ch : Channel) :
  Recorded ch (drainOutcome dbg ring ch).ch (drainOutcome dbg ring ch).ops
  := by
  have hbeside := drainOutcome_beside dbg ring ch
  have hplace := foldRecs_place (ch.drained dbg ring) ch
  obtain ⟨_, hch, hops⟩ := drainOutcome_parts dbg ring ch
  refine ⟨hbeside.header, hbeside.base, ?_, ?_⟩
  · rw [hch, hops]
    cases ch.drainEnd dbg ring with
    | ok u =>
        simp only [Channel.storeCons, hplace.gm, hplace.consGpa]
        by_cases hrecs : ch.drained dbg ring = []
        · rw [if_pos hrecs, drainPos_eq_iff.mpr hrecs, ByteMem.write_u32_self]
          rfl
        · rw [if_neg hrecs]
          rfl
    | err e => exact hplace.gm
    | panic => exact hplace.gm
  · intro op hop
    rw [hops] at hop
    split at hop
    · split at hop
      · cases hop
      · rw [List.mem_singleton] at hop
        subst hop
        trivial
    · cases hop

end Effects

/-- The writes of a push are those of the span it reports. -/
theorem spanWrites_pushRecs {size prod : UInt32} {total tail : Nat} {bytes : UInt32 → Bytes}
    (data : Nat) (seq : UInt32) (hpow : Word.isPowerOfTwo size)
    (hbytes : ∀ s, (bytes s).length = total) (htail : tail = (contiguousTail prod size).toNat)
    (hpad : tail < total → padMinLen ≤ tail) {new : List Bytes}
    (hnew : new = pushRecs tail total seq (seq + 1) bytes) :
  spanWrites data (prod &&& (size - 1)) tail new.flatten = placed data (size - 1) prod new
  := by
  subst hnew
  rw [spanWrites, pushRecs]
  by_cases hle : total ≤ tail
  · simp [hle, hbytes, placed]
  · have hlen := length_padBytes seq (hpad (by omega))
    have hzero : prod + UInt32.ofNat tail &&& (size - 1) = 0 := tail_and_mask hpow htail
    have hlong : ¬ [padBytes tail seq, bytes (seq + 1)].flatten.length ≤ tail := by
      simp [hlen, hbytes]
      omega
    rw [if_neg hle, if_neg hlong]
    simp only [placed, hlen, hzero, List.flatten_cons, List.flatten_nil, List.append_nil]
    rw [List.take_left' hlen, List.drop_left' hlen]
    simp

section Places

variable {ch : Channel}

theorem Writable.prod (h : Writable ch.gm ch.base) (ring : RingId) :
  ch.gm.writeErr (ch.prodGpa ring) 4 = none
  := by
  have hcell := cell_bounds ring
  simp only [offManifest] at hcell
  apply h
  · apply Nat.le_add_right
  · simp only [Channel.prodGpa, channelSize]
    omega

theorem Writable.cons (h : Writable ch.gm ch.base) (ring : RingId) :
  ch.gm.writeErr (ch.consGpa ring) 4 = none
  := by
  have hcell := cell_bounds ring
  simp only [offManifest] at hcell
  apply h
  · apply Nat.le_add_right
  · simp only [Channel.consGpa, channelSize]
    omega

theorem Writable.data (h : Writable ch.gm ch.base) (hacc : Accepted ch.header) (ring : RingId)
    {gpa len : Nat} (hlo : ch.dataGpa ring ≤ gpa)
    (hhi : gpa + len ≤ ch.dataGpa ring + (ch.ringDesc ring).size.toNat) :
  ch.gm.writeErr gpa len = none
  := by
  have hend := (hacc.valid ring).end_le
  simp only [Channel.dataGpa, Channel.ringDesc] at hlo hhi
  apply h
  · omega
  · omega

/-- The writes of an operation that fits are not refused. -/
theorem SinkOp.writes_ok (h : Writable ch.gm ch.base) (hacc : Accepted ch.header) {op : SinkOp}
    (hfits : op.Fits ch) :
  ∀ w ∈ op.writes ch, ch.gm.writeErr w.1 w.2.length = none
  := by
  intro w hw
  cases op with
  | ringPush ring bytes newProd =>
      have hpow : Word.isPowerOfTwo (ch.ringDesc ring).size := (hacc.valid ring).size_pow
      rw [SinkOp.Fits] at hfits
      simp only [SinkOp.writes, spanWrites] at hw
      generalize newProd - UInt32.ofNat bytes.length = prod at hw
      have hoff := Word.toNat_and_mask hpow prod
      have htail := toNat_contiguousTail hpow prod
      have hmod := Nat.mod_lt prod.toNat (Word.toNat_pos hpow)
      rcases List.mem_append.mp hw with hw | hw
      · split at hw
        · rw [List.mem_singleton] at hw
          subst hw
          apply h.data hacc ring
          · apply Nat.le_add_right
          · dsimp only
            omega
        · rw [List.mem_cons, List.mem_singleton] at hw
          rcases hw with rfl | rfl
          · apply h.data hacc ring
            · apply Nat.le_add_right
            · rw [List.length_take]
              dsimp only
              omega
          · apply h.data hacc ring
            · apply Nat.le_refl
            · rw [List.length_drop]
              omega
      · rw [List.mem_singleton] at hw
        subst hw
        rw [Bytes.length_ofU32]
        apply h.prod
  | consBump ring newCons =>
      rw [SinkOp.writes, List.mem_singleton] at hw
      subst hw
      rw [Bytes.length_ofU32]
      apply h.cons
  | pioAnswer port value => cases hw

/-- The records of a push that has room take no more than the ring. -/
theorem span_pushRecs_le {prod cons size : UInt32} {total : Nat} {bytes : UInt32 → Bytes}
    (seq : UInt32) (hpow : Word.isPowerOfTwo size) (hmax : total ≤ maxRecordLen)
    (hbytes : ∀ s, (bytes s).length = total)
    (hroom : ¬ free prod cons size < bytesNeeded prod size (UInt32.ofNat total))
    (hpad : (contiguousTail prod size).toNat < total →
      padMinLen ≤ (contiguousTail prod size).toNat) :
  (pushRecs (contiguousTail prod size).toNat total seq (seq + 1) bytes).flatten.length
    ≤ size.toNat
  := by
  rw [UInt32.lt_iff_toNat_lt, toNat_bytesNeeded hpow prod hmax, free,
    Word.toNat_saturatingSub] at hroom
  rw [pushRecs]
  split
  · next hle =>
    rw [if_pos hle] at hroom
    simp only [List.flatten_cons, List.flatten_nil, List.append_nil, hbytes]
    omega
  · next hle =>
    rw [if_neg hle] at hroom
    have hlen := length_padBytes seq (hpad (by omega))
    simp only [List.flatten_cons, List.flatten_nil, List.append_nil, List.length_append, hlen,
      hbytes]
    omega

/-- A push reports the span it writes. -/
theorem pushOutcome_recorded (dbg : Bool) (ring : RingId) {total : Nat} {bytes : UInt32 → Bytes}
    (seq : UInt32) (hwrite : Writable ch.gm ch.base) (hacc : Accepted ch.header)
    (hmax : total ≤ maxRecordLen) (hbytes : ∀ s, (bytes s).length = total) :
  Recorded ch (pushOutcome dbg ring total bytes seq ch).ch
    (pushOutcome dbg ring total bytes seq ch).ops
  := by
  have hpow : Word.isPowerOfTwo (ch.ringDesc ring).size := (hacc.valid ring).size_pow
  rw [pushOutcome]
  split
  · apply Recorded.refl
  split
  · apply Recorded.refl
  dsimp only
  generalize ch.gm.bytes.u32 (ch.prodGpa ring) = prod
  generalize ch.gm.bytes.u32 (ch.consGpa ring) = cons
  split
  · apply Recorded.refl
  next hroom =>
  split
  · apply Recorded.refl
  next hfits =>
  have hpad : (contiguousTail prod (ch.ringDesc ring).size).toNat < total →
      padMinLen ≤ (contiguousTail prod (ch.ringDesc ring).size).toNat := by
    intro hlt
    by_contra hmin
    exact hfits ⟨hlt, fun hpad => hmin hpad.1⟩
  have hwhole := whole_pushRecs_of_room seq hpow hmax hbytes hroom hpad
  have hlen := span_pushRecs_le seq hpow hmax hbytes hroom hpad
  have hspan := spanWrites_pushRecs (ch.dataGpa ring) seq hpow hbytes rfl hpad rfl
  generalize pushRecs (contiguousTail prod (ch.ringDesc ring).size).toNat total seq (seq + 1)
    bytes = new at *
  have hback : prod + UInt32.ofNat (Circular.span new) - UInt32.ofNat new.flatten.length = prod := by
    rw [List.length_flatten, Circular.span]
    exact UInt32.add_sub_cancel _ _
  have hok : ∀ w ∈ placed (ch.dataGpa ring) ((ch.ringDesc ring).size - 1) prod new
      ++ [(ch.prodGpa ring, Bytes.ofU32 (prod + UInt32.ofNat (Circular.span new)))],
      ch.gm.writeErr w.1 w.2.length = none := by
    intro w hw
    rcases List.mem_append.mp hw with hw | hw
    · obtain ⟨hlo, hhi⟩ := placed_inside hpow hwhole w hw
      apply hwrite.data hacc ring hlo hhi
    · rw [List.mem_singleton] at hw
      subst hw
      rw [Bytes.length_ofU32]
      apply hwrite.prod
  simp only [storeOutcome, writeAll_of_ok hok]
  refine ⟨rfl, rfl, ?_, ?_⟩
  · rw [List.foldl_cons, List.foldl_nil, SinkOp.effect, SinkOp.writes, hback, hspan]
  · intro op hop
    rw [List.mem_singleton] at hop
    subst hop
    exact hlen

/-- Storing the next sequence number changes no memory. -/
theorem keepSeq_recorded {o : Outcome PushError (Nat × UInt32)}
    {store : Channel → UInt32 → Channel} (h : Recorded ch o.ch o.ops)
    (hstore : ∀ ch seq, (store ch seq).header = ch.header ∧ (store ch seq).base = ch.base ∧
      (store ch seq).gm = ch.gm) :
  Recorded ch (o.keepSeq store).ch (o.keepSeq store).ops
  := by
  rw [Outcome.keepSeq]
  rcases o.res with ⟨n, seq⟩ | e | _
  · obtain ⟨hheader, hbase, hgm⟩ := hstore o.ch seq
    exact ⟨hheader.trans h.header, hbase.trans h.base, hgm.trans h.gm, h.fits⟩
  · exact h
  · exact h

/-- An answer changes no memory. -/
theorem answered_recorded {ε : Type} (ch : Channel) (iseq : UInt32) (res : Res ε UInt32) :
  Recorded ch (ch.answered iseq) (answerOps res)
  := by
  have hplace : (ch.answered iseq).header = ch.header ∧ (ch.answered iseq).base = ch.base ∧
      (ch.answered iseq).gm = ch.gm := by
    rw [Channel.answered]
    split <;> exact ⟨rfl, rfl, rfl⟩
  obtain ⟨hheader, hbase, hgm⟩ := hplace
  cases res with
  | ok value => exact ⟨hheader, hbase, hgm, by simp [answerOps, SinkOp.Fits]⟩
  | err e => exact ⟨hheader, hbase, hgm, by simp [answerOps]⟩
  | panic => exact ⟨hheader, hbase, hgm, by simp [answerOps]⟩

/-- Applying operations that fit performs their writes and reports them. -/
theorem run_applyTrace {ops : List SinkOp} {h : HostState} (hfits : ∀ op ∈ ops, op.Fits h.ch)
    (hwrite : Writable h.ch.gm h.ch.base) (hacc : Accepted h.ch.header) :
  ∃ io, (applyTrace ops).run h
    = ({ ch := h.ch.withMem (ops.foldl (SinkOp.effect h.ch) h.ch.gm.bytes)
         sink := h.sink ++ ops
         io }, .ok ())
  := by
  induction ops generalizing h with
  | nil =>
      refine ⟨h.io, ?_⟩
      simp [applyTrace, Channel.withMem]
  | cons op ops ih =>
      have hop := run_applySinkOp (SinkOp.writes_ok hwrite hacc (hfits op (by simp)))
      have heffect : SinkOp.effect (h.ch.withMem (op.effect h.ch h.ch.gm.bytes))
          = SinkOp.effect h.ch := SinkOp.effect_congr rfl rfl
      rw [applyTrace, Exec.run_bind_of_ok hop]
      obtain ⟨io, hrest⟩ := ih (h := ⟨h.ch.withMem (op.effect h.ch h.ch.gm.bytes),
        h.sink ++ [op], _⟩) (fun op hop => hfits op (by simp [hop])) hwrite hacc
      dsimp only at hrest
      rw [heffect] at hrest
      refine ⟨io, hrest.trans ?_⟩
      simp [Channel.withMem]

end Places

end Host
