import DetGuest.Wire.Codec
import DetGuest.Wire.Ring

/-!
# A ring as a queue of records

The bytes between the two indices of a ring are a sequence of whole records.  A push
appends its record, with the `Pad` that may stand in front of it; a pop takes the first
record away.  The indices wrap at `2 ^ 32` and the records at the end of the data area.
-/

namespace Wire

/-- A byte string that is one record: its header follows the framing rules and states its
length. -/
def WellFramed (rec : Bytes) : Prop :=
  ∃ h, RecordHeader.readFrom rec = .ok h ∧ h.len.toNat = rec.length

/-- `Queue r m recs`: the ring holds exactly the records `recs`. -/
structure Queue (r : RingMap) (m : ByteMem) (recs : List Bytes) : Prop where
  span_le : Circular.span recs ≤ r.size.toNat
  prod_eq : m.u32 r.prod = m.u32 r.cons + UInt32.ofNat (Circular.span recs)
  laid : Circular.Laid m r.data r.size.toNat (m.u32 r.cons).toNat recs
  framed : ∀ rec ∈ recs, WellFramed rec
  aligned : (m.u32 r.cons).toNat % recordAlign = 0

/-! ### Framing -/

/-- The framing rules, read off the first bytes of a record. -/
theorem WellFramed.rules {rec : Bytes} (h : WellFramed rec) :
  rec.length % recordAlign = 0 ∧ padMinLen ≤ rec.length ∧ rec.length ≤ maxRecordLen
  := by
  obtain ⟨hdr, hr, hlen⟩ := h
  have h8 : 8 ≤ rec.length := by
    by_contra hlt
    rw [RecordHeader.readFrom, Res.failIf_of (by simp only [padMinLen]; omega)] at hr
    cases hr
  obtain ⟨len, kind, flags, seq, hb⟩ := exists_framed h8
  rw [hb] at hr
  obtain ⟨rfl, _, _, _, hmod, hmax, hmin, _⟩ := framing_of_readFrom _ _ _ _ _ hr
  rw [hlen] at hmod hmax
  refine ⟨hmod, h8, hmax⟩

theorem wellFramed_recordBytes {kind flags : UInt8} {seq : UInt32} {vnanos : UInt64}
    {payload : Bytes} (hmax : recordLen payload.length ≤ maxRecordLen) :
  WellFramed (recordBytes kind flags seq vnanos payload)
  := by
  refine ⟨_, readFrom_recordBytes hmax, ?_⟩
  rw [length_recordBytes]
  apply UInt16.toNat_ofNat_of_lt'
  have hmax' : recordLen payload.length ≤ 4096 := hmax
  simp only [UInt16.size]
  omega

theorem wellFramed_padBytes {tailLen : Nat} (seq : UInt32) (hmod : tailLen % recordAlign = 0)
    (hmin : padMinLen ≤ tailLen) (hmax : tailLen ≤ maxRecordLen) :
  WellFramed (padBytes tailLen seq)
  := by
  refine ⟨_, readFrom_padBytes seq hmod hmin hmax, ?_⟩
  rw [length_padBytes seq hmin]
  apply UInt16.toNat_ofNat_of_lt'
  have hmax' : tailLen ≤ 4096 := hmax
  simp only [UInt16.size]
  omega

theorem wellFramed_eventBytes {seq : UInt32} {vnanos : UInt64} {extraFlags : UInt8}
    {ev : EventPayload} (hev : ev.Encodable) :
  WellFramed (eventBytes seq vnanos extraFlags ev)
  := by
  by_cases hne : ev = .pad
  · subst hne
    apply wellFramed_padBytes seq (by decide) (by decide) (by decide)
  · rw [eventBytes_of_ne_pad hne]
    apply wellFramed_recordBytes
    rw [length_payload hne]
    apply Nat.le_trans (encodedEventLen_bounds hev).2
    decide

/-! ### What a push writes -/

/-- The contiguous bytes from a position to the end of a ring. -/
def RingMap.tail (r : RingMap) (pos : UInt32) : Nat :=
  r.size.toNat - pos.toNat % r.size.toNat

/-- The records a push of `n` bytes writes where `tail` bytes are left in front of the
end: the record with sequence number `s`, or a `Pad` with `s` and the record with `t`. -/
def pushRecs (tail n : Nat) (s t : UInt32) (bytes : UInt32 → Bytes) : List Bytes :=
  if n ≤ tail then [bytes s] else [padBytes tail s, bytes t]

section Places

variable {r : RingMap}

theorem RingMap.size_pos :
  0 < r.size.toNat
  := Word.toNat_pos r.size_pow

theorem RingMap.size_lt :
  r.size.toNat < 2 ^ 32
  := r.size.toNat_lt

theorem RingMap.size_mod :
  r.size.toNat % 8 = 0
  := by
  have hge : 4096 ≤ r.size.toNat := r.size_ge
  apply Nat.mod_eq_zero_of_dvd
  apply Word.eight_dvd r.size_pow
  omega

theorem RingMap.mask_toNat (pos : UInt32) :
  (pos &&& (r.size - 1)).toNat = pos.toNat % r.size.toNat
  := Word.toNat_and_mask r.size_pow pos

theorem RingMap.toNat_contiguousTail (pos : UInt32) :
  (contiguousTail pos r.size).toNat = r.tail pos
  := Wire.toNat_contiguousTail r.size_pow pos

/-- The tail in front of an aligned position is aligned and not empty. -/
theorem RingMap.tail_rules {pos : UInt32} (h : pos.toNat % 8 = 0) :
  r.tail pos % recordAlign = 0 ∧ padMinLen ≤ r.tail pos
  := by
  have hpos := r.size_pos
  have hmod := r.size_mod
  have hlt := Nat.mod_lt pos.toNat hpos
  have h8 : pos.toNat % r.size.toNat % 8 = 0 := by
    rw [Nat.mod_mod_of_dvd _ (Nat.dvd_of_mod_eq_zero hmod), h]
  simp only [RingMap.tail, recordAlign, padMinLen]
  omega

/-- Behind the tail a ring starts again at offset zero. -/
theorem RingMap.add_tail_mod (pos : UInt32) :
  (pos.toNat + r.tail pos) % r.size.toNat = 0
  := by
  rw [← r.toNat_contiguousTail, add_contiguousTail_mod r.size_pow]

theorem RingMap.toNat_bytesNeeded (pos : UInt32) {n : Nat} (hn : n ≤ maxRecordLen) :
  (bytesNeeded pos r.size (UInt32.ofNat n)).toNat
    = if n ≤ r.tail pos then n else r.tail pos + n
  := by
  rw [Wire.toNat_bytesNeeded r.size_pow pos hn, r.toNat_contiguousTail]

theorem RingMap.bytesNeeded_eq (pos : UInt32) {n : Nat} (hn : n ≤ maxRecordLen) :
  bytesNeeded pos r.size (UInt32.ofNat n)
    = UInt32.ofNat (if n ≤ r.tail pos then n else r.tail pos + n)
  := by
  rw [← r.toNat_bytesNeeded pos hn, UInt32.ofNat_toNat]

end Places

/-- The memory after records were written at the producer position and published. -/
def RingMap.publish (r : RingMap) (m : ByteMem) (new : List Bytes) : ByteMem :=
  (Circular.lay m r.data r.size.toNat (m.u32 r.prod).toNat new).write r.prod
    (Bytes.ofU32 (m.u32 r.prod + UInt32.ofNat (Circular.span new)))

section Publish

variable {r : RingMap} {m : ByteMem} {new : List Bytes}

/-- Publishing records touches the data area and the producer cell only. -/
theorem publish_outside (hwhole : Circular.Whole r.size.toNat (m.u32 r.prod).toNat new) {i : Nat}
    (hdata : i < r.data ∨ r.data + r.size.toNat ≤ i) (hprod : i < r.prod ∨ r.prod + 4 ≤ i) :
  r.publish m new i = m i
  := by
  have hlay := Circular.lay_outside (m := m) hwhole hdata
  rcases hprod with hprod | hprod
  · rw [RingMap.publish, ByteMem.write_apply_of_lt _ _ hprod, hlay]
  · rw [RingMap.publish, ByteMem.write_apply_of_le _ _ (by simpa using hprod), hlay]

theorem publish_of_not_owns (hwhole : Circular.Whole r.size.toNat (m.u32 r.prod).toNat new)
    {i : Nat} (hi : ¬ r.Owns i) :
  r.publish m new i = m i
  := by
  simp only [RingMap.Owns, not_or, not_and, Nat.not_lt] at hi
  apply publish_outside hwhole
  · omega
  · omega

theorem write_cons_of_not_owns {v : UInt32} {i : Nat} (hi : ¬ r.Owns i) :
  m.write r.cons (Bytes.ofU32 v) i = m i
  := by
  simp only [RingMap.Owns, not_or, not_and, Nat.not_lt] at hi
  by_cases hlt : i < r.cons
  · apply ByteMem.write_apply_of_lt _ _ hlt
  · apply ByteMem.write_apply_of_le
    rw [Bytes.length_ofU32]
    omega

@[simp]
theorem publish_prod :
  (r.publish m new).u32 r.prod = m.u32 r.prod + UInt32.ofNat (Circular.span new)
  := by
  rw [RingMap.publish, ByteMem.u32_write_self]

theorem publish_cons (hwhole : Circular.Whole r.size.toNat (m.u32 r.prod).toNat new) :
  (r.publish m new).u32 r.cons = m.u32 r.cons
  := by
  have hdata := r.cons_sep
  have hcell := r.cell_sep
  apply ByteMem.u32_congr
  intro i hi
  apply publish_outside hwhole
  · omega
  · omega

end Publish

/-! ### Queue operations -/

section Operations

variable {r : RingMap} {m : ByteMem} {recs : List Bytes}

/-- The producer position, as a residue of the unbounded position of the last byte. -/
theorem Queue.prod_mod (hq : Queue r m recs) :
  (m.u32 r.prod).toNat % r.size.toNat
    = ((m.u32 r.cons).toNat + Circular.span recs) % r.size.toNat
  := by
  rw [hq.prod_eq, Word.toNat_add_mod r.size_pow]

theorem Queue.span_mod (hq : Queue r m recs) :
  Circular.span recs % 8 = 0
  := by
  have hframed := hq.framed
  clear hq
  induction recs with
  | nil => rfl
  | cons x xs ih =>
      have hx : x.length % 8 = 0 := (hframed x (by simp)).rules.1
      have hxs := ih (fun y hy => hframed y (by simp [hy]))
      rw [Circular.span_cons]
      omega

/-- Both indices are aligned. -/
theorem Queue.prod_aligned (hq : Queue r m recs) :
  (m.u32 r.prod).toNat % 8 = 0
  := by
  have hspan := hq.span_mod
  have hcons : (m.u32 r.cons).toNat % 8 = 0 := hq.aligned
  rw [hq.prod_eq, UInt32.toNat_add, UInt32.toNat_ofNat']
  omega

/-- The bytes in use. -/
theorem Queue.used_eq (hq : Queue r m recs) :
  (used (m.u32 r.prod) (m.u32 r.cons)).toNat = Circular.span recs
  := by
  rw [used, hq.prod_eq, Word.add_ofNat_sub, Word.toNat_ofNat_le hq.span_le r.size_lt]

/-- The free bytes. -/
theorem Queue.free_eq (hq : Queue r m recs) :
  (free (m.u32 r.prod) (m.u32 r.cons) r.size).toNat = r.size.toNat - Circular.span recs
  := by
  rw [hq.prod_eq, toNat_free hq.span_le]

/-- Publishing records that fit appends them to the queue. -/
theorem Queue.publish {new : List Bytes} (hq : Queue r m recs)
    (hwhole : Circular.Whole r.size.toNat (m.u32 r.prod).toNat new)
    (hfree : Circular.span recs + Circular.span new ≤ r.size.toNat)
    (hframed : ∀ rec ∈ new, WellFramed rec) :
  Queue r (r.publish m new) (recs ++ new)
  := by
  have hcons := publish_cons hwhole
  constructor
  · rw [Circular.span_append]
    exact hfree
  · rw [publish_prod, hcons, hq.prod_eq, Word.add_ofNat_add, Circular.span_append]
  · rw [hcons, RingMap.publish]
    apply Circular.laid_write_outside r.size_pos (by simpa using r.prod_sep)
    rw [Circular.lay_mod_congr hq.prod_mod]
    apply Circular.laid_lay _ hfree hq.laid
    rwa [← Circular.whole_mod_congr hq.prod_mod]
  · intro rec hrec
    rcases List.mem_append.mp hrec with h | h
    · apply hq.framed rec h
    · apply hframed rec h
  · rw [hcons]
    exact hq.aligned

/-- The cells of a ring are among its addresses. -/
theorem cells_congr {m' : ByteMem} (h : ∀ i, r.Owns i → m' i = m i) :
  m'.u32 r.prod = m.u32 r.prod ∧ m'.u32 r.cons = m.u32 r.cons
  := by
  constructor
  · apply ByteMem.u32_congr
    intro i hi
    apply h
    right
    left
    omega
  · apply ByteMem.u32_congr
    intro i hi
    apply h
    right
    right
    omega

/-- A change of memory that keeps the addresses of a ring keeps its queue. -/
theorem Queue.frame {m' : ByteMem} (hq : Queue r m recs) (h : ∀ i, r.Owns i → m' i = m i) :
  Queue r m' recs
  := by
  obtain ⟨hprod, hcons⟩ := cells_congr h
  constructor
  · exact hq.span_le
  · rw [hprod, hcons]
    exact hq.prod_eq
  · rw [hcons]
    apply Circular.laid_frame _ hq.laid
    intro i _ _
    have hi := Nat.mod_lt i r.size_pos
    apply h
    left
    omega
  · exact hq.framed
  · rw [hcons]
    exact hq.aligned

/-- Storing the producer index as the consumer index empties the queue. -/
theorem Queue.clear (hq : Queue r m recs) :
  Queue r (m.write r.cons (Bytes.ofU32 (m.u32 r.cons + UInt32.ofNat (Circular.span recs)))) []
  := by
  have hprod : (m.write r.cons (Bytes.ofU32 (m.u32 r.cons
      + UInt32.ofNat (Circular.span recs)))).u32 r.prod = m.u32 r.prod :=
    ByteMem.u32_write_outside (by simpa using r.cell_sep)
  constructor
  · apply Nat.zero_le
  · rw [hprod, ByteMem.u32_write_self, hq.prod_eq, Circular.span_nil]
    simp
  · trivial
  · simp
  · rw [ByteMem.u32_write_self, ← hq.prod_eq]
    exact hq.prod_aligned

/-- Storing the consumer index behind the first record takes the record away. -/
theorem Queue.advance {rec : Bytes} (hq : Queue r m (rec :: recs)) :
  Queue r (m.write r.cons (Bytes.ofU32 (m.u32 r.cons + UInt32.ofNat rec.length))) recs
  := by
  have hprod : (m.write r.cons (Bytes.ofU32 (m.u32 r.cons + UInt32.ofNat rec.length))).u32 r.prod
      = m.u32 r.prod := ByteMem.u32_write_outside (by simpa using r.cell_sep)
  have hspan := hq.span_le
  rw [Circular.span_cons] at hspan
  have hrec : rec.length % 8 = 0 := (hq.framed rec (by simp)).rules.1
  have haligned : (m.u32 r.cons).toNat % 8 = 0 := hq.aligned
  constructor
  · omega
  · rw [hprod, ByteMem.u32_write_self, hq.prod_eq, Word.add_ofNat_add, Circular.span_cons]
  · rw [ByteMem.u32_write_self]
    apply Circular.laid_write_outside r.size_pos (by simpa using r.cons_sep)
    rw [Circular.laid_mod_congr (Word.toNat_add_mod r.size_pow _ _)]
    exact hq.laid.2.2
  · intro x hx
    apply hq.framed x
    simp [hx]
  · rw [ByteMem.u32_write_self, UInt32.toNat_add, UInt32.toNat_ofNat']
    simp only [recordAlign]
    omega

end Operations

/-! ### Pushes -/

section Push

variable {r : RingMap} {pos : UInt32} {n : Nat} {s t : UInt32} {bytes : UInt32 → Bytes}

theorem span_pushRecs {tail : Nat} (hbytes : ∀ s, (bytes s).length = n) (htail : padMinLen ≤ tail) :
  Circular.span (pushRecs tail n s t bytes) = if n ≤ tail then n else tail + n
  := by
  rw [pushRecs]
  split
  · simp [hbytes]
  · simp [hbytes, length_padBytes s htail]

/-- The records of a push lie in one piece: a `Pad` ends at the end of the ring. -/
theorem whole_pushRecs (hpos : pos.toNat % 8 = 0) (hn : n ≤ maxRecordLen)
    (hbytes : ∀ s, (bytes s).length = n) :
  Circular.Whole r.size.toNat pos.toNat (pushRecs (r.tail pos) n s t bytes)
  := by
  have hsize : maxRecordLen ≤ r.size.toNat := r.size_ge
  have hlt := Nat.mod_lt pos.toNat r.size_pos
  have htail := (r.tail_rules hpos).2
  have hdef : r.tail pos = r.size.toNat - pos.toNat % r.size.toNat := rfl
  rw [pushRecs]
  split
  · refine ⟨?_, trivial⟩
    rw [hbytes]
    omega
  · refine ⟨?_, ?_, trivial⟩
    · rw [length_padBytes s htail]
      omega
    · -- behind the `Pad` the record starts at offset zero
      rw [length_padBytes s htail, r.add_tail_mod, hbytes]
      omega

/-- What holds of a `Pad` that was needed and of every record holds of the records of a
push. -/
theorem forall_pushRecs {tail : Nat} {P : Bytes → Prop} (hpad : tail < n → P (padBytes tail s))
    (hbytes : ∀ s, P (bytes s)) :
  ∀ rec ∈ pushRecs tail n s t bytes, P rec
  := by
  intro rec hrec
  rw [pushRecs] at hrec
  split at hrec
  · rw [List.mem_singleton] at hrec
    rw [hrec]
    apply hbytes
  · rcases List.mem_cons.mp hrec with rfl | hrec
    · apply hpad
      omega
    · rw [List.mem_singleton] at hrec
      rw [hrec]
      apply hbytes

theorem framed_pushRecs (hpos : pos.toNat % 8 = 0) (hn : n ≤ maxRecordLen)
    (hbytes : ∀ s, WellFramed (bytes s)) :
  ∀ rec ∈ pushRecs (r.tail pos) n s t bytes, WellFramed rec
  := by
  obtain ⟨hmod, hmin⟩ := r.tail_rules hpos
  apply forall_pushRecs _ hbytes
  intro hlt
  apply wellFramed_padBytes s hmod hmin
  omega

/-- The sequence number in the header of a record. -/
def seqOf (rec : Bytes) : UInt32 := (rec.extract 4 8).toU32

/-- `n` consecutive sequence numbers, modulo `2 ^ 32`. -/
def consecutive (start : UInt32) (n : Nat) : List UInt32 :=
  (List.range n).map fun i => start + UInt32.ofNat i

theorem seqOf_padBytes (tailLen : Nat) (seq : UInt32) :
  seqOf (padBytes tailLen seq) = seq
  := by
  rw [seqOf, padBytes, framed_extract_seq, Bytes.toU32_ofU32]

theorem consecutive_append (start : UInt32) (n k : Nat) :
  consecutive start n ++ consecutive (start + UInt32.ofNat n) k = consecutive start (n + k)
  := by
  rw [consecutive, consecutive, consecutive, List.range_add, List.map_append, List.map_map]
  congr 1
  apply List.map_congr_left
  intro i _
  rw [Function.comp_apply, Word.add_ofNat_add]

/-- The records of a push carry consecutive sequence numbers. -/
theorem map_seqOf_pushRecs {tail : Nat} {seq : UInt32} (hbytes : ∀ s, seqOf (bytes s) = s) :
  (pushRecs tail n seq (seq + 1) bytes).map seqOf
    = consecutive seq (pushRecs tail n seq (seq + 1) bytes).length
  := by
  rw [pushRecs]
  split
  · simp [hbytes, consecutive]
  · simp [hbytes, seqOf_padBytes, consecutive, List.range_succ]

/-- The encoder fills a buffer of `n` bytes with `bytes s`. -/
def Encodes (n : Nat) (bytes : UInt32 → Bytes) (encode : UInt32 → Exec Bytes EncodeError Nat) :
    Prop :=
  ∀ s buf, buf.length = n → (encode s).run buf = (bytes s, .ok n)

theorem encodes_event (dbg : Bool) (vnanos : UInt64) (extraFlags : UInt8) {ev : EventPayload}
    (hev : ev.Encodable) :
  Encodes (encodedEventLen ev) (fun seq => eventBytes seq vnanos extraFlags ev)
    (fun seq => encodeEvent dbg seq vnanos extraFlags ev)
  := by
  intro seq buf hbuf
  rw [run_encodeEvent hev (by omega), List.drop_eq_nil_of_le (by omega), List.append_nil]

theorem run_sliceMut {ε α : Type} {dbg : Bool} {off : UInt32} {encode : Exec Bytes ε α}
    {m : ByteMem} {seq : UInt32} {bs : Bytes} {res : Res ε α}
    (hoff : off.toNat + n ≤ r.size.toNat)
    (henc : encode.run (m.read (r.data + off.toNat) n) = (bs, res)) :
  (Producer.sliceMut dbg r off n encode).run ⟨m, seq⟩
    = (⟨m.write (r.data + off.toNat) bs, seq⟩, res)
  := by
  rw [Producer.sliceMut, Exec.run_bind_of_ok (Exec.run_debugAssert_of hoff _),
    Exec.run_bind_of_ok (Exec.run_get _)]
  simp only [henc]
  rfl

theorem run_allocSeq {ε : Type} (p : Producer) :
  (Producer.allocSeq : Exec Producer ε UInt32).run p
    = ({ p with nextSeq := p.nextSeq + 1 }, .ok p.nextSeq)
  := rfl

/-- A push without room changes nothing. -/
theorem run_tryPush_full {dbg : Bool} {encode : UInt32 → Exec Bytes EncodeError Nat} {m : ByteMem}
    {seq : UInt32} (hmod : n % recordAlign = 0) (hmin : padMinLen ≤ n) (hmax : n ≤ maxRecordLen)
    (hfull : free (m.u32 r.prod) (m.u32 r.cons) r.size
      < bytesNeeded (m.u32 r.prod) r.size (UInt32.ofNat n)) :
  (Producer.tryPush dbg r n encode).run ⟨m, seq⟩ = (⟨m, seq⟩, .err .ringFull)
  := by
  rw [Producer.tryPush, Exec.run_bind_of_ok (Exec.run_debugAssert_of ⟨hmod, hmin, hmax⟩ _),
    Exec.run_bind_of_ok (Exec.run_get _), Exec.run_bind_of_err (Exec.run_failIf_of hfull _)]

/-- Filling the tail writes a `Pad` that ends at the end of the ring. -/
theorem run_padTail {dbg : Bool} {m : ByteMem} {seq : UInt32}
    (htmod : dbg = true → r.tail pos % recordAlign = 0) (htmin : padMinLen ≤ r.tail pos)
    (htail : r.tail pos < maxRecordLen) :
  (Producer.padTail dbg r pos).run ⟨m, seq⟩
    = (⟨m.write (r.data + pos.toNat % r.size.toNat) (padBytes (r.tail pos) seq), seq + 1⟩,
        .ok (pos + UInt32.ofNat (r.tail pos)))
  := by
  have hoff := r.mask_toNat pos
  have hlt := Nat.mod_lt pos.toNat r.size_pos
  have hdef : r.tail pos = r.size.toNat - pos.toNat % r.size.toNat := rfl
  have htail' : r.tail pos < 4096 := htail
  rw [Producer.padTail, r.toNat_contiguousTail pos]
  have hpad : (encodePad dbg (r.tail pos) seq).run
      (m.read (r.data + (pos &&& (r.size - 1)).toNat) (r.tail pos))
      = (padBytes (r.tail pos) seq, .ok (r.tail pos)) := by
    rw [run_encodePad htmod htmin (by omega) (by rw [ByteMem.length_read]),
      List.drop_eq_nil_of_le (by rw [ByteMem.length_read]), List.append_nil]
  have hslice : (Exec.expect (Producer.sliceMut dbg r (pos &&& (r.size - 1)) (r.tail pos)
        (encodePad dbg (r.tail pos) seq)) : Exec Producer RingFull Nat).run ⟨m, seq + 1⟩
      = (⟨m.write (r.data + (pos &&& (r.size - 1)).toNat) (padBytes (r.tail pos) seq), seq + 1⟩,
          .ok (r.tail pos)) := by
    apply Exec.run_expect_of_ok
    apply run_sliceMut (by omega) hpad
  have hzero : (pos + UInt32.ofNat (r.tail pos)) &&& (r.size - 1) = 0 := by
    rw [← UInt32.toNat_inj, r.mask_toNat, Word.toNat_add_mod r.size_pow, r.add_tail_mod,
      UInt32.toNat_zero]
  rw [Exec.run_bind_of_ok (run_allocSeq _), Exec.run_bind_of_ok hslice,
    Exec.run_bind_of_ok (Exec.run_debugAssert_of hzero _), hoff]
  rfl

/-- Placing a record writes it at its position. -/
theorem run_placeRecord {dbg : Bool} {encode : UInt32 → Exec Bytes EncodeError Nat}
    {m : ByteMem} {seq : UInt32} (henc : Encodes n bytes encode)
    (hend : pos.toNat % r.size.toNat + n ≤ r.size.toNat) :
  (Producer.placeRecord dbg r pos n encode).run ⟨m, seq⟩
    = (⟨m.write (r.data + pos.toNat % r.size.toNat) (bytes seq), seq + 1⟩, .ok seq)
  := by
  have hoff := r.mask_toNat pos
  have hslice : (Producer.sliceMut dbg r (pos &&& (r.size - 1)) n (encode seq)).run ⟨m, seq + 1⟩
      = (⟨m.write (r.data + pos.toNat % r.size.toNat) (bytes seq), seq + 1⟩, .ok n) := by
    rw [run_sliceMut (by omega) (henc seq _ (ByteMem.length_read ..)), hoff]
  have hmap : (Exec.mapErr (fun _ => RingFull.ringFull)
        (Producer.sliceMut dbg r (pos &&& (r.size - 1)) n (encode seq))).run ⟨m, seq + 1⟩
      = (⟨m.write (r.data + pos.toNat % r.size.toNat) (bytes seq), seq + 1⟩, .ok n) := by
    rw [Exec.run_mapErr, hslice]
    rfl
  rw [Producer.placeRecord, Exec.run_bind_of_ok (run_allocSeq _), Exec.run_bind_of_ok hmap,
    Exec.run_bind_of_ok (Exec.run_debugAssert_of rfl _)]
  rfl

/-- A push with room publishes its records and takes their sequence numbers. -/
theorem run_tryPush_ok {dbg : Bool} {encode : UInt32 → Exec Bytes EncodeError Nat} {m : ByteMem}
    {seq : UInt32} {new : List Bytes}
    (hnew : new = pushRecs (r.tail (m.u32 r.prod)) n seq (seq + 1) bytes)
    (hmod : n % recordAlign = 0) (hmin : padMinLen ≤ n) (hmax : n ≤ maxRecordLen)
    (hpos : (m.u32 r.prod).toNat % 8 = 0) (henc : Encodes n bytes encode)
    (hbytes : ∀ s, (bytes s).length = n)
    (hroom : ¬ free (m.u32 r.prod) (m.u32 r.cons) r.size
      < bytesNeeded (m.u32 r.prod) r.size (UInt32.ofNat n)) :
  (Producer.tryPush dbg r n encode).run ⟨m, seq⟩
    = (⟨r.publish m new, seq + UInt32.ofNat new.length⟩,
        .ok (seq + UInt32.ofNat (new.length - 1)))
  := by
  have hwhole : Circular.Whole r.size.toNat (m.u32 r.prod).toNat new := by
    rw [hnew]
    apply whole_pushRecs hpos hmax hbytes
  obtain ⟨htmod, htmin⟩ := r.tail_rules hpos
  have hlong := bytesNeeded_gt r.size_pow (m.u32 r.prod) hmax
  have heq := r.bytesNeeded_eq (m.u32 r.prod) hmax
  rw [r.toNat_contiguousTail] at hlong
  rw [RingMap.publish]
  generalize hprod : m.u32 r.prod = prod at *
  have hoff := r.mask_toNat prod
  rw [Producer.tryPush, Exec.run_bind_of_ok (Exec.run_debugAssert_of ⟨hmod, hmin, hmax⟩ _),
    Exec.run_bind_of_ok (Exec.run_get _)]
  simp only [hprod]
  rw [Exec.run_bind_of_ok (Exec.run_failIf_of_not hroom _)]
  by_cases hle : n ≤ r.tail prod
  · -- the record fits in front of the end of the ring
    rw [if_pos hle] at heq
    rw [pushRecs, if_pos hle] at hnew
    subst hnew
    obtain ⟨hend, _⟩ := hwhole
    rw [hbytes] at hend
    rw [if_neg (by rw [hlong]; omega), Exec.run_bind_of_ok (Exec.run_pure _ _),
      Exec.run_bind_of_ok (run_placeRecord henc hend), heq]
    simp [Producer.storeU32, Circular.lay, hbytes]
  · -- a `Pad` fills the tail, and the record starts at offset zero
    rw [if_neg hle] at heq
    rw [pushRecs, if_neg hle] at hnew
    subst hnew
    obtain ⟨hpend, hend, _⟩ := hwhole
    rw [length_padBytes seq htmin] at hpend hend
    rw [hbytes] at hend
    have htail : r.tail prod < maxRecordLen := by omega
    have hmask : (prod + UInt32.ofNat (r.tail prod)).toNat % r.size.toNat
        = (prod.toNat + r.tail prod) % r.size.toNat := Word.toNat_add_mod r.size_pow _ _
    rw [if_pos (by rw [hlong]; omega),
      Exec.run_bind_of_ok (run_padTail (fun _ => htmod) htmin htail),
      Exec.run_bind_of_ok (run_placeRecord henc (by rw [hmask]; exact hend)), heq, hmask]
    simp [Producer.storeU32, Circular.lay, hbytes, length_padBytes seq htmin, UInt32.add_assoc]

end Push

/-! ### Pops -/

section Pop

variable {r : RingMap} {m : ByteMem} {recs : List Bytes}

theorem run_copyOut {ε : Type} {dbg : Bool} {off : UInt32} {n : Nat} (scratch : Bytes)
    (hoff : off.toNat + n ≤ r.size.toNat) :
  (Consumer.copyOut dbg r off n : Exec Consumer ε Unit).run ⟨m, scratch⟩
    = (⟨m, m.read (r.data + off.toNat) n ++ scratch.drop n⟩, .ok ())
  := by
  rw [Consumer.copyOut, Exec.run_bind_of_ok (Exec.run_debugAssert_of hoff _), Exec.run_modify]
  simp [Bytes.splice]

/-- An empty ring has nothing to pop. -/
theorem run_popInto_nil {dbg : Bool} (hq : Queue r m []) (scratch : Bytes) :
  (Consumer.popInto dbg r).run ⟨m, scratch⟩ = (⟨m, scratch⟩, .ok none)
  := by
  have hzero : used (m.u32 r.prod) (m.u32 r.cons) = 0 := by
    rw [← UInt32.toNat_inj, hq.used_eq]
    rfl
  rw [Consumer.popInto, Exec.run_bind_of_ok (Exec.run_get _)]
  simp only [hzero, if_true]
  rfl

/-- The first record lies at the consumer position, with its length in front. -/
theorem run_peekLen {dbg : Bool} {cons : UInt32} {avail tail : UInt32} {rec scratch : Bytes}
    (hlaid : Circular.Laid m r.data r.size.toNat cons.toNat (rec :: recs))
    (hframed : WellFramed rec) (havail : rec.length ≤ avail.toNat)
    (htail : rec.length ≤ tail.toNat) (hscratch : maxRecordLen ≤ scratch.length) :
  (Consumer.peekLen dbg r (cons &&& (r.size - 1)) avail tail).run ⟨m, scratch⟩
    = (⟨m, rec.take 8 ++ scratch.drop 8⟩, .ok rec.length)
  := by
  obtain ⟨hmod, hmin, hmax⟩ := hframed.rules
  obtain ⟨hdr, hread, hlen⟩ := hframed
  obtain ⟨hend, _, _⟩ := id hlaid
  have hoff := r.mask_toNat cons
  simp only [padMinLen, maxRecordLen] at hmin hmax hscratch
  -- the prefix that is peeked at is the start of the record
  have hpeek : m.read (r.data + (cons &&& (r.size - 1)).toNat) 8 = rec.take 8 := by
    rw [hoff]
    apply hlaid.read_take hmin
  obtain ⟨len, kind, flags, seq, hb⟩ := exists_framed hmin
  have htake : rec.take 8 = framed len kind flags seq [] := by
    rw [hb]
    rfl
  rw [hb] at hread
  obtain ⟨rfl, rfl, _, _, _, _, hkind, _⟩ := framing_of_readFrom _ _ _ _ _ hread
  have hscratch8 : (framed hdr.len hdr.kind flags seq [] ++ scratch.drop 8).length
      = scratch.length := by
    simp
    omega
  have hlen2 : ((framed hdr.len hdr.kind flags seq [] ++ scratch.drop 8).slice 0 2 :
      Res DecodeError Bytes) = .ok (Bytes.ofU16 hdr.len) := by
    rw [Bytes.slice_of_le (by omega) (by omega)]
    rfl
  have hkind2 : ((framed hdr.len hdr.kind flags seq [] ++ scratch.drop 8).byte 2 :
      Res DecodeError UInt8) = .ok hdr.kind := rfl
  simp only [Consumer.peekLen, padMinLen]
  rw [Exec.run_bind_of_ok (run_copyOut scratch (by omega)), hpeek, htake,
    Exec.run_bind_of_ok (Exec.run_get _)]
  dsimp only
  rw [hlen2, hkind2, Exec.run_bind_of_ok (Exec.run_lift _ _),
    Exec.run_bind_of_ok (Exec.run_lift _ _)]
  simp only [Bytes.toU16_ofU16, hlen]
  rw [Exec.run_bind_of_ok (Exec.run_failIf_of_not (by omega) _),
    Exec.run_bind_of_ok (Exec.run_failIf_of_not (by omega) _),
    Exec.run_bind_of_ok (Exec.run_failIf_of_not (by omega) _)]
  rfl

/-- The whole record is copied, and its copy parses. -/
theorem run_copyRecord_eq (dbg : Bool) (off : UInt32) (scratch : Bytes) {n : Nat}
    {hdr : RecordHeader} (hoff : off.toNat + n ≤ r.size.toNat)
    (hread : RecordHeader.readFrom (m.read (r.data + off.toNat) n) = .ok hdr) :
  (Consumer.copyRecord dbg r off n).run ⟨m, scratch⟩
    = (⟨m, m.read (r.data + off.toNat) n ++ scratch.drop n⟩, .ok ())
  := by
  have hslice : ((m.read (r.data + off.toNat) n ++ scratch.drop n).slice 0 n :
      Res DecodeError Bytes) = .ok (m.read (r.data + off.toNat) n) := by
    rw [Bytes.slice_of_le (Nat.zero_le n) (by simp),
      Bytes.extract_append_left (ByteMem.length_read ..)]
  rw [Consumer.copyRecord, Exec.run_bind_of_ok (run_copyOut scratch hoff),
    Exec.run_bind_of_ok (Exec.run_get _)]
  dsimp only
  rw [hslice, Exec.run_bind_of_ok (Exec.run_lift _ _), hread,
    Exec.run_bind_of_ok (Exec.run_lift _ _)]
  rfl

theorem run_copyRecord {dbg : Bool} {cons : UInt32} {rec scratch : Bytes}
    (hlaid : Circular.Laid m r.data r.size.toNat cons.toNat (rec :: recs))
    (hframed : WellFramed rec) :
  (Consumer.copyRecord dbg r (cons &&& (r.size - 1)) rec.length).run ⟨m, scratch⟩
    = (⟨m, rec ++ scratch.drop rec.length⟩, .ok ())
  := by
  obtain ⟨hdr, hread, hlen⟩ := hframed
  obtain ⟨hend, hrec, _⟩ := hlaid
  have hoff := r.mask_toNat cons
  rw [← hoff] at hrec
  rw [run_copyRecord_eq dbg _ scratch (by omega) (by rw [hrec]; exact hread), hrec]

/-- A pop copies the first record of the queue and advances the consumer index. -/
theorem run_popInto_cons {dbg : Bool} {rec scratch : Bytes} (hq : Queue r m (rec :: recs))
    (hscratch : maxRecordLen ≤ scratch.length) :
  (Consumer.popInto dbg r).run ⟨m, scratch⟩
    = (⟨m.write r.cons (Bytes.ofU32 (m.u32 r.cons + UInt32.ofNat rec.length)),
        rec ++ scratch.drop rec.length⟩, .ok (some rec.length))
  := by
  have hframed := hq.framed rec (by simp)
  obtain ⟨_, hmin, hmax⟩ := hframed.rules
  have hend := hq.laid.1
  have hspan := hq.used_eq
  rw [Circular.span_cons] at hspan
  have htail : rec.length ≤ (contiguousTail (m.u32 r.cons) r.size).toNat := by
    rw [r.toNat_contiguousTail, RingMap.tail]
    omega
  have hne : ¬ used (m.u32 r.prod) (m.u32 r.cons) = 0 := by
    rw [← UInt32.toNat_inj, hspan, UInt32.toNat_zero]
    simp only [padMinLen] at hmin
    omega
  rw [Consumer.popInto, Exec.run_bind_of_ok (Exec.run_get _)]
  simp only [if_neg hne]
  rw [Exec.run_bind_of_ok (Exec.run_failIf_of_not (by omega) _),
    Exec.run_bind_of_ok (run_peekLen hq.laid hframed (by omega) htail hscratch),
    Exec.run_bind_of_ok (run_copyRecord hq.laid hframed)]
  have hrest : List.drop rec.length (rec.take 8 ++ scratch.drop 8) = scratch.drop rec.length := by
    simp only [padMinLen] at hmin
    rw [List.drop_append, List.drop_eq_nil_of_le (by simp), List.nil_append, List.length_take,
      List.drop_drop, Nat.min_eq_left hmin]
    congr 1
    omega
  rw [hrest]
  rfl

/-- A queue of records is longer in bytes than in records. -/
theorem Queue.length_le (hq : Queue r m recs) :
  recs.length ≤ Circular.span recs
  := by
  have hframed := hq.framed
  clear hq
  induction recs with
  | nil => apply Nat.zero_le
  | cons rec recs ih =>
      have hmin : 8 ≤ rec.length := (hframed rec (by simp)).rules.2.1
      have hrest := ih (fun x hx => hframed x (by simp [hx]))
      rw [List.length_cons, Circular.span_cons]
      omega

variable {α : Type} {take : Bytes → Res DecodeError (Option α)} {dec : Bytes → Option α}

/-- A poll skips the records without a value and returns the first value; what it popped
is gone from the queue, and nothing beside the ring changes. -/
theorem run_popLoop {dbg : Bool} {fuel : Nat} {scratch : Bytes} (hq : Queue r m recs)
    (htake : ∀ rec ∈ recs, take rec = .ok (dec rec)) (hscratch : maxRecordLen ≤ scratch.length)
    (hfuel : recs.length < fuel) :
  ∃ c rest, (Consumer.popLoop dbg r take fuel).run ⟨m, scratch⟩
      = (c, .ok (recs.filterMap dec).head?) ∧
    Queue r c.mem rest ∧ rest <:+ recs ∧ rest.filterMap dec = (recs.filterMap dec).tail ∧
    c.scratch.length = scratch.length ∧ ∀ i, ¬ r.Owns i → c.mem i = m i
  := by
  induction recs generalizing m fuel scratch with
  | nil =>
      obtain ⟨fuel, rfl⟩ := Nat.exists_eq_add_one_of_ne_zero (show fuel ≠ 0 by omega)
      refine ⟨⟨m, scratch⟩, [], ?_, hq, List.suffix_refl _, rfl, rfl, fun _ _ => rfl⟩
      rw [Consumer.popLoop, Exec.run_bind_of_ok (run_popInto_nil hq scratch)]
      rfl
  | cons rec recs ih =>
      obtain ⟨fuel, rfl⟩ := Nat.exists_eq_add_one_of_ne_zero (show fuel ≠ 0 by omega)
      have hpop : (Consumer.popInto dbg r).run ⟨m, scratch⟩ = _ := run_popInto_cons hq hscratch
      have hslice : ((rec ++ scratch.drop rec.length).slice 0 rec.length : Res DecodeError Bytes)
          = .ok rec := by
        rw [Bytes.slice_of_le (by omega) (by simp), Bytes.extract_append_left rfl]
      have hmax : rec.length ≤ 4096 := (hq.framed rec (by simp)).rules.2.2
      have hscratch' : 4096 ≤ scratch.length := hscratch
      have hlen : (rec ++ scratch.drop rec.length).length = scratch.length := by
        simp
        omega
      rw [Consumer.popLoop, Exec.run_bind_of_ok hpop]
      dsimp only
      rw [Exec.run_bind_of_ok (Exec.run_get _)]
      dsimp only
      rw [hslice, Exec.run_bind_of_ok (Exec.run_lift _ _), htake rec (by simp),
        Exec.run_bind_of_ok (Exec.run_lift _ _)]
      cases hdec : dec rec with
      | some a =>
          refine ⟨⟨_, _⟩, recs, ?_, hq.advance, List.suffix_cons _ _, ?_, hlen, ?_⟩
          · rw [List.filterMap_cons_some hdec]
            rfl
          · rw [List.filterMap_cons_some hdec, List.tail_cons]
          · intro i hi
            apply write_cons_of_not_owns hi
      | none =>
          obtain ⟨c, rest, hrun, hq', hsuffix, hrest, hlen', hmem⟩ := ih hq.advance
            (fun x hx => htake x (by simp [hx])) (by rw [hlen]; exact hscratch)
            (show recs.length < fuel by simpa using hfuel)
          rw [List.filterMap_cons_none hdec]
          refine ⟨c, rest, hrun, hq', hsuffix.trans (List.suffix_cons _ _), hrest, ?_, ?_⟩
          · rw [hlen', hlen]
          · intro i hi
            rw [hmem i hi, write_cons_of_not_owns hi]

/-- A poll of a queue. -/
theorem run_popUntil (dbg : Bool) {scratch : Bytes} (hq : Queue r m recs)
    (htake : ∀ rec ∈ recs, take rec = .ok (dec rec)) (hscratch : maxRecordLen ≤ scratch.length) :
  ∃ c rest, (Consumer.popUntil dbg r take).run ⟨m, scratch⟩
      = (c, .ok (recs.filterMap dec).head?) ∧
    Queue r c.mem rest ∧ rest <:+ recs ∧ rest.filterMap dec = (recs.filterMap dec).tail ∧
    c.scratch.length = scratch.length ∧ ∀ i, ¬ r.Owns i → c.mem i = m i
  := by
  have hle := hq.length_le
  rw [Consumer.popUntil, Exec.run_bind_of_ok (Exec.run_get _)]
  apply run_popLoop hq htake hscratch
  dsimp only
  rw [hq.used_eq]
  omega

end Pop

/-! ### What was published -/

/-- The records in the `n` bytes from position `pos` on, told apart by their length
fields. -/
def recordsAt (r : RingMap) (m : ByteMem) : Nat → UInt32 → Nat → List Bytes
  | 0, _, _ => []
  | fuel + 1, pos, n =>
      if n = 0 then
        []
      else
        let a := r.data + (pos &&& (r.size - 1)).toNat
        let len := (m.u16 a).toNat
        m.read a len :: recordsAt r m fuel (pos + UInt32.ofNat len) (n - len)

/-- The records between the producer index of one memory and that of a later one. -/
def published (r : RingMap) (before after : ByteMem) : List Bytes :=
  let n := (after.u32 r.prod - before.u32 r.prod).toNat
  recordsAt r after n (before.u32 r.prod) n

section Published

variable {r : RingMap} {m : ByteMem} {recs new : List Bytes}

/-- The length field of a record that lies at a position. -/
theorem u16_laid {pos : UInt32} {rec : Bytes}
    (hlaid : Circular.Laid m r.data r.size.toNat pos.toNat (rec :: recs))
    (hframed : WellFramed rec) :
  (m.u16 (r.data + pos.toNat % r.size.toNat)).toNat = rec.length
  := by
  obtain ⟨_, hmin, _⟩ := hframed.rules
  obtain ⟨hdr, hr, hlen⟩ := hframed
  have hmin8 : 8 ≤ rec.length := hmin
  obtain ⟨len, kind, flags, seq, hb⟩ := exists_framed hmin8
  have h2 : m.read (r.data + pos.toNat % r.size.toNat) 2 = Bytes.ofU16 len := by
    rw [hlaid.read_take (by omega), hb]
    rfl
  rw [hb] at hr
  obtain ⟨rfl, _⟩ := framing_of_readFrom _ _ _ _ _ hr
  rw [ByteMem.u16, h2, Bytes.toU16_ofU16, hlen]

theorem recordsAt_laid {fuel : Nat} {pos : UInt32}
    (hlaid : Circular.Laid m r.data r.size.toNat pos.toNat recs)
    (hframed : ∀ rec ∈ recs, WellFramed rec) (hfuel : Circular.span recs ≤ fuel) :
  recordsAt r m fuel pos (Circular.span recs) = recs
  := by
  induction recs generalizing fuel pos with
  | nil =>
      cases fuel with
      | zero => rfl
      | succ fuel => rfl
  | cons rec recs ih =>
      have hrec := hframed rec (by simp)
      have hmin : 8 ≤ rec.length := hrec.rules.2.1
      rw [Circular.span_cons] at hfuel ⊢
      obtain ⟨fuel, rfl⟩ := Nat.exists_eq_add_one_of_ne_zero (show fuel ≠ 0 by omega)
      have hrest := (Circular.laid_mod_congr (Word.toNat_add_mod r.size_pow pos _)).mpr hlaid.2.2
      rw [recordsAt, if_neg (by omega)]
      simp only [r.mask_toNat, u16_laid hlaid hrec, hlaid.2.1, Nat.add_sub_cancel_left]
      rw [ih hrest (fun x hx => hframed x (by simp [hx])) (by omega)]

/-- A push publishes exactly its records. -/
theorem Queue.published_publish (hq : Queue r m recs)
    (hwhole : Circular.Whole r.size.toNat (m.u32 r.prod).toNat new)
    (hfree : Circular.span recs + Circular.span new ≤ r.size.toNat)
    (hframed : ∀ rec ∈ new, WellFramed rec) :
  published r m (r.publish m new) = new
  := by
  have hlaid := (hq.publish hwhole hfree hframed).laid
  rw [Circular.laid_append, publish_cons hwhole, Circular.laid_mod_congr hq.prod_mod.symm] at hlaid
  have hn : ((r.publish m new).u32 r.prod - m.u32 r.prod).toNat = Circular.span new := by
    rw [publish_prod, Word.add_ofNat_sub, Word.toNat_ofNat_le (by omega) r.size_lt]
  simp only [published, hn]
  apply recordsAt_laid hlaid.2 hframed (Nat.le_refl _)

theorem published_self :
  published r m m = []
  := by
  rw [published, UInt32.sub_self]
  rfl

/-- The records a push with room writes fit behind the queue. -/
theorem Queue.room {n : Nat} {s t : UInt32} {bytes : UInt32 → Bytes} (hq : Queue r m recs)
    (hmax : n ≤ maxRecordLen) (hbytes : ∀ s, (bytes s).length = n)
    (hroom : ¬ free (m.u32 r.prod) (m.u32 r.cons) r.size
      < bytesNeeded (m.u32 r.prod) r.size (UInt32.ofNat n)) :
  Circular.span recs + Circular.span (pushRecs (r.tail (m.u32 r.prod)) n s t bytes)
    ≤ r.size.toNat
  := by
  have hspan := hq.span_le
  rw [UInt32.lt_iff_toNat_lt, hq.free_eq, r.toNat_bytesNeeded _ hmax] at hroom
  rw [span_pushRecs hbytes (r.tail_rules hq.prod_aligned).2]
  omega

/-- A push with room appends its records, whatever their sequence numbers. -/
theorem Queue.push {n : Nat} {s t : UInt32} {bytes : UInt32 → Bytes} {new : List Bytes}
    (hq : Queue r m recs) (hnew : new = pushRecs (r.tail (m.u32 r.prod)) n s t bytes)
    (hmax : n ≤ maxRecordLen) (hbytes : ∀ s, (bytes s).length = n)
    (hframed : ∀ s, WellFramed (bytes s))
    (hroom : ¬ free (m.u32 r.prod) (m.u32 r.cons) r.size
      < bytesNeeded (m.u32 r.prod) r.size (UInt32.ofNat n)) :
  Circular.Whole r.size.toNat (m.u32 r.prod).toNat new ∧
    Queue r (r.publish m new) (recs ++ new) ∧ published r m (r.publish m new) = new
  := by
  have hpos := hq.prod_aligned
  subst hnew
  have hwhole := whole_pushRecs (r := r) (s := s) (t := t) hpos hmax hbytes
  have hnew := framed_pushRecs (r := r) (s := s) (t := t) hpos hmax hframed
  have hfree := hq.room (s := s) (t := t) hmax hbytes hroom
  refine ⟨hwhole, hq.publish hwhole hfree hnew, hq.published_publish hwhole hfree hnew⟩

/-- A push onto a queue either finds no room and changes nothing, or appends its
records. -/
theorem Queue.tryPush {n : Nat} {bytes : UInt32 → Bytes}
    {encode : UInt32 → Exec Bytes EncodeError Nat} (hq : Queue r m recs) (dbg : Bool)
    (seq : UInt32)
    (hmod : n % recordAlign = 0) (hmin : padMinLen ≤ n) (hmax : n ≤ maxRecordLen)
    (henc : Encodes n bytes encode) (hbytes : ∀ s, (bytes s).length = n)
    (hframed : ∀ s, WellFramed (bytes s)) :
  (free (m.u32 r.prod) (m.u32 r.cons) r.size
        < bytesNeeded (m.u32 r.prod) r.size (UInt32.ofNat n) ∧
      (Producer.tryPush dbg r n encode).run ⟨m, seq⟩ = (⟨m, seq⟩, .err .ringFull)) ∨
    ∃ new, new = pushRecs (r.tail (m.u32 r.prod)) n seq (seq + 1) bytes ∧
      (Producer.tryPush dbg r n encode).run ⟨m, seq⟩
        = (⟨r.publish m new, seq + UInt32.ofNat new.length⟩,
            .ok (seq + UInt32.ofNat (new.length - 1))) ∧
      Circular.Whole r.size.toNat (m.u32 r.prod).toNat new ∧
      Queue r (r.publish m new) (recs ++ new) ∧ published r m (r.publish m new) = new
  := by
  have hpos := hq.prod_aligned
  by_cases hroom : free (m.u32 r.prod) (m.u32 r.cons) r.size
      < bytesNeeded (m.u32 r.prod) r.size (UInt32.ofNat n)
  · left
    exact ⟨hroom, run_tryPush_full hmod hmin hmax hroom⟩
  · right
    obtain ⟨hwhole, hq', hpub⟩ := hq.push (s := seq) (t := seq + 1) rfl hmax hbytes hframed hroom
    refine ⟨_, rfl, ?_, hwhole, hq', hpub⟩
    apply run_tryPush_ok rfl hmod hmin hmax hpos henc hbytes hroom

end Published

end Wire
