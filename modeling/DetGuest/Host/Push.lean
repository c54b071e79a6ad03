import DetGuest.Host.Commands
import DetGuest.Wire.Queue

/-!
# What a push does

The outcome of a push as a function of the channel: what it reads, which span it encodes,
and the writes of that span up to the first one that guest memory refuses.
-/

namespace Host

open Wire

/-! ### Encoding a span -/

section Span

variable {dbg : Bool} {prod size : UInt32} {total tail : Nat} {seq : UInt32}
  {encode : UInt32 → Exec Bytes EncodeError Nat} {bytes : UInt32 → Bytes}

/-- A span whose `Pad` can be encoded: it holds the records of the push. -/
theorem run_encodeSpan (seq : UInt32) (hpow : Word.isPowerOfTwo size) (hmax : total ≤ maxRecordLen)
    (henc : Encodes total bytes encode) (hbytes : ∀ s, (bytes s).length = total)
    (htail : tail = (contiguousTail prod size).toNat)
    (hpad : tail < total → padMinLen ≤ tail ∧ (dbg = true → tail % recordAlign = 0))
    {new : List Bytes} (hnew : new = pushRecs tail total seq (seq + 1) bytes) :
  (encodeSpan dbg prod size total encode seq).run
      (Bytes.zeros (bytesNeeded prod size (UInt32.ofNat total)).toNat)
    = (new.flatten, .ok (if total ≤ tail then 0 else tail, seq + UInt32.ofNat new.length))
  := by
  have hmax' : total ≤ 4096 := hmax
  have hlong := bytesNeeded_gt hpow prod hmax
  rw [← htail] at hlong
  rw [encodeSpan, toNat_bytesNeeded hpow prod hmax, ← htail]
  subst hnew
  by_cases hle : total ≤ tail
  · have hrec : (Bytes.within 0 (0 + total) (encode seq)).run (Bytes.zeros total)
        = (bytes seq, .ok total) := by
      rw [Bytes.run_within (by omega) (by simp), henc seq _ (by simp), Bytes.splice]
      simp [hbytes]
    rw [if_neg (by rw [hlong]; omega), if_pos hle, Exec.run_bind_of_ok (Exec.run_pure _ _)]
    dsimp only
    rw [Exec.run_bind_of_ok hrec, Exec.run_bind_of_ok (Exec.run_debugAssert_of rfl _), pushRecs,
      if_pos hle, if_pos hle]
    simp
  · obtain ⟨hmin, hmod⟩ := hpad (by omega)
    have hmin' : 8 ≤ tail := hmin
    have hlen := length_padBytes seq hmin
    have htailrec : (encodeTail dbg tail seq).run (Bytes.zeros (tail + total))
        = (padBytes tail seq ++ Bytes.zeros total, .ok (tail, seq + 1)) := by
      have hwithin : (Bytes.within 0 tail (encodePad dbg tail seq)).run (Bytes.zeros (tail + total))
          = (padBytes tail seq ++ Bytes.zeros total, .ok tail) := by
        rw [Bytes.run_within (by omega) (by simp),
          run_encodePad hmod hmin (by omega) (by simp)]
        simp [Bytes.splice, Bytes.extract, hlen]
      rw [encodeTail, Exec.run_bind_of_ok hwithin]
      rfl
    have hrec : (Bytes.within tail (tail + total) (encode (seq + 1))).run
          (padBytes tail seq ++ Bytes.zeros total)
        = (padBytes tail seq ++ bytes (seq + 1), .ok total) := by
      rw [Bytes.run_within (by omega) (by simp [hlen]), henc (seq + 1) _ (by simp [hlen]),
        Bytes.splice_append_zeros hlen]
      simp [hbytes]
    rw [if_pos (by rw [hlong]; omega), if_neg hle, Exec.run_bind_of_ok htailrec]
    dsimp only
    rw [Exec.run_bind_of_ok hrec, Exec.run_bind_of_ok (Exec.run_debugAssert_of rfl _), pushRecs,
      if_neg hle, if_neg hle]
    simp [UInt32.add_assoc]

/-- A span whose `Pad` cannot be encoded. -/
theorem run_encodeSpan_panic (encode : UInt32 → Exec Bytes EncodeError Nat) (seq : UInt32)
    (hpow : Word.isPowerOfTwo size)
    (hmax : total ≤ maxRecordLen)
    (htail : tail = (contiguousTail prod size).toNat) (hshort : tail < total)
    (hpad : ¬ (padMinLen ≤ tail ∧ (dbg = true → tail % recordAlign = 0))) :
  ((encodeSpan dbg prod size total encode seq).run
      (Bytes.zeros (bytesNeeded prod size (UInt32.ofNat total)).toNat)).2 = .panic
  := by
  have hlong := bytesNeeded_gt hpow prod hmax
  rw [← htail] at hlong
  rw [encodeSpan, toNat_bytesNeeded hpow prod hmax, ← htail, if_pos (hlong.mpr hshort),
    if_neg (by omega)]
  apply Exec.panic_of_bind
  apply Exec.panic_of_bind
  rw [Bytes.run_within (by omega) (by simp)]
  by_cases hmin : padMinLen ≤ tail
  · have hdbg : dbg = true ∧ ¬ tail % recordAlign = 0 := by tauto
    rw [hdbg.1, encodePad,
      Exec.run_bind_of_panic (Exec.run_debugAssert_of_not (by tauto) _)]
  · apply run_encodePad_short (by omega)
    simp

end Span

/-! ### Writing a span -/

/-- Where writes end: the memory they leave, the accesses, and whether one was refused. -/
structure Written where
  gm : GuestMem
  io : List Access
  res : Res MemError Unit

/-- Perform writes one after the other, up to the first that is refused. -/
def writeAll : GuestMem → List (Nat × Bytes) → Written
  | gm, [] => { gm, io := [], res := .ok () }
  | gm, (a, bs) :: ws =>
      match gm.writeErr a bs.length with
      | some e => { gm, io := [.write a bs], res := .err e }
      | none =>
          let w := writeAll { gm with bytes := gm.bytes.write a bs } ws
          { w with io := .write a bs :: w.io }

/-- The writes that place records from a position of the ring on. -/
def placed (data : Nat) (mask : UInt32) : UInt32 → List Bytes → List (Nat × Bytes)
  | _, [] => []
  | pos, r :: rs =>
      (data + (pos &&& mask).toNat, r) :: placed data mask (pos + UInt32.ofNat r.length) rs

/-- The state after writes. -/
def HostState.after (h : HostState) (w : Written) : HostState :=
  { h with ch := { h.ch with gm := w.gm }, io := h.io ++ w.io }

/-- A call that performs the given writes. -/
def Performs (x : Exec HostState MemError Unit) (ws : List (Nat × Bytes)) : Prop :=
  ∀ h : HostState, x.run h = (h.after (writeAll h.ch.gm ws), (writeAll h.ch.gm ws).res)

theorem Performs.mapErr {ε : Type} {x : Exec HostState MemError Unit} {ws : List (Nat × Bytes)}
    (hx : Performs x ws) (f : MemError → ε) (h : HostState) :
  (Exec.mapErr f x).run h
    = (h.after (writeAll h.ch.gm ws), (writeAll h.ch.gm ws).res.mapErr f)
  := by
  rw [Exec.run_mapErr, hx]

theorem performs_gmWrite (a : Nat) (bs : Bytes) :
  Performs (gmWrite a bs) [(a, bs)]
  := by
  intro h
  rw [run_gmWrite, writeAll]
  cases h.ch.gm.writeErr a bs.length with
  | some e => rfl
  | none => rfl

/-- One write in front of others. -/
theorem Performs.cons {x : Exec HostState MemError Unit} {ws : List (Nat × Bytes)}
    (hx : Performs x ws) (a : Nat) (bs : Bytes) :
  Performs (do gmWrite a bs; x) ((a, bs) :: ws)
  := by
  intro h
  have hwrite := run_gmWrite a bs h
  rw [writeAll]
  cases herr : h.ch.gm.writeErr a bs.length with
  | some e =>
      rw [herr] at hwrite
      rw [Exec.run_bind_of_err hwrite]
      rfl
  | none =>
      rw [herr] at hwrite
      rw [Exec.run_bind_of_ok hwrite, hx]
      simp [HostState.after]

/-- Writes behind others. -/
theorem writeAll_append (gm : GuestMem) (xs ys : List (Nat × Bytes)) :
  writeAll gm (xs ++ ys)
    = match (writeAll gm xs).res with
      | .ok () =>
          { writeAll (writeAll gm xs).gm ys with
            io := (writeAll gm xs).io ++ (writeAll (writeAll gm xs).gm ys).io }
      | _ => writeAll gm xs
  := by
  induction xs generalizing gm with
  | nil => rfl
  | cons x xs ih =>
      obtain ⟨a, bs⟩ := x
      simp only [List.cons_append, writeAll]
      cases gm.writeErr a bs.length with
      | some e => rfl
      | none =>
          dsimp only
          rw [ih]
          cases hres : (writeAll { gm with bytes := gm.bytes.write a bs } xs).res with
          | ok u => rfl
          | err e => simp [hres]
          | panic => simp [hres]

/-- Writes never panic. -/
theorem writeAll_res (gm : GuestMem) (ws : List (Nat × Bytes)) :
  (writeAll gm ws).res ≠ .panic
  := by
  induction ws generalizing gm with
  | nil => simp [writeAll]
  | cons x ws ih =>
      obtain ⟨a, bs⟩ := x
      rw [writeAll]
      cases gm.writeErr a bs.length with
      | some e => simp
      | none => apply ih

/-- Writes of which none is refused. -/
theorem writeAll_of_ok {gm : GuestMem} {ws : List (Nat × Bytes)}
    (h : ∀ w ∈ ws, gm.writeErr w.1 w.2.length = none) :
  writeAll gm ws
    = { gm := { gm with bytes := ws.foldl (fun m w => m.write w.1 w.2) gm.bytes }
        io := ws.map fun w => .write w.1 w.2
        res := .ok () }
  := by
  induction ws generalizing gm with
  | nil => rfl
  | cons x ws ih =>
      obtain ⟨a, bs⟩ := x
      have hx : gm.writeErr a bs.length = none := h (a, bs) (by simp)
      have hrest : writeAll { gm with bytes := gm.bytes.write a bs } ws = _ :=
        ih (fun w hw => h w (by simp [hw]))
      rw [writeAll, hx]
      dsimp only
      rw [hrest]
      rfl

section Placed

variable {size : UInt32} {data : Nat} {pos : UInt32} {new : List Bytes}

/-- Writing records where they are placed lays them into the ring. -/
theorem foldl_placed (hpow : Word.isPowerOfTwo size) (m : ByteMem) :
  (placed data (size - 1) pos new).foldl (fun m w => m.write w.1 w.2) m
    = Circular.lay m data size.toNat pos.toNat new
  := by
  induction new generalizing m pos with
  | nil => rfl
  | cons r rs ih =>
      rw [placed, List.foldl_cons, ih, Circular.lay, Word.toNat_and_mask hpow,
        Circular.lay_mod_congr (Word.toNat_add_mod hpow pos r.length)]

/-- Records in one piece are placed inside the data area. -/
theorem placed_inside (hpow : Word.isPowerOfTwo size)
    (hwhole : Circular.Whole size.toNat pos.toNat new) :
  ∀ w ∈ placed data (size - 1) pos new,
    data ≤ w.1 ∧ w.1 + w.2.length ≤ data + size.toNat
  := by
  induction new generalizing pos with
  | nil => simp [placed]
  | cons r rs ih =>
      obtain ⟨hend, hrest⟩ := hwhole
      intro w hw
      rw [placed] at hw
      rcases List.mem_cons.mp hw with rfl | hw
      · dsimp only
        rw [Word.toNat_and_mask hpow]
        omega
      · apply ih _ w hw
        rwa [Circular.whole_mod_congr (Word.toNat_add_mod hpow pos r.length)]

end Placed

/-- Behind the tail a ring starts over. -/
theorem tail_and_mask {prod size : UInt32} {tail : Nat} (hpow : Word.isPowerOfTwo size)
    (htail : tail = (contiguousTail prod size).toNat) :
  prod + UInt32.ofNat tail &&& (size - 1) = 0
  := by
  rw [← UInt32.toNat_inj, Word.toNat_and_mask hpow, Word.toNat_add_mod hpow, htail,
    add_contiguousTail_mod hpow, UInt32.toNat_zero]

/-- A span is written record by record. -/
theorem performs_writeSpan (dbg : Bool) (data : Nat) (seq : UInt32) (bytes : UInt32 → Bytes)
    {prod size : UInt32} {total tail : Nat} (hpow : Word.isPowerOfTwo size)
    (htail : tail = (contiguousTail prod size).toNat)
    (hpad : tail < total → padMinLen ≤ tail) {new : List Bytes}
    (hnew : new = pushRecs tail total seq (seq + 1) bytes) :
  Performs (writeSpan dbg data (size - 1) prod new.flatten (if total ≤ tail then 0 else tail))
    (placed data (size - 1) prod new)
  := by
  subst hnew
  by_cases hle : total ≤ tail
  · rw [if_pos hle, pushRecs, if_pos hle, writeSpan, if_neg (by omega)]
    intro h
    rw [Exec.run_bind_of_ok (Exec.run_pure _ _)]
    simpa [placed] using performs_gmWrite _ _ h
  · have hmin := hpad (by omega)
    have hmin' : 8 ≤ tail := hmin
    have hlen := length_padBytes seq hmin
    have hzero := tail_and_mask hpow htail
    have hplaced : placed data (size - 1) prod [padBytes tail seq, bytes (seq + 1)]
        = [(data + (prod &&& (size - 1)).toNat, padBytes tail seq),
            (data + (prod + UInt32.ofNat tail &&& (size - 1)).toNat, bytes (seq + 1))] := by
      simp only [placed, hlen]
    have hflatten : [padBytes tail seq, bytes (seq + 1)].flatten
        = padBytes tail seq ++ bytes (seq + 1) := by simp
    have hlast := performs_gmWrite (data + (prod + UInt32.ofNat tail &&& (size - 1)).toNat)
      (bytes (seq + 1))
    intro h
    rw [if_neg hle, pushRecs, if_neg hle, hplaced, hflatten,
      ← hlast.cons (data + (prod &&& (size - 1)).toNat) (padBytes tail seq) h, writeSpan,
      if_pos (by omega), List.drop_left' hlen]
    rcases hpad : (gmWrite (data + (prod &&& (size - 1)).toNat) (padBytes tail seq)).run h
      with ⟨h', u | e | _⟩
    · have hwrite : (writeTail dbg data (size - 1) prod (padBytes tail seq ++ bytes (seq + 1))
          tail).run h = (h', .ok (prod + UInt32.ofNat tail)) := by
        rw [writeTail, List.take_left' hlen, Exec.run_bind_of_ok hpad,
          Exec.run_bind_of_ok (Exec.run_debugAssert_of hzero h')]
        rfl
      rw [Exec.run_bind_of_ok hpad, Exec.run_bind_of_ok hwrite]
    · rw [Exec.run_bind_of_err hpad, writeTail, List.take_left' hlen,
        Exec.run_bind_of_err (Exec.run_bind_of_err hpad)]
    · rw [Exec.run_bind_of_panic hpad, writeTail, List.take_left' hlen,
        Exec.run_bind_of_panic (Exec.run_bind_of_panic hpad)]

/-! ### The outcome of a push -/

/-- The `Pad` of a push can be encoded: the tail has room for its header, and in a build
with debug assertions it is aligned. -/
def PadFits (dbg : Bool) (tail : Nat) : Prop :=
  padMinLen ≤ tail ∧ (dbg = true → tail % recordAlign = 0)

instance (dbg : Bool) (tail : Nat) : Decidable (PadFits dbg tail) :=
  inferInstanceAs (Decidable (_ ∧ _))

/-- Write the records of a push behind the producer index, publish and report them. -/
def storeOutcome (ring : RingId) (total : Nat) (seq : UInt32) (prod : UInt32)
    (new : List Bytes) (ch : Channel) (io : List Access) : Outcome PushError (Nat × UInt32) :=
  let newProd := prod + UInt32.ofNat (Circular.span new)
  let w := writeAll ch.gm (placed (ch.dataGpa ring) ((ch.ringDesc ring).size - 1) prod new
    ++ [(ch.prodGpa ring, Bytes.ofU32 newProd)])
  { ch := { ch with gm := w.gm }
    ops :=
      match w.res with
      | .ok () => [.ringPush ring new.flatten newProd]
      | _ => []
    io := io ++ w.io
    res := w.res.mapErr .mem >>= fun _ => .ok (total, seq + UInt32.ofNat new.length) }

/-- The outcome of a push of a record of `total` bytes. -/
def pushOutcome (dbg : Bool) (ring : RingId) (total : Nat) (bytes : UInt32 → Bytes)
    (seq : UInt32) (ch : Channel) : Outcome PushError (Nat × UInt32) :=
  let reads := [Access.read (ch.prodGpa ring) 4, Access.read (ch.consGpa ring) 4]
  match ch.gm.readErr (ch.prodGpa ring) 4 with
  | some e => { ch, ops := [], io := [.read (ch.prodGpa ring) 4], res := .err (.mem e) }
  | none =>
      match ch.gm.readErr (ch.consGpa ring) 4 with
      | some e => { ch, ops := [], io := reads, res := .err (.mem e) }
      | none =>
          let prod := ch.gm.bytes.u32 (ch.prodGpa ring)
          let cons := ch.gm.bytes.u32 (ch.consGpa ring)
          let size := (ch.ringDesc ring).size
          let tail := (contiguousTail prod size).toNat
          if free prod cons size < bytesNeeded prod size (UInt32.ofNat total) then
            { ch, ops := [], io := reads, res := .err .ringFull }
          else if tail < total ∧ ¬ PadFits dbg tail then
            { ch, ops := [], io := reads, res := .panic }
          else
            storeOutcome ring total seq prod (pushRecs tail total seq (seq + 1) bytes) ch reads

/-- The records of a push span the bytes it needs. -/
theorem bytesNeeded_eq_span {prod size : UInt32} {total tail : Nat} {bytes : UInt32 → Bytes}
    (seq : UInt32) (hpow : Word.isPowerOfTwo size) (hmax : total ≤ maxRecordLen)
    (hbytes : ∀ s, (bytes s).length = total) (htail : tail = (contiguousTail prod size).toNat)
    (hpad : tail < total → padMinLen ≤ tail) :
  bytesNeeded prod size (UInt32.ofNat total)
    = UInt32.ofNat (Circular.span (pushRecs tail total seq (seq + 1) bytes))
  := by
  rw [← UInt32.ofNat_toNat (x := bytesNeeded prod size (UInt32.ofNat total)),
    toNat_bytesNeeded hpow prod hmax, ← htail, pushRecs]
  by_cases hle : total ≤ tail
  · simp [hle, hbytes]
  · simp [hle, hbytes, length_padBytes seq (hpad (by omega))]

/-- The records of a push that has room lie in one piece each, wherever the indices
stand. -/
theorem whole_pushRecs_of_room {prod cons size : UInt32} {total : Nat} {bytes : UInt32 → Bytes}
    (seq : UInt32) (hpow : Word.isPowerOfTwo size) (hmax : total ≤ maxRecordLen)
    (hbytes : ∀ s, (bytes s).length = total)
    (hroom : ¬ free prod cons size < bytesNeeded prod size (UInt32.ofNat total))
    (hpad : (contiguousTail prod size).toNat < total →
      padMinLen ≤ (contiguousTail prod size).toNat) :
  Circular.Whole size.toNat prod.toNat
    (pushRecs (contiguousTail prod size).toNat total seq (seq + 1) bytes)
  := by
  have htail := toNat_contiguousTail hpow prod
  have hlt := Nat.mod_lt prod.toNat (Word.toNat_pos hpow)
  rw [UInt32.lt_iff_toNat_lt, toNat_bytesNeeded hpow prod hmax, free,
    Word.toNat_saturatingSub] at hroom
  rw [pushRecs]
  split
  · next hle =>
    refine ⟨?_, trivial⟩
    rw [hbytes]
    omega
  · next hle =>
    rw [if_neg hle] at hroom
    have hlen := length_padBytes seq (hpad (by omega))
    refine ⟨?_, ?_, trivial⟩
    · rw [hlen]
      omega
    · have hzero : (prod.toNat + (contiguousTail prod size).toNat) % size.toNat = 0 :=
        add_contiguousTail_mod hpow prod
      rw [hlen, hzero, hbytes]
      omega

/-- The last part of a push: write the span, publish and report it. -/
theorem run_storeSpan {dbg : Bool} {ring : RingId} {total recordAt : Nat} {seq prod : UInt32}
    {new : List Bytes} (h : HostState) (io : List Access)
    (hspan : Performs (writeSpan dbg (h.ch.dataGpa ring) ((h.ch.ringDesc ring).size - 1) prod
      new.flatten recordAt)
      (placed (h.ch.dataGpa ring) ((h.ch.ringDesc ring).size - 1) prod new))
    {o : Outcome PushError (Nat × UInt32)}
    (ho : o = storeOutcome ring total seq prod new h.ch io) :
  (do
      Exec.mapErr .mem (writeSpan dbg (h.ch.dataGpa ring) ((h.ch.ringDesc ring).size - 1) prod
        new.flatten recordAt)
      Exec.mapErr .mem (gmWriteU32 (h.ch.prodGpa ring)
        (prod + UInt32.ofNat (Circular.span new)))
      report (.ringPush ring new.flatten (prod + UInt32.ofNat (Circular.span new)))
      pure (total, seq + UInt32.ofNat new.length) :
        Exec HostState PushError (Nat × UInt32)).run { h with io := h.io ++ io }
    = ({ ch := o.ch, sink := h.sink ++ o.ops, io := h.io ++ o.io }, o.res)
  := by
  have hmap := hspan.mapErr PushError.mem { h with io := h.io ++ io }
  simp only [storeOutcome, writeAll_append] at ho
  generalize writeAll h.ch.gm (placed (h.ch.dataGpa ring) ((h.ch.ringDesc ring).size - 1) prod
    new) = w at *
  cases hres : w.res with
  | err e =>
      rw [hres] at hmap
      rw [Exec.run_bind_of_err hmap, ho]
      simp [hres, HostState.after]
  | panic =>
      rw [hres] at hmap
      rw [Exec.run_bind_of_panic hmap, ho]
      simp [hres, HostState.after]
  | ok u =>
      rw [hres] at hmap ho
      have hmap' := (performs_gmWrite (h.ch.prodGpa ring) (Bytes.ofU32
        (prod + UInt32.ofNat (Circular.span new)))).mapErr PushError.mem
        (HostState.after { h with io := h.io ++ io } w)
      rw [← gmWriteU32] at hmap'
      dsimp only [HostState.after] at hmap'
      rw [Exec.run_bind_of_ok hmap, ho]
      dsimp only [HostState.after]
      generalize writeAll w.gm [(h.ch.prodGpa ring,
        Bytes.ofU32 (prod + UInt32.ofNat (Circular.span new)))] = v at *
      cases hv : v.res with
      | err e =>
          rw [hv] at hmap'
          rw [Exec.run_bind_of_err hmap']
          simp
      | panic =>
          rw [hv] at hmap'
          rw [Exec.run_bind_of_panic hmap']
          simp
      | ok u =>
          rw [hv] at hmap'
          rw [Exec.run_bind_of_ok hmap']
          simp [report]

/-- A push does what its outcome says. -/
theorem run_pushRecord (dbg : Bool) {ring : RingId} {total : Nat} {bytes : UInt32 → Bytes}
    {encode : UInt32 → Exec Bytes EncodeError Nat} (seq : UInt32) (h : HostState)
    (hpow : Word.isPowerOfTwo (h.ch.ringDesc ring).size) (hmax : total ≤ maxRecordLen)
    (henc : Encodes total bytes encode) (hbytes : ∀ s, (bytes s).length = total)
    {o : Outcome PushError (Nat × UInt32)}
    (ho : o = pushOutcome dbg ring total bytes seq h.ch) :
  (pushRecord dbg ring total encode seq).run h
    = ({ ch := o.ch, sink := h.sink ++ o.ops, io := h.io ++ o.io }, o.res)
  := by
  rw [pushOutcome] at ho
  rw [pushRecord, Exec.run_bind_of_ok (Exec.run_get _)]
  have hprod := run_gmReadU32 PushError.mem (h.ch.prodGpa ring) h
  cases hperr : h.ch.gm.readErr (h.ch.prodGpa ring) 4 with
  | some e =>
      rw [hperr] at ho hprod
      subst ho
      rw [Exec.run_bind_of_err hprod]
      simp
  | none =>
  rw [hperr] at ho hprod
  have hcons := run_gmReadU32 PushError.mem (h.ch.consGpa ring)
    { h with io := h.io ++ [.read (h.ch.prodGpa ring) 4] }
  rw [Exec.run_bind_of_ok hprod]
  dsimp only at hcons ho
  cases hcerr : h.ch.gm.readErr (h.ch.consGpa ring) 4 with
  | some e =>
      rw [hcerr] at ho hcons
      subst ho
      rw [Exec.run_bind_of_err hcons]
      simp
  | none =>
  rw [hcerr] at ho hcons
  rw [Exec.run_bind_of_ok hcons]
  generalize h.ch.gm.bytes.u32 (h.ch.prodGpa ring) = prod at *
  generalize h.ch.gm.bytes.u32 (h.ch.consGpa ring) = cons at *
  dsimp only at ho
  by_cases hfull : free prod cons (h.ch.ringDesc ring).size
      < bytesNeeded prod (h.ch.ringDesc ring).size (UInt32.ofNat total)
  · rw [if_pos hfull] at ho
    subst ho
    rw [Exec.run_bind_of_err (Exec.run_failIf_of hfull _)]
    simp
  rw [if_neg hfull] at ho
  rw [Exec.run_bind_of_ok (Exec.run_failIf_of_not hfull _)]
  by_cases hpanic : (contiguousTail prod (h.ch.ringDesc ring).size).toNat < total
      ∧ ¬ PadFits dbg (contiguousTail prod (h.ch.ringDesc ring).size).toNat
  · rw [if_pos hpanic] at ho
    subst ho
    have hspan := run_encodeSpan_panic encode seq hpow hmax rfl hpanic.1 hpanic.2
    rcases hres : (encodeSpan dbg prod (h.ch.ringDesc ring).size total encode seq).run
        (Bytes.zeros (bytesNeeded prod (h.ch.ringDesc ring).size (UInt32.ofNat total)).toNat)
      with ⟨span, res⟩
    rw [hres] at hspan
    dsimp only at hspan ⊢
    rw [hspan, Res.mapErr_panic, Exec.run_bind_of_panic (Exec.run_lift _ _)]
    simp
  · rw [if_neg hpanic] at ho
    have hfits : (contiguousTail prod (h.ch.ringDesc ring).size).toNat < total
        → PadFits dbg (contiguousTail prod (h.ch.ringDesc ring).size).toNat := by tauto
    have hspan := run_encodeSpan seq hpow hmax henc hbytes rfl hfits rfl
    have hneeded := bytesNeeded_eq_span seq hpow hmax hbytes rfl (fun hlt => (hfits hlt).1)
    have hwrite := performs_writeSpan dbg (h.ch.dataGpa ring) seq bytes hpow rfl
      (fun hlt => (hfits hlt).1) rfl
    have hstore := run_storeSpan h [.read (h.ch.prodGpa ring) 4,
      .read (h.ch.consGpa ring) 4] hwrite ho
    rw [hspan]
    dsimp only [Res.mapErr]
    rw [Exec.run_bind_of_ok (Exec.run_lift _ _), hneeded]
    simpa using hstore

/-! ### The two producers -/

/-- A push, followed by storing the next sequence number when it succeeded. -/
def Outcome.keepSeq (o : Outcome PushError (Nat × UInt32)) (store : Channel → UInt32 → Channel) :
    Outcome PushError Unit :=
  match o.res with
  | .ok (_, seq) => { ch := store o.ch seq, ops := o.ops, io := o.io, res := .ok () }
  | .err e => { ch := o.ch, ops := o.ops, io := o.io, res := .err e }
  | .panic => { ch := o.ch, ops := o.ops, io := o.io, res := .panic }

/-- The outcome of pushing a command. -/
def commandOutcome (dbg : Bool) (cmd : Command) (ch : Channel) : Outcome PushError Unit :=
  (pushOutcome dbg .C (recordLen (commandPayloadLen cmd)) (fun s => commandBytes s cmd)
    ch.nextSeqC ch).keepSeq fun ch seq => { ch with nextSeqC := seq }

/-- The outcome of pushing a workload-control record. -/
def workloadCtrlOutcome (dbg : Bool) (rec : WorkloadCtrl) (ch : Channel) :
    Outcome PushError Unit :=
  (pushOutcome dbg .I (recordLen 8) (fun s => workloadCtrlBytes s 0 rec)
    ch.nextSeqI ch).keepSeq fun ch seq => { ch with nextSeqI := seq }

theorem commandPayloadLen_eq (cmd : Command) :
  commandPayloadLen cmd = cmd.payload.length
  := by
  cases cmd <;> rfl

theorem length_commandBytes (seq : UInt32) (cmd : Command) :
  (commandBytes seq cmd).length = recordLen (commandPayloadLen cmd)
  := by
  rw [commandBytes, length_recordBytes, commandPayloadLen_eq]

theorem encodes_command (dbg : Bool) (cmd : Command) :
  Encodes (recordLen (commandPayloadLen cmd)) (fun s => commandBytes s cmd)
    (fun s => encodeCommand dbg s cmd)
  := by
  intro seq buf hbuf
  rw [commandPayloadLen_eq] at hbuf ⊢
  rw [run_encodeCommand (by omega), List.drop_eq_nil_of_le (by omega), List.append_nil]

theorem encodes_workloadCtrl (dbg : Bool) (vnanos : UInt64) (rec : WorkloadCtrl) :
  Encodes (recordLen 8) (fun s => workloadCtrlBytes s vnanos rec)
    (fun s => encodeWorkloadCtrl dbg s vnanos rec)
  := by
  intro seq buf hbuf
  rw [run_encodeWorkloadCtrl (by omega), List.drop_eq_nil_of_le (by omega), List.append_nil]

/-! ### The whole format -/

/-- The encoder writes the first `n` bytes of the buffer and nothing else, `n` is the length
of a record, and decoding these bytes gives the value `a` behind the header `hdr`. -/
structure RoundTrip {α : Type} (encode : Exec Bytes EncodeError Nat)
    (decode : Bytes → Res DecodeError (RecordHeader × α)) (buf : Bytes) (n : Nat)
    (hdr : RecordHeader) (a : α) : Prop where
  written : ∃ out, encode.run buf = (out, .ok n) ∧ out.length = buf.length ∧
    out.drop n = buf.drop n ∧ decode (out.take n) = .ok (hdr, a)
  aligned : n % 8 = 0
  least : 16 ≤ n
  most : n ≤ 4096
  len : hdr.len.toNat = n

theorem RoundTrip.of_bytes {α : Type} {encode : Exec Bytes EncodeError Nat}
    {decode : Bytes → Res DecodeError (RecordHeader × α)} {buf bytes : Bytes} {n : Nat}
    {hdr : RecordHeader} {a : α} (hrun : encode.run buf = (bytes ++ buf.drop n, .ok n))
    (hlen : bytes.length = n) (hbuf : n ≤ buf.length) (hdecode : decode bytes = .ok (hdr, a))
    (hmod : n % 8 = 0) (hmin : 16 ≤ n) (hmax : n ≤ 4096)
    (hhdr : hdr.len = UInt16.ofNat n) :
  RoundTrip encode decode buf n hdr a
  where
  written := by
    refine ⟨bytes ++ buf.drop n, hrun, ?_, ?_, ?_⟩
    · rw [List.length_append, List.length_drop, hlen]
      omega
    · rw [← hlen, List.drop_left]
    · rw [← hlen, List.take_left]
      exact hdecode
  aligned := hmod
  least := hmin
  most := hmax
  len := by
    rw [hhdr]
    apply UInt16.toNat_ofNat_of_lt'
    simp only [UInt16.size]
    omega

/-- The header that an event comes back with. -/
def decodedHeader (seq : UInt32) (vnanos : UInt64) (extraFlags : UInt8) (ev : EventPayload) :
    RecordHeader :=
  { len := UInt16.ofNat (encodedEventLen ev)
    kind := ev.kind.toU8
    flags := if ev = .pad then 0 else eventFlags extraFlags ev
    seq
    vnanos := if ev = .pad then 0 else vnanos }

theorem eventHeader_eq (seq : UInt32) (vnanos : UInt64) (extraFlags : UInt8)
    (ev : EventPayload) :
  eventHeader seq vnanos extraFlags ev = decodedHeader seq vnanos extraFlags ev
  := by
  by_cases hpad : ev = .pad
  · subst hpad
    rfl
  · rw [decodedHeader, if_neg hpad, if_neg hpad, ← length_payload hpad]
    cases ev with
    | pad => contradiction
    | _ => rfl

/-- **The record formats.**  Every event with an encodable name, every command and every
workload-control record goes through its encoder and decoder, into any buffer that is long
enough; a longer name is refused.  The encoded length is the one that is reserved for the
record. -/
theorem formats_round_trip (dbg : Bool) (seq : UInt32) (vnanos : UInt64) (extraFlags : UInt8)
    (buf : Bytes) :
  (∀ ev : EventPayload, ev.Encodable → encodedEventLen ev ≤ buf.length →
    RoundTrip (encodeEvent dbg seq vnanos extraFlags ev) decodeEvent buf (encodedEventLen ev)
      (decodedHeader seq vnanos extraFlags ev) ev.clip) ∧
  (∀ nameId name, maxName < name.length →
    (encodeEvent dbg seq vnanos extraFlags (.nameIntern nameId name)).run buf
      = (buf, .err .fieldTooLong)) ∧
  (∀ cmd : Command, recordLen (commandPayloadLen cmd) ≤ buf.length →
    RoundTrip (encodeCommand dbg seq cmd) decodeCommand buf (recordLen (commandPayloadLen cmd))
      { len := UInt16.ofNat (recordLen (commandPayloadLen cmd)), kind := cmd.kind.toU8, flags := 0,
        seq, vnanos := 0 } cmd) ∧
  (∀ rec : WorkloadCtrl, recordLen 8 ≤ buf.length →
    RoundTrip (encodeWorkloadCtrl dbg seq vnanos rec) decodeWorkloadCtrl buf (recordLen 8)
      { len := UInt16.ofNat (recordLen 8), kind := rec.kind.toU8, flags := 0, seq, vnanos } rec)
  := by
  refine ⟨?_, ?_, ?_, ?_⟩
  · intro ev hev hbuf
    have hbounds := encodedEventLen_bounds hev
    apply RoundTrip.of_bytes (run_encodeEvent hev hbuf) (length_eventBytes _ _ _ _) hbuf
    · rw [decodeEvent_eventBytes hev, eventHeader_eq]
    · apply encodedEventLen_mod
    · exact hbounds.1
    · omega
    · rfl
  · intro nameId name hlong
    rw [encodeEvent, Exec.run_bind_of_err (Exec.run_failIf_of hlong buf)]
  · intro cmd hbuf
    have hlen := commandPayloadLen_eq cmd
    rw [hlen] at hbuf ⊢
    apply RoundTrip.of_bytes (run_encodeCommand hbuf) (length_recordBytes _ _ _ _ _) hbuf
      (decodeCommand_commandBytes seq cmd)
    · apply recordLen_mod
    · exact Nat.le_trans (Nat.le_add_right _ _) (recordLen_ge _)
    · exact cmd.recordLen_le
    · rfl
  · intro rec hbuf
    apply RoundTrip.of_bytes (run_encodeWorkloadCtrl hbuf) (length_workloadCtrlBytes _ _ _) hbuf
    · rw [decodeWorkloadCtrl_workloadCtrlBytes, recordHeader, rec.length_payload]
    · decide
    · decide
    · decide
    · rfl

/-- A declared name of one byte takes 32 bytes of a longer buffer. -/
theorem formats_round_trip_name :
  RoundTrip (encodeEvent true 7 9 2 (.nameIntern 1 [0x61])) decodeEvent (Bytes.zeros 40) 32
    { len := 32, kind := 2, flags := 2, seq := 7, vnanos := 9 } (.nameIntern 1 [0x61])
  := (formats_round_trip true 7 9 2 (Bytes.zeros 40)).1 (.nameIntern 1 [0x61]) (by decide) (by decide)

/-! ### The commands of the host -/

/-- A successful push returns the length of its record. -/
theorem pushOutcome_fst {dbg : Bool} {ring : RingId} {total : Nat} {bytes : UInt32 → Bytes}
    {seq : UInt32} {ch : Channel} {n : Nat} {seq' : UInt32}
    (h : (pushOutcome dbg ring total bytes seq ch).res = .ok (n, seq')) :
  n = total
  := by
  simp only [pushOutcome, storeOutcome] at h
  split at h
  · cases h
  split at h
  · cases h
  split at h
  · cases h
  split at h
  · cases h
  obtain ⟨_, _, hok⟩ := Res.bind_eq_ok.mp h
  exact (Prod.mk.inj (Res.ok.inj hok)).1.symm

/-- A call that pushes a record, keeps the next sequence number and checks the length. -/
theorem run_keepSeq {dbg : Bool} {ring : RingId} {total : Nat} {bytes : UInt32 → Bytes}
    {seq : UInt32} {push : Exec HostState PushError (Nat × UInt32)} {h : HostState}
    (store : Channel → UInt32 → Channel) {o : Outcome PushError (Nat × UInt32)}
    (ho : o = pushOutcome dbg ring total bytes seq h.ch)
    (hpush : push.run h
      = ({ ch := o.ch, sink := h.sink ++ o.ops, io := h.io ++ o.io }, o.res)) :
  (do
      let (pushed, seq) ← push
      Exec.modify fun h => { h with ch := store h.ch seq }
      Exec.debugAssert dbg (pushed = total) : Exec HostState PushError Unit).run h
    = ({ ch := (o.keepSeq store).ch, sink := h.sink ++ (o.keepSeq store).ops,
          io := h.io ++ (o.keepSeq store).io }, (o.keepSeq store).res)
  := by
  rcases hres : o.res with ⟨n, seq'⟩ | e | _
  · have hn : n = total := by
      rw [ho] at hres
      exact pushOutcome_fst hres
    rw [hres] at hpush
    rw [Exec.run_bind_of_ok hpush]
    simp [Outcome.keepSeq, hres, hn]
  · rw [hres] at hpush
    rw [Exec.run_bind_of_err hpush]
    simp [Outcome.keepSeq, hres]
  · rw [hres] at hpush
    rw [Exec.run_bind_of_panic hpush]
    simp [Outcome.keepSeq, hres]

theorem run_pushCommand (dbg : Bool) (cmd : Command) (h : HostState)
    (hpow : Word.isPowerOfTwo (h.ch.ringDesc .C).size) {o : Outcome PushError Unit}
    (ho : o = commandOutcome dbg cmd h.ch) :
  (pushCommand dbg cmd).run h
    = ({ ch := o.ch, sink := h.sink ++ o.ops, io := h.io ++ o.io }, o.res)
  := by
  have hmax : recordLen (commandPayloadLen cmd) ≤ maxRecordLen := by
    rw [commandPayloadLen_eq]
    exact cmd.recordLen_le
  have hpush := run_pushRecord dbg h.ch.nextSeqC h hpow hmax (encodes_command dbg cmd)
    (fun s => length_commandBytes s cmd) rfl
  rw [pushCommand, Exec.run_bind_of_ok (Exec.run_get _), ho, commandOutcome]
  exact run_keepSeq (fun ch seq => { ch with nextSeqC := seq }) rfl hpush

theorem run_pushWorkloadCtrl (dbg : Bool) (rec : WorkloadCtrl) (h : HostState)
    (hpow : Word.isPowerOfTwo (h.ch.ringDesc .I).size) {o : Outcome PushError Unit}
    (ho : o = workloadCtrlOutcome dbg rec h.ch) :
  (pushWorkloadCtrl dbg rec).run h
    = ({ ch := o.ch, sink := h.sink ++ o.ops, io := h.io ++ o.io }, o.res)
  := by
  have hpush := run_pushRecord dbg h.ch.nextSeqI h hpow (by decide) (encodes_workloadCtrl dbg 0 rec)
    (fun s => length_workloadCtrlBytes s 0 rec) rfl
  rw [pushWorkloadCtrl, Exec.run_bind_of_ok (Exec.run_get _), ho, workloadCtrlOutcome]
  exact run_keepSeq (fun ch seq => { ch with nextSeqI := seq }) rfl hpush

end Host
