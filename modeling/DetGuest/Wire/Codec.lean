import DetGuest.Wire.Events

/-!
# The records of the codecs

The bytes the encoders write, as functions of what they encode, and the values the
decoders give back for them.  An encoder fills the first bytes of its buffer and leaves
the others; decoding what was encoded gives the same payload, its details and messages
clipped at their caps.
-/

namespace Wire

/-! ### Records -/

/-- The record of the given kind and payload. -/
def recordBytes (kind flags : UInt8) (seq : UInt32) (vnanos : UInt64) (payload : Bytes) :
    Bytes :=
  framed (UInt16.ofNat (recordLen payload.length)) kind flags seq
    (Bytes.ofU64 vnanos ++ (payload ++ Bytes.zeros (pad8 payload.length - payload.length)))

theorem length_recordBytes (kind flags : UInt8) (seq : UInt32) (vnanos : UInt64)
    (payload : Bytes) :
  (recordBytes kind flags seq vnanos payload).length = recordLen payload.length
  := by
  have h := le_pad8 payload.length
  simp only [recordBytes, length_framed, List.length_append, Bytes.length_ofU64,
    List.length_replicate, recordLen, recordHeaderLen]
  omega

/-- A payload writer that turns zeros into `p` makes a record with payload `p`. -/
theorem run_encodeWith {dbg : Bool} {kind flags : UInt8} {seq : UInt32} {vnanos : UInt64}
    {n : Nat} {fill : Exec Bytes EncodeError Unit} {p buf : Bytes}
    (hfill : fill.run (Bytes.zeros n) = (p, .ok ())) (hp : p.length = n)
    (hmax : recordLen n ≤ maxRecordLen) (hbuf : recordLen n ≤ buf.length) :
  (encodeWith dbg kind flags seq vnanos n fill).run buf
    = (recordBytes kind flags seq vnanos p ++ buf.drop (recordLen n), .ok (recordLen n))
  := by
  have hk := le_pad8 n
  have htotal : recordLen n = pad8 n + 16 := Nat.add_comm 16 (pad8 n)
  have hmax' : recordLen n ≤ 4096 := hmax
  have hlen : (UInt16.ofNat (recordLen n)).toNat = recordLen n := UInt16.toNat_ofNat_of_lt' (by
    simp only [UInt16.size]
    omega)
  have hput : (Bytes.put 0 (Bytes.zeros (recordLen n)) : Exec Bytes EncodeError Unit).run buf
      = (Bytes.zeros 16 ++ (Bytes.zeros (pad8 n) ++ buf.drop (recordLen n)), .ok ()) := by
    rw [Bytes.run_put (by simpa using hbuf), Bytes.splice, List.take_zero, List.nil_append,
      List.length_replicate, Nat.zero_add, htotal]
    rfl
  -- the payload lies behind the header and is still all zeros when `fill` gets it
  have hzero : (Bytes.zeros (pad8 n) ++ buf.drop (recordLen n)).take n = Bytes.zeros n := by
    rw [List.take_append_of_le_length (by simpa using hk), List.take_replicate,
      Nat.min_eq_left hk]
  have hrest : (Bytes.zeros (pad8 n) ++ buf.drop (recordLen n)).drop n
      = Bytes.zeros (pad8 n - n) ++ buf.drop (recordLen n) := by
    rw [List.drop_append_of_le_length (by simpa using hk), List.drop_replicate]
  rw [encodeWith, Exec.run_bind_of_ok (Exec.run_debugAssert_of hmax buf),
    Exec.run_bind_of_ok (Exec.run_get buf),
    Exec.run_bind_of_ok (Exec.run_failIf_of_not (by omega) buf), Exec.run_bind_of_ok hput,
    Exec.run_bind_of_ok (run_writeTo (by simp only [hlen, recordHeaderLen]; omega)
      (by simp [recordHeaderLen]))]
  have hwithin : (Bytes.within recordHeaderLen (recordHeaderLen + n) fill).run
      (framed (UInt16.ofNat (recordLen n)) kind flags seq (Bytes.ofU64 vnanos
        ++ (Bytes.zeros 16 ++ (Bytes.zeros (pad8 n) ++ buf.drop (recordLen n))).drop 16))
      = (recordBytes kind flags seq vnanos p ++ buf.drop (recordLen n), .ok ()) := by
    rw [Bytes.run_within (by omega) (by
      simp only [length_framed, recordHeaderLen, List.length_append, Bytes.length_ofU64,
        List.length_drop, List.length_replicate]
      omega)]
    have hext : (framed (UInt16.ofNat (recordLen n)) kind flags seq (Bytes.ofU64 vnanos
        ++ (Bytes.zeros 16 ++ (Bytes.zeros (pad8 n) ++ buf.drop (recordLen n))).drop 16)).extract
          recordHeaderLen (recordHeaderLen + n) = Bytes.zeros n := by
      rw [Bytes.extract, Nat.add_sub_cancel_left, ← hzero]
      rfl
    rw [hext, hfill, Bytes.splice, hp, recordHeaderLen, Nat.add_comm 16 n]
    have hdrop : List.drop (n + 16) (framed (UInt16.ofNat (recordLen n)) kind flags seq
        (Bytes.ofU64 vnanos ++ List.drop 16 (Bytes.zeros 16
          ++ (Bytes.zeros (pad8 n) ++ List.drop (recordLen n) buf))))
        = Bytes.zeros (pad8 n - n) ++ buf.drop (recordLen n) := hrest
    rw [hdrop, recordBytes, hp]
    simp only [framed_append, List.append_assoc]
    rfl
  rw [Exec.run_bind_of_ok hwithin]
  rfl

/-- The header of a record. -/
def recordHeader (kind flags : UInt8) (seq : UInt32) (vnanos : UInt64) (n : Nat) :
    RecordHeader :=
  { len := UInt16.ofNat (recordLen n), kind, flags, seq, vnanos }

/-- A record decodes to its header. -/
theorem readFrom_recordBytes {kind flags : UInt8} {seq : UInt32} {vnanos : UInt64}
    {payload : Bytes} (hmax : recordLen payload.length ≤ maxRecordLen) :
  RecordHeader.readFrom (recordBytes kind flags seq vnanos payload)
    = .ok (recordHeader kind flags seq vnanos payload.length)
  := by
  have hk := recordLen_ge payload.length
  simp only [recordHeaderLen, maxRecordLen] at hk hmax
  have hlen : (UInt16.ofNat (recordLen payload.length)).toNat = recordLen payload.length :=
    UInt16.toNat_ofNat_of_lt' (by
      simp only [UInt16.size]
      omega)
  have hmin : minLen kind ≤ recordLen payload.length := by
    simp only [minLen, padMinLen, minRecordLen]
    split <;> omega
  have hl := length_recordBytes kind flags seq vnanos payload
  rw [recordBytes] at hl ⊢
  rw [length_framed] at hl
  rw [readFrom_framed _ _ _ _ _ (by rw [hlen]; apply recordLen_mod) (by rw [hlen]; exact hmax)
    (by rw [hlen]; exact hmin) (by omega), if_pos (by simp only [hlen, recordHeaderLen]; omega),
    Bytes.extract_append_left (Bytes.length_ofU64 vnanos), Bytes.toU64_ofU64]
  rfl

/-- The payload of a record lies between the header and the end of the record. -/
theorem slice_recordBytes {ε : Type} {kind flags : UInt8} {seq : UInt32} {vnanos : UInt64}
    {payload : Bytes} (hmax : recordLen payload.length ≤ maxRecordLen) :
  ((recordBytes kind flags seq vnanos payload).slice
      (recordHeader kind flags seq vnanos payload.length).payloadRange.1
      (recordHeader kind flags seq vnanos payload.length).payloadRange.2 : Res ε Bytes)
    = .ok (payload ++ Bytes.zeros (pad8 payload.length - payload.length))
  := by
  have hk := recordLen_ge payload.length
  have hl := length_recordBytes kind flags seq vnanos payload
  simp only [recordHeaderLen, maxRecordLen] at hk hmax
  have hlen : (UInt16.ofNat (recordLen payload.length)).toNat = recordLen payload.length :=
    UInt16.toNat_ofNat_of_lt' (by
      simp only [UInt16.size]
      omega)
  -- a bare header has its empty payload at its end, like any other record
  have hrange : (recordHeader kind flags seq vnanos payload.length).payloadRange
      = (16, recordLen payload.length) := by
    simp only [RecordHeader.payloadRange, recordHeader, hlen, recordHeaderLen]
    split
    · rename_i hle
      rw [Nat.le_antisymm hle (by omega)]
    · rfl
  rw [hrange, Bytes.slice_of_le (by omega) (by omega), Bytes.extract, ← hl,
    ← List.length_drop, List.take_length]
  rfl

/-! ### Events -/

/-- The kind of a payload. -/
def EventPayload.kind : EventPayload → EventKind
  | .pad => .pad
  | .hello _ _ _ => .hello
  | .nameIntern _ _ => .nameIntern
  | .assertViolation _ _ _ => .assertViolation
  | .reachable _ => .reachable
  | .beacon _ => .beacon
  | .injectQuery _ _ => .injectQuery
  | .regionRegister _ => .regionRegister
  | .regionUpdate _ => .regionUpdate
  | .workloadStarted _ _ => .workloadStarted
  | .workloadExited _ _ _ => .workloadExited
  | .logLine _ _ _ => .logLine
  | .quiesceReady _ => .quiesceReady
  | .frameMark _ => .frameMark
  | .ready _ _ _ => .ready

/-- The payload with its details or message clipped at the cap. -/
def EventPayload.clip : EventPayload → EventPayload
  | .assertViolation nameId violationCount details =>
      .assertViolation nameId violationCount (details.take maxDetails)
  | .logLine stream level msg => .logLine stream level (msg.take maxLogMsg)
  | ev => ev

/-- Whether clipping shortens the payload. -/
def EventPayload.overCap : EventPayload → Bool
  | .assertViolation _ _ details => maxDetails < details.length
  | .logLine _ _ msg => maxLogMsg < msg.length
  | _ => false

/-- The flags of the record of an event: those the caller adds, and `TRUNCATED` when a
field was clipped. -/
def eventFlags (extraFlags : UInt8) (ev : EventPayload) : UInt8 :=
  extraFlags ||| if ev.overCap then flagTruncated else 0

/-- The bytes of the payload of a record, without the final padding. -/
def EventPayload.payload : EventPayload → Bytes
  | .pad => []
  | .hello protoVersion agentVersion capabilities =>
      Bytes.ofU32 protoVersion ++ (Bytes.ofU32 agentVersion ++ Bytes.ofU64 capabilities)
  | .nameIntern nameId name =>
      Bytes.ofU32 nameId ++ (Bytes.ofU16 (UInt16.ofNat name.length) ++ (0 :: 0 :: name))
  | .assertViolation nameId violationCount details =>
      Bytes.ofU32 nameId ++ (Bytes.ofU32 violationCount
        ++ (Bytes.ofU16 (UInt16.ofNat (details.take maxDetails).length)
          ++ (0 :: 0 :: 0 :: 0 :: 0 :: 0 :: details.take maxDetails)))
  | .reachable nameId => Bytes.ofU32 nameId ++ Bytes.zeros 4
  | .beacon beaconId => Bytes.ofU32 beaconId ++ Bytes.zeros 4
  | .injectQuery iseq nameId => Bytes.ofU32 iseq ++ Bytes.ofU32 nameId
  | .regionRegister r | .regionUpdate r =>
      Bytes.ofU32 r.regionId ++ (Bytes.ofU32 r.nameId
        ++ (Bytes.ofU32 r.layoutVersion ++ Bytes.ofU32 r.manifestGeneration))
  | .workloadStarted guestPid unit => Bytes.ofU32 guestPid ++ Bytes.ofU32 unit
  | .workloadExited guestPid exitCode termSignal =>
      Bytes.ofU32 guestPid ++ (Bytes.ofU32 exitCode.toUInt32
        ++ (Bytes.ofU32 termSignal.toUInt32 ++ Bytes.zeros 4))
  | .logLine stream level msg =>
      stream :: level :: (Bytes.ofU16 (UInt16.ofNat (msg.take maxLogMsg).length)
        ++ (0 :: 0 :: 0 :: 0 :: msg.take maxLogMsg))
  | .quiesceReady token => Bytes.ofU64 token
  | .frameMark frameIndex => Bytes.ofU32 frameIndex ++ Bytes.zeros 4
  | .ready unit regionCount manifestGeneration =>
      Bytes.ofU32 unit ++ (Bytes.ofU32 regionCount ++ Bytes.ofU64 manifestGeneration)

/-- The record of an event.  A `Pad` carries neither flags nor a time stamp. -/
def eventBytes (seq : UInt32) (vnanos : UInt64) (extraFlags : UInt8) (ev : EventPayload) :
    Bytes :=
  match ev with
  | .pad => padBytes recordHeaderLen seq
  | ev => recordBytes ev.kind.toU8 (eventFlags extraFlags ev) seq vnanos ev.payload

/-- The names the encoder accepts: a `NameIntern` carries at most 256 bytes. -/
def EventPayload.Encodable : EventPayload → Prop
  | .nameIntern _ name => name.length ≤ maxName
  | _ => True

instance (ev : EventPayload) : Decidable ev.Encodable := by
  unfold EventPayload.Encodable
  split
  · infer_instance
  · infer_instance

theorem eventBytes_of_ne_pad {seq : UInt32} {vnanos : UInt64} {extraFlags : UInt8}
    {ev : EventPayload} (h : ev ≠ .pad) :
  eventBytes seq vnanos extraFlags ev
    = recordBytes ev.kind.toU8 (eventFlags extraFlags ev) seq vnanos ev.payload
  := by
  cases ev with
  | pad => contradiction
  | _ => rfl

theorem length_payload {ev : EventPayload} (h : ev ≠ .pad) :
  recordLen ev.payload.length = encodedEventLen ev
  := by
  cases ev with
  | pad => contradiction
  | assertViolation nameId violationCount details =>
      simp [EventPayload.payload, encodedEventLen, Nat.min_comm]
      congr 1
      omega
  | logLine stream level msg =>
      simp [EventPayload.payload, encodedEventLen, Nat.min_comm]
      congr 1
      omega
  | nameIntern nameId name =>
      simp [EventPayload.payload, encodedEventLen]
      congr 1
      omega
  | _ => simp [EventPayload.payload, encodedEventLen]

theorem encodedEventLen_bounds {ev : EventPayload} (h : ev.Encodable) :
  recordHeaderLen ≤ encodedEventLen ev ∧ encodedEventLen ev ≤ 1048
  := by
  cases ev with
  | nameIntern nameId name =>
      have hn : name.length ≤ 256 := h
      simp only [encodedEventLen, recordLen, pad8, recordHeaderLen, recordAlign]
      omega
  | assertViolation nameId violationCount details =>
      simp only [encodedEventLen, recordLen, pad8, recordHeaderLen, recordAlign, maxDetails]
      omega
  | logLine stream level msg =>
      simp only [encodedEventLen, recordLen, pad8, recordHeaderLen, recordAlign, maxLogMsg]
      omega
  | _ =>
      simp only [encodedEventLen, recordLen, pad8, recordHeaderLen, recordAlign]
      omega

theorem encodedEventLen_mod (ev : EventPayload) :
  encodedEventLen ev % recordAlign = 0
  := by
  simp only [encodedEventLen]
  split
  · rfl
  all_goals apply recordLen_mod

theorem length_eventBytes (seq : UInt32) (vnanos : UInt64) (extraFlags : UInt8)
    (ev : EventPayload) :
  (eventBytes seq vnanos extraFlags ev).length = encodedEventLen ev
  := by
  by_cases h : ev = .pad
  · subst h
    apply length_padBytes seq
    decide
  · rw [eventBytes_of_ne_pad h, length_recordBytes, length_payload h]

/-- Writing behind a prefix, over zeros. -/
theorem run_put_zeros {ε : Type} {xs bs : Bytes} {lo n : Nat} (h : xs.length = lo)
    (hn : bs.length ≤ n) :
  (Bytes.put lo bs : Exec Bytes ε Unit).run (xs ++ Bytes.zeros n)
    = (xs ++ bs ++ Bytes.zeros (n - bs.length), .ok ())
  := by
  rw [Bytes.run_put (by simp only [List.length_append, List.length_replicate]; omega),
    Bytes.splice_append_zeros h]

theorem fill_nameIntern (nameId : UInt32) (name : Bytes) :
  (do
      putU32 0 nameId
      Bytes.put 4 (Bytes.ofU16 (UInt16.ofNat name.length))
      Bytes.put 8 name : Exec Bytes EncodeError Unit).run (Bytes.zeros (8 + name.length))
    = ((EventPayload.nameIntern nameId name).payload, .ok ())
  := by
  have hid : (putU32 0 nameId).run (Bytes.zeros (8 + name.length))
      = (Bytes.ofU32 nameId ++ (Bytes.zeros 4 ++ Bytes.zeros name.length), .ok ()) := by
    rw [putU32, Bytes.run_put (by simp only [Bytes.length_ofU32, List.length_replicate]; omega),
      Bytes.zeros, ← List.replicate_append_replicate]
    rfl
  have hlen : (Bytes.put 4 (Bytes.ofU16 (UInt16.ofNat name.length)) :
        Exec Bytes EncodeError Unit).run
        (Bytes.ofU32 nameId ++ (Bytes.zeros 4 ++ Bytes.zeros name.length))
      = (Bytes.ofU32 nameId ++ (Bytes.ofU16 (UInt16.ofNat name.length) ++ Bytes.zeros 2)
          ++ Bytes.zeros name.length, .ok ()) := by
    rw [Bytes.run_put (by simp; omega)]
    rfl
  rw [Exec.run_bind_of_ok hid, Exec.run_bind_of_ok hlen, run_put_zeros (by simp) (Nat.le_refl _)]
  simp [EventPayload.payload, List.replicate]

theorem fill_assertViolation (nameId violationCount : UInt32) (details : Bytes) :
  (do
      putU32 0 nameId
      putU32 4 violationCount
      Bytes.put 8 (Bytes.ofU16 (UInt16.ofNat (details.take maxDetails).length))
      Bytes.put 16 (details.take maxDetails) : Exec Bytes EncodeError Unit).run
        (Bytes.zeros (16 + (details.take maxDetails).length))
    = ((EventPayload.assertViolation nameId violationCount details).payload, .ok ())
  := by
  simp only [EventPayload.payload]
  generalize details.take maxDetails = clipped
  have hid : (putU32 0 nameId).run (Bytes.zeros (16 + clipped.length))
      = (Bytes.ofU32 nameId ++ (Bytes.zeros 12 ++ Bytes.zeros clipped.length), .ok ()) := by
    rw [putU32, Bytes.run_put (by simp only [Bytes.length_ofU32, List.length_replicate]; omega),
      Bytes.zeros, ← List.replicate_append_replicate]
    rfl
  have hcount : (putU32 4 violationCount).run
        (Bytes.ofU32 nameId ++ (Bytes.zeros 12 ++ Bytes.zeros clipped.length))
      = (Bytes.ofU32 nameId ++ (Bytes.ofU32 violationCount
          ++ (Bytes.zeros 8 ++ Bytes.zeros clipped.length)), .ok ()) := by
    rw [putU32, Bytes.run_put (by simp; omega)]
    rfl
  have hlen : (Bytes.put 8 (Bytes.ofU16 (UInt16.ofNat clipped.length)) :
        Exec Bytes EncodeError Unit).run (Bytes.ofU32 nameId ++ (Bytes.ofU32 violationCount
          ++ (Bytes.zeros 8 ++ Bytes.zeros clipped.length)))
      = (Bytes.ofU32 nameId ++ (Bytes.ofU32 violationCount
          ++ (Bytes.ofU16 (UInt16.ofNat clipped.length) ++ Bytes.zeros 6))
          ++ Bytes.zeros clipped.length, .ok ()) := by
    rw [Bytes.run_put (by simp; omega)]
    rfl
  rw [Exec.run_bind_of_ok hid, Exec.run_bind_of_ok hcount, Exec.run_bind_of_ok hlen,
    run_put_zeros (by simp) (Nat.le_refl _)]
  simp [List.replicate]

theorem fill_logLine (stream level : UInt8) (msg : Bytes) :
  (do
      Bytes.put 0 [stream]
      Bytes.put 1 [level]
      Bytes.put 2 (Bytes.ofU16 (UInt16.ofNat (msg.take maxLogMsg).length))
      Bytes.put 8 (msg.take maxLogMsg) : Exec Bytes EncodeError Unit).run
        (Bytes.zeros (8 + (msg.take maxLogMsg).length))
    = ((EventPayload.logLine stream level msg).payload, .ok ())
  := by
  simp only [EventPayload.payload]
  generalize msg.take maxLogMsg = clipped
  have hstream : (Bytes.put 0 [stream] : Exec Bytes EncodeError Unit).run
        (Bytes.zeros (8 + clipped.length))
      = (stream :: (Bytes.zeros 7 ++ Bytes.zeros clipped.length), .ok ()) := by
    rw [Bytes.run_put (by simp only [List.length_singleton, List.length_replicate]; omega),
      Bytes.zeros, ← List.replicate_append_replicate]
    rfl
  have hlevel : (Bytes.put 1 [level] : Exec Bytes EncodeError Unit).run
        (stream :: (Bytes.zeros 7 ++ Bytes.zeros clipped.length))
      = (stream :: level :: (Bytes.zeros 6 ++ Bytes.zeros clipped.length), .ok ()) := by
    rw [Bytes.run_put (by simp; omega)]
    rfl
  have hlen : (Bytes.put 2 (Bytes.ofU16 (UInt16.ofNat clipped.length)) :
        Exec Bytes EncodeError Unit).run
        (stream :: level :: (Bytes.zeros 6 ++ Bytes.zeros clipped.length))
      = (stream :: level :: (Bytes.ofU16 (UInt16.ofNat clipped.length) ++ Bytes.zeros 4)
          ++ Bytes.zeros clipped.length, .ok ()) := by
    rw [Bytes.run_put (by simp; omega)]
    rfl
  rw [Exec.run_bind_of_ok hstream, Exec.run_bind_of_ok hlevel, Exec.run_bind_of_ok hlen,
    run_put_zeros (by simp) (Nat.le_refl _)]
  simp [List.replicate]

/-- A payload writer that produces the payload of an event makes the record of the
event. -/
theorem run_encodeWith_event {dbg : Bool} {seq : UInt32} {vnanos : UInt64}
    {extraFlags flags : UInt8} {e : EventPayload} {fill : Exec Bytes EncodeError Unit}
    {buf : Bytes} {n : Nat} (hne : e ≠ .pad) (hflags : flags = eventFlags extraFlags e)
    (hn : e.payload.length = n) (hfill : fill.run (Bytes.zeros n) = (e.payload, .ok ()))
    (hmax : encodedEventLen e ≤ maxRecordLen) (hbuf : encodedEventLen e ≤ buf.length) :
  (encodeWith dbg e.kind.toU8 flags seq vnanos n fill).run buf
    = (eventBytes seq vnanos extraFlags e ++ buf.drop (encodedEventLen e),
        .ok (encodedEventLen e))
  := by
  subst hflags
  rw [← length_payload hne, hn] at hmax hbuf ⊢
  rw [eventBytes_of_ne_pad hne]
  apply run_encodeWith hfill hn hmax hbuf

theorem length_take_lt {α : Type} {l : List α} {n : Nat} :
  (l.take n).length < l.length ↔ n < l.length
  := by
  rw [List.length_take]
  omega

/-- An encodable event is written to the first bytes of the buffer. -/
theorem run_encodeEvent {dbg : Bool} {seq : UInt32} {vnanos : UInt64} {extraFlags : UInt8}
    {ev : EventPayload} {buf : Bytes} (hev : ev.Encodable)
    (hbuf : encodedEventLen ev ≤ buf.length) :
  (encodeEvent dbg seq vnanos extraFlags ev).run buf
    = (eventBytes seq vnanos extraFlags ev ++ buf.drop (encodedEventLen ev),
        .ok (encodedEventLen ev))
  := by
  have hmax : encodedEventLen ev ≤ maxRecordLen :=
    Nat.le_trans (encodedEventLen_bounds hev).2 (by decide)
  have hor : extraFlags = extraFlags ||| 0 := UInt8.or_zero.symm
  cases ev with
  | pad =>
      have hpad : (encodePad dbg recordHeaderLen seq).run buf
          = (padBytes recordHeaderLen seq ++ buf.drop recordHeaderLen, .ok recordHeaderLen) :=
        run_encodePad (fun _ => by decide) (by decide) (by decide) hbuf
      rw [encodeEvent, Exec.run_bind_of_ok hpad]
      rfl
  | nameIntern nameId name =>
      have hn : name.length ≤ maxName := hev
      rw [encodeEvent, Exec.run_bind_of_ok (Exec.run_failIf_of_not (by omega) buf)]
      apply run_encodeWith_event (e := .nameIntern nameId name) (by simp) hor _
        (fill_nameIntern nameId name) hmax hbuf
      simp [EventPayload.payload]
      omega
  | assertViolation nameId violationCount details =>
      apply run_encodeWith_event (e := .assertViolation nameId violationCount details) (by simp) _ _
        (fill_assertViolation nameId violationCount details) hmax hbuf
      · simp only [eventFlags, EventPayload.overCap, length_take_lt, decide_eq_true_eq]
      · simp [EventPayload.payload]
        omega
  | logLine stream level msg =>
      apply run_encodeWith_event (e := .logLine stream level msg) (by simp) _ _
        (fill_logLine stream level msg) hmax hbuf
      · simp only [eventFlags, EventPayload.overCap, length_take_lt, decide_eq_true_eq]
      · simp [EventPayload.payload]
        omega
  | hello protoVersion agentVersion capabilities =>
      apply run_encodeWith_event (e := .hello protoVersion agentVersion capabilities) (by simp)
        hor rfl rfl hmax hbuf
  | reachable nameId =>
      apply run_encodeWith_event (e := .reachable nameId) (by simp) hor rfl rfl hmax hbuf
  | beacon beaconId =>
      apply run_encodeWith_event (e := .beacon beaconId) (by simp) hor rfl rfl hmax hbuf
  | injectQuery iseq nameId =>
      apply run_encodeWith_event (e := .injectQuery iseq nameId) (by simp) hor rfl rfl hmax hbuf
  | regionRegister r =>
      apply run_encodeWith_event (e := .regionRegister r) (by simp) hor rfl rfl hmax hbuf
  | regionUpdate r =>
      apply run_encodeWith_event (e := .regionUpdate r) (by simp) hor rfl rfl hmax hbuf
  | workloadStarted guestPid unit =>
      apply run_encodeWith_event (e := .workloadStarted guestPid unit) (by simp) hor rfl rfl hmax
        hbuf
  | workloadExited guestPid exitCode termSignal =>
      apply run_encodeWith_event (e := .workloadExited guestPid exitCode termSignal) (by simp)
        hor rfl rfl hmax hbuf
  | quiesceReady token =>
      apply run_encodeWith_event (e := .quiesceReady token) (by simp) hor rfl rfl hmax hbuf
  | frameMark frameIndex =>
      apply run_encodeWith_event (e := .frameMark frameIndex) (by simp) hor rfl rfl hmax hbuf
  | ready unit regionCount manifestGeneration =>
      apply run_encodeWith_event (e := .ready unit regionCount manifestGeneration) (by simp)
        hor rfl rfl hmax hbuf

/-! ### Decoding events -/

theorem getU16_eq {b : Bytes} {pos : Nat} {v : UInt16} (h : pos + 2 ≤ b.length)
    (hv : b.extract pos (pos + 2) = Bytes.ofU16 v) :
  getU16 b pos = .ok v
  := by
  rw [getU16, Bytes.slice_of_le (by omega) h, hv, Res.ok_bind, Bytes.toU16_ofU16]
  rfl

theorem getU32_eq {b : Bytes} {pos : Nat} {v : UInt32} (h : pos + 4 ≤ b.length)
    (hv : b.extract pos (pos + 4) = Bytes.ofU32 v) :
  getU32 b pos = .ok v
  := by
  rw [getU32, Bytes.slice_of_le (by omega) h, hv, Res.ok_bind, Bytes.toU32_ofU32]
  rfl

theorem getU64_eq {b : Bytes} {pos : Nat} {v : UInt64} (h : pos + 8 ≤ b.length)
    (hv : b.extract pos (pos + 8) = Bytes.ofU64 v) :
  getU64 b pos = .ok v
  := by
  rw [getU64, Bytes.slice_of_le (by omega) h, hv, Res.ok_bind, Bytes.toU64_ofU64]
  rfl

section Skip

variable (a : UInt32) (b : UInt64) (ys : Bytes) (pos : Nat)

theorem getU32_ofU32 :
  getU32 (Bytes.ofU32 a ++ ys) 0 = .ok a
  := getU32_eq (by simp) rfl

theorem getU64_ofU64 :
  getU64 (Bytes.ofU64 b ++ ys) 0 = .ok b
  := getU64_eq (by simp) rfl

theorem slice_skip {ε : Type} (lo hi : Nat) :
  ((Bytes.ofU32 a ++ ys).slice (lo + 4) (hi + 4) : Res ε Bytes) = ys.slice lo hi
  := by
  simp only [Bytes.slice, Bytes.extract, List.length_append, Bytes.length_ofU32]
  have hif : (lo + 4 ≤ hi + 4 ∧ hi + 4 ≤ 4 + ys.length) = (lo ≤ hi ∧ hi ≤ ys.length) := by
    rw [eq_iff_iff]
    omega
  rw [Nat.add_sub_add_right]
  simp only [hif]
  rfl

theorem getU32_skip :
  getU32 (Bytes.ofU32 a ++ ys) (pos + 4) = getU32 ys pos
  := by
  rw [getU32, getU32, ← slice_skip a ys]

theorem getU64_skip :
  getU64 (Bytes.ofU32 a ++ ys) (pos + 4) = getU64 ys pos
  := by
  rw [getU64, getU64, ← slice_skip a ys]

end Skip

/-- A length field below `2 ^ 16` is read back as it was. -/
theorem toNat_ofNat_length {bs : Bytes} {cap : Nat} (h : bs.length ≤ cap) (hcap : cap < 2 ^ 16) :
  (UInt16.ofNat bs.length).toNat = bs.length
  := UInt16.toNat_ofNat_of_lt' (Nat.lt_of_le_of_lt h hcap)

theorem decodeEventPayload_nameIntern {nameId : UInt32} {name : Bytes} (zs : Bytes)
    (h : name.length ≤ maxName) :
  decodeEventPayload .nameIntern ((EventPayload.nameIntern nameId name).payload ++ zs)
    = .ok (.nameIntern nameId name)
  := by
  have hlen : ((EventPayload.nameIntern nameId name).payload ++ zs).length
      = 8 + (name.length + zs.length) := by
    simp [EventPayload.payload]
    omega
  have hname : ((EventPayload.nameIntern nameId name).payload ++ zs).extract 8 (8 + name.length)
      = name := by
    have hdrop : ((EventPayload.nameIntern nameId name).payload ++ zs).drop 8 = name ++ zs := rfl
    rw [Bytes.extract, hdrop, Nat.add_sub_cancel_left, List.take_left]
  rw [decodeEventPayload, Res.failIf_of_not (by omega), Res.ok_bind,
    getU16_eq (v := UInt16.ofNat name.length) (by omega) rfl, Res.ok_bind,
    toNat_ofNat_length h (by decide)]
  dsimp only
  rw [Res.failIf_of_not (by omega), Res.ok_bind, getU32_eq (v := nameId) (by omega) rfl,
    Res.ok_bind, Bytes.slice_of_le (by omega) (by omega), hname]
  rfl

theorem decodeEventPayload_assertViolation {nameId violationCount : UInt32} {details : Bytes}
    (zs : Bytes) :
  decodeEventPayload .assertViolation
      ((EventPayload.assertViolation nameId violationCount details).payload ++ zs)
    = .ok (.assertViolation nameId violationCount (details.take maxDetails))
  := by
  have hcap : (details.take maxDetails).length ≤ maxDetails := by
    rw [List.length_take]
    omega
  simp only [EventPayload.payload]
  generalize details.take maxDetails = clipped at hcap
  generalize hb : Bytes.ofU32 nameId ++ (Bytes.ofU32 violationCount
    ++ (Bytes.ofU16 (UInt16.ofNat clipped.length)
      ++ (0 :: 0 :: 0 :: 0 :: 0 :: 0 :: clipped))) ++ zs = b
  have hlen : b.length = 16 + (clipped.length + zs.length) := by
    simp [← hb]
    omega
  have hdetails : b.extract 16 (16 + clipped.length) = clipped := by
    have hdrop : b.drop 16 = clipped ++ zs := by
      rw [← hb]
      rfl
    rw [Bytes.extract, hdrop, Nat.add_sub_cancel_left, List.take_left]
  rw [decodeEventPayload, Res.failIf_of_not (by omega), Res.ok_bind,
    getU16_eq (v := UInt16.ofNat clipped.length) (by omega) (by rw [← hb]; rfl), Res.ok_bind,
    toNat_ofNat_length hcap (by decide)]
  dsimp only
  rw [Res.failIf_of_not (by omega), Res.ok_bind,
    getU32_eq (v := nameId) (by omega) (by rw [← hb]; rfl), Res.ok_bind,
    getU32_eq (v := violationCount) (by omega) (by rw [← hb]; rfl), Res.ok_bind,
    Bytes.slice_of_le (by omega) (by omega), hdetails]
  rfl

theorem decodeEventPayload_logLine {stream level : UInt8} {msg : Bytes} (zs : Bytes) :
  decodeEventPayload .logLine ((EventPayload.logLine stream level msg).payload ++ zs)
    = .ok (.logLine stream level (msg.take maxLogMsg))
  := by
  have hcap : (msg.take maxLogMsg).length ≤ maxLogMsg := by
    rw [List.length_take]
    omega
  simp only [EventPayload.payload]
  generalize msg.take maxLogMsg = clipped at hcap
  obtain ⟨b, hb⟩ : ∃ b : Bytes, stream :: level :: (Bytes.ofU16 (UInt16.ofNat clipped.length)
    ++ (0 :: 0 :: 0 :: 0 :: clipped)) ++ zs = b := ⟨_, rfl⟩
  rw [hb]
  have hlen : b.length = 8 + (clipped.length + zs.length) := by
    simp [← hb]
    omega
  have hmsg : b.extract 8 (8 + clipped.length) = clipped := by
    have hdrop : b.drop 8 = clipped ++ zs := by
      rw [← hb]
      rfl
    rw [Bytes.extract, hdrop, Nat.add_sub_cancel_left, List.take_left]
  have hstream : (b.byte 0 : Res DecodeError UInt8) = .ok stream := by
    rw [← hb]
    rfl
  have hlevel : (b.byte 1 : Res DecodeError UInt8) = .ok level := by
    rw [← hb]
    rfl
  rw [decodeEventPayload, Res.failIf_of_not (by omega), Res.ok_bind,
    getU16_eq (v := UInt16.ofNat clipped.length) (by omega) (by rw [← hb]; rfl), Res.ok_bind,
    toNat_ofNat_length hcap (by decide)]
  dsimp only
  rw [Res.failIf_of_not (by omega), Res.ok_bind, hstream, Res.ok_bind, hlevel, Res.ok_bind, Bytes.slice_of_le (by omega) (by omega), hmsg]
  rfl

/-- Decoding the payload of an encoded event gives the clipped event. -/
theorem decodeEventPayload_payload {ev : EventPayload} (hev : ev.Encodable) (zs : Bytes) :
  decodeEventPayload ev.kind (ev.payload ++ zs) = .ok ev.clip
  := by
  cases ev with
  | pad => rfl
  | nameIntern nameId name => apply decodeEventPayload_nameIntern zs hev
  | assertViolation nameId violationCount details => apply decodeEventPayload_assertViolation zs
  | logLine stream level msg => apply decodeEventPayload_logLine zs
  | _ =>
      simp (disch := omega) [EventPayload.kind, decodeEventPayload, EventPayload.payload,
        EventPayload.clip, getU32_ofU32, getU64_ofU64, getU32_skip _ _ 0, getU32_skip _ _ 4,
        getU32_skip _ _ 8, getU64_skip _ _ 0, getU64_skip _ _ 4]

/-- The header of the record of an event. -/
def eventHeader (seq : UInt32) (vnanos : UInt64) (extraFlags : UInt8) (ev : EventPayload) :
    RecordHeader :=
  match ev with
  | .pad => { len := 16, kind := EventKind.pad.toU8, flags := 0, seq, vnanos := 0 }
  | ev => recordHeader ev.kind.toU8 (eventFlags extraFlags ev) seq vnanos ev.payload.length

/-- The header of a `Pad`. -/
def padHeader (tailLen : Nat) (seq : UInt32) : RecordHeader :=
  { len := UInt16.ofNat tailLen, kind := EventKind.pad.toU8, flags := 0, seq, vnanos := 0 }

/-- A `Pad` decodes to its header; a `Pad` of eight bytes has no time stamp. -/
theorem readFrom_padBytes {tailLen : Nat} (seq : UInt32) (hmod : tailLen % recordAlign = 0)
    (hmin : padMinLen ≤ tailLen) (hmax : tailLen ≤ maxRecordLen) :
  RecordHeader.readFrom (padBytes tailLen seq) = .ok (padHeader tailLen seq)
  := by
  simp only [padMinLen, maxRecordLen, recordAlign] at hmin hmax hmod
  have hlen : (UInt16.ofNat tailLen).toNat = tailLen := UInt16.toNat_ofNat_of_lt' (by
    simp only [UInt16.size]
    omega)
  have hfit : tailLen ≤ 8 + (Bytes.zeros (tailLen - 8)).length := by
    rw [List.length_replicate]
    omega
  rw [padBytes, readFrom_framed _ _ _ _ _ (by rw [hlen]; exact hmod)
    (by rw [hlen]; exact hmax) (by rw [hlen]; exact hmin) (by rw [hlen]; exact hfit)]
  rw [hlen]
  split
  · rename_i h16
    have h8 : (Bytes.zeros (tailLen - 8)).extract 0 8 = Bytes.ofU64 0 := by
      have h16' : 16 ≤ tailLen := h16
      rw [Bytes.extract, List.drop_zero, List.take_replicate, Nat.min_eq_left (by omega)]
      rfl
    rw [h8, Bytes.toU64_ofU64]
    rfl
  · rfl

/-- A `Pad` of any length decodes. -/
theorem decodeEvent_padBytes {tailLen : Nat} (seq : UInt32) (hmod : tailLen % recordAlign = 0)
    (hmin : padMinLen ≤ tailLen) (hmax : tailLen ≤ maxRecordLen) :
  decodeEvent (padBytes tailLen seq) = .ok (padHeader tailLen seq, .pad)
  := by
  have hlen : (UInt16.ofNat tailLen).toNat = tailLen := UInt16.toNat_ofNat_of_lt' (by
    simp only [UInt16.size]
    simp only [maxRecordLen] at hmax
    omega)
  have hl := length_padBytes seq hmin
  rw [decodeEvent, readFrom_padBytes seq hmod hmin hmax, Res.ok_bind]
  simp only [RecordHeader.payloadRange, padHeader, hlen]
  split
  · rw [Bytes.slice_of_le (Nat.le_refl _) (by omega)]
    rfl
  · rw [Bytes.slice_of_le (by omega) (by omega)]
    rfl

/-- Decoding the record of an event gives its header and the clipped event. -/
theorem decodeEvent_eventBytes {seq : UInt32} {vnanos : UInt64} {extraFlags : UInt8}
    {ev : EventPayload} (hev : ev.Encodable) :
  decodeEvent (eventBytes seq vnanos extraFlags ev)
    = .ok (eventHeader seq vnanos extraFlags ev, ev.clip)
  := by
  by_cases hne : ev = .pad
  · subst hne
    rw [decodeEvent, eventBytes, readFrom_padBytes seq (by decide) (by decide) (by decide),
      Res.ok_bind]
    rfl
  have hheader : eventHeader seq vnanos extraFlags ev
      = recordHeader ev.kind.toU8 (eventFlags extraFlags ev) seq vnanos ev.payload.length := by
    cases ev with
    | pad => contradiction
    | _ => rfl
  have hmax : recordLen ev.payload.length ≤ maxRecordLen := by
    rw [length_payload hne]
    apply Nat.le_trans (encodedEventLen_bounds hev).2
    decide
  rw [hheader, decodeEvent, eventBytes_of_ne_pad hne, readFrom_recordBytes hmax, Res.ok_bind,
    slice_recordBytes hmax, Res.ok_bind, recordHeader, EventKind.fromU8_toU8]
  simp only [decodeEventPayload_payload hev]
  rfl

/-! ### Commands -/

/-- The kind of a command. -/
def Command.kind : Command → CommandKind
  | .startWorkload _ _ => .startWorkload
  | .quiesce _ _ => .quiesce
  | .resume _ => .resume
  | .shutdown _ => .shutdown
  | .setLogMask _ => .setLogMask
  | .reverifyRegions => .reverifyRegions

/-- The bytes of the payload of a command. -/
def Command.payload : Command → Bytes
  | .startWorkload unit logMask => Bytes.ofU32 unit ++ Bytes.ofU32 logMask
  | .quiesce token mode => Bytes.ofU64 token ++ (Bytes.ofU32 mode.toU32 ++ Bytes.zeros 4)
  | .resume token => Bytes.ofU64 token
  | .shutdown mode => Bytes.ofU32 mode.toU32 ++ Bytes.zeros 4
  | .setLogMask mask => Bytes.ofU32 mask ++ Bytes.zeros 4
  | .reverifyRegions => []

/-- The record of a command. -/
def commandBytes (seq : UInt32) (cmd : Command) : Bytes :=
  recordBytes cmd.kind.toU8 0 seq 0 cmd.payload

theorem Command.length_payload_le (cmd : Command) :
  cmd.payload.length ≤ 16
  := by
  cases cmd <;> simp [Command.payload]

theorem Command.recordLen_le (cmd : Command) :
  recordLen cmd.payload.length ≤ maxRecordLen
  := by
  have h := cmd.length_payload_le
  simp only [recordLen, pad8, maxRecordLen, recordHeaderLen, recordAlign]
  omega

/-- A command is written to the first bytes of the buffer. -/
theorem run_encodeCommand {dbg : Bool} {seq : UInt32} {cmd : Command} {buf : Bytes}
    (hbuf : recordLen cmd.payload.length ≤ buf.length) :
  (encodeCommand dbg seq cmd).run buf
    = (commandBytes seq cmd ++ buf.drop (recordLen cmd.payload.length),
        .ok (recordLen cmd.payload.length))
  := by
  have hmax := cmd.recordLen_le
  cases cmd with
  | startWorkload unit logMask => apply run_encodeWith rfl rfl hmax hbuf
  | quiesce token mode => apply run_encodeWith rfl rfl hmax hbuf
  | resume token => apply run_encodeWith rfl rfl hmax hbuf
  | shutdown mode => apply run_encodeWith rfl rfl hmax hbuf
  | setLogMask mask => apply run_encodeWith rfl rfl hmax hbuf
  | reverifyRegions => apply run_encodeWith rfl rfl hmax hbuf

theorem CommandKind.fromU8_toU8 (k : CommandKind) :
  CommandKind.fromU8 k.toU8 = some k
  := by
  cases k <;> rfl

theorem decodeCommandPayload_payload (cmd : Command) (zs : Bytes) :
  decodeCommandPayload cmd.kind (cmd.payload ++ zs) = .ok cmd
  := by
  cases cmd with
  | quiesce token mode =>
      have hlen : ¬ ((Command.quiesce token mode).payload ++ zs).length < 16 := by
        simp [Command.payload]
        omega
      cases mode <;>
      · simp only [Command.kind, decodeCommandPayload]
        rw [Res.failIf_of_not hlen, Res.ok_bind,
          getU32_eq (v := QuiesceMode.toU32 _) (by omega) rfl, Res.ok_bind]
        simp only [QuiesceMode.toU32, Res.pure_eq, Res.ok_bind]
        rw [ getU64_eq (v := token) (by omega) rfl]
        rfl
  | shutdown mode =>
      cases mode <;>
      · simp (disch := omega) [Command.kind, decodeCommandPayload, Command.payload, getU32_ofU32,
          ShutdownMode.toU32]
  | reverifyRegions => rfl
  | _ =>
      simp (disch := omega) [Command.kind, decodeCommandPayload, Command.payload, getU32_ofU32,
        getU64_ofU64, getU32_skip _ _ 0]

/-- Decoding the record of a command gives the command. -/
theorem decodeCommand_commandBytes (seq : UInt32) (cmd : Command) :
  decodeCommand (commandBytes seq cmd)
    = .ok (recordHeader cmd.kind.toU8 0 seq 0 cmd.payload.length, cmd)
  := by
  have hmax := cmd.recordLen_le
  rw [decodeCommand, commandBytes, readFrom_recordBytes hmax, Res.ok_bind,
    slice_recordBytes hmax, Res.ok_bind, recordHeader, CommandKind.fromU8_toU8]
  simp only [decodeCommandPayload_payload]
  rfl

/-! ### Workload-control records -/

/-- The kind of a workload-control record. -/
def WorkloadCtrl.kind : WorkloadCtrl → WorkloadCtrlKind
  | .quiesceReq _ => .quiesceReq
  | .resume _ => .resume

/-- The bytes of the payload of a workload-control record. -/
def WorkloadCtrl.payload : WorkloadCtrl → Bytes
  | .quiesceReq token | .resume token => Bytes.ofU64 token

/-- A workload-control record as bytes. -/
def workloadCtrlBytes (seq : UInt32) (vnanos : UInt64) (rec : WorkloadCtrl) : Bytes :=
  recordBytes rec.kind.toU8 0 seq vnanos rec.payload

theorem WorkloadCtrl.length_payload (rec : WorkloadCtrl) :
  rec.payload.length = 8
  := by
  cases rec <;> rfl

theorem length_workloadCtrlBytes (seq : UInt32) (vnanos : UInt64) (rec : WorkloadCtrl) :
  (workloadCtrlBytes seq vnanos rec).length = recordLen 8
  := by
  rw [workloadCtrlBytes, length_recordBytes, rec.length_payload]

/-- A workload-control record is written to the first bytes of the buffer. -/
theorem run_encodeWorkloadCtrl {dbg : Bool} {seq : UInt32} {vnanos : UInt64} {rec : WorkloadCtrl}
    {buf : Bytes} (hbuf : recordLen 8 ≤ buf.length) :
  (encodeWorkloadCtrl dbg seq vnanos rec).run buf
    = (workloadCtrlBytes seq vnanos rec ++ buf.drop (recordLen 8), .ok (recordLen 8))
  := by
  have hmax : recordLen 8 ≤ maxRecordLen := by decide
  cases rec with
  | quiesceReq token => apply run_encodeWith (p := Bytes.ofU64 token) rfl rfl hmax hbuf
  | resume token => apply run_encodeWith (p := Bytes.ofU64 token) rfl rfl hmax hbuf

theorem WorkloadCtrlKind.fromU8_toU8 (k : WorkloadCtrlKind) :
  WorkloadCtrlKind.fromU8 k.toU8 = some k
  := by
  cases k <;> rfl

theorem decodeWorkloadCtrlPayload_payload (rec : WorkloadCtrl) (zs : Bytes) :
  decodeWorkloadCtrlPayload rec.kind (rec.payload ++ zs) = .ok rec
  := by
  cases rec <;>
  · simp (disch := omega) [WorkloadCtrl.kind, decodeWorkloadCtrlPayload, WorkloadCtrl.payload,
      getU64_ofU64]

/-- Decoding a workload-control record gives it back. -/
theorem decodeWorkloadCtrl_workloadCtrlBytes (seq : UInt32) (vnanos : UInt64)
    (rec : WorkloadCtrl) :
  decodeWorkloadCtrl (workloadCtrlBytes seq vnanos rec)
    = .ok (recordHeader rec.kind.toU8 0 seq vnanos rec.payload.length, rec)
  := by
  have hmax : recordLen rec.payload.length ≤ maxRecordLen := by
    rw [rec.length_payload]
    decide
  rw [decodeWorkloadCtrl, workloadCtrlBytes, readFrom_recordBytes hmax, Res.ok_bind,
    slice_recordBytes hmax, Res.ok_bind, recordHeader, WorkloadCtrlKind.fromU8_toU8]
  simp only [decodeWorkloadCtrlPayload_payload]
  rfl

/-- The workload-control namespace has no `Pad`, so a `Pad` is of unknown kind. -/
theorem decodeWorkloadCtrl_padBytes {tailLen : Nat} (seq : UInt32)
    (hmod : tailLen % recordAlign = 0) (hmin : padMinLen ≤ tailLen)
    (hmax : tailLen ≤ maxRecordLen) :
  decodeWorkloadCtrl (padBytes tailLen seq) = .err (.unknownKind 0)
  := by
  have hlen : (UInt16.ofNat tailLen).toNat = tailLen := UInt16.toNat_ofNat_of_lt' (by
    simp only [UInt16.size]
    simp only [maxRecordLen] at hmax
    omega)
  rw [decodeWorkloadCtrl, readFrom_padBytes seq hmod hmin hmax, Res.ok_bind]
  simp only [RecordHeader.payloadRange, padHeader, hlen]
  have hl := length_padBytes seq hmin
  split
  · rw [Bytes.slice_of_le (Nat.le_refl _) (by omega)]
    rfl
  · rw [Bytes.slice_of_le (by omega) (by omega)]
    rfl

end Wire
