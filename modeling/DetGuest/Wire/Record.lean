import DetGuest.Lib.Bytes

/-!
# Record framing

Every record of every ring starts with its length, kind, flags and sequence number;
records of at least sixteen bytes also carry a time stamp.  A `Pad` may be as short as
eight bytes and then has no time stamp.  The header codec, the `Pad` encoder and the
kind namespaces of the rings.
-/

namespace Wire

/-- Errors of the decoders. -/
inductive DecodeError where
  | truncated
  | badLen
  | unknownKind (kind : UInt8)
  | badField
  | badMagic
  | badVersion
  deriving DecidableEq, Repr

/-- Errors of the encoders. -/
inductive EncodeError where
  | bufferTooSmall
  | fieldTooLong
  | seqlockMisuse
  deriving DecidableEq, Repr

/-! ### Lengths and flags -/

/-- Size of a full record header. -/
def recordHeaderLen : Nat := 16

/-- Least length of a record that is not a `Pad`. -/
def minRecordLen : Nat := 16

/-- Greatest length of a record, header included. -/
def maxRecordLen : Nat := 4096

/-- Record alignment; lengths are multiples of it. -/
def recordAlign : Nat := 8

/-- Least length of a `Pad`. -/
def padMinLen : Nat := 8

/-- Flag bit 0: a variable-length field was clipped at its cap. -/
def flagTruncated : UInt8 := 1

/-- Flag bit 1: a `NameIntern` emitted by `declare_reachable`. -/
def flagReachableDecl : UInt8 := 2

/-- A payload length rounded up to the record alignment. -/
def pad8 (n : Nat) : Nat := (n + (recordAlign - 1)) / recordAlign * recordAlign

/-- The length of a record with a payload of the given length. -/
def recordLen (payloadLen : Nat) : Nat := recordHeaderLen + pad8 payloadLen

theorem le_pad8 (n : Nat) :
  n ≤ pad8 n
  := by
  simp only [pad8, recordAlign]
  omega

theorem recordLen_mod (n : Nat) :
  recordLen n % recordAlign = 0
  := by
  simp only [recordLen, pad8, recordHeaderLen, recordAlign]
  omega

theorem recordLen_ge (n : Nat) :
  recordHeaderLen + n ≤ recordLen n
  := by
  have h := le_pad8 n
  rw [recordLen]
  omega

/-! ### Kinds -/

/-- Event kinds of rings A and W. -/
inductive EventKind where
  | pad
  | hello
  | nameIntern
  | assertViolation
  | reachable
  | beacon
  | injectQuery
  | regionRegister
  | regionUpdate
  | workloadStarted
  | workloadExited
  | logLine
  | quiesceReady
  | frameMark
  | ready
  deriving DecidableEq, Repr

/-- The kind byte. -/
def EventKind.toU8 : EventKind → UInt8
  | pad => 0
  | hello => 1
  | nameIntern => 2
  | assertViolation => 3
  | reachable => 4
  | beacon => 5
  | injectQuery => 6
  | regionRegister => 7
  | regionUpdate => 8
  | workloadStarted => 9
  | workloadExited => 10
  | logLine => 11
  | quiesceReady => 12
  | frameMark => 13
  | ready => 14

/-- The kind of a kind byte, if this protocol version defines it. -/
def EventKind.fromU8 (v : UInt8) : Option EventKind :=
  match v with
  | 0 => some pad
  | 1 => some hello
  | 2 => some nameIntern
  | 3 => some assertViolation
  | 4 => some reachable
  | 5 => some beacon
  | 6 => some injectQuery
  | 7 => some regionRegister
  | 8 => some regionUpdate
  | 9 => some workloadStarted
  | 10 => some workloadExited
  | 11 => some logLine
  | 12 => some quiesceReady
  | 13 => some frameMark
  | 14 => some ready
  | _ => none

/-- Critical events ring the doorbell and retry on a full ring; the others are
dropped. -/
def EventKind.isCritical : EventKind → Bool
  | pad | beacon | logLine => false
  | _ => true

theorem EventKind.fromU8_toU8 (k : EventKind) :
  EventKind.fromU8 k.toU8 = some k
  := by
  cases k <;> rfl

/-- Command kinds of ring C. -/
inductive CommandKind where
  | startWorkload
  | quiesce
  | resume
  | shutdown
  | setLogMask
  | reverifyRegions
  deriving DecidableEq, Repr

/-- The kind byte. -/
def CommandKind.toU8 : CommandKind → UInt8
  | startWorkload => 1
  | quiesce => 2
  | resume => 3
  | shutdown => 4
  | setLogMask => 5
  | reverifyRegions => 6

/-- The kind of a kind byte. -/
def CommandKind.fromU8 (v : UInt8) : Option CommandKind :=
  match v with
  | 1 => some startWorkload
  | 2 => some quiesce
  | 3 => some resume
  | 4 => some shutdown
  | 5 => some setLogMask
  | 6 => some reverifyRegions
  | _ => none

/-- Workload-control kinds of ring I. -/
inductive WorkloadCtrlKind where
  | quiesceReq
  | resume
  deriving DecidableEq, Repr

/-- The kind byte. -/
def WorkloadCtrlKind.toU8 : WorkloadCtrlKind → UInt8
  | quiesceReq => 2
  | resume => 3

/-- The kind of a kind byte. -/
def WorkloadCtrlKind.fromU8 (v : UInt8) : Option WorkloadCtrlKind :=
  match v with
  | 2 => some quiesceReq
  | 3 => some resume
  | _ => none

/-! ### Headers -/

/-- The least length the framing rules allow a record of the given kind. -/
def minLen (kind : UInt8) : Nat :=
  if kind = EventKind.pad.toU8 then padMinLen else minRecordLen

theorem minLen_ge (kind : UInt8) :
  8 ≤ minLen kind
  := by
  rw [minLen]
  split <;> decide

/-- A decoded record header. -/
structure RecordHeader where
  len : UInt16
  kind : UInt8
  flags : UInt8
  seq : UInt32
  vnanos : UInt64
  deriving DecidableEq, Repr

/-- Write the header to the start of the buffer: the first eight bytes only when the
record is a minimal `Pad`. -/
def RecordHeader.writeTo (h : RecordHeader) : Exec Bytes EncodeError Unit := do
  let hdr := min h.len.toNat recordHeaderLen
  let buf ← Exec.get
  Exec.failIf (buf.length < hdr) .bufferTooSmall
  Bytes.put 0 (Bytes.ofU16 h.len)
  Bytes.put 2 [h.kind]
  Bytes.put 3 [h.flags]
  Bytes.put 4 (Bytes.ofU32 h.seq)
  if hdr = recordHeaderLen then
    Bytes.put 8 (Bytes.ofU64 h.vnanos)

/-- Decode the header at the start of `buf` and check the framing rules. -/
def RecordHeader.readFrom (buf : Bytes) : Res DecodeError RecordHeader := do
  Res.failIf (buf.length < padMinLen) .truncated
  let len := (← buf.slice 0 2).toU16
  let kind ← buf.byte 2
  let flags ← buf.byte 3
  let seq := (← buf.slice 4 8).toU32
  let l := len.toNat
  Res.failIf (l % recordAlign ≠ 0 ∨ l > maxRecordLen) .badLen
  Res.failIf (l < minLen kind) .badLen
  Res.failIf (l > buf.length) .truncated
  let vnanos ← if l ≥ recordHeaderLen then
      (buf.slice 8 16 : Res DecodeError Bytes) >>= fun b => pure b.toU64
    else
      pure 0
  pure { len, kind, flags, seq, vnanos }

/-- The bounds of the payload within a record with this header. -/
def RecordHeader.payloadRange (h : RecordHeader) : Nat × Nat :=
  let l := h.len.toNat
  if l ≤ recordHeaderLen then (l, l) else (recordHeaderLen, l)

/-- Encode a `Pad` of exactly `tailLen` bytes at the start of the buffer. -/
def encodePad (dbg : Bool) (tailLen : Nat) (seq : UInt32) : Exec Bytes EncodeError Nat := do
  Exec.debugAssert dbg (tailLen % recordAlign = 0 ∧ tailLen ≥ padMinLen)
  let buf ← Exec.get
  Exec.failIf (buf.length < tailLen ∨ tailLen > 65535) .bufferTooSmall
  let hdr : RecordHeader :=
    { len := UInt16.ofNat tailLen, kind := EventKind.pad.toU8, flags := 0, seq, vnanos := 0 }
  Bytes.put 0 (Bytes.zeros tailLen)
  hdr.writeTo
  pure tailLen

/-! ### The bytes of a header -/

/-- The eight bytes every record starts with, followed by the rest of the record. -/
def framed (len : UInt16) (kind flags : UInt8) (seq : UInt32) (t : Bytes) : Bytes :=
  Bytes.ofU16 len ++ (kind :: flags :: (Bytes.ofU32 seq ++ t))

@[simp]
theorem length_framed (len : UInt16) (kind flags : UInt8) (seq : UInt32) (t : Bytes) :
  (framed len kind flags seq t).length = 8 + t.length
  := by
  simp [framed]
  omega

/-- Every string of at least eight bytes starts with the fields of a header. -/
theorem exists_framed {b : Bytes} (h : 8 ≤ b.length) :
  ∃ len kind flags seq, b = framed len kind flags seq (b.drop 8)
  := by
  obtain ⟨b₀, b₁, k, f, s₀, s₁, s₂, s₃, t, rfl⟩ :
      ∃ b₀ b₁ k f s₀ s₁ s₂ s₃ t, b = b₀ :: b₁ :: k :: f :: s₀ :: s₁ :: s₂ :: s₃ :: t := by
    match b, h with
    | b₀ :: b₁ :: k :: f :: s₀ :: s₁ :: s₂ :: s₃ :: t, _ =>
        exact ⟨b₀, b₁, k, f, s₀, s₁, s₂, s₃, t, rfl⟩
  use Bytes.toU16 [b₀, b₁], k, f, Bytes.toU32 [s₀, s₁, s₂, s₃]
  rw [framed, Bytes.ofU16_toU16 rfl, Bytes.ofU32_toU32 rfl]
  rfl

section Fields

variable (len : UInt16) (kind flags : UInt8) (seq : UInt32) (t : Bytes)

theorem framed_extract_len :
  (framed len kind flags seq t).extract 0 2 = Bytes.ofU16 len
  := rfl

theorem framed_extract_seq :
  (framed len kind flags seq t).extract 4 8 = Bytes.ofU32 seq
  := rfl

theorem framed_extract_vnanos :
  (framed len kind flags seq t).extract 8 16 = t.extract 0 8
  := rfl

@[simp]
theorem framed_take (n : Nat) :
  (framed len kind flags seq t).take (n + 8) = framed len kind flags seq (t.take n)
  := rfl

@[simp]
theorem framed_drop (n : Nat) :
  (framed len kind flags seq t).drop (n + 8) = t.drop n
  := rfl

@[simp]
theorem framed_drop_eight :
  (framed len kind flags seq t).drop 8 = t
  := rfl

@[simp]
theorem framed_append (u : Bytes) :
  framed len kind flags seq t ++ u = framed len kind flags seq (t ++ u)
  := rfl

theorem framed_byte_kind {ε : Type} :
  ((framed len kind flags seq t).byte 2 : Res ε UInt8) = .ok kind
  := rfl

theorem framed_byte_flags {ε : Type} :
  ((framed len kind flags seq t).byte 3 : Res ε UInt8) = .ok flags
  := rfl

theorem run_put_len {ε : Type} (v : UInt16) :
  (Bytes.put 0 (Bytes.ofU16 v) : Exec Bytes ε Unit).run (framed len kind flags seq t)
    = (framed v kind flags seq t, .ok ())
  := by
  rw [Bytes.run_put (by simp only [length_framed, Bytes.length_ofU16]; omega)]
  rfl

theorem run_put_kind {ε : Type} (v : UInt8) :
  (Bytes.put 2 [v] : Exec Bytes ε Unit).run (framed len kind flags seq t)
    = (framed len v flags seq t, .ok ())
  := by
  rw [Bytes.run_put (by simp only [length_framed, List.length_singleton]; omega)]
  rfl

theorem run_put_flags {ε : Type} (v : UInt8) :
  (Bytes.put 3 [v] : Exec Bytes ε Unit).run (framed len kind flags seq t)
    = (framed len kind v seq t, .ok ())
  := by
  rw [Bytes.run_put (by simp only [length_framed, List.length_singleton]; omega)]
  rfl

theorem run_put_seq {ε : Type} (v : UInt32) :
  (Bytes.put 4 (Bytes.ofU32 v) : Exec Bytes ε Unit).run (framed len kind flags seq t)
    = (framed len kind flags v t, .ok ())
  := by
  rw [Bytes.run_put (by simp only [length_framed, Bytes.length_ofU32]; omega)]
  rfl

theorem run_put_vnanos {ε : Type} (v : UInt64) (h : 8 ≤ t.length) :
  (Bytes.put 8 (Bytes.ofU64 v) : Exec Bytes ε Unit).run (framed len kind flags seq t)
    = (framed len kind flags seq (Bytes.ofU64 v ++ t.drop 8), .ok ())
  := by
  rw [Bytes.run_put (by simp only [length_framed, Bytes.length_ofU64]; omega)]
  rfl

/-- What decoding the header of a string of at least eight bytes gives. -/
theorem readFrom_framed_eq :
  RecordHeader.readFrom (framed len kind flags seq t)
    = if len.toNat % recordAlign ≠ 0 ∨ len.toNat > maxRecordLen ∨ len.toNat < minLen kind then
        .err .badLen
      else if len.toNat > 8 + t.length then
        .err .truncated
      else
        .ok ⟨len, kind, flags, seq,
          if len.toNat ≥ recordHeaderLen then (t.extract 0 8).toU64 else 0⟩
  := by
  have hl := length_framed len kind flags seq t
  rw [RecordHeader.readFrom, Res.failIf_of_not (by simp [hl, padMinLen]),
    Bytes.slice_of_le (by omega) (by omega), Bytes.slice_of_le (by omega) (by omega)]
  simp only [Res.ok_bind, framed_byte_kind, framed_byte_flags, framed_extract_len,
    framed_extract_seq, Bytes.toU16_ofU16, Bytes.toU32_ofU32, hl]
  by_cases hmod : len.toNat % recordAlign ≠ 0 ∨ len.toNat > maxRecordLen
  · have hbad : len.toNat % recordAlign ≠ 0 ∨ len.toNat > maxRecordLen
        ∨ len.toNat < minLen kind := by tauto
    rw [Res.failIf_of hmod, if_pos hbad, Res.err_bind]
  by_cases hmin : len.toNat < minLen kind
  · have hbad : len.toNat % recordAlign ≠ 0 ∨ len.toNat > maxRecordLen
        ∨ len.toNat < minLen kind := by tauto
    rw [Res.failIf_of_not hmod, Res.ok_bind, Res.failIf_of hmin, if_pos hbad, Res.err_bind]
  have hgood : ¬ (len.toNat % recordAlign ≠ 0 ∨ len.toNat > maxRecordLen
      ∨ len.toNat < minLen kind) := by tauto
  rw [Res.failIf_of_not hmod, Res.ok_bind, Res.failIf_of_not hmin, Res.ok_bind, if_neg hgood]
  by_cases hfit : len.toNat > 8 + t.length
  · rw [Res.failIf_of hfit, if_pos hfit, Res.err_bind]
  rw [Res.failIf_of_not hfit, Res.ok_bind, if_neg hfit]
  by_cases h16 : len.toNat ≥ recordHeaderLen
  · have hlen : 16 ≤ (framed len kind flags seq t).length := by
      simp only [recordHeaderLen] at h16
      omega
    simp only [if_pos h16, Bytes.slice_of_le (show 8 ≤ 16 by omega) hlen, framed_extract_vnanos]
    rfl
  · simp only [if_neg h16]
    rfl

/-- The header of a string that follows the framing rules. -/
theorem readFrom_framed (hmod : len.toNat % recordAlign = 0) (hmax : len.toNat ≤ maxRecordLen)
    (hmin : minLen kind ≤ len.toNat) (hfit : len.toNat ≤ 8 + t.length) :
  RecordHeader.readFrom (framed len kind flags seq t)
    = .ok ⟨len, kind, flags, seq,
        if len.toNat ≥ recordHeaderLen then (t.extract 0 8).toU64 else 0⟩
  := by
  rw [readFrom_framed_eq, if_neg (by omega), if_neg (by omega)]

/-- A string whose header decodes follows the framing rules. -/
theorem framing_of_readFrom {h : RecordHeader}
    (hr : RecordHeader.readFrom (framed len kind flags seq t) = .ok h) :
  h.len = len ∧ h.kind = kind ∧ h.flags = flags ∧ h.seq = seq ∧
    len.toNat % recordAlign = 0 ∧ len.toNat ≤ maxRecordLen ∧ minLen kind ≤ len.toNat ∧
      len.toNat ≤ 8 + t.length
  := by
  rw [readFrom_framed_eq] at hr
  split at hr
  · cases hr
  split at hr
  · cases hr
  obtain rfl := Res.ok.inj hr
  refine ⟨rfl, rfl, rfl, rfl, ?_⟩
  omega

end Fields

/-! ### What the encoders write -/

/-- A full header overwrites the first sixteen bytes of the buffer. -/
theorem run_writeTo {h : RecordHeader} {buf : Bytes} (hlen : recordHeaderLen ≤ h.len.toNat)
    (hbuf : recordHeaderLen ≤ buf.length) :
  h.writeTo.run buf
    = (framed h.len h.kind h.flags h.seq (Bytes.ofU64 h.vnanos ++ buf.drop 16), .ok ())
  := by
  have hmin : min h.len.toNat recordHeaderLen = recordHeaderLen := Nat.min_eq_right hlen
  simp only [recordHeaderLen] at hbuf
  obtain ⟨l, k, f, q, hb⟩ := exists_framed (b := buf) (by omega)
  have ht : 8 ≤ (buf.drop 8).length := by
    rw [List.length_drop]
    omega
  rw [RecordHeader.writeTo, hmin, Exec.run_bind_of_ok (Exec.run_get buf),
    Exec.run_bind_of_ok (Exec.run_failIf_of_not (by simp only [recordHeaderLen]; omega) buf),
    hb, Exec.run_bind_of_ok (run_put_len ..), Exec.run_bind_of_ok (run_put_kind ..),
    Exec.run_bind_of_ok (run_put_flags ..), Exec.run_bind_of_ok (run_put_seq ..), if_pos rfl,
    run_put_vnanos _ _ _ _ _ _ ht]
  rfl

/-- The header of a minimal `Pad` overwrites the first eight bytes of the buffer. -/
theorem run_writeTo_short {h : RecordHeader} {buf : Bytes} (hlen : h.len.toNat < recordHeaderLen)
    (hbuf : 8 ≤ buf.length) (hfit : h.len.toNat ≤ buf.length) :
  h.writeTo.run buf = (framed h.len h.kind h.flags h.seq (buf.drop 8), .ok ())
  := by
  have hmin : min h.len.toNat recordHeaderLen = h.len.toNat := Nat.min_eq_left (Nat.le_of_lt hlen)
  obtain ⟨l, k, f, q, hb⟩ := exists_framed hbuf
  rw [RecordHeader.writeTo, hmin, Exec.run_bind_of_ok (Exec.run_get buf),
    Exec.run_bind_of_ok (Exec.run_failIf_of_not (by omega) buf),
    hb, Exec.run_bind_of_ok (run_put_len ..), Exec.run_bind_of_ok (run_put_kind ..),
    Exec.run_bind_of_ok (run_put_flags ..), Exec.run_bind_of_ok (run_put_seq ..),
    if_neg (Nat.ne_of_lt hlen)]
  rfl

/-- The bytes of a `Pad` of the given length. -/
def padBytes (tailLen : Nat) (seq : UInt32) : Bytes :=
  framed (UInt16.ofNat tailLen) EventKind.pad.toU8 0 seq (Bytes.zeros (tailLen - 8))

theorem length_padBytes {tailLen : Nat} (seq : UInt32) (h : padMinLen ≤ tailLen) :
  (padBytes tailLen seq).length = tailLen
  := by
  simp only [padMinLen] at h
  simp only [padBytes, length_framed, List.length_replicate]
  omega

/-- A `Pad` of an aligned length that fits the buffer overwrites its first bytes. -/
theorem run_encodePad {dbg : Bool} {tailLen : Nat} {seq : UInt32} {buf : Bytes}
    (hmod : dbg = true → tailLen % recordAlign = 0) (hmin : padMinLen ≤ tailLen)
    (hmax : tailLen ≤ 65535) (hbuf : tailLen ≤ buf.length) :
  (encodePad dbg tailLen seq).run buf = (padBytes tailLen seq ++ buf.drop tailLen, .ok tailLen)
  := by
  obtain ⟨n, rfl⟩ := Nat.exists_eq_add_of_le hmin
  simp only [padMinLen, recordAlign] at hmod hbuf hmax ⊢
  have hput : (Bytes.put 0 (Bytes.zeros (8 + n)) : Exec Bytes EncodeError Unit).run buf
      = (framed 0 0 0 0 (Bytes.zeros n ++ buf.drop (8 + n)), .ok ()) := by
    rw [Bytes.run_put (by simpa using hbuf), Bytes.splice, List.take_zero, List.nil_append,
      List.length_replicate, Nat.zero_add, Nat.add_comm 8 n]
    rfl
  have hlen : (UInt16.ofNat (8 + n)).toNat = 8 + n := UInt16.toNat_ofNat_of_lt' (by
    simp only [UInt16.size]
    omega)
  have hassert : dbg = true → (8 + n) % recordAlign = 0 ∧ 8 + n ≥ padMinLen := by
    intro hdbg
    exact ⟨hmod hdbg, by simp [padMinLen]⟩
  rw [encodePad, Exec.run_bind_of_ok (Exec.run_debugAssert_of_imp hassert buf),
    Exec.run_bind_of_ok (Exec.run_get buf),
    Exec.run_bind_of_ok (Exec.run_failIf_of_not (by omega) buf), Exec.run_bind_of_ok hput]
  by_cases h16 : n < 8
  · rw [Exec.run_bind_of_ok (run_writeTo_short (by simp only [hlen, recordHeaderLen]; omega)
      (by simp) (by simp only [hlen, length_framed, List.length_append, List.length_replicate]
                    omega))]
    simp [padBytes]
  · obtain ⟨k, rfl⟩ := Nat.exists_eq_add_of_le (Nat.le_of_not_lt h16)
    -- the zero time stamp is part of the run of zeros
    have hz : Bytes.ofU64 0 ++ Bytes.zeros k = Bytes.zeros (8 + k) := by
      rw [Nat.add_comm 8 k]
      rfl
    rw [Exec.run_bind_of_ok (run_writeTo (by simp only [hlen, recordHeaderLen]; omega)
      (by simp only [length_framed, recordHeaderLen, List.length_append, List.length_replicate]
          omega))]
    simp [padBytes, ← hz]

/-- A header does not fit into fewer than eight bytes. -/
theorem run_writeTo_panic {h : RecordHeader} {buf : Bytes} (hbuf : buf.length < padMinLen)
    (hfit : h.len.toNat ≤ buf.length) :
  (h.writeTo.run buf).2 = .panic
  := by
  simp only [padMinLen] at hbuf
  simp only [RecordHeader.writeTo]
  rw [Exec.run_bind_of_ok (Exec.run_get buf),
    Exec.run_bind_of_ok (Exec.run_failIf_of_not (by simp only [recordHeaderLen]; omega) buf)]
  -- the copy of the sequence number is out of range at the latest
  apply Bytes.panic_of_put
  intro b₁ hb₁
  apply Bytes.panic_of_put
  intro b₂ hb₂
  apply Bytes.panic_of_put
  intro b₃ hb₃
  rw [Exec.run_bind_of_panic (if_neg (by
    rw [Bytes.length_ofU32]
    omega))]

/-- A tail of fewer than eight bytes has no room for the header of a `Pad`. -/
theorem run_encodePad_short {dbg : Bool} {tailLen : Nat} {seq : UInt32} {buf : Bytes}
    (hlt : tailLen < padMinLen) (hbuf : buf.length = tailLen) :
  ((encodePad dbg tailLen seq).run buf).2 = .panic
  := by
  have hlt' : tailLen < 8 := hlt
  have hlen : (UInt16.ofNat tailLen).toNat = tailLen := UInt16.toNat_ofNat_of_lt' (by
    simp only [UInt16.size]
    omega)
  cases dbg with
  | true =>
      rw [encodePad, Exec.run_bind_of_panic (Exec.run_debugAssert_of_not (by omega) buf)]
  | false =>
      rw [encodePad, Exec.run_bind_of_ok (Exec.run_debugAssert_false _ buf),
        Exec.run_bind_of_ok (Exec.run_get buf),
        Exec.run_bind_of_ok (Exec.run_failIf_of_not (by omega) buf)]
      apply Bytes.panic_of_put
      intro b hb
      apply Exec.panic_of_bind
      apply run_writeTo_panic
      · rw [hb, hbuf]
        exact hlt
      · rw [hlen, hb]
        omega

end Wire
