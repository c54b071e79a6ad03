import DetGuest.Wire.Codec
import DetGuest.Wire.Regionipc

/-!
# Decoding arbitrary bytes

Every decoder is total: on any bytes it gives a value or an error.  What a record decoder
accepts is framed, its byte strings lie inside the record, and bytes behind the record do not
matter.  The three record decoders share their shape, so that this is proved once.
-/

namespace Wire

/-! ### Fields -/

section Fields

variable {b : Bytes} {pos : Nat}

theorem getU16_of_le (h : pos + 2 ≤ b.length) :
  getU16 b pos = .ok (b.extract pos (pos + 2)).toU16
  := by
  rw [getU16, Bytes.slice_of_le (by omega) h]
  rfl

theorem getU32_of_le (h : pos + 4 ≤ b.length) :
  getU32 b pos = .ok (b.extract pos (pos + 4)).toU32
  := by
  rw [getU32, Bytes.slice_of_le (by omega) h]
  rfl

theorem getU64_of_le (h : pos + 8 ≤ b.length) :
  getU64 b pos = .ok (b.extract pos (pos + 8)).toU64
  := by
  rw [getU64, Bytes.slice_of_le (by omega) h]
  rfl

theorem byte_of_lt {i : Nat} (h : i < b.length) :
  ∃ v, (b.byte i : Res DecodeError UInt8) = .ok v
  := by
  rw [Bytes.byte, List.getElem?_eq_getElem h]
  exact ⟨_, rfl⟩

end Fields

/-! ### Record decoders -/

/-- The header follows the framing rules, and the record lies inside the bytes. -/
structure RecordHeader.FramedIn (hdr : RecordHeader) (b : Bytes) : Prop where
  aligned : hdr.len.toNat % recordAlign = 0
  min : minLen hdr.kind ≤ hdr.len.toNat
  max : hdr.len.toNat ≤ maxRecordLen
  fits : hdr.len.toNat ≤ b.length

/-- Bytes behind the record do not change the outcome, unless the record is cut short. -/
def Settled {α : Type} (decode : Bytes → Res DecodeError α) : Prop :=
  ∀ b s, decode b ≠ .err .truncated → decode (b ++ s) = decode b

/-- A decoder of whole records, from its kinds and its decoder of payloads. -/
def decodeRecord {κ α : Type} (fromU8 : UInt8 → Option κ)
    (decodePayload : κ → Bytes → Res DecodeError α) (bytes : Bytes) :
    Res DecodeError (RecordHeader × α) := do
  let hdr ← RecordHeader.readFrom bytes
  let payload ← bytes.slice hdr.payloadRange.1 hdr.payloadRange.2
  match fromU8 hdr.kind with
  | none => .err (.unknownKind hdr.kind)
  | some kind => do
      let a ← decodePayload kind payload
      pure (hdr, a)

theorem decodeEvent_eq :
  decodeEvent = decodeRecord EventKind.fromU8 decodeEventPayload
  := by
  funext b
  rw [decodeEvent, decodeRecord]
  congr
  funext hdr
  congr
  funext payload
  cases EventKind.fromU8 hdr.kind <;> rfl

theorem decodeCommand_eq :
  decodeCommand = decodeRecord CommandKind.fromU8 decodeCommandPayload
  := by
  funext b
  rw [decodeCommand, decodeRecord]
  congr
  funext hdr
  congr
  funext payload
  cases CommandKind.fromU8 hdr.kind <;> rfl

theorem decodeWorkloadCtrl_eq :
  decodeWorkloadCtrl = decodeRecord WorkloadCtrlKind.fromU8 decodeWorkloadCtrlPayload
  := by
  funext b
  rw [decodeWorkloadCtrl, decodeRecord]
  congr
  funext hdr
  congr
  funext payload
  cases WorkloadCtrlKind.fromU8 hdr.kind <;> rfl

/-- A header decodes, or the bytes are cut short or badly framed. -/
theorem readFrom_cases (b : Bytes) :
  RecordHeader.readFrom b = .err .truncated ∨ RecordHeader.readFrom b = .err .badLen ∨
    ∃ hdr, RecordHeader.readFrom b = .ok hdr ∧ hdr.FramedIn b
  := by
  by_cases hshort : b.length < padMinLen
  · left
    rw [RecordHeader.readFrom, Res.failIf_of hshort, Res.err_bind]
  obtain ⟨len, kind, flags, seq, hb⟩ := exists_framed (Nat.le_of_not_lt hshort)
  generalize b.drop 8 = t at hb
  subst hb
  cases hr : RecordHeader.readFrom (framed len kind flags seq t) with
  | ok hdr =>
      right
      right
      obtain ⟨rfl, rfl, _, _, hmod, hmax, hmin, hfit⟩ := framing_of_readFrom _ _ _ _ _ hr
      refine ⟨hdr, rfl, hmod, hmin, hmax, ?_⟩
      rw [length_framed]
      exact hfit
  | err e =>
      rw [readFrom_framed_eq] at hr
      split at hr
      · right
        left
        exact hr.symm
      split at hr
      · left
        exact hr.symm
      · cases hr
  | panic =>
      rw [readFrom_framed_eq] at hr
      split at hr
      · cases hr
      split at hr
      · cases hr
      · cases hr

theorem settled_readFrom :
  Settled RecordHeader.readFrom
  := by
  intro b s hb
  have hlen : ¬ b.length < padMinLen := by
    intro hshort
    rw [RecordHeader.readFrom, Res.failIf_of hshort, Res.err_bind] at hb
    exact hb rfl
  obtain ⟨len, kind, flags, seq, hrec⟩ := exists_framed (Nat.le_of_not_lt hlen)
  generalize b.drop 8 = t at hrec
  subst hrec
  rw [readFrom_framed_eq] at hb
  rw [framed_append, readFrom_framed_eq, readFrom_framed_eq]
  split
  · rfl
  rename_i hframe
  rw [if_neg hframe] at hb
  split at hb
  · exact absurd rfl hb
  rename_i hfit
  rw [if_neg (by rw [List.length_append]; omega), if_neg hfit]
  by_cases h16 : len.toNat ≥ recordHeaderLen
  · -- the time stamp lies inside the record
    have ht : 8 ≤ t.length := by
      simp only [recordHeaderLen] at h16
      omega
    rw [if_pos h16, if_pos h16, Bytes.extract, Bytes.extract, List.drop_zero, List.drop_zero,
      List.take_append_of_le_length ht]
  · rw [if_neg h16, if_neg h16]

section Records

variable {κ α : Type} {fromU8 : UInt8 → Option κ} {decodePayload : κ → Bytes → Res DecodeError α}
variable {b : Bytes} {hdr : RecordHeader}

theorem payload_slice (h : hdr.FramedIn b) :
  (b.slice hdr.payloadRange.1 hdr.payloadRange.2 : Res DecodeError Bytes)
    = .ok (b.extract recordHeaderLen hdr.len.toNat)
  := by
  have hfit := h.fits
  rw [RecordHeader.payloadRange]
  by_cases hle : hdr.len.toNat ≤ recordHeaderLen
  · -- a header without a payload
    rw [if_pos hle, Bytes.slice_of_le (Nat.le_refl _) hfit, Bytes.extract, Bytes.extract,
      Nat.sub_self, Nat.sub_eq_zero_of_le hle, List.take_zero, List.take_zero]
  · rw [if_neg hle, Bytes.slice_of_le (by omega) hfit]

/-- Behind a header the outcome is that of the payload. -/
theorem decodeRecord_of_readFrom (hr : RecordHeader.readFrom b = .ok hdr) (h : hdr.FramedIn b) :
  decodeRecord fromU8 decodePayload b =
    match fromU8 hdr.kind with
    | none => .err (.unknownKind hdr.kind)
    | some kind =>
        decodePayload kind (b.extract recordHeaderLen hdr.len.toNat) >>= fun a => .ok (hdr, a)
  := by
  rw [decodeRecord, hr, Res.ok_bind, payload_slice h, Res.ok_bind]
  rfl

/-- A record decoder whose payload decoder is total is total. -/
theorem decodeRecord_ne_panic (hpayload : ∀ kind payload, decodePayload kind payload ≠ .panic) :
  decodeRecord fromU8 decodePayload b ≠ .panic
  := by
  rcases readFrom_cases b with hr | hr | ⟨hdr, hr, hframed⟩
  · simp [decodeRecord, hr]
  · simp [decodeRecord, hr]
  · rw [decodeRecord_of_readFrom hr hframed]
    cases fromU8 hdr.kind with
    | none => simp
    | some kind =>
        intro hpanic
        rcases Res.bind_eq_panic.mp hpanic with hpanic | ⟨a, _, hpanic⟩
        · exact hpayload _ _ hpanic
        · cases hpanic

/-- What a record decoder accepts is framed, and its value comes from the payload. -/
theorem decodeRecord_eq_ok {a : α} (h : decodeRecord fromU8 decodePayload b = .ok (hdr, a)) :
  hdr.FramedIn b ∧ ∃ kind, fromU8 hdr.kind = some kind ∧
    decodePayload kind (b.extract recordHeaderLen hdr.len.toNat) = .ok a
  := by
  rcases readFrom_cases b with hr | hr | ⟨hdr', hr, hframed⟩
  · simp [decodeRecord, hr] at h
  · simp [decodeRecord, hr] at h
  · rw [decodeRecord_of_readFrom hr hframed] at h
    cases hkind : fromU8 hdr'.kind with
    | none =>
        rw [hkind] at h
        cases h
    | some kind =>
        rw [hkind] at h
        obtain ⟨a', ha, heq⟩ := Res.bind_eq_ok.mp h
        obtain ⟨rfl, rfl⟩ := Prod.mk.inj (Res.ok.inj heq)
        exact ⟨hframed, kind, hkind, ha⟩

theorem settled_decodeRecord :
  Settled (decodeRecord fromU8 decodePayload)
  := by
  intro b s hb
  have hread : RecordHeader.readFrom b ≠ .err .truncated := by
    intro hr
    rw [decodeRecord, hr] at hb
    exact hb rfl
  have happ := settled_readFrom b s hread
  rcases readFrom_cases b with hr | hr | ⟨hdr, hr, hframed⟩
  · exact absurd hr hread
  · rw [decodeRecord, decodeRecord, happ, hr]
    rfl
  · have hfit := hframed.fits
    have hframed' : hdr.FramedIn (b ++ s) := by
      refine ⟨hframed.aligned, hframed.min, hframed.max, ?_⟩
      rw [List.length_append]
      omega
    have hext : (b ++ s).extract recordHeaderLen hdr.len.toNat
        = b.extract recordHeaderLen hdr.len.toNat := by
      rw [Bytes.extract, Bytes.extract]
      by_cases hle : recordHeaderLen ≤ b.length
      · rw [List.drop_append_of_le_length hle, List.take_append_of_le_length (by
          rw [List.length_drop]
          omega)]
      · rw [Nat.sub_eq_zero_of_le (by omega), List.take_zero, List.take_zero]
    rw [decodeRecord_of_readFrom (happ.trans hr) hframed', decodeRecord_of_readFrom hr hframed,
      hext]

end Records

/-! ### Payloads -/

theorem decodeEventPayload_ne_panic (kind : EventKind) (payload : Bytes) :
  decodeEventPayload kind payload ≠ .panic
  := by
  cases kind with
  | pad => simp [decodeEventPayload]
  | nameIntern =>
      rw [decodeEventPayload]
      apply Res.failIf_bind_ne_panic
      intro hlen
      rw [getU16_of_le (by omega), Res.ok_bind]
      apply Res.failIf_bind_ne_panic
      intro hname
      rw [getU32_of_le (by omega), Bytes.slice_of_le (by omega) (by omega)]
      simp
  | assertViolation =>
      rw [decodeEventPayload]
      apply Res.failIf_bind_ne_panic
      intro hlen
      rw [getU16_of_le (by omega), Res.ok_bind]
      apply Res.failIf_bind_ne_panic
      intro hdetails
      rw [getU32_of_le (by omega), getU32_of_le (by omega),
        Bytes.slice_of_le (by omega) (by omega)]
      simp
  | logLine =>
      rw [decodeEventPayload]
      apply Res.failIf_bind_ne_panic
      intro hlen
      rw [getU16_of_le (by omega), Res.ok_bind]
      apply Res.failIf_bind_ne_panic
      intro hmsg
      obtain ⟨stream, hstream⟩ := byte_of_lt (b := payload) (i := 0) (by omega)
      obtain ⟨level, hlevel⟩ := byte_of_lt (b := payload) (i := 1) (by omega)
      rw [hstream, hlevel, Bytes.slice_of_le (by omega) (by omega)]
      simp
  | _ =>
      rw [decodeEventPayload]
      apply Res.failIf_bind_ne_panic
      intro hlen
      simp (disch := omega) [getU32_of_le, getU64_of_le]

theorem decodeCommandPayload_ne_panic (kind : CommandKind) (payload : Bytes) :
  decodeCommandPayload kind payload ≠ .panic
  := by
  cases kind with
  | reverifyRegions => simp [decodeCommandPayload]
  | quiesce =>
      rw [decodeCommandPayload]
      apply Res.failIf_bind_ne_panic
      intro hlen
      rw [getU32_of_le (by omega), getU64_of_le (by omega), Res.ok_bind]
      split <;> simp
  | shutdown =>
      rw [decodeCommandPayload]
      apply Res.failIf_bind_ne_panic
      intro hlen
      rw [getU32_of_le (by omega), Res.ok_bind]
      split <;> simp
  | _ =>
      rw [decodeCommandPayload]
      apply Res.failIf_bind_ne_panic
      intro hlen
      simp (disch := omega) [getU32_of_le, getU64_of_le]

theorem decodeWorkloadCtrlPayload_ne_panic (kind : WorkloadCtrlKind) (payload : Bytes) :
  decodeWorkloadCtrlPayload kind payload ≠ .panic
  := by
  cases kind <;>
  · rw [decodeWorkloadCtrlPayload]
    apply Res.failIf_bind_ne_panic
    intro hlen
    simp (disch := omega) [getU64_of_le]

theorem decodeEvent_ne_panic (b : Bytes) :
  decodeEvent b ≠ .panic
  := by
  rw [decodeEvent_eq]
  apply decodeRecord_ne_panic decodeEventPayload_ne_panic

/-- The byte strings of an event, each with its cap. -/
def EventPayload.byteStrings : EventPayload → List (Bytes × Nat)
  | .nameIntern _ name => [(name, maxName)]
  | .assertViolation _ _ details => [(details, maxDetails)]
  | .logLine _ _ msg => [(msg, maxLogMsg)]
  | _ => []

/-- The byte strings of an event are parts of the payload, no longer than their caps. -/
def EventPayload.Within (ev : EventPayload) (payload : Bytes) : Prop :=
  ∀ field ∈ ev.byteStrings, field.1.length ≤ field.2 ∧
    ∃ lo hi, lo ≤ hi ∧ hi ≤ payload.length ∧ field.1 = payload.extract lo hi

theorem decodeEventPayload_within {kind : EventKind} {payload : Bytes} {ev : EventPayload}
    (h : decodeEventPayload kind payload = .ok ev) :
  ev.Within payload
  := by
  intro field hfield
  cases kind with
  | nameIntern =>
      rw [decodeEventPayload, Res.seq_eq_ok, Res.failIf_eq_ok] at h
      obtain ⟨hlen, h⟩ := h
      rw [getU16_of_le (by omega), Res.ok_bind, Res.seq_eq_ok, Res.failIf_eq_ok] at h
      obtain ⟨hname, h⟩ := h
      rw [getU32_of_le (by omega), Bytes.slice_of_le (by omega) (by omega)] at h
      obtain rfl := Res.ok.inj h
      obtain rfl := List.mem_singleton.mp hfield
      refine ⟨?_, _, _, Nat.le_add_right .., by omega, rfl⟩
      rw [Bytes.length_extract]
      omega
  | assertViolation =>
      rw [decodeEventPayload, Res.seq_eq_ok, Res.failIf_eq_ok] at h
      obtain ⟨hlen, h⟩ := h
      rw [getU16_of_le (by omega), Res.ok_bind, Res.seq_eq_ok, Res.failIf_eq_ok] at h
      obtain ⟨hdetails, h⟩ := h
      rw [getU32_of_le (by omega), getU32_of_le (by omega),
        Bytes.slice_of_le (by omega) (by omega)] at h
      obtain rfl := Res.ok.inj h
      obtain rfl := List.mem_singleton.mp hfield
      refine ⟨?_, _, _, Nat.le_add_right .., by omega, rfl⟩
      rw [Bytes.length_extract]
      omega
  | logLine =>
      rw [decodeEventPayload, Res.seq_eq_ok, Res.failIf_eq_ok] at h
      obtain ⟨hlen, h⟩ := h
      rw [getU16_of_le (by omega), Res.ok_bind, Res.seq_eq_ok, Res.failIf_eq_ok] at h
      obtain ⟨hmsg, h⟩ := h
      obtain ⟨stream, hstream⟩ := byte_of_lt (b := payload) (i := 0) (by omega)
      obtain ⟨level, hlevel⟩ := byte_of_lt (b := payload) (i := 1) (by omega)
      rw [hstream, hlevel, Bytes.slice_of_le (by omega) (by omega)] at h
      obtain rfl := Res.ok.inj h
      obtain rfl := List.mem_singleton.mp hfield
      refine ⟨?_, _, _, Nat.le_add_right .., by omega, rfl⟩
      rw [Bytes.length_extract]
      omega
  | pad =>
      obtain rfl := Res.ok.inj h
      cases hfield
  | regionRegister =>
      rw [decodeEventPayload, Res.seq_eq_ok, Res.failIf_eq_ok] at h
      obtain ⟨hlen, h⟩ := h
      simp (disch := omega) only [getU32_of_le, Res.ok_bind] at h
      obtain rfl := Res.ok.inj h
      cases hfield
  | regionUpdate =>
      rw [decodeEventPayload, Res.seq_eq_ok, Res.failIf_eq_ok] at h
      obtain ⟨hlen, h⟩ := h
      simp (disch := omega) only [getU32_of_le, Res.ok_bind] at h
      obtain rfl := Res.ok.inj h
      cases hfield
  | _ =>
      rw [decodeEventPayload, Res.seq_eq_ok, Res.failIf_eq_ok] at h
      obtain ⟨hlen, h⟩ := h
      simp (disch := omega) only [getU32_of_le, getU64_of_le, Res.ok_bind] at h
      obtain rfl := Res.ok.inj h
      cases hfield

/-! ### Region messages -/

namespace Regionipc

/-- A message has a kind behind its header, or it is rejected. -/
theorem checkHeader_ne_panic (b : Bytes) :
  checkHeader b ≠ .panic
  := by
  rw [checkHeader]
  apply Res.failIf_bind_ne_panic
  intro hlen
  simp only [headerLen] at hlen
  rw [getU32_of_le (by omega), Res.ok_bind]
  apply Res.failIf_bind_ne_panic
  intro _
  rw [getU16_of_le (by omega), Res.ok_bind]
  apply Res.failIf_bind_ne_panic
  intro _
  rw [getU16_of_le (by omega)]
  simp

theorem decodeRegister_ne_panic (b : Bytes) :
  decodeRegister b ≠ .panic
  := by
  rw [decodeRegister]
  apply Res.failIf_bind_ne_panic
  intro hlen
  simp only [regOffName] at hlen ⊢
  simp (disch := omega) only [getU32_of_le, getU64_of_le, getU16_of_le, Res.ok_bind]
  apply Res.failIf_bind_ne_panic
  intro _
  apply Res.failIf_bind_ne_panic
  intro hname
  apply Res.failIf_bind_ne_panic
  intro _
  apply Res.failIf_bind_ne_panic
  intro _
  rw [Bytes.slice_of_le (by omega) (by omega)]
  simp

theorem decodeRequest_ne_panic (b : Bytes) :
  decodeRequest b ≠ .panic
  := by
  intro hpanic
  rcases Res.bind_eq_panic.mp hpanic with hpanic | ⟨kind, _, hpanic⟩
  · exact checkHeader_ne_panic b hpanic
  revert hpanic
  split
  · apply decodeRegister_ne_panic
  split
  · apply Res.failIf_bind_ne_panic
    intro hlen
    simp only [unregLen] at hlen
    apply Res.failIf_bind_ne_panic
    intro _
    rw [getU32_of_le (by omega)]
    simp
  · simp

theorem decodeReply_ne_panic (b : Bytes) :
  decodeReply b ≠ .panic
  := by
  intro hpanic
  rcases Res.bind_eq_panic.mp hpanic with hpanic | ⟨kind, _, hpanic⟩
  · exact checkHeader_ne_panic b hpanic
  revert hpanic
  apply Res.failIf_bind_ne_panic
  intro _
  apply Res.failIf_bind_ne_panic
  intro hlen
  simp only [replyLen] at hlen
  apply Res.failIf_bind_ne_panic
  intro _
  simp (disch := omega) [getU32_of_le, getU64_of_le, getU16_of_le]

end Regionipc

/-! ### All decoders -/

/-- The decoders never index out of range.  The record decoders accept framed records only,
whose byte strings are parts of the payload within their caps, and bytes behind a record that
is not cut short do not change what is decoded. -/
theorem decoders_total_and_framed :
  (∀ b : Bytes,
    decodeEvent b ≠ .panic ∧ decodeCommand b ≠ .panic ∧ decodeWorkloadCtrl b ≠ .panic ∧
    RecordHeader.readFrom b ≠ .panic ∧ Regionipc.decodeRequest b ≠ .panic ∧
    Regionipc.decodeReply b ≠ .panic ∧
    (∀ hdr, RecordHeader.readFrom b = .ok hdr → hdr.FramedIn b) ∧
    (∀ hdr ev, decodeEvent b = .ok (hdr, ev) →
      hdr.FramedIn b ∧ ev.Within (b.extract recordHeaderLen hdr.len.toNat)) ∧
    (∀ hdr cmd, decodeCommand b = .ok (hdr, cmd) → hdr.FramedIn b) ∧
    ∀ hdr rec, decodeWorkloadCtrl b = .ok (hdr, rec) → hdr.FramedIn b) ∧
  Settled RecordHeader.readFrom ∧ Settled decodeEvent ∧ Settled decodeCommand ∧
    Settled decodeWorkloadCtrl
  := by
  rw [decodeCommand_eq, decodeWorkloadCtrl_eq, decodeEvent_eq]
  refine ⟨?_, settled_readFrom, settled_decodeRecord, settled_decodeRecord,
    settled_decodeRecord⟩
  intro b
  refine ⟨decodeRecord_ne_panic decodeEventPayload_ne_panic,
    decodeRecord_ne_panic decodeCommandPayload_ne_panic,
    decodeRecord_ne_panic decodeWorkloadCtrlPayload_ne_panic, ?_,
    Regionipc.decodeRequest_ne_panic b, Regionipc.decodeReply_ne_panic b, ?_, ?_, ?_, ?_⟩
  · rcases readFrom_cases b with hr | hr | ⟨hdr, hr, _⟩ <;> simp [hr]
  · intro hdr h
    rcases readFrom_cases b with hr | hr | ⟨hdr', hr, hframed⟩
    · simp [hr] at h
    · simp [hr] at h
    · obtain rfl := Res.ok.inj (hr.symm.trans h)
      exact hframed
  · intro hdr ev h
    obtain ⟨hframed, kind, _, hev⟩ := decodeRecord_eq_ok h
    exact ⟨hframed, decodeEventPayload_within hev⟩
  · intro hdr cmd h
    exact (decodeRecord_eq_ok h).1
  · intro hdr rec h
    exact (decodeRecord_eq_ok h).1

end Wire
