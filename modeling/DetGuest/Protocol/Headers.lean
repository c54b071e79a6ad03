import DetGuest.Host.Rings
import DetGuest.Sdk.Map

/-!
# Accepted headers

The host, the wire crate and the SDK accept the same headers, and an accepted header places the
rings apart from each other.  It does not make every ring large enough for a record.
-/

namespace Protocol

open Wire Host

/-! ### Agreement -/

/-- The check of the wire crate and the conditions of the host agree. -/
theorem validate_eq_ok {header : ChannelHeader} :
  header.validate = .ok () ↔ Accepted header
  := by
  have hover : ∀ a b : RingDesc,
      (a.offset.toUInt64 < b.offset.toUInt64 + b.size.toUInt64 ∧
        b.offset.toUInt64 < a.offset.toUInt64 + a.size.toUInt64) ↔ RingsOverlap a b := by
    intro a b
    rw [UInt64.lt_iff_toNat_lt, UInt64.lt_iff_toNat_lt, a.toNat_end, b.toNat_end,
      UInt32.toNat_toUInt64, UInt32.toNat_toUInt64]
    rfl
  rw [← checkHeader_eq_ok, ChannelHeader.validate, checkHeader, Res.seq_eq_ok, Res.seq_eq_ok,
    Res.seq_eq_ok, Res.seq_eq_ok, Res.seq_eq_ok, Res.seq_eq_ok, Res.seq_eq_ok, Res.seq_eq_ok,
    Res.failIf_eq_ok, Res.failIf_eq_ok, Res.failIf_eq_ok, Res.failIf_eq_ok, Res.forIn_eq_ok,
    Res.forIn_eq_ok, Res.forIn_eq_ok, Res.forIn_eq_ok]
  simp only [RingDesc.validate_eq_ok, checkDesc_eq_ok, Res.failIf_eq_ok, hover]
  constructor
  · rintro ⟨hmagic, hversion, hvalid, hdisjoint, _⟩
    exact ⟨hmagic, hversion, hvalid, hdisjoint, rfl⟩
  · rintro ⟨hmagic, hversion, hvalid, hdisjoint, _⟩
    exact ⟨hmagic, hversion, hvalid, hdisjoint, rfl⟩

/-- The SDK accepts what the wire crate accepts. -/
theorem readAndValidateHeader_eq_ok {bytes : Bytes} (hlen : offReserved ≤ bytes.length) :
  (∃ header, Sdk.readAndValidateHeader bytes = .ok header) ↔ (headerAt bytes).validate = .ok ()
  := by
  rw [Sdk.readAndValidateHeader, readFrom_eq hlen, Res.mapErr_ok, Res.ok_bind]
  constructor
  · rintro ⟨header, h⟩
    rw [Res.seq_eq_ok, Res.seq_eq_ok, Res.seq_eq_ok] at h
    obtain ⟨_, _, hvalidate, _⟩ := h
    rcases hv : (headerAt bytes).validate with u | e | _
    · rfl
    · rw [hv] at hvalidate
      cases hvalidate
    · rw [hv] at hvalidate
      cases hvalidate
  · intro hvalidate
    have hacc := validate_eq_ok.mp hvalidate
    refine ⟨headerAt bytes, ?_⟩
    rw [Res.failIf_of_not (not_not.mpr hacc.magic), Res.ok_bind,
      Res.failIf_of_not (not_not.mpr hacc.version), Res.ok_bind, hvalidate, Res.mapErr_ok,
      Res.ok_bind]
    rfl

/-- The rings that a header describes have aligned data areas of their own, inside the page and
behind the manifest, and the ends of the areas are small numbers. -/
structure RingsPlaced (header : ChannelHeader) : Prop where
  inside : ∀ ring, offRingCData ≤ (header.ringDesc ring).offset.toNat ∧
    (header.ringDesc ring).offset.toNat + (header.ringDesc ring).size.toNat ≤ channelSize
  aligned : ∀ ring, (header.ringDesc ring).offset.toNat % 8 = 0
  powers : ∀ ring, ∃ k, (header.ringDesc ring).size.toNat = 2 ^ k
  disjoint : ∀ a b, a ≠ b →
    (header.ringDesc a).offset.toNat + (header.ringDesc a).size.toNat
        ≤ (header.ringDesc b).offset.toNat ∨
      (header.ringDesc b).offset.toNat + (header.ringDesc b).size.toNat
        ≤ (header.ringDesc a).offset.toNat
  ends : ∀ ring, ((header.ringDesc ring).offset + (header.ringDesc ring).size).toNat
    = (header.ringDesc ring).offset.toNat + (header.ringDesc ring).size.toNat

theorem ringsPlaced {header : ChannelHeader} (hacc : Accepted header) :
  RingsPlaced header
  := by
  refine ⟨?_, ?_, ?_, ?_, ?_⟩
  · intro ring
    exact ⟨(hacc.valid ring).offset_ge, (hacc.valid ring).end_le⟩
  · intro ring
    exact (hacc.valid ring).aligned
  · intro ring
    obtain ⟨k, _, hk⟩ := Word.isPowerOfTwo_iff.mp (hacc.valid ring).size_pow
    exact ⟨k, hk⟩
  · intro a b hab
    have hnot := hacc.disjoint a b hab
    rw [RingsOverlap, not_and_or, Nat.not_lt, Nat.not_lt] at hnot
    exact hnot.symm
  · intro ring
    have hend : _ ≤ 0x200000 := (hacc.valid ring).end_le
    rw [UInt32.toNat_add, Nat.mod_eq_of_lt (by omega)]

/-- **Agreement.**  For every channel header and every memory that the host reads it from: the
host attaches exactly when the wire crate accepts the header, which is exactly when the SDK accepts
a page that starts with it.  The ends of the data areas never overflow, and those of an accepted
header lie apart from each other inside the page. -/
theorem headers_agree {hdr rest : Bytes} (hlen : hdr.length = offReserved) {gm : GuestMem}
    {base : PageBase} (hread : gm.read base.gpa offReserved = .ok hdr) :
  ∃ header, ChannelHeader.readFrom hdr = .ok header ∧
    ((∃ ch, attach gm base = .ok ch) ↔ header.validate = .ok ()) ∧
    ((∃ h, Sdk.readAndValidateHeader (hdr ++ rest) = .ok h) ↔ header.validate = .ok ()) ∧
    (∀ ring, ((header.ringDesc ring).offset.toUInt64 + (header.ringDesc ring).size.toUInt64).toNat
      = (header.ringDesc ring).offset.toNat + (header.ringDesc ring).size.toNat) ∧
    (header.validate = .ok () → RingsPlaced header)
  := by
  have hparse := readFrom_eq hlen.ge
  refine ⟨headerAt hdr, hparse, ?_, ?_, ?_, ?_⟩
  · have hbytes : gm.readErr base.gpa offReserved = none ∧
        gm.bytes.read base.gpa offReserved = hdr := by
      rw [GuestMem.read] at hread
      cases herr : gm.readErr base.gpa offReserved with
      | some e =>
          rw [herr] at hread
          cases hread
      | none =>
          rw [herr] at hread
          exact ⟨rfl, Res.ok.inj hread⟩
    rw [validate_eq_ok]
    constructor
    · rintro ⟨ch, hattach⟩
      obtain ⟨_, header, hfrom, hacc, _⟩ := attach_eq_ok.mp hattach
      rw [hbytes.2, hparse, Res.ok.injEq] at hfrom
      rw [hfrom]
      exact hacc
    · intro hacc
      exact ⟨_, attach_eq_ok.mpr ⟨hbytes.1, headerAt hdr, by rw [hbytes.2, hparse], hacc, rfl⟩⟩
  · rw [readAndValidateHeader_eq_ok (by rw [List.length_append]; omega),
      headerAt_append hlen.ge]
  · intro ring
    exact RingDesc.toNat_end _
  · intro hvalidate
    exact ringsPlaced (validate_eq_ok.mp hvalidate)

/-- The canonical header at the start of a page. -/
def canonicalHdr : Bytes := canonicalMem.bytes.read 0 offReserved

theorem headers_agree_canonical :
  ∃ header, ChannelHeader.readFrom canonicalHdr = .ok header ∧
    ((∃ ch, attach canonicalMem zeroBase = .ok ch) ↔ header.validate = .ok ()) ∧
    ((∃ h, Sdk.readAndValidateHeader (canonicalHdr ++ []) = .ok h) ↔ header.validate = .ok ()) ∧
    (∀ ring, ((header.ringDesc ring).offset.toUInt64 + (header.ringDesc ring).size.toUInt64).toNat
      = (header.ringDesc ring).offset.toNat + (header.ringDesc ring).size.toNat) ∧
    (header.validate = .ok () → RingsPlaced header)
  := headers_agree (by rfl) (by rfl)

/-! ### Usable headers -/

/-- A ring is empty, at an aligned position. -/
def EmptyAt (ch : Channel) (ring : RingId) : Prop :=
  ch.gm.bytes.u32 (ch.prodGpa ring) = ch.gm.bytes.u32 (ch.consGpa ring) ∧
    (ch.gm.bytes.u32 (ch.consGpa ring)).toNat % recordAlign = 0

/-- The page with this header can be used: the asserts of `from_raw` hold, mapping it does not
panic, and the host can push every record onto an empty ring. -/
structure Usable (page : Bytes) (header : ChannelHeader) : Prop where
  asserted : ∀ ring, SizeAsserted (header.ringDesc ring).size
  maps : ∀ ptr, Sdk.MappedChannel.map ptr page ≠ .panic
  commands : ∀ dbg cmd (h : HostState), h.ch.header = header → Mapped h.ch.gm h.ch.base →
    EmptyAt h.ch .C → ∃ h', (pushCommand dbg cmd).run h = (h', .ok ())
  controls : ∀ dbg rec (h : HostState), h.ch.header = header → Mapped h.ch.gm h.ch.base →
    EmptyAt h.ch .I → ∃ h', (pushWorkloadCtrl dbg rec).run h = (h', .ok ())

/-- An empty ring holds no records. -/
theorem queue_emptyAt {ch : Channel} {ring : RingId} {r : RingMap} (hat : RingAt r ch ring)
    (hempty : EmptyAt ch ring) :
  Queue r ch.gm.bytes []
  := by
  refine ⟨Nat.zero_le _, ?_, trivial, by simp, ?_⟩
  · rw [hat.prod, hat.cons, hempty.1]
    simp
  · rw [hat.cons]
    exact hempty.2

/-- A large ring that is empty has room for a short record. -/
theorem room_of_emptyAt {ch : Channel} {ring : RingId} {r : RingMap} (hat : RingAt r ch ring)
    (hempty : EmptyAt ch ring) {n : Nat} (hn : n ≤ 32) :
  ¬ free (ch.gm.bytes.u32 (ch.prodGpa ring)) (ch.gm.bytes.u32 (ch.consGpa ring))
      (ch.ringDesc ring).size
    < bytesNeeded (ch.gm.bytes.u32 (ch.prodGpa ring)) (ch.ringDesc ring).size (UInt32.ofNat n)
  := by
  rw [← hat.size]
  have hsize : 4096 ≤ r.size.toNat := r.size_ge
  have hfree : (free (ch.gm.bytes.u32 (ch.consGpa ring) + UInt32.ofNat 0)
      (ch.gm.bytes.u32 (ch.consGpa ring)) r.size).toNat = r.size.toNat - 0 :=
    toNat_free (Nat.zero_le _)
  have hneeded := toNat_bytesNeeded r.size_pow (ch.gm.bytes.u32 (ch.prodGpa ring))
    (show n ≤ 4096 by omega)
  rw [hempty.1, UInt32.lt_iff_toNat_lt]
  rw [hempty.1] at hneeded
  have hzero : ch.gm.bytes.u32 (ch.consGpa ring) + UInt32.ofNat 0
      = ch.gm.bytes.u32 (ch.consGpa ring) := UInt32.add_zero _
  rw [hzero] at hfree
  rw [hneeded, hfree]
  split <;> omega

/-- A push is refused only for lack of room. -/
theorem pushOutcome_ne_ringFull {dbg : Bool} {ring : RingId} {n : Nat} {bytes : UInt32 → Bytes}
    {seq : UInt32} {ch : Channel}
    (hroom : ¬ free (ch.gm.bytes.u32 (ch.prodGpa ring)) (ch.gm.bytes.u32 (ch.consGpa ring))
        (ch.ringDesc ring).size
      < bytesNeeded (ch.gm.bytes.u32 (ch.prodGpa ring)) (ch.ringDesc ring).size (UInt32.ofNat n))
    (store : Channel → UInt32 → Channel) :
  ((pushOutcome dbg ring n bytes seq ch).keepSeq store).res ≠ .err .ringFull
  := by
  have hres : (pushOutcome dbg ring n bytes seq ch).res ≠ .err .ringFull := by
    rw [pushOutcome]
    dsimp only
    split
    · simp
    · split
      · simp
      · rw [if_neg hroom]
        split
        · simp
        · rw [storeOutcome]
          dsimp only
          generalize (writeAll ch.gm _).res = res
          cases res <;> simp
  rw [Outcome.keepSeq]
  split <;> simp_all

section Usable

variable {header : ChannelHeader}

theorem usable_commands (hacc : Accepted header)
    (hlarge : maxRecordLen ≤ (header.ringDesc .C).size.toNat) (dbg : Bool) (cmd : Command)
    (h : HostState) (hheader : h.ch.header = header) (hmapped : Mapped h.ch.gm h.ch.base)
    (hempty : EmptyAt h.ch .C) :
  ∃ h', (pushCommand dbg cmd).run h = (h', .ok ())
  := by
  subst hheader
  have hat := h.ch.ringMap_at .C hacc hlarge
  have hlen : recordLen (commandPayloadLen cmd) ≤ 32 := by
    have hlens : commandPayloadLen cmd = 8 ∨ commandPayloadLen cmd = 16 ∨
        commandPayloadLen cmd = 0 := by
      cases cmd <;> simp [commandPayloadLen]
    rcases hlens with hlen | hlen | hlen <;> rw [hlen] <;> decide
  rcases run_pushCommand_queue dbg cmd h hmapped hacc hat (queue_emptyAt hat hempty) with
    ⟨h', hrun, _⟩ | ⟨h', _, hrun, _⟩
  · rw [run_pushCommand dbg cmd h (hacc.valid .C).size_pow rfl] at hrun
    exact absurd (congrArg Prod.snd hrun)
      (pushOutcome_ne_ringFull (room_of_emptyAt hat hempty hlen) _)
  · exact ⟨h', hrun⟩

theorem usable_controls (hacc : Accepted header)
    (hlarge : maxRecordLen ≤ (header.ringDesc .I).size.toNat) (dbg : Bool) (rec : WorkloadCtrl)
    (h : HostState) (hheader : h.ch.header = header) (hmapped : Mapped h.ch.gm h.ch.base)
    (hempty : EmptyAt h.ch .I) :
  ∃ h', (pushWorkloadCtrl dbg rec).run h = (h', .ok ())
  := by
  subst hheader
  have hat := h.ch.ringMap_at .I hacc hlarge
  rcases run_pushWorkloadCtrl_queue dbg rec h hmapped hacc hat (queue_emptyAt hat hempty) with
    ⟨h', hrun, _⟩ | ⟨h', _, hrun, _⟩
  · rw [run_pushWorkloadCtrl dbg rec h (hacc.valid .I).size_pow rfl] at hrun
    exact absurd (congrArg Prod.snd hrun)
      (pushOutcome_ne_ringFull (room_of_emptyAt hat hempty (by decide)) _)
  · exact ⟨h', hrun⟩

/-- Mapping a page with an accepted header comes down to the two asserts. -/
theorem map_eq {page : Bytes} (hread : ChannelHeader.readFrom page = .ok header)
    (hvalidate : header.validate = .ok ()) (ptr : Nat) :
  Sdk.MappedChannel.map ptr page = (do
    let producerW ← fromRaw (Sdk.rawRing ptr .W (header.ringDesc .W))
    let consumerI ← fromRaw (Sdk.rawRing ptr .I (header.ringDesc .I))
    pure { ringW := producerW, nextSeq := 0, ringI := consumerI })
  := by
  have hacc := validate_eq_ok.mp hvalidate
  rw [Sdk.MappedChannel.map, Sdk.readAndValidateHeader, hread, Res.mapErr_ok, Res.ok_bind,
    Res.failIf_of_not (not_not.mpr hacc.magic), Res.ok_bind,
    Res.failIf_of_not (not_not.mpr hacc.version), Res.ok_bind, hvalidate, Res.mapErr_ok,
    Res.ok_bind]
  rfl

/-- **Usable headers.**  An accepted header can be used exactly when every ring is at least as
large as the longest record. -/
theorem usable_iff {page : Bytes} (hread : ChannelHeader.readFrom page = .ok header)
    (hvalidate : header.validate = .ok ()) :
  Usable page header ↔ ∀ ring, maxRecordLen ≤ (header.ringDesc ring).size.toNat
  := by
  have hacc := validate_eq_ok.mp hvalidate
  constructor
  · intro h ring
    exact (h.asserted ring).2
  · intro hlarge
    have hasserted : ∀ ring, SizeAsserted (header.ringDesc ring).size :=
      fun ring => ⟨(hacc.valid ring).size_pow, hlarge ring⟩
    refine ⟨hasserted, ?_, ?_, ?_⟩
    · intro ptr
      have hraw : ∀ ring, (fromRaw (Sdk.rawRing ptr ring (header.ringDesc ring)) :
          Res Sdk.InitError RawRing) = .ok (Sdk.rawRing ptr ring (header.ringDesc ring)) :=
        fun ring => if_pos (hasserted ring)
      rw [map_eq hread hvalidate, hraw, Res.ok_bind, hraw, Res.ok_bind]
      simp
    · exact usable_commands hacc (hlarge .C)
    · exact usable_controls hacc (hlarge .I)

end Usable

/-- The page with the canonical header. -/
def canonicalPage : Bytes := canonicalHdr ++ Bytes.zeros (channelSize - offReserved)

theorem readFrom_canonicalPage :
  ChannelHeader.readFrom canonicalPage = .ok ChannelHeader.canonical
  := by
  have hlen : offReserved ≤ canonicalHdr.length := by decide
  have hhdr : ChannelHeader.readFrom canonicalHdr = .ok (headerAt canonicalHdr) := readFrom_eq hlen
  rw [canonicalPage, readFrom_eq (by rw [List.length_append]; omega), headerAt_append hlen, ← hhdr]
  exact readFrom_canonicalMem

theorem usable_canonical :
  Usable canonicalPage ChannelHeader.canonical ↔
    ∀ ring, maxRecordLen ≤ (ChannelHeader.canonical.ringDesc ring).size.toNat
  := usable_iff readFrom_canonicalPage (validate_eq_ok.mpr accepted_canonical)

/-- The canonical header, but with a ring W of 2048 bytes. -/
def smallHdr : Bytes := canonicalHdr.splice 44 (Bytes.ofU32 0x800)

/-- The page with this header. -/
def smallPage : Bytes := smallHdr ++ Bytes.zeros (channelSize - offReserved)

/-- The header is accepted, and mapping the page panics. -/
theorem small_ring_panics :
  ChannelHeader.readFrom smallPage = .ok (headerAt smallHdr) ∧
    (headerAt smallHdr).validate = .ok () ∧ Sdk.MappedChannel.map 0 smallPage = .panic ∧
    ¬ Usable smallPage (headerAt smallHdr)
  := by
  have hlen : offReserved ≤ smallHdr.length := by decide
  have hread : ChannelHeader.readFrom smallPage = .ok (headerAt smallHdr) := by
    rw [smallPage, readFrom_eq (by rw [List.length_append]; omega), headerAt_append hlen]
  have hvalidate : (headerAt smallHdr).validate = .ok () := by decide
  have hpanic : Sdk.MappedChannel.map 0 smallPage = .panic := by
    rw [map_eq hread hvalidate]
    decide
  exact ⟨hread, hvalidate, hpanic, fun h => h.maps 0 hpanic⟩

end Protocol
