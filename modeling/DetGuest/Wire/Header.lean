import DetGuest.Lib.Bytes
import DetGuest.Lib.Words
import DetGuest.Wire.Record

/-!
# The channel header

Magic, version and ring descriptors at the start of the channel page, and the places of
the index cells.  All offsets are relative to the base of the page.
-/

namespace Wire

/-- `"DETGUEST"` as a little-endian number. -/
def channelMagic : UInt64 := 0x5453455547544544

def protoVersion : UInt32 := 1

/-- One page of two mebibytes. -/
def channelSize : Nat := 0x200000

def offMagic : Nat := 0x000
def offProtoVersion : Nat := 0x008
def offHeaderFlags : Nat := 0x00C
def offRingDesc : Nat := 0x010
def offReserved : Nat := 0x030

def offRingADroppedRecords : Nat := 0x040
def offRingADroppedBytes : Nat := 0x048
def offRingWDroppedRecords : Nat := 0x050
def offRingWDroppedBytes : Nat := 0x058
def offRingWDroppedByKind : Nat := 0x060
def droppedByKindSlots : Nat := 16

/-- Offset of the region manifest. -/
def offManifest : Nat := 0x1000

/-- Offset of the data of ring C, the first byte a ring may take. -/
def offRingCData : Nat := 0x8000

/-- The four rings. -/
inductive RingId where
  | C
  | I
  | A
  | W
  deriving DecidableEq, Repr

/-- All rings in descriptor order. -/
def RingId.all : List RingId := [.C, .I, .A, .W]

/-- The place of a ring's descriptor in the header. -/
def RingId.index : RingId → Nat
  | C => 0
  | I => 1
  | A => 2
  | W => 3

/-- Offset of the producer index cell of a ring. -/
def RingId.prodOffset : RingId → Nat
  | C => 0x100
  | I => 0x180
  | A => 0x200
  | W => 0x280

/-- Offset of the consumer index cell of a ring. -/
def RingId.consOffset : RingId → Nat
  | C => 0x140
  | I => 0x1C0
  | A => 0x240
  | W => 0x2C0

/-- The data area of a ring, as the header describes it. -/
structure RingDesc where
  offset : UInt32
  size : UInt32
  deriving DecidableEq, Repr

/-- The canonical data area of a ring. -/
def RingId.canonicalDesc : RingId → RingDesc
  | C => { offset := 0x8000, size := 0x4000 }
  | I => { offset := 0xC000, size := 0x4000 }
  | A => { offset := 0x10000, size := 0x10000 }
  | W => { offset := 0x20000, size := 0x100000 }

/-- Check a descriptor: the size is a power of two, and the data area is aligned, lies
in the page and stays clear of the header and the manifest. -/
def RingDesc.validate (d : RingDesc) : Res DecodeError Unit := do
  Res.failIf (d.size = 0 ∨ ¬ Word.isPowerOfTwo d.size) .badField
  Res.failIf (d.offset.toNat < offRingCData ∨ d.offset.toNat + d.size.toNat > channelSize)
    .badField
  Res.failIf (d.offset.toNat % 8 ≠ 0) .badField

/-- The fixed fields of the header.  The array of descriptors is indexed by ring. -/
structure ChannelHeader where
  magic : UInt64
  protoVersion : UInt32
  headerFlags : UInt32
  ringDesc : RingId → RingDesc

/-- The header with the canonical placement of the rings and no flags. -/
def ChannelHeader.canonical : ChannelHeader :=
  { magic := channelMagic
    protoVersion := Wire.protoVersion
    headerFlags := 0
    ringDesc := RingId.canonicalDesc }

/-- Write the fixed fields to the first bytes of the buffer. -/
def ChannelHeader.writeTo (h : ChannelHeader) : Exec Bytes EncodeError Unit := do
  let buf ← Exec.get
  Exec.failIf (buf.length < offReserved) .bufferTooSmall
  Bytes.put offMagic (Bytes.ofU64 h.magic)
  Bytes.put offProtoVersion (Bytes.ofU32 h.protoVersion)
  Bytes.put offHeaderFlags (Bytes.ofU32 h.headerFlags)
  for ring in RingId.all do
    let at_ := offRingDesc + ring.index * 8
    Bytes.put at_ (Bytes.ofU32 (h.ringDesc ring).offset)
    Bytes.put (at_ + 4) (Bytes.ofU32 (h.ringDesc ring).size)

/-- Decode the fixed fields, with no check beyond the length. -/
def ChannelHeader.readFrom (buf : Bytes) : Res DecodeError ChannelHeader := do
  Res.failIf (buf.length < offReserved) .truncated
  let magic := (← buf.slice offMagic (offMagic + 8)).toU64
  let protoVersion := (← buf.slice offProtoVersion (offProtoVersion + 4)).toU32
  let headerFlags := (← buf.slice offHeaderFlags (offHeaderFlags + 4)).toU32
  let desc (ring : RingId) : Res DecodeError RingDesc := do
    let at_ := offRingDesc + ring.index * 8
    pure { offset := (← buf.slice at_ (at_ + 4)).toU32
           size := (← buf.slice (at_ + 4) (at_ + 8)).toU32 }
  let c ← desc .C
  let i ← desc .I
  let a ← desc .A
  let w ← desc .W
  let ringDesc : RingId → RingDesc
    | .C => c
    | .I => i
    | .A => a
    | .W => w
  pure { magic, protoVersion, headerFlags, ringDesc }

/-- The pairs of distinct rings, in the order the loops visit them. -/
def ringPairs : List (RingId × RingId) :=
  [(.C, .I), (.C, .A), (.C, .W), (.I, .A), (.I, .W), (.A, .W)]

/-- The checks of the attach path: magic, version, the descriptors, and that no two data areas
overlap.  The ends of the areas are computed with 64 bits. -/
def ChannelHeader.validate (h : ChannelHeader) : Res DecodeError Unit := do
  Res.failIf (h.magic ≠ channelMagic) .badMagic
  Res.failIf (h.protoVersion ≠ Wire.protoVersion) .badVersion
  for ring in RingId.all do
    (h.ringDesc ring).validate
  for pair in ringPairs do
    let a := h.ringDesc pair.1
    let b := h.ringDesc pair.2
    let aEnd := a.offset.toUInt64 + a.size.toUInt64
    let bEnd := b.offset.toUInt64 + b.size.toUInt64
    Res.failIf (a.offset.toUInt64 < bEnd ∧ b.offset.toUInt64 < aEnd) .badField

/-- The end of a data area does not overflow 64 bits. -/
theorem RingDesc.toNat_end (d : RingDesc) :
  (d.offset.toUInt64 + d.size.toUInt64).toNat = d.offset.toNat + d.size.toNat
  := by
  have hoff := d.offset.toNat_lt
  have hsize := d.size.toNat_lt
  rw [UInt64.toNat_add, UInt32.toNat_toUInt64, UInt32.toNat_toUInt64, Nat.mod_eq_of_lt (by omega)]

/-- What an accepted descriptor satisfies. -/
structure RingDesc.Valid (d : RingDesc) : Prop where
  size_pow : Word.isPowerOfTwo d.size
  offset_ge : offRingCData ≤ d.offset.toNat
  end_le : d.offset.toNat + d.size.toNat ≤ channelSize
  aligned : d.offset.toNat % 8 = 0

theorem RingDesc.validate_eq_ok {d : RingDesc} :
  d.validate = .ok () ↔ d.Valid
  := by
  have hzero : Word.isPowerOfTwo d.size → ¬ d.size = 0 := by
    intro hpow hzero
    have hpos := Word.toNat_pos hpow
    rw [hzero, UInt32.toNat_zero] at hpos
    omega
  constructor
  · intro h
    simp only [RingDesc.validate, Res.failIf] at h
    split at h
    · cases h
    rename_i hsize
    rw [Res.ok_bind] at h
    split at h
    · cases h
    rename_i hplace
    rw [Res.ok_bind] at h
    split at h
    · cases h
    rename_i halign
    constructor
    · by_contra hpow
      apply hsize (Or.inr hpow)
    · omega
    · omega
    · omega
  · intro h
    have hge := h.offset_ge
    have hle := h.end_le
    have halign := h.aligned
    rw [RingDesc.validate, Res.failIf_of_not (by simp [hzero h.size_pow, h.size_pow]),
      Res.ok_bind, Res.failIf_of_not (by omega), Res.ok_bind, Res.failIf_of_not (by omega)]

/-! ### Reading a header -/

/-- The descriptor of a ring, of a header that is there. -/
def descAt (buf : Bytes) (ring : RingId) : RingDesc :=
  { offset := (buf.extract (offRingDesc + ring.index * 8) (offRingDesc + ring.index * 8 + 4)).toU32
    size := (buf.extract (offRingDesc + ring.index * 8 + 4) (offRingDesc + ring.index * 8 + 8)).toU32 }

/-- The header at the start of a buffer that is long enough. -/
def headerAt (buf : Bytes) : ChannelHeader :=
  { magic := (buf.extract offMagic (offMagic + 8)).toU64
    protoVersion := (buf.extract offProtoVersion (offProtoVersion + 4)).toU32
    headerFlags := (buf.extract offHeaderFlags (offHeaderFlags + 4)).toU32
    ringDesc := descAt buf }

theorem readFrom_eq {buf : Bytes} (hlen : offReserved ≤ buf.length) :
  ChannelHeader.readFrom buf = .ok (headerAt buf)
  := by
  have hlen' : 48 ≤ buf.length := hlen
  have hslice : ∀ lo hi, lo ≤ hi → hi ≤ 48 →
      (buf.slice lo hi : Res DecodeError Bytes) = .ok (buf.extract lo hi) := by
    intro lo hi hle hhi
    exact Bytes.slice_of_le hle (by omega)
  rw [ChannelHeader.readFrom, Res.failIf_of_not (by omega), Res.ok_bind,
    hslice offMagic (offMagic + 8) (by decide) (by decide), Res.ok_bind,
    hslice offProtoVersion (offProtoVersion + 4) (by decide) (by decide), Res.ok_bind,
    hslice offHeaderFlags (offHeaderFlags + 4) (by decide) (by decide), Res.ok_bind]
  have hdesc : ∀ ring : RingId, (do
      let at_ := offRingDesc + ring.index * 8
      pure { offset := (← buf.slice at_ (at_ + 4)).toU32
             size := (← buf.slice (at_ + 4) (at_ + 8)).toU32 } : Res DecodeError RingDesc)
      = .ok (descAt buf ring) := by
    intro ring
    have hindex : offRingDesc + ring.index * 8 + 8 ≤ 48 := by cases ring <;> decide
    dsimp only
    rw [hslice _ _ (by omega) (by omega), Res.ok_bind, hslice _ _ (by omega) hindex, Res.ok_bind]
    rfl
  dsimp only at hdesc ⊢
  rw [hdesc .C, Res.ok_bind, hdesc .I, Res.ok_bind, hdesc .A, Res.ok_bind, hdesc .W, Res.ok_bind]
  have hrings : (fun ring => match ring with
      | .C => descAt buf .C
      | .I => descAt buf .I
      | .A => descAt buf .A
      | .W => descAt buf .W : RingId → RingDesc) = descAt buf := by
    funext ring
    cases ring <;> rfl
  exact congrArg (fun desc => Res.ok { headerAt buf with ringDesc := desc }) hrings

theorem extract_append {hdr rest : Bytes} {lo hi : Nat} (h : hi ≤ hdr.length) :
  Bytes.extract (hdr ++ rest) lo hi = Bytes.extract hdr lo hi
  := by
  rw [Bytes.extract, Bytes.extract]
  rcases Nat.le_total lo hdr.length with hlo | hlo
  · rw [List.drop_append_of_le_length hlo, List.take_append_of_le_length]
    rw [List.length_drop]
    omega
  · have hzero : hi - lo = 0 := by omega
    rw [hzero, List.take_zero, List.take_zero]

/-- What stands behind the header does not matter. -/
theorem headerAt_append {hdr rest : Bytes} (hlen : offReserved ≤ hdr.length) :
  headerAt (hdr ++ rest) = headerAt hdr
  := by
  have hlen' : 48 ≤ hdr.length := hlen
  have hdesc : descAt (hdr ++ rest) = descAt hdr := by
    funext ring
    have hindex : offRingDesc + ring.index * 8 + 8 ≤ 48 := by cases ring <;> decide
    rw [descAt, extract_append (by omega), extract_append (by omega)]
    rfl
  rw [headerAt, hdesc, extract_append (by simp only [offMagic]; omega),
    extract_append (by simp only [offProtoVersion]; omega),
    extract_append (by simp only [offHeaderFlags]; omega)]
  rfl

end Wire
