import DetGuest.Lib.Runs
import DetGuest.Lib.Slice
import DetGuest.Wire.Record

/-!
# The region manifest

The manifest lists the regions of the workload that the host may read: a header with the
seqlock generation, 64 region entries and a pool of extents.  The functions take the manifest
area as a slice.  The agent is the only writer: it makes the generation odd, writes, and makes
the generation even again.
-/

namespace Wire

/-! ### Layout -/

/-- Manifest magic. -/
def manifestMagic : UInt32 := 0x46445444

/-- Manifest format version. -/
def manifestVersion : UInt16 := 1

/-- Region slots. -/
def regionCapacity : Nat := 64

/-- Extent pool slots. -/
def extentCapacity : Nat := 1024

/-- Greatest length of a region name. -/
def maxRegionName : Nat := 56

/-- Flag bit 31: the region was unregistered, its slot is kept. -/
def regionFlagDead : UInt32 := 0x80000000

/-- Offset of the generation. -/
def offGeneration : Nat := 8

/-- Offset of the first entry. -/
def offEntries : Nat := 32

/-- Size of an entry. -/
def regionEntrySize : Nat := 96

/-- Offset of the extent pool. -/
def offExtents : Nat := offEntries + regionCapacity * regionEntrySize

/-- Size of an extent. -/
def extentSize : Nat := 16

/-- Size of the manifest. -/
def manifestTotalSize : Nat := offExtents + extentCapacity * extentSize

/-! ### Headers -/

/-- A decoded manifest header. -/
@[ext]
structure ManifestHeader where
  magic : UInt32
  manifestVersion : UInt16
  regionCapacity : UInt16
  generation : UInt64
  regionCount : UInt32
  extentCount : UInt32
  deriving DecidableEq, Repr

namespace ManifestHeader

/-- The header at the start of memory. -/
def ofMem (m : ByteMem) : ManifestHeader :=
  { magic := m.u32 0
    manifestVersion := m.u16 4
    regionCapacity := m.u16 6
    generation := m.u64 8
    regionCount := m.u32 16
    extentCount := m.u32 20 }

/-- Parse the header. -/
def readFrom (m : Slice) : Res DecodeError ManifestHeader := do
  Res.failIf (m.len < offEntries) .truncated
  pure (ManifestHeader.ofMem m.mem)

/-- Write the header, field by field. -/
def writeTo (h : ManifestHeader) : Exec Slice EncodeError Unit := do
  let m ← Exec.get
  Exec.failIf (m.len < offEntries) .bufferTooSmall
  Slice.put 0 (Bytes.ofU32 h.magic)
  Slice.put 4 (Bytes.ofU16 h.manifestVersion)
  Slice.put 6 (Bytes.ofU16 h.regionCapacity)
  Slice.put 8 (Bytes.ofU64 h.generation)
  Slice.put 16 (Bytes.ofU32 h.regionCount)
  Slice.put 20 (Bytes.ofU32 h.extentCount)
  Slice.put 24 (Bytes.zeros 8)

/-- The checks of the host. -/
def validate (h : ManifestHeader) : Res DecodeError Unit := do
  Res.failIf (h.magic ≠ manifestMagic) .badMagic
  Res.failIf (h.manifestVersion ≠ Wire.manifestVersion) .badVersion
  Res.failIf (h.regionCapacity.toNat ≠ Wire.regionCapacity ∨
    h.regionCount.toNat > Wire.regionCapacity ∨ h.extentCount.toNat > extentCapacity) .badField

/-- The fields of a header, as they are written. -/
def fields (h : ManifestHeader) : List Bytes :=
  [Bytes.ofU32 h.magic, Bytes.ofU16 h.manifestVersion, Bytes.ofU16 h.regionCapacity,
    Bytes.ofU64 h.generation, Bytes.ofU32 h.regionCount, Bytes.ofU32 h.extentCount, Bytes.zeros 8]

/-- The checks of the host accept a header exactly when it is canonical and its counts are in
range. -/
theorem validate_eq_ok {h : ManifestHeader} :
  h.validate = .ok () ↔
    h.magic = manifestMagic ∧ h.manifestVersion = Wire.manifestVersion ∧
      h.regionCapacity.toNat = Wire.regionCapacity ∧ h.regionCount.toNat ≤ Wire.regionCapacity ∧
        h.extentCount.toNat ≤ extentCapacity
  := by
  rw [validate, Res.seq_eq_ok, Res.seq_eq_ok, Res.failIf_eq_ok, Res.failIf_eq_ok,
    Res.failIf_eq_ok]
  simp only [ne_eq, not_not, not_or, Nat.not_lt]

theorem length_fields (h : ManifestHeader) :
  h.fields.flatten.length = offEntries
  := rfl

/-- The header depends on the first bytes only. -/
theorem ofMem_congr {m m' : ByteMem} (h : ∀ i < 24, m i = m' i) :
  ofMem m = ofMem m'
  := by
  have hread : ∀ lo n, lo + n ≤ 24 → m.read lo n = m'.read lo n := by
    intro lo n hle
    apply ByteMem.read_congr
    intro i hi
    apply h
    omega
  simp only [ofMem, ByteMem.u16, ByteMem.u32, ByteMem.u64]
  rw [hread 0 4 (by omega), hread 4 2 (by omega), hread 6 2 (by omega), hread 8 8 (by omega),
    hread 16 4 (by omega), hread 20 4 (by omega)]

/-- A header that was written is read back. -/
theorem ofMem_write (m : ByteMem) (h : ManifestHeader) :
  ofMem (m.write 0 h.fields.flatten) = h
  := by
  rw [← ByteMem.view_zero (m.write 0 h.fields.flatten)]
  apply ManifestHeader.ext
  · apply ByteMem.u32_view_write rfl
  · apply ByteMem.u16_view_write rfl
  · apply ByteMem.u16_view_write rfl
  · apply ByteMem.u64_view_write rfl
  · apply ByteMem.u32_view_write rfl
  · apply ByteMem.u32_view_write rfl

/-- A write behind the header leaves the header. -/
theorem ofMem_write_behind {m : ByteMem} {a : Nat} {bs : Bytes} (h : offEntries ≤ a) :
  ofMem (m.write a bs) = ofMem m
  := by
  apply ofMem_congr
  intro i hi
  apply ByteMem.write_apply_of_lt
  exact Nat.lt_of_lt_of_le hi (Nat.le_trans (by decide) h)

/-- A write of the generation changes nothing else in the header. -/
theorem ofMem_write_generation (m : ByteMem) (g : UInt64) :
  ofMem (m.write offGeneration (Bytes.ofU64 g)) = { ofMem m with generation := g }
  := by
  have hother : ∀ lo n, lo + n ≤ 8 ∨ 16 ≤ lo →
      (m.write offGeneration (Bytes.ofU64 g)).read lo n = m.read lo n := by
    intro lo n h
    apply ByteMem.read_write_outside
    rw [Bytes.length_ofU64, offGeneration]
    omega
  have hself := ByteMem.read_write_self m offGeneration (Bytes.ofU64 g)
  rw [Bytes.length_ofU64, offGeneration] at hself
  simp only [ofMem, ByteMem.u16, ByteMem.u32, ByteMem.u64]
  rw [hother 0 4 (by omega), hother 4 2 (by omega), hother 6 2 (by omega), hother 16 4 (by omega),
    hother 20 4 (by omega), offGeneration, hself, Bytes.toU64_ofU64]

theorem run_writeTo {h : ManifestHeader} {m : Slice} (hm : offEntries ≤ m.len) :
  h.writeTo.run m = (m.writeAll (Slice.fieldsAt 0 h.fields), .ok ())
  := by
  have hm' : 32 ≤ m.len := hm
  rw [writeTo, Exec.run_bind_of_ok (Exec.run_get m),
    Exec.run_bind_of_ok (Exec.run_failIf_of_not (Nat.not_lt.mpr hm) m)]
  repeat rw [Slice.run_put_bind (by simp; omega)]
  rw [Slice.run_put (by simp; omega)]
  rfl

end ManifestHeader

/-! ### Entries -/

/-- A name padded with zeros to the width of the field. -/
abbrev PackedName : Type := { b : Bytes // b.length = maxRegionName }

/-- An extent of the pool: a contiguous range of guest-physical addresses. -/
@[ext]
structure Extent where
  gpa : UInt64
  len : UInt64
  deriving DecidableEq, Repr

/-- A region entry. -/
@[ext]
structure RegionEntry where
  regionId : UInt32
  nameId : UInt32
  layoutVersion : UInt32
  flags : UInt32
  gva : UInt64
  len : UInt64
  extentOff : UInt32
  extentN : UInt32
  name : PackedName
  deriving DecidableEq, Repr

namespace RegionEntry

/-- Offset of an entry. -/
def offset (i : Nat) : Nat := offEntries + i * regionEntrySize

/-- Pad a name. -/
def packName (name : Bytes) : Res EncodeError PackedName :=
  if h : name.length > maxRegionName then
    .err .fieldTooLong
  else
    .ok ⟨name ++ Bytes.zeros (maxRegionName - name.length), by
      rw [List.length_append, List.length_replicate]
      omega⟩

/-- The name up to its first zero. -/
def nameBytes (e : RegionEntry) : Bytes := e.name.val.takeWhile (· ≠ 0)

/-- Whether the region is live. -/
def isLive (e : RegionEntry) : Bool := e.flags &&& regionFlagDead = 0

/-- The entry of the given slot. -/
def ofMem (m : ByteMem) (i : Nat) : RegionEntry :=
  let e := m.view (offset i)
  { regionId := e.u32 0
    nameId := e.u32 4
    layoutVersion := e.u32 8
    flags := e.u32 12
    gva := e.u64 16
    len := e.u64 24
    extentOff := e.u32 32
    extentN := e.u32 36
    name := ⟨e.read 40 maxRegionName, ByteMem.length_read ..⟩ }

/-- Parse the entry of a slot. -/
def readFrom (m : Slice) (i : Nat) : Res DecodeError RegionEntry := do
  Res.failIf (i ≥ regionCapacity) .badField
  Res.failIf (m.len < offset i + regionEntrySize) .truncated
  pure (RegionEntry.ofMem m.mem i)

/-- Write the entry of a slot, field by field. -/
def writeTo (e : RegionEntry) (i : Nat) : Exec Slice EncodeError Unit := do
  Exec.failIf (i ≥ regionCapacity) .fieldTooLong
  let m ← Exec.get
  Exec.failIf (m.len < offset i + regionEntrySize) .bufferTooSmall
  Slice.put (offset i) (Bytes.ofU32 e.regionId)
  Slice.put (offset i + 4) (Bytes.ofU32 e.nameId)
  Slice.put (offset i + 8) (Bytes.ofU32 e.layoutVersion)
  Slice.put (offset i + 12) (Bytes.ofU32 e.flags)
  Slice.put (offset i + 16) (Bytes.ofU64 e.gva)
  Slice.put (offset i + 24) (Bytes.ofU64 e.len)
  Slice.put (offset i + 32) (Bytes.ofU32 e.extentOff)
  Slice.put (offset i + 36) (Bytes.ofU32 e.extentN)
  Slice.put (offset i + 40) e.name.val

/-- Check the range of the extents against the used part of the pool. -/
def validateExtents (e : RegionEntry) (hdr : ManifestHeader) : Res DecodeError Unit :=
  Res.failIf (¬ e.extentOff.toNat + e.extentN.toNat ≤ hdr.extentCount.toNat) .badField

/-- The fields of an entry, as they are written. -/
def fields (e : RegionEntry) : List Bytes :=
  [Bytes.ofU32 e.regionId, Bytes.ofU32 e.nameId, Bytes.ofU32 e.layoutVersion,
    Bytes.ofU32 e.flags, Bytes.ofU64 e.gva, Bytes.ofU64 e.len, Bytes.ofU32 e.extentOff,
    Bytes.ofU32 e.extentN, e.name.val]

theorem length_fields (e : RegionEntry) :
  e.fields.flatten.length = regionEntrySize
  := by
  have hname : e.name.val.length = 56 := e.name.property
  simp [fields, regionEntrySize, hname]

/-- An entry depends on the bytes of its slot only. -/
theorem ofMem_congr {m m' : ByteMem} {k : Nat}
    (h : ∀ i < regionEntrySize, m (offset k + i) = m' (offset k + i)) :
  ofMem m k = ofMem m' k
  := by
  have hread : ∀ lo n, lo + n ≤ 96 →
      (m.view (offset k)).read lo n = (m'.view (offset k)).read lo n := by
    intro lo n hle
    apply ByteMem.read_congr
    intro i hi
    apply h
    simp only [regionEntrySize]
    omega
  have hname := hread 40 56 (by omega)
  simp only [ofMem, ByteMem.u32, ByteMem.u64, maxRegionName]
  rw [hread 0 4 (by omega), hread 4 4 (by omega), hread 8 4 (by omega), hread 12 4 (by omega),
    hread 16 8 (by omega), hread 24 8 (by omega), hread 32 4 (by omega), hread 36 4 (by omega)]
  simp only [hname]

/-- An entry that was written is read back. -/
theorem ofMem_write (m : ByteMem) (e : RegionEntry) (i : Nat) :
  ofMem (m.write (offset i) e.fields.flatten) i = e
  := by
  apply RegionEntry.ext
  · apply ByteMem.u32_view_write rfl
  · apply ByteMem.u32_view_write rfl
  · apply ByteMem.u32_view_write rfl
  · apply ByteMem.u32_view_write rfl
  · apply ByteMem.u64_view_write rfl
  · apply ByteMem.u64_view_write rfl
  · apply ByteMem.u32_view_write rfl
  · apply ByteMem.u32_view_write rfl
  · apply Subtype.ext
    have hext : Bytes.extract e.fields.flatten 40 (40 + maxRegionName)
        = (e.name.val ++ []).take maxRegionName := rfl
    change ((m.write (offset i) e.fields.flatten).view (offset i)).read 40 maxRegionName = _
    rw [ByteMem.read_view_write (by rw [length_fields]; decide), hext, List.append_nil,
      List.take_of_length_le (Nat.le_of_eq e.name.property)]

/-- A write beside the slot leaves the entry. -/
theorem ofMem_write_beside {m : ByteMem} {a k : Nat} {bs : Bytes}
    (h : offset k + regionEntrySize ≤ a ∨ a + bs.length ≤ offset k) :
  ofMem (m.write a bs) k = ofMem m k
  := by
  apply ofMem_congr
  intro i hi
  apply ByteMem.write_beside h hi

theorem run_writeTo {e : RegionEntry} {i : Nat} {m : Slice} (hi : i < regionCapacity)
    (hm : offset i + regionEntrySize ≤ m.len) :
  (e.writeTo i).run m = (m.writeAll (Slice.fieldsAt (offset i) e.fields), .ok ())
  := by
  have hname : e.name.val.length = 56 := e.name.property
  have hm' : offset i + 96 ≤ m.len := hm
  rw [writeTo, Exec.run_bind_of_ok (Exec.run_failIf_of_not (Nat.not_le.mpr hi) m),
    Exec.run_bind_of_ok (Exec.run_get m),
    Exec.run_bind_of_ok (Exec.run_failIf_of_not (Nat.not_lt.mpr hm) m)]
  repeat rw [Slice.run_put_bind (by simp; omega)]
  rw [Slice.run_put (by simp [hname]; omega)]
  rfl

end RegionEntry

/-! ### Extents -/

namespace Extent

/-- Offset of an extent. -/
def offset (i : Nat) : Nat := offExtents + i * extentSize

/-- The extent of the given slot of the pool. -/
def ofMem (m : ByteMem) (i : Nat) : Extent :=
  { gpa := m.u64 (offset i), len := m.u64 (offset i + 8) }

/-- Parse an extent. -/
def readFrom (m : Slice) (i : Nat) : Res DecodeError Extent := do
  Res.failIf (i ≥ extentCapacity) .badField
  Res.failIf (m.len < offset i + extentSize) .truncated
  pure (Extent.ofMem m.mem i)

/-- Write an extent, field by field. -/
def writeTo (x : Extent) (i : Nat) : Exec Slice EncodeError Unit := do
  Exec.failIf (i ≥ extentCapacity) .fieldTooLong
  let m ← Exec.get
  Exec.failIf (m.len < offset i + extentSize) .bufferTooSmall
  Slice.put (offset i) (Bytes.ofU64 x.gpa)
  Slice.put (offset i + 8) (Bytes.ofU64 x.len)

/-- The fields of an extent, as they are written. -/
def fields (x : Extent) : List Bytes := [Bytes.ofU64 x.gpa, Bytes.ofU64 x.len]

theorem length_fields (x : Extent) :
  x.fields.flatten.length = extentSize
  := rfl

/-- An extent that was written is read back. -/
theorem ofMem_write (m : ByteMem) (x : Extent) (i : Nat) :
  ofMem (m.write (offset i) x.fields.flatten) i = x
  := by
  have hview : ∀ (m : ByteMem) (lo : Nat), m.u64 (offset i + lo) = (m.view (offset i)).u64 lo := by
    intro m lo
    rw [ByteMem.u64, ByteMem.u64, ByteMem.read_view]
  apply Extent.ext
  · rw [ofMem, ← Nat.add_zero (offset i), hview, Nat.add_zero]
    apply ByteMem.u64_view_write rfl
  · rw [ofMem, hview]
    apply ByteMem.u64_view_write rfl

/-- A write beside the slot leaves the extent. -/
theorem ofMem_write_beside {m : ByteMem} {a k : Nat} {bs : Bytes}
    (h : offset k + extentSize ≤ a ∨ a + bs.length ≤ offset k) :
  ofMem (m.write a bs) k = ofMem m k
  := by
  simp only [extentSize] at h
  simp only [ofMem, ByteMem.u64]
  rw [ByteMem.read_write_outside (by omega), ByteMem.read_write_outside (by omega)]

theorem run_writeTo {x : Extent} {i : Nat} {m : Slice} (hi : i < extentCapacity)
    (hm : offset i + extentSize ≤ m.len) :
  (x.writeTo i).run m = (m.writeAll (Slice.fieldsAt (offset i) x.fields), .ok ())
  := by
  have hm' : offset i + 16 ≤ m.len := hm
  rw [writeTo, Exec.run_bind_of_ok (Exec.run_failIf_of_not (Nat.not_le.mpr hi) m),
    Exec.run_bind_of_ok (Exec.run_get m),
    Exec.run_bind_of_ok (Exec.run_failIf_of_not (Nat.not_lt.mpr hm) m),
    Slice.run_put_bind (by simp; omega), Slice.run_put (by simp; omega)]
  rfl

/-- The run of the addresses of an extent. -/
def run (x : Extent) : Run := { first := x.gpa.toNat, len := x.len.toNat }

end Extent

/-- The runs of the addresses of a list of extents. -/
def runsOf (xs : List Extent) : List Run := xs.map Extent.run

theorem runsOf_append (xs ys : List Extent) :
  runsOf (xs ++ ys) = runsOf xs ++ runsOf ys
  := List.map_append

theorem runsOf_injective {xs ys : List Extent} (h : runsOf xs = runsOf ys) :
  xs = ys
  := by
  apply List.map_injective_iff.mpr _ h
  intro x y hxy
  apply Extent.ext
  · exact UInt64.toNat_inj.mp (congrArg Run.first hxy)
  · exact UInt64.toNat_inj.mp (congrArg Run.len hxy)

/-! ### The seqlock -/

/-- Write an empty manifest: the canonical header of generation zero. -/
def initManifest : Exec Slice EncodeError Unit :=
  ManifestHeader.writeTo
    { magic := manifestMagic
      manifestVersion := manifestVersion
      regionCapacity := UInt16.ofNat regionCapacity
      generation := 0
      regionCount := 0
      extentCount := 0 }

/-- The generation. -/
def readGeneration (m : Slice) : Res DecodeError UInt64 := do
  Res.failIf (m.len < offGeneration + 8) .truncated
  pure (m.mem.u64 offGeneration)

/-- Open a write: make the generation odd. -/
def writerBegin : Exec Slice EncodeError UInt64 := do
  let m ← Exec.get
  let g ← Exec.lift ((readGeneration m).mapErr fun _ => .bufferTooSmall)
  Exec.failIf (g % 2 ≠ 0) .seqlockMisuse
  Slice.put offGeneration (Bytes.ofU64 (g + 1))
  pure (g + 1)

/-- Close a write: make the generation even.  A build with overflow checks does not go beyond
the greatest generation. -/
def writerEnd (dbg : Bool) : Exec Slice EncodeError UInt64 := do
  let m ← Exec.get
  let g ← Exec.lift ((readGeneration m).mapErr fun _ => .bufferTooSmall)
  Exec.failIf (g % 2 ≠ 1) .seqlockMisuse
  Exec.debugAssert dbg (g + 1 ≠ 0)
  Slice.put offGeneration (Bytes.ofU64 (g + 1))
  pure (g + 1)

end Wire
