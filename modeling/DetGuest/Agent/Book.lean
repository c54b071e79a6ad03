import DetGuest.Agent.Regions

/-!
# What the manifest lists

A book is the manifest in the abstract: the regions that were ever published, in the order of
their slots, the used part of the extent pool and the generation.  The writers of the manifest
publish a region, bury one or move its extents; a manifest that lists a book lists the changed
book afterwards.
-/

namespace Agent

open Wire Wire.Regionipc

/-! ### Books -/

/-- A published region, with its place in the extent pool.  An owned region is in the ledger;
the name fits the field and the flags are those of a live region. -/
structure Region where
  name : Bytes
  nameId : UInt32
  layoutVersion : UInt32
  flags : UInt32
  pid : Int32
  gva : UInt64
  len : UInt64
  extentOff : Nat
  extents : List Extent
  dead : Bool
  owned : Bool
  fits : name.length ≤ maxRegionName
  alive : flags &&& regionFlagDead = 0

namespace Region

/-- The name as the entry holds it. -/
def packed (r : Region) : PackedName :=
  ⟨r.name ++ Bytes.zeros (maxRegionName - r.name.length), by
    have h := r.fits
    rw [List.length_append, List.length_replicate]
    omega⟩

/-- The entry of a region in the given slot. -/
def entry (r : Region) (i : Nat) : RegionEntry :=
  { regionId := UInt32.ofNat i
    nameId := r.nameId
    layoutVersion := r.layoutVersion
    flags := if r.dead then r.flags ||| regionFlagDead else r.flags
    gva := r.gva
    len := r.len
    extentOff := UInt32.ofNat r.extentOff
    extentN := UInt32.ofNat r.extents.length
    name := r.packed }

/-- The record of a region in the given slot. -/
def record (r : Region) (i : Nat) : RegionRecord :=
  { regionId := UInt32.ofNat i
    name := r.name
    nameId := r.nameId
    layoutVersion := r.layoutVersion
    pid := r.pid
    gva := r.gva
    len := r.len
    extents := r.extents
    dead := r.dead }

@[simp]
theorem record_regionId (r : Region) (i : Nat) :
  (r.record i).regionId = UInt32.ofNat i
  := rfl

@[simp]
theorem record_dead (r : Region) (i : Nat) :
  (r.record i).dead = r.dead
  := rfl

/-- The region, dead. -/
def bury (r : Region) : Region := { r with dead := true }

/-- The region with other extents at another place of the pool. -/
def move (r : Region) (extentOff : Nat) (extents : List Extent) : Region :=
  { r with extentOff, extents }

/-- The flag of a dead region shows. -/
theorem or_dead_and_dead (flags : UInt32) :
  (flags ||| regionFlagDead) &&& regionFlagDead = regionFlagDead
  := by
  apply UInt32.toBitVec_inj.mp
  ext i hi
  simp only [UInt32.toBitVec_and, UInt32.toBitVec_or, BitVec.getElem_and, BitVec.getElem_or]
  cases regionFlagDead.toBitVec[i] <;> simp

theorem entry_isLive (r : Region) (i : Nat) :
  (r.entry i).isLive = !r.dead
  := by
  have halive := r.alive
  cases hdead : r.dead with
  | false => simp [RegionEntry.isLive, entry, hdead, halive]
  | true =>
      simp only [RegionEntry.isLive, entry, hdead, if_true, Bool.not_true, or_dead_and_dead]
      decide

end Region

/-- The regions of a manifest in the order of their slots, the used slots of the pool, and the
generation. -/
structure Book where
  regions : List Region
  pool : Nat
  generation : UInt64

/-- The canonical header with the given generation and counts. -/
def canonicalHeader (generation : UInt64) (regionCount extentCount : Nat) : ManifestHeader :=
  { magic := manifestMagic
    manifestVersion := manifestVersion
    regionCapacity := UInt16.ofNat regionCapacity
    generation
    regionCount := UInt32.ofNat regionCount
    extentCount := UInt32.ofNat extentCount }

namespace Book

/-- The header of a book. -/
def header (b : Book) : ManifestHeader := canonicalHeader b.generation b.regions.length b.pool

/-- The ledger of the owned regions, from slot `i` on. -/
def ledgerFrom : Nat → List Region → List RegionRecord
  | _, [] => []
  | i, r :: rs => if r.owned then r.record i :: ledgerFrom (i + 1) rs else ledgerFrom (i + 1) rs

/-- The ledger of a book. -/
def ledger (b : Book) : List RegionRecord := ledgerFrom 0 b.regions

/-- The book with another region behind the others and its extents behind the used pool. -/
def publish (b : Book) (r : Region) : Book :=
  { regions := b.regions ++ [r]
    pool := b.pool + r.extents.length
    generation := b.generation + 2 }

/-- The book with the region of a slot dead. -/
def bury (b : Book) (i : Nat) : Book :=
  { b with regions := b.regions.modify i Region.bury, generation := b.generation + 2 }

/-- Where other extents of a region go: to their old place when there are no more than before,
and otherwise behind the used pool. -/
def place (b : Book) (r : Region) (extents : List Extent) : Nat :=
  if extents.length ≤ r.extents.length then r.extentOff else b.pool

/-- The used pool with other extents of a region. -/
def poolWith (b : Book) (r : Region) (extents : List Extent) : Nat :=
  if extents.length ≤ r.extents.length then b.pool else b.pool + extents.length

/-- The book with other extents for the region of a slot. -/
def move (b : Book) (i : Nat) (extents : List Extent) : Book :=
  match b.regions[i]? with
  | none => b
  | some r =>
      { regions := b.regions.set i (r.move (b.place r extents) extents)
        pool := b.poolWith r extents
        generation := b.generation + 2 }

/-- The capacities are kept, and the extents of the regions lie apart inside the used pool. -/
structure Sound (b : Book) : Prop where
  count : b.regions.length ≤ regionCapacity
  room : b.pool ≤ extentCapacity
  even : b.generation % 2 = 0
  inside : ∀ r ∈ b.regions, r.extentOff + r.extents.length ≤ b.pool
  apart : ∀ (i j : Nat) (r r' : Region), b.regions[i]? = some r → b.regions[j]? = some r' →
    i ≠ j → r.extentOff + r.extents.length ≤ r'.extentOff ∨
      r'.extentOff + r'.extents.length ≤ r.extentOff

/-- Memory lists a book: its header, the entries of its regions and their extents. -/
structure ListedIn (b : Book) (m : ByteMem) : Prop where
  header : ManifestHeader.ofMem m = b.header
  entry : ∀ (i : Nat) (r : Region), b.regions[i]? = some r → RegionEntry.ofMem m i = r.entry i
  extent : ∀ (i : Nat) (r : Region), b.regions[i]? = some r → ∀ (j : Nat) (x : Extent),
    r.extents[j]? = some x → Extent.ofMem m (r.extentOff + j) = x

end Book

/-! ### Writing extents -/

/-- Memory with extents written to the slots of the pool from `off` on. -/
def putExtents : ByteMem → Nat → List Extent → ByteMem
  | m, _, [] => m
  | m, off, x :: xs => putExtents (m.write (Extent.offset off) x.fields.flatten) (off + 1) xs

/-- The writes of `writeExtents`. -/
def extentWrites : Nat → List Extent → List (Nat × Bytes)
  | _, [] => []
  | off, x :: xs => Slice.fieldsAt (Extent.offset off) x.fields ++ extentWrites (off + 1) xs

theorem run_writeExtents {off : Nat} {xs : List Extent} {s : Slice}
    (hlen : s.len = manifestTotalSize) (hfit : off + xs.length ≤ extentCapacity) :
  (writeExtents off xs).run s = (s.writeAll (extentWrites off xs), .ok ())
  := by
  induction xs generalizing off s with
  | nil => rfl
  | cons x xs ih =>
      rw [List.length_cons] at hfit
      have hslot : Extent.offset off + extentSize ≤ s.len := by
        simp only [extentCapacity] at hfit
        simp only [hlen, manifestTotalSize, extentCapacity, Extent.offset, extentSize]
        omega
      rw [writeExtents, Exec.run_bind_of_ok (Extent.run_writeTo (by omega) hslot),
        ih (by rw [Slice.writeAll_len]; exact hlen) (by omega), extentWrites,
        Slice.writeAll_append]

theorem writeAll_extentWrites_mem (s : Slice) (off : Nat) (xs : List Extent) :
  (s.writeAll (extentWrites off xs)).mem = putExtents s.mem off xs
  := by
  induction xs generalizing off s with
  | nil => rfl
  | cons x xs ih =>
      rw [extentWrites, Slice.writeAll_append, ih, Slice.writeAll_fieldsAt_mem, putExtents]

section Extents

variable {m : ByteMem} {off : Nat} {xs : List Extent}

theorem header_putExtents :
  ManifestHeader.ofMem (putExtents m off xs) = ManifestHeader.ofMem m
  := by
  induction xs generalizing m off with
  | nil => rfl
  | cons x xs ih =>
      rw [putExtents, ih]
      apply ManifestHeader.ofMem_write_behind
      simp only [offEntries, Extent.offset, offExtents]
      omega

theorem entry_putExtents {i : Nat} (hi : i < regionCapacity) :
  RegionEntry.ofMem (putExtents m off xs) i = RegionEntry.ofMem m i
  := by
  induction xs generalizing m off with
  | nil => rfl
  | cons x xs ih =>
      rw [putExtents, ih]
      apply RegionEntry.ofMem_write_beside
      left
      simp only [regionCapacity] at hi
      simp only [RegionEntry.offset, Extent.offset, offExtents, offEntries, regionEntrySize,
        regionCapacity]
      omega

/-- Extents are written to their slots only. -/
theorem putExtents_apply {a : Nat}
    (h : ¬ (Extent.offset off ≤ a ∧ a < Extent.offset (off + xs.length))) :
  putExtents m off xs a = m a
  := by
  induction xs generalizing m off with
  | nil => rfl
  | cons x xs ih =>
      simp only [Extent.offset, extentSize, List.length_cons] at h ih
      rw [putExtents, ih (by omega)]
      apply (ByteMem.write_apply_or ..).resolve_right
      rw [Extent.length_fields]
      simp only [Extent.offset, extentSize]
      omega

theorem extent_write {x : Extent} {i k : Nat} (h : k ≠ i) :
  Extent.ofMem (m.write (Extent.offset i) x.fields.flatten) k = Extent.ofMem m k
  := by
  apply Extent.ofMem_write_beside
  rw [Extent.length_fields]
  simp only [Extent.offset, extentSize]
  omega

theorem extent_putExtents_beside {k : Nat} (h : k < off ∨ off + xs.length ≤ k) :
  Extent.ofMem (putExtents m off xs) k = Extent.ofMem m k
  := by
  induction xs generalizing m off with
  | nil => rfl
  | cons x xs ih =>
      rw [List.length_cons] at h
      rw [putExtents, ih (by omega), extent_write (by omega)]

theorem extent_putExtents {j : Nat} {x : Extent} (h : xs[j]? = some x) :
  Extent.ofMem (putExtents m off xs) (off + j) = x
  := by
  induction xs generalizing m off j with
  | nil => cases h
  | cons y ys ih =>
      rw [putExtents]
      cases j with
      | zero =>
          obtain rfl := Option.some.inj h
          rw [extent_putExtents_beside (by omega)]
          apply Extent.ofMem_write
      | succ j =>
          rw [List.getElem?_cons_succ] at h
          rw [← Nat.add_assoc, Nat.add_right_comm]
          apply ih h

end Extents

/-! ### Writing beside -/

section Beside

variable {m : ByteMem} {i j k : Nat} {h : ManifestHeader} {e : RegionEntry} {g : UInt64}

theorem entry_write_header :
  RegionEntry.ofMem (m.write 0 h.fields.flatten) i = RegionEntry.ofMem m i
  := by
  apply RegionEntry.ofMem_write_beside
  right
  rw [ManifestHeader.length_fields, RegionEntry.offset]
  omega

theorem entry_write_generation :
  RegionEntry.ofMem (m.write offGeneration (Bytes.ofU64 g)) i = RegionEntry.ofMem m i
  := by
  apply RegionEntry.ofMem_write_beside
  right
  rw [Bytes.length_ofU64]
  simp only [offGeneration, RegionEntry.offset, offEntries]
  omega

theorem entry_write_entry (hij : j ≠ i) :
  RegionEntry.ofMem (m.write (RegionEntry.offset i) e.fields.flatten) j = RegionEntry.ofMem m j
  := by
  apply RegionEntry.ofMem_write_beside
  rw [RegionEntry.length_fields]
  simp only [RegionEntry.offset, regionEntrySize]
  omega

theorem extent_write_header :
  Extent.ofMem (m.write 0 h.fields.flatten) k = Extent.ofMem m k
  := by
  apply Extent.ofMem_write_beside
  right
  rw [ManifestHeader.length_fields]
  simp only [Extent.offset, offExtents]
  omega

theorem extent_write_generation :
  Extent.ofMem (m.write offGeneration (Bytes.ofU64 g)) k = Extent.ofMem m k
  := by
  apply Extent.ofMem_write_beside
  right
  rw [Bytes.length_ofU64]
  simp only [offGeneration, Extent.offset, offExtents, offEntries]
  omega

theorem extent_write_entry (hi : i < regionCapacity) :
  Extent.ofMem (m.write (RegionEntry.offset i) e.fields.flatten) k = Extent.ofMem m k
  := by
  apply Extent.ofMem_write_beside
  right
  rw [RegionEntry.length_fields]
  simp only [regionCapacity] at hi
  simp only [RegionEntry.offset, Extent.offset, offExtents, offEntries, regionEntrySize,
    regionCapacity]
  omega

theorem header_write_entry :
  ManifestHeader.ofMem (m.write (RegionEntry.offset i) e.fields.flatten) = ManifestHeader.ofMem m
  := by
  apply ManifestHeader.ofMem_write_behind
  rw [RegionEntry.offset]
  omega

end Beside

/-! ### The seqlock -/

section Seqlock

variable {g : UInt64}

theorem odd_of_even (h : g % 2 = 0) :
  (g + 1) % 2 = 1
  := by
  have hlt := g.toNat_lt
  have hg := congrArg UInt64.toNat h
  rw [UInt64.toNat_mod] at hg
  apply UInt64.toNat_inj.mp
  rw [UInt64.toNat_mod, UInt64.toNat_add]
  simp only [UInt64.reduceToNat, UInt64.toNat_one] at hg ⊢
  omega

theorem even_add_two (h : g % 2 = 0) :
  (g + 2) % 2 = 0
  := by
  have hlt := g.toNat_lt
  have hg := congrArg UInt64.toNat h
  rw [UInt64.toNat_mod] at hg
  apply UInt64.toNat_inj.mp
  rw [UInt64.toNat_mod, UInt64.toNat_add]
  simp only [UInt64.reduceToNat, UInt64.toNat_zero] at hg ⊢
  omega

/-- Writes between an opening and a closing write of the generation. -/
def sealedWrites (g : UInt64) (ws : List (Nat × Bytes)) : List (Nat × Bytes) :=
  (offGeneration, Bytes.ofU64 (g + 1)) :: (ws ++ [(offGeneration, Bytes.ofU64 (g + 2))])

/-- A call makes sealed writes and returns a value, except that with overflow checks it panics
when the generation would wrap. -/
def Seals {α : Type} (dbg : Bool) (s : Slice) (g : UInt64) (ws : List (Nat × Bytes))
    (x : Exec Slice Status α) (a : α) : Prop :=
  ((dbg = true → g + 2 ≠ 0) → x.run s = (s.writeAll (sealedWrites g ws), .ok a)) ∧
    (dbg = true → g + 2 = 0 → (x.run s).2 = .panic)

theorem readGeneration_eq {s : Slice} (hlen : s.len = manifestTotalSize) :
  readGeneration s = .ok (ManifestHeader.ofMem s.mem).generation
  := by
  rw [readGeneration, Res.failIf_of_not (by rw [hlen]; decide)]
  rfl

theorem run_writerBegin {s : Slice} (hlen : s.len = manifestTotalSize)
    (hg : (ManifestHeader.ofMem s.mem).generation = g) (heven : g % 2 = 0) :
  writerBegin.run s = (s.write offGeneration (Bytes.ofU64 (g + 1)), .ok (g + 1))
  := by
  rw [writerBegin, Exec.run_bind_of_ok (Exec.run_get s), readGeneration_eq hlen, hg, Res.mapErr_ok,
    Exec.run_bind_of_ok (Exec.run_lift _ s),
    Exec.run_bind_of_ok (Exec.run_failIf_of_not (not_not.mpr heven) s),
    Exec.run_bind_of_ok (Slice.run_put (by rw [hlen, Bytes.length_ofU64]; decide))]
  rfl

theorem run_writerEnd {dbg : Bool} {s : Slice} (hlen : s.len = manifestTotalSize)
    (hg : (ManifestHeader.ofMem s.mem).generation = g + 1) (heven : g % 2 = 0)
    (hover : dbg = true → g + 2 ≠ 0) :
  (writerEnd dbg).run s = (s.write offGeneration (Bytes.ofU64 (g + 2)), .ok (g + 2))
  := by
  have htwo : g + 1 + 1 = g + 2 := by rw [UInt64.add_assoc]; rfl
  rw [writerEnd, Exec.run_bind_of_ok (Exec.run_get s), readGeneration_eq hlen, hg, Res.mapErr_ok,
    Exec.run_bind_of_ok (Exec.run_lift _ s),
    Exec.run_bind_of_ok (Exec.run_failIf_of_not (not_not.mpr (odd_of_even heven)) s), htwo,
    Exec.run_bind_of_ok (Exec.run_debugAssert_of_imp hover s),
    Exec.run_bind_of_ok (Slice.run_put (by rw [hlen, Bytes.length_ofU64]; decide))]
  rfl

/-- With overflow checks the last generation is not left. -/
theorem run_writerEnd_panic {s : Slice} (hlen : s.len = manifestTotalSize)
    (hg : (ManifestHeader.ofMem s.mem).generation = g + 1) (heven : g % 2 = 0)
    (hover : g + 2 = 0) :
  ((writerEnd true).run s).2 = .panic
  := by
  have htwo : g + 1 + 1 = g + 2 := by rw [UInt64.add_assoc]; rfl
  rw [writerEnd, Exec.run_bind_of_ok (Exec.run_get s), readGeneration_eq hlen, hg, Res.mapErr_ok,
    Exec.run_bind_of_ok (Exec.run_lift _ s),
    Exec.run_bind_of_ok (Exec.run_failIf_of_not (not_not.mpr (odd_of_even heven)) s), htwo,
    Exec.run_bind_of_panic (Exec.run_debugAssert_of_not (not_not.mpr hover) s)]

/-- A call that ends by closing its write. -/
theorem seals_of_run {α : Type} {dbg : Bool} {s t : Slice} {ws : List (Nat × Bytes)}
    {x : Exec Slice Status α} {f : UInt64 → α}
    (hx : x.run s = (do
      let generation ← Exec.mapErr (fun _ => Status.internal) (writerEnd dbg)
      pure (f generation)).run t)
    (ht : t = (s.write offGeneration (Bytes.ofU64 (g + 1))).writeAll ws)
    (hlen : s.len = manifestTotalSize) (heven : g % 2 = 0)
    (hg : (ManifestHeader.ofMem t.mem).generation = g + 1) :
  Seals dbg s g ws x (f (g + 2))
  := by
  have hlen' : t.len = manifestTotalSize := by
    rw [ht, Slice.writeAll_len]
    exact hlen
  constructor
  · intro hover
    rw [hx, Exec.run_bind_of_ok (Exec.run_mapErr_of_ok (run_writerEnd hlen' hg heven hover)),
      Exec.run_pure, sealedWrites, Slice.writeAll_cons, Slice.writeAll_append, ← ht]
    rfl
  · intro hdbg hover
    subst hdbg
    have hpanic := run_writerEnd_panic hlen' hg heven hover
    rw [hx]
    apply Exec.panic_of_bind
    rw [Exec.run_mapErr, hpanic]
    rfl

end Seqlock

/-! ### Manifests at rest -/

theorem saturatingAdd_ofNat {a b : Nat} (h : a + b < 2 ^ 32) :
  saturatingAdd (UInt32.ofNat a) (UInt32.ofNat b) = UInt32.ofNat (a + b)
  := by
  rw [saturatingAdd, Word.toNat_ofNat_le (Nat.le_add_right a b) h,
    Word.toNat_ofNat_le (Nat.le_add_left b a) h, if_pos h, UInt32.ofNat_add]

theorem packName_packed (r : Region) :
  RegionEntry.packName r.name = .ok r.packed
  := dif_neg (Nat.not_lt.mpr r.fits)

/-- A manifest at rest: its area is whole, its generation even, and its header is canonical with
counts in range. -/
structure Headed (m : Slice) (g : UInt64) (n p : Nat) : Prop where
  len : m.len = manifestTotalSize
  header : ManifestHeader.ofMem m.mem = canonicalHeader g n p
  count : n ≤ regionCapacity
  room : p ≤ extentCapacity
  even : g % 2 = 0

namespace Headed

variable {s : Slice} {g : UInt64} {n p i : Nat}

theorem toNat_count (h : Headed s g n p) :
  (UInt32.ofNat n).toNat = n
  := Word.toNat_ofNat_le h.count (by decide)

theorem toNat_pool (h : Headed s g n p) :
  (UInt32.ofNat p).toNat = p
  := Word.toNat_ofNat_le h.room (by decide)

/-- The canonical header passes the checks. -/
theorem validate (h : Headed s g n p) :
  (canonicalHeader g n p).validate = .ok ()
  := by
  rw [ManifestHeader.validate_eq_ok]
  refine ⟨rfl, rfl, rfl, ?_, ?_⟩
  · rw [canonicalHeader, h.toNat_count]
    exact h.count
  · rw [canonicalHeader, h.toNat_pool]
    exact h.room

/-- What a manifest at rest answers to its reads. -/
theorem readFrom (h : Headed s g n p) :
  ManifestHeader.readFrom s = .ok (canonicalHeader g n p)
  := by
  rw [ManifestHeader.readFrom, Res.failIf_of_not (by rw [h.len]; decide), ← h.header]
  rfl

theorem slot_le (h : Headed s g n p) (hi : i < regionCapacity) :
  RegionEntry.offset i + regionEntrySize ≤ s.len
  := by
  simp only [regionCapacity] at hi
  simp only [h.len, manifestTotalSize, offExtents, RegionEntry.offset, offEntries,
    regionEntrySize, regionCapacity]
  omega

theorem readEntry (h : Headed s g n p) (hi : i < regionCapacity) :
  RegionEntry.readFrom s i = .ok (RegionEntry.ofMem s.mem i)
  := by
  rw [RegionEntry.readFrom, Res.failIf_of_not (Nat.not_le.mpr hi), Res.ok_bind,
    Res.failIf_of_not (Nat.not_lt.mpr (h.slot_le hi)), Res.ok_bind]
  rfl

theorem generation (h : Headed s g n p) :
  (ManifestHeader.ofMem s.mem).generation = g
  := by
  rw [h.header]
  rfl

/-- A write opens. -/
theorem writerBegin (h : Headed s g n p) :
  Wire.writerBegin.run s = (s.write offGeneration (Bytes.ofU64 (g + 1)), .ok (g + 1))
  := run_writerBegin h.len h.generation h.even

end Headed

/-- The entry of a slot, dead. -/
def deadEntry (s : Slice) (i : Nat) : RegionEntry :=
  { RegionEntry.ofMem s.mem i with
    flags := (RegionEntry.ofMem s.mem i).flags ||| regionFlagDead }

/-- A slot is marked as dead. -/
theorem run_markRegionDead {s : Slice} {g : UInt64} {n p i : Nat} (dbg : Bool)
    (h : Headed s g n p) (hi : i < regionCapacity) :
  Seals dbg s g (Slice.fieldsAt (RegionEntry.offset i) (deadEntry s i).fields)
    (markRegionDead dbg (UInt32.ofNat i)) (g + 2)
  := by
  have hi' : (UInt32.ofNat i).toNat = i := Word.toNat_ofNat_le (Nat.le_of_lt hi) (by decide)
  have hslot : RegionEntry.offset i + regionEntrySize
      ≤ (s.write offGeneration (Bytes.ofU64 (g + 1))).len := h.slot_le hi
  apply seals_of_run (f := fun g => g) _ rfl h.len h.even
  · rw [Slice.writeAll_fieldsAt_mem, header_write_entry, Slice.write_mem,
      ManifestHeader.ofMem_write_generation]
  rw [markRegionDead, Exec.run_bind_of_ok (Exec.run_get s), hi', h.readEntry hi, Res.mapErr_ok,
    Exec.run_bind_of_ok (Exec.run_lift _ s),
    Exec.run_bind_of_ok (Exec.run_mapErr_of_ok h.writerBegin),
    Exec.run_bind_of_ok (Exec.run_mapErr_of_ok (RegionEntry.run_writeTo hi hslot)),
    Exec.run_bind_pure, deadEntry]

/-! ### Publishing a region -/

section Publish

variable {s : Slice} {g : UInt64} {n p : Nat} {r : Region} {xs : List Extent}

/-- The writes that publish a region in slot `n`. -/
def publishWrites (g : UInt64) (n p : Nat) (r : Region) : List (Nat × Bytes) :=
  extentWrites p r.extents
    ++ (Slice.fieldsAt (RegionEntry.offset n) (r.entry n).fields
      ++ Slice.fieldsAt 0 (canonicalHeader (g + 1) (n + 1) (p + r.extents.length)).fields)

/-- The manifest with a region published. -/
theorem writeAll_publishWrites_mem :
  (s.writeAll (sealedWrites g (publishWrites g n p r))).mem
    = (((putExtents (s.mem.write offGeneration (Bytes.ofU64 (g + 1))) p r.extents).write
          (RegionEntry.offset n) (r.entry n).fields.flatten).write 0
        (canonicalHeader (g + 1) (n + 1) (p + r.extents.length)).fields.flatten).write
          offGeneration (Bytes.ofU64 (g + 2))
  := by
  rw [publishWrites, sealedWrites, Slice.writeAll_cons, Slice.writeAll_append,
    Slice.writeAll_append, Slice.writeAll_append, Slice.writeAll_cons, Slice.writeAll_nil,
    Slice.write_mem, Slice.writeAll_fieldsAt_mem, Slice.writeAll_fieldsAt_mem,
    writeAll_extentWrites_mem, Slice.write_mem]

/-- The entry that the writer makes of the header it read. -/
theorem entry_eq (hoff : r.extentOff = p) (hdead : r.dead = false) (g : UInt64) (n : Nat) :
  (⟨(canonicalHeader g n p).regionCount, r.nameId, r.layoutVersion, r.flags, r.gva, r.len,
      (canonicalHeader g n p).extentCount, UInt32.ofNat r.extents.length, r.packed⟩ : RegionEntry)
    = r.entry n
  := by
  rw [Region.entry, hdead, hoff]
  rfl

/-- The header that the writer puts in the place of the one it read. -/
theorem header_eq (hcount : n < regionCapacity)
    (hpool : p + r.extents.length ≤ extentCapacity) (g g' : UInt64) :
  (⟨(canonicalHeader g n p).magic, (canonicalHeader g n p).manifestVersion,
      (canonicalHeader g n p).regionCapacity, g',
      saturatingAdd (canonicalHeader g n p).regionCount 1,
      saturatingAdd (canonicalHeader g n p).extentCount
        (UInt32.ofNat r.extents.length)⟩ : ManifestHeader)
    = canonicalHeader g' (n + 1) (p + r.extents.length)
  := by
  simp only [regionCapacity] at hcount
  simp only [extentCapacity] at hpool
  have hone : saturatingAdd (UInt32.ofNat n) 1 = UInt32.ofNat (n + 1) :=
    saturatingAdd_ofNat (b := 1) (by omega)
  have hsum := saturatingAdd_ofNat (show p + r.extents.length < 2 ^ 32 by omega)
  simp only [canonicalHeader, hone, hsum]

/-- A region is published while there is a slot for it and room in the pool. -/
theorem run_writeRegion (dbg : Bool) (h : Headed s g n p) (hcount : n < regionCapacity)
    (hpool : p + r.extents.length ≤ extentCapacity) (hoff : r.extentOff = p)
    (hdead : r.dead = false) :
  Seals dbg s g (publishWrites g n p r)
    (writeRegion dbg r.name r.nameId r.layoutVersion r.flags r.gva r.len r.extents)
    (UInt32.ofNat n, g + 2)
  := by
  obtain ⟨s₁, hs₁⟩ : ∃ s₁, s.write offGeneration (Bytes.ofU64 (g + 1)) = s₁ := ⟨_, rfl⟩
  have hlen₁ : s₁.len = manifestTotalSize := by rw [← hs₁]; exact h.len
  have hslot₁ : RegionEntry.offset n + regionEntrySize ≤ s₁.len := by
    rw [← hs₁]
    exact h.slot_le hcount
  apply seals_of_run (f := fun g => (UInt32.ofNat n, g)) _ rfl h.len h.even
  · rw [hs₁, publishWrites, Slice.writeAll_append, Slice.writeAll_append,
      Slice.writeAll_fieldsAt_mem, ManifestHeader.ofMem_write]
    rfl
  rw [writeRegion, packName_packed, Res.mapErr_ok, Exec.run_bind_of_ok (Exec.run_lift _ s),
    Exec.run_bind_of_ok (Exec.run_get s), h.readFrom, Res.mapErr_ok,
    Exec.run_bind_of_ok (Exec.run_lift _ s), h.validate, Res.mapErr_ok,
    Exec.run_bind_of_ok (Exec.run_lift _ s),
    Exec.run_bind_of_ok (Exec.run_failIf_of_not (by
      rw [canonicalHeader, h.toNat_count]
      exact Nat.not_le.mpr hcount) s),
    Exec.run_bind_of_ok (Exec.run_failIf_of_not (by
      rw [canonicalHeader, h.toNat_pool]
      exact Nat.not_lt.mpr hpool) s),
    Exec.run_bind_of_ok (Exec.run_mapErr_of_ok h.writerBegin)]
  dsimp only
  rw [entry_eq hoff hdead, header_eq hcount hpool, canonicalHeader, h.toNat_pool, h.toNat_count,
    hs₁, Exec.run_bind_of_ok (Exec.run_expect_of_ok (run_writeExtents hlen₁ hpool)),
    Exec.run_bind_of_ok (Exec.run_expect_of_ok (RegionEntry.run_writeTo hcount (by
      rw [Slice.writeAll_len]
      exact hslot₁))),
    Exec.run_bind_of_ok (Exec.run_expect_of_ok (ManifestHeader.run_writeTo (by
      rw [Slice.writeAll_len, Slice.writeAll_len, hlen₁]
      decide))), publishWrites, Slice.writeAll_append, Slice.writeAll_append]

/-- Without a free slot nothing is written. -/
theorem run_writeRegion_full (dbg : Bool) (h : Headed s g n p) (hcount : regionCapacity ≤ n) :
  (writeRegion dbg r.name r.nameId r.layoutVersion r.flags r.gva r.len xs).run s
    = (s, .err .manifestFull)
  := by
  rw [writeRegion, packName_packed, Res.mapErr_ok, Exec.run_bind_of_ok (Exec.run_lift _ s),
    Exec.run_bind_of_ok (Exec.run_get s), h.readFrom, Res.mapErr_ok,
    Exec.run_bind_of_ok (Exec.run_lift _ s), h.validate, Res.mapErr_ok,
    Exec.run_bind_of_ok (Exec.run_lift _ s),
    Exec.run_bind_of_err (Exec.run_failIf_of (by
      rw [canonicalHeader, h.toNat_count]
      exact hcount) s)]

/-- Without room in the pool nothing is written. -/
theorem run_writeRegion_exhausted (dbg : Bool) (h : Headed s g n p) (hcount : n < regionCapacity)
    (hpool : extentCapacity < p + xs.length) :
  (writeRegion dbg r.name r.nameId r.layoutVersion r.flags r.gva r.len xs).run s
    = (s, .err .tooManyExtents)
  := by
  rw [writeRegion, packName_packed, Res.mapErr_ok, Exec.run_bind_of_ok (Exec.run_lift _ s),
    Exec.run_bind_of_ok (Exec.run_get s), h.readFrom, Res.mapErr_ok,
    Exec.run_bind_of_ok (Exec.run_lift _ s), h.validate, Res.mapErr_ok,
    Exec.run_bind_of_ok (Exec.run_lift _ s),
    Exec.run_bind_of_ok (Exec.run_failIf_of_not (by
      rw [canonicalHeader, h.toNat_count]
      exact Nat.not_le.mpr hcount) s),
    Exec.run_bind_of_err (Exec.run_failIf_of (by
      rw [canonicalHeader, h.toNat_pool]
      exact hpool) s)]

end Publish

/-! ### Other extents for an entry -/

section Rewrite

variable {s : Slice} {g : UInt64} {n p i : Nat} {e : RegionEntry} {xs : List Extent}

/-- Where other extents of an entry go: to their old place when there are no more than before,
and otherwise behind the used pool. -/
def placeAt (p : Nat) (e : RegionEntry) (xs : List Extent) : Nat :=
  if xs.length ≤ e.extentN.toNat then e.extentOff.toNat else p

/-- The used pool with other extents of an entry. -/
def poolAt (p : Nat) (e : RegionEntry) (xs : List Extent) : Nat :=
  if xs.length ≤ e.extentN.toNat then p else p + xs.length

/-- The entry with other extents. -/
def movedEntry (p : Nat) (e : RegionEntry) (xs : List Extent) : RegionEntry :=
  { e with extentOff := UInt32.ofNat (placeAt p e xs), extentN := UInt32.ofNat xs.length }

/-- The write of the header behind other extents, when they are behind the used pool. -/
def countWrites (g : UInt64) (n p : Nat) (e : RegionEntry) (xs : List Extent) :
    List (Nat × Bytes) :=
  if xs.length ≤ e.extentN.toNat then []
  else Slice.fieldsAt 0 (canonicalHeader (g + 1) n (p + xs.length)).fields

/-- The writes that give an entry other extents. -/
def rewriteWrites (g : UInt64) (n p i : Nat) (e : RegionEntry) (xs : List Extent) :
    List (Nat × Bytes) :=
  extentWrites (placeAt p e xs) xs
    ++ (Slice.fieldsAt (RegionEntry.offset i) (movedEntry p e xs).fields ++ countWrites g n p e xs)

theorem header_countWrites {t : Slice}
    (ht : ManifestHeader.ofMem t.mem = canonicalHeader (g + 1) n p) :
  ManifestHeader.ofMem (t.writeAll (countWrites g n p e xs)).mem
    = canonicalHeader (g + 1) n (poolAt p e xs)
  := by
  rw [countWrites, poolAt]
  split
  · exact ht
  · rw [Slice.writeAll_fieldsAt_mem, ManifestHeader.ofMem_write]

/-- There is room for the extents behind the used pool, or none is needed. -/
def FitsAt (p : Nat) (e : RegionEntry) (xs : List Extent) : Prop :=
  xs.length ≤ e.extentN.toNat ∨ p + xs.length ≤ extentCapacity

instance (p : Nat) (e : RegionEntry) (xs : List Extent) : Decidable (FitsAt p e xs) :=
  inferInstanceAs (Decidable (_ ∨ _))

theorem poolAt_le (h : Headed s g n p) (hfit : FitsAt p e xs) :
  p ≤ poolAt p e xs ∧ poolAt p e xs ≤ extentCapacity
  := by
  have hroom := h.room
  rw [FitsAt] at hfit
  rw [poolAt]
  split <;> omega

theorem placeAt_le (hin : e.extentOff.toNat + e.extentN.toNat ≤ p) :
  placeAt p e xs + xs.length ≤ poolAt p e xs
  := by
  rw [placeAt, poolAt]
  split <;> omega

variable (e xs) in
/-- The place that the writer chooses. -/
theorem toNat_placeAt (h : Headed s g n p) :
  (if ¬ xs.length ≤ e.extentN.toNat then (canonicalHeader g n p).extentCount else e.extentOff)
      = UInt32.ofNat (placeAt p e xs) ∧
    (UInt32.ofNat (placeAt p e xs)).toNat = placeAt p e xs
  := by
  have hroom := h.room
  rw [placeAt]
  by_cases hle : xs.length ≤ e.extentN.toNat
  · rw [if_neg (not_not.mpr hle), if_pos hle, UInt32.ofNat_toNat]
    exact ⟨rfl, rfl⟩
  · rw [if_pos hle, if_neg hle]
    exact ⟨rfl, h.toNat_pool⟩

/-- The header is written only when the extents are behind the used pool. -/
theorem run_countWrites {α : Type} {t : Slice} {y : Exec Slice Status α}
    (hlen : t.len = manifestTotalSize) (hfit : FitsAt p e xs) :
  (if ¬ xs.length ≤ e.extentN.toNat then do
      Exec.mapErr (fun _ => Status.internal) (ManifestHeader.writeTo { canonicalHeader g n p with
        generation := g + 1
        extentCount := saturatingAdd (canonicalHeader g n p).extentCount (UInt32.ofNat xs.length) })
      y
    else y).run t = y.run (t.writeAll (countWrites g n p e xs))
  := by
  rw [countWrites]
  by_cases hle : xs.length ≤ e.extentN.toNat
  · rw [if_neg (not_not.mpr hle), if_pos hle]
    rfl
  · have hpool := hfit.resolve_left hle
    have hsum := saturatingAdd_ofNat
      (Nat.lt_of_le_of_lt hpool (show extentCapacity < 2 ^ 32 by decide))
    have hheader : ({ canonicalHeader g n p with
        generation := g + 1
        extentCount := saturatingAdd (canonicalHeader g n p).extentCount
          (UInt32.ofNat xs.length) } : ManifestHeader)
        = canonicalHeader (g + 1) n (p + xs.length) := by
      simp only [canonicalHeader, hsum]
    rw [if_pos hle, if_neg hle, hheader]
    apply Exec.run_bind_of_ok
    apply Exec.run_mapErr_of_ok
    apply ManifestHeader.run_writeTo
    rw [hlen]
    decide

variable (xs) in
/-- The entry of a slot gets other extents while there is room for them. -/
theorem run_rewriteExtents (dbg : Bool) (h : Headed s g n p) (hi : i < regionCapacity)
    (he : RegionEntry.ofMem s.mem i = e) (hin : e.extentOff.toNat + e.extentN.toNat ≤ p)
    (hfit : FitsAt p e xs) :
  Seals dbg s g (rewriteWrites g n p i e xs) (rewriteExtents dbg (UInt32.ofNat i) xs) (g + 2)
  := by
  have hslotNat : (UInt32.ofNat i).toNat = i := Word.toNat_ofNat_le (Nat.le_of_lt hi) (by decide)
  obtain ⟨hplace, hplace'⟩ := toNat_placeAt e xs h
  obtain ⟨s₁, hs₁⟩ : ∃ s₁, s.write offGeneration (Bytes.ofU64 (g + 1)) = s₁ := ⟨_, rfl⟩
  have hlen₁ : s₁.len = manifestTotalSize := by rw [← hs₁]; exact h.len
  have hslot₁ : RegionEntry.offset i + regionEntrySize ≤ s₁.len := by
    rw [← hs₁]
    exact h.slot_le hi
  have hend : placeAt p e xs + xs.length ≤ extentCapacity :=
    Nat.le_trans (placeAt_le hin) (poolAt_le h hfit).2
  apply seals_of_run (f := fun g => g) _ rfl h.len h.even
  · rw [hs₁, rewriteWrites, Slice.writeAll_append, Slice.writeAll_append, header_countWrites]
    · rfl
    · rw [Slice.writeAll_fieldsAt_mem, header_write_entry, writeAll_extentWrites_mem,
        header_putExtents, ← hs₁, Slice.write_mem, ManifestHeader.ofMem_write_generation, h.header]
      rfl
  rw [rewriteExtents, Exec.run_bind_of_ok (Exec.run_get s), hslotNat, h.readEntry hi, he,
    Res.mapErr_ok, Exec.run_bind_of_ok (Exec.run_lift _ s), h.readFrom, Res.mapErr_ok,
    Exec.run_bind_of_ok (Exec.run_lift _ s)]
  dsimp only
  rw [Exec.run_bind_of_ok (Exec.run_failIf_of_not (by
      rw [canonicalHeader, h.toNat_pool]
      rw [FitsAt] at hfit
      omega) s), hplace, hplace', hs₁,
    Exec.run_bind_of_ok (Exec.run_mapErr_of_ok h.writerBegin), hs₁,
    Exec.run_bind_of_ok (Exec.run_mapErr_of_ok (run_writeExtents hlen₁ hend)),
    Exec.run_bind_of_ok (Exec.run_mapErr_of_ok (RegionEntry.run_writeTo hi (by
      rw [Slice.writeAll_len]
      exact hslot₁))), run_countWrites _ hfit, rewriteWrites,
    Slice.writeAll_append, Slice.writeAll_append, Exec.run_bind_pure]
  · rfl
  · rw [Slice.writeAll_len, Slice.writeAll_len]
    exact hlen₁

variable (xs) in
/-- Without room in the pool for the extents nothing is written. -/
theorem run_rewriteExtents_exhausted (dbg : Bool) (h : Headed s g n p) (hi : i < regionCapacity)
    (he : RegionEntry.ofMem s.mem i = e) (hfit : ¬ FitsAt p e xs) :
  (rewriteExtents dbg (UInt32.ofNat i) xs).run s = (s, .err .tooManyExtents)
  := by
  have hslotNat : (UInt32.ofNat i).toNat = i := Word.toNat_ofNat_le (Nat.le_of_lt hi) (by decide)
  rw [rewriteExtents, Exec.run_bind_of_ok (Exec.run_get s), hslotNat, h.readEntry hi, he,
    Res.mapErr_ok, Exec.run_bind_of_ok (Exec.run_lift _ s), h.readFrom, Res.mapErr_ok,
    Exec.run_bind_of_ok (Exec.run_lift _ s)]
  dsimp only
  rw [Exec.run_bind_of_err (Exec.run_failIf_of (by
    rw [canonicalHeader, h.toNat_pool]
    rw [FitsAt] at hfit
    omega) s)]

variable (e xs) in
/-- The manifest with other extents for the entry of a slot. -/
theorem writeAll_rewriteWrites (h : Headed s g n p) (hi : i < regionCapacity) {m' : ByteMem}
    (hm : m' = (s.writeAll (sealedWrites g (rewriteWrites g n p i e xs))).mem) :
  ManifestHeader.ofMem m' = canonicalHeader (g + 2) n (poolAt p e xs) ∧
    RegionEntry.ofMem m' i = movedEntry p e xs ∧
    (∀ j < regionCapacity, j ≠ i → RegionEntry.ofMem m' j = RegionEntry.ofMem s.mem j) ∧
    (∀ (k : Nat) (x : Extent), xs[k]? = some x → Extent.ofMem m' (placeAt p e xs + k) = x) ∧
    ∀ k, k < placeAt p e xs ∨ placeAt p e xs + xs.length ≤ k →
      Extent.ofMem m' k = Extent.ofMem s.mem k
  := by
  obtain ⟨t, ht⟩ : ∃ t, ((s.write offGeneration (Bytes.ofU64 (g + 1))).writeAll
      (extentWrites (placeAt p e xs) xs)).writeAll (Slice.fieldsAt (RegionEntry.offset i)
        (movedEntry p e xs).fields) = t := ⟨_, rfl⟩
  have htmem : t.mem = (putExtents (s.mem.write offGeneration (Bytes.ofU64 (g + 1)))
      (placeAt p e xs) xs).write (RegionEntry.offset i) (movedEntry p e xs).fields.flatten := by
    rw [← ht, Slice.writeAll_fieldsAt_mem, writeAll_extentWrites_mem, Slice.write_mem]
  have hmem : m' = (t.writeAll (countWrites g n p e xs)).mem.write offGeneration
      (Bytes.ofU64 (g + 2)) := by
    rw [hm, rewriteWrites, sealedWrites, Slice.writeAll_cons, Slice.writeAll_append,
      Slice.writeAll_append, Slice.writeAll_append, ht, Slice.writeAll_cons, Slice.writeAll_nil,
      Slice.write_mem]
  have hentries : ∀ j, RegionEntry.ofMem m' j = RegionEntry.ofMem t.mem j := by
    intro j
    rw [hmem, entry_write_generation, countWrites]
    split
    · rfl
    · rw [Slice.writeAll_fieldsAt_mem, entry_write_header]
  have hextents : ∀ k, Extent.ofMem m' k = Extent.ofMem t.mem k := by
    intro k
    rw [hmem, extent_write_generation, countWrites]
    split
    · rfl
    · rw [Slice.writeAll_fieldsAt_mem, extent_write_header]
  refine ⟨?_, ?_, ?_, ?_, ?_⟩
  · rw [hmem, ManifestHeader.ofMem_write_generation, header_countWrites]
    · rfl
    · rw [htmem, header_write_entry, header_putExtents, ManifestHeader.ofMem_write_generation,
        h.header]
      rfl
  · rw [hentries, htmem, RegionEntry.ofMem_write]
  · intro j hj hne
    rw [hentries, htmem, entry_write_entry hne, entry_putExtents hj, entry_write_generation]
  · intro k x hx
    rw [hextents, htmem, extent_write_entry hi]
    apply extent_putExtents hx
  · intro k hk
    rw [hextents, htmem, extent_write_entry hi, extent_putExtents_beside hk,
      extent_write_generation]

end Rewrite
namespace Book

variable {b : Book} {s : Slice} {r : Region} {i : Nat} {xs : List Extent}

theorem Sound.toNat_slot (hb : b.Sound) (hr : b.regions[i]? = some r) :
  (UInt32.ofNat i).toNat = i ∧ i < regionCapacity
  := by
  obtain ⟨hi, _⟩ := List.getElem?_eq_some_iff.mp hr
  have hlt : i < regionCapacity := Nat.lt_of_lt_of_le hi hb.count
  exact ⟨Word.toNat_ofNat_le (Nat.le_of_lt hlt) (by decide), hlt⟩

/-- The extents of a region end inside the pool. -/
theorem Sound.extents_le (hb : b.Sound) (hr : b.regions[i]? = some r) :
  r.extentOff + r.extents.length ≤ extentCapacity
  := Nat.le_trans (hb.inside r (List.mem_of_getElem? hr)) hb.room

/-- A manifest that lists a sound book is at rest. -/
theorem ListedIn.headed (h : b.ListedIn s.mem) (hb : b.Sound) (hlen : s.len = manifestTotalSize) :
  Headed s b.generation b.regions.length b.pool
  := ⟨hlen, h.header, hb.count, hb.room, hb.even⟩

/-- Publishing a region makes the manifest list it. -/
theorem ListedIn.publish (h : b.ListedIn s.mem) (hb : b.Sound)
    (hcount : b.regions.length < regionCapacity) (hoff : r.extentOff = b.pool) :
  (b.publish r).ListedIn (s.writeAll (sealedWrites b.generation
    (publishWrites b.generation b.regions.length b.pool r))).mem
  := by
  rw [writeAll_publishWrites_mem]
  constructor
  · rw [ManifestHeader.ofMem_write_generation, ManifestHeader.ofMem_write, Book.header,
      Book.publish, List.length_append]
    rfl
  · intro i r' hr'
    rw [entry_write_generation, entry_write_header]
    rcases Nat.lt_or_ge i b.regions.length with hlt | hge
    · rw [Book.publish, List.getElem?_append_left hlt] at hr'
      have hslot := (hb.toNat_slot hr').2
      rw [entry_write_entry (Nat.ne_of_lt hlt), entry_putExtents hslot, entry_write_generation]
      exact h.entry i r' hr'
    · obtain ⟨hi, _⟩ := List.getElem?_eq_some_iff.mp hr'
      rw [Book.publish, List.length_append, List.length_singleton] at hi
      obtain rfl : i = b.regions.length := by omega
      rw [Book.publish, List.getElem?_concat_length] at hr'
      obtain rfl := Option.some.inj hr'
      apply RegionEntry.ofMem_write
  · intro i r' hr' j x hx
    rw [extent_write_generation, extent_write_header, extent_write_entry hcount]
    rcases Nat.lt_or_ge i b.regions.length with hlt | hge
    · rw [Book.publish, List.getElem?_append_left hlt] at hr'
      have hinside := hb.inside r' (List.mem_of_getElem? hr')
      obtain ⟨hj, _⟩ := List.getElem?_eq_some_iff.mp hx
      rw [extent_putExtents_beside (by omega), extent_write_generation]
      exact h.extent i r' hr' j x hx
    · obtain ⟨hi, _⟩ := List.getElem?_eq_some_iff.mp hr'
      rw [Book.publish, List.length_append, List.length_singleton] at hi
      obtain rfl : i = b.regions.length := by omega
      rw [Book.publish, List.getElem?_concat_length] at hr'
      obtain rfl := Option.some.inj hr'
      rw [hoff]
      apply extent_putExtents hx

theorem Sound.publish (hb : b.Sound) (hcount : b.regions.length < regionCapacity)
    (hpool : b.pool + r.extents.length ≤ extentCapacity) (hoff : r.extentOff = b.pool) :
  (b.publish r).Sound
  := by
  have hlast : ∀ (i : Nat) (r' : Region), (b.publish r).regions[i]? = some r' →
      (b.regions[i]? = some r' ∧ r'.extentOff + r'.extents.length ≤ b.pool) ∨
        (i = b.regions.length ∧ r' = r) := by
    intro i r' hr'
    rcases Nat.lt_or_ge i b.regions.length with hlt | hge
    · left
      rw [Book.publish, List.getElem?_append_left hlt] at hr'
      exact ⟨hr', hb.inside r' (List.mem_of_getElem? hr')⟩
    · right
      obtain ⟨hi, _⟩ := List.getElem?_eq_some_iff.mp hr'
      rw [Book.publish, List.length_append, List.length_singleton] at hi
      obtain rfl : i = b.regions.length := by omega
      rw [Book.publish, List.getElem?_concat_length] at hr'
      exact ⟨rfl, (Option.some.inj hr').symm⟩
  constructor
  · rw [Book.publish, List.length_append]
    exact hcount
  · exact hpool
  · exact even_add_two hb.even
  · intro r' hr'
    rcases List.mem_append.mp hr' with hold | hnew
    · exact Nat.le_trans (hb.inside r' hold) (Nat.le_add_right ..)
    · obtain rfl := List.mem_singleton.mp hnew
      rw [hoff]
      exact Nat.le_refl _
  · intro i j r₁ r₂ h₁ h₂ hij
    rcases hlast i r₁ h₁ with ⟨hold₁, hin₁⟩ | ⟨rfl, rfl⟩
    · rcases hlast j r₂ h₂ with ⟨hold₂, _⟩ | ⟨rfl, rfl⟩
      · exact hb.apart i j r₁ r₂ hold₁ hold₂ hij
      · left
        rw [hoff]
        exact hin₁
    · rcases hlast j r₂ h₂ with ⟨_, hin₂⟩ | ⟨rfl, rfl⟩
      · right
        rw [hoff]
        exact hin₂
      · exact absurd rfl hij

/-! ### Changing a region -/

/-- After a change of one slot a slot holds the new region or what it held before. -/
theorem slot_cases {b' : Book} {r' r₂ : Region} {j : Nat}
    (hregions : b'.regions = b.regions.set i r') (hr₂ : b'.regions[j]? = some r₂) :
  (j = i ∧ r₂ = r') ∨ (j ≠ i ∧ b.regions[j]? = some r₂)
  := by
  rw [hregions, List.getElem?_set] at hr₂
  split at hr₂
  · rename_i heq
    split at hr₂
    · exact Or.inl ⟨heq.symm, (Option.some.inj hr₂).symm⟩
    · cases hr₂
  · rename_i hne
    exact Or.inr ⟨Ne.symm hne, hr₂⟩

/-- A manifest in which the entry of one slot was replaced lists the changed book. -/
theorem ListedIn.replace {b' : Book} {m m' : ByteMem} {r' : Region} (h : b.ListedIn m)
    (hregions : b'.regions = b.regions.set i r')
    (hheader : ManifestHeader.ofMem m' = b'.header)
    (hentry : RegionEntry.ofMem m' i = r'.entry i)
    (hentries : ∀ (j : Nat) (r₂ : Region), b.regions[j]? = some r₂ → j ≠ i →
      RegionEntry.ofMem m' j = RegionEntry.ofMem m j)
    (hextent : ∀ (k : Nat) (x : Extent), r'.extents[k]? = some x →
      Extent.ofMem m' (r'.extentOff + k) = x)
    (hextents : ∀ (j : Nat) (r₂ : Region), b.regions[j]? = some r₂ → j ≠ i →
      ∀ k < r₂.extents.length,
        Extent.ofMem m' (r₂.extentOff + k) = Extent.ofMem m (r₂.extentOff + k)) :
  b'.ListedIn m'
  := by
  constructor
  · exact hheader
  · intro j r₂ hr₂
    rcases slot_cases hregions hr₂ with ⟨rfl, rfl⟩ | ⟨hne, hold⟩
    · exact hentry
    · rw [hentries j r₂ hold hne]
      exact h.entry j r₂ hold
  · intro j r₂ hr₂ k x hx
    rcases slot_cases hregions hr₂ with ⟨rfl, rfl⟩ | ⟨hne, hold⟩
    · exact hextent k x hx
    · obtain ⟨hk, _⟩ := List.getElem?_eq_some_iff.mp hx
      rw [hextents j r₂ hold hne k hk]
      exact h.extent j r₂ hold k x hx

/-- The capacities are kept and the extents lie apart when one region gets another range of the
pool that is apart from those of the others. -/
theorem Sound.replace {b' : Book} {r' : Region} (hb : b.Sound)
    (hregions : b'.regions = b.regions.set i r') (hgen : b'.generation = b.generation + 2)
    (hpool : b.pool ≤ b'.pool) (hroom : b'.pool ≤ extentCapacity)
    (hinside : r'.extentOff + r'.extents.length ≤ b'.pool)
    (hapart : ∀ (j : Nat) (r₂ : Region), b.regions[j]? = some r₂ → j ≠ i →
      r'.extentOff + r'.extents.length ≤ r₂.extentOff ∨
        r₂.extentOff + r₂.extents.length ≤ r'.extentOff) :
  b'.Sound
  := by
  constructor
  · rw [hregions, List.length_set]
    exact hb.count
  · exact hroom
  · rw [hgen]
    exact even_add_two hb.even
  · intro r₂ hr₂
    obtain ⟨j, hj⟩ := List.mem_iff_getElem?.mp hr₂
    rcases slot_cases hregions hj with ⟨rfl, rfl⟩ | ⟨_, hold⟩
    · exact hinside
    · exact Nat.le_trans (hb.inside r₂ (List.mem_of_getElem? hold)) hpool
  · intro j k r₁ r₂ h₁ h₂ hjk
    rcases slot_cases hregions h₁ with ⟨rfl, rfl⟩ | ⟨hne₁, hold₁⟩
    · rcases slot_cases hregions h₂ with ⟨rfl, rfl⟩ | ⟨hne₂, hold₂⟩
      · exact absurd rfl hjk
      · exact hapart k r₂ hold₂ hne₂
    · rcases slot_cases hregions h₂ with ⟨rfl, rfl⟩ | ⟨hne₂, hold₂⟩
      · exact (hapart j r₁ hold₁ hne₁).symm
      · exact hb.apart j k r₁ r₂ hold₁ hold₂ hjk

/-! ### Burying a region -/

theorem bury_regions (hr : b.regions[i]? = some r) :
  (b.bury i).regions = b.regions.set i r.bury
  := by
  obtain ⟨hi, _⟩ := List.getElem?_eq_some_iff.mp hr
  apply List.ext_getElem?
  intro j
  rw [bury, List.getElem?_modify, List.getElem?_set]
  split
  · rename_i hij
    rw [← hij, hr]
    rfl
  · cases b.regions[j]? with
    | none => rfl
    | some r₂ => rfl

theorem ListedIn.bury (h : b.ListedIn s.mem) (hb : b.Sound) (hr : b.regions[i]? = some r) :
  (b.bury i).ListedIn (s.writeAll (sealedWrites b.generation
    (Slice.fieldsAt (RegionEntry.offset i) (r.bury.entry i).fields))).mem
  := by
  have hslot := (hb.toNat_slot hr).2
  have hmem : (s.writeAll (sealedWrites b.generation
      (Slice.fieldsAt (RegionEntry.offset i) (r.bury.entry i).fields))).mem
      = ((s.mem.write offGeneration (Bytes.ofU64 (b.generation + 1))).write
          (RegionEntry.offset i) (r.bury.entry i).fields.flatten).write offGeneration
            (Bytes.ofU64 (b.generation + 2)) := by
    rw [sealedWrites, Slice.writeAll_cons, Slice.writeAll_append, Slice.writeAll_cons,
      Slice.writeAll_nil, Slice.write_mem, Slice.writeAll_fieldsAt_mem, Slice.write_mem]
  rw [hmem]
  apply h.replace (bury_regions hr)
  · rw [ManifestHeader.ofMem_write_generation, header_write_entry,
      ManifestHeader.ofMem_write_generation, h.header, Book.header, Book.header, bury_regions hr,
      List.length_set]
    rfl
  · rw [entry_write_generation]
    apply RegionEntry.ofMem_write
  · intro j r₂ _ hne
    rw [entry_write_generation, entry_write_entry hne, entry_write_generation]
  · intro k x hx
    rw [extent_write_generation, extent_write_entry hslot, extent_write_generation]
    exact h.extent i r hr k x hx
  · intro j r₂ _ _ k _
    rw [extent_write_generation, extent_write_entry hslot, extent_write_generation]

theorem Sound.bury (hb : b.Sound) (hr : b.regions[i]? = some r) :
  (b.bury i).Sound
  := by
  apply hb.replace (bury_regions hr) rfl (Nat.le_refl _) hb.room
  · exact hb.inside r (List.mem_of_getElem? hr)
  · intro j r₂ hr₂ hne
    exact hb.apart i j r r₂ hr hr₂ (Ne.symm hne)

/-- The writer of a dead region writes what the book says. -/
theorem ListedIn.deadEntry (h : b.ListedIn s.mem) (hr : b.regions[i]? = some r)
    (hdead : r.dead = false) :
  deadEntry s i = r.bury.entry i
  := by
  rw [Agent.deadEntry, h.entry i r hr, Region.entry, Region.entry, hdead]
  rfl

/-! ### Moving the extents of a region -/

theorem move_eq (hr : b.regions[i]? = some r) :
  b.move i xs =
    { regions := b.regions.set i (r.move (b.place r xs) xs)
      pool := b.poolWith r xs
      generation := b.generation + 2 }
  := by
  rw [move, hr]

theorem pool_le_poolWith :
  b.pool ≤ b.poolWith r xs
  := by
  rw [poolWith]
  split
  · exact Nat.le_refl _
  · exact Nat.le_add_right ..

theorem poolWith_le (hb : b.Sound)
    (hfit : xs.length ≤ r.extents.length ∨ b.pool + xs.length ≤ extentCapacity) :
  b.poolWith r xs ≤ extentCapacity
  := by
  rw [poolWith]
  split
  · exact hb.room
  · rename_i hgrown
    exact hfit.resolve_left hgrown

theorem place_le (hb : b.Sound) (hr : b.regions[i]? = some r) :
  b.place r xs + xs.length ≤ b.poolWith r xs
  := by
  have hinside := hb.inside r (List.mem_of_getElem? hr)
  rw [place, poolWith]
  split
  · omega
  · exact Nat.le_refl _

theorem place_apart {j : Nat} {r₂ : Region} (hb : b.Sound) (hr : b.regions[i]? = some r)
    (hr₂ : b.regions[j]? = some r₂) (hne : j ≠ i) :
  b.place r xs + xs.length ≤ r₂.extentOff ∨ r₂.extentOff + r₂.extents.length ≤ b.place r xs
  := by
  rw [place]
  split
  · rcases hb.apart i j r r₂ hr hr₂ (Ne.symm hne) with h | h
    · left
      omega
    · right
      exact h
  · right
    exact hb.inside r₂ (List.mem_of_getElem? hr₂)

/-- The write of the header behind other extents, when they are behind the used pool. -/
def poolWrites (b : Book) (r : Region) (xs : List Extent) : List (Nat × Bytes) :=
  if xs.length ≤ r.extents.length then []
  else Slice.fieldsAt 0 (canonicalHeader (b.generation + 1) b.regions.length
    (b.pool + xs.length)).fields

/-- The writes that move the extents of a region. -/
def moveWrites (b : Book) (i : Nat) (r : Region) (xs : List Extent) : List (Nat × Bytes) :=
  extentWrites (b.place r xs) xs
    ++ (Slice.fieldsAt (RegionEntry.offset i) ((r.move (b.place r xs) xs).entry i).fields
      ++ b.poolWrites r xs)

/-- The entry tells the number of extents of its region. -/
theorem entry_extentN (hb : b.Sound) (hr : b.regions[i]? = some r) :
  (r.entry i).extentN.toNat = r.extents.length
  := Word.toNat_ofNat_le (Nat.le_trans (Nat.le_add_left ..) (hb.extents_le hr)) (by decide)

variable (xs) in
/-- The writes that move the extents of a region are those that give its entry other extents. -/
theorem moveWrites_eq (hb : b.Sound) (hr : b.regions[i]? = some r) :
  b.moveWrites i r xs
    = rewriteWrites b.generation b.regions.length b.pool i (r.entry i) xs ∧
      placeAt b.pool (r.entry i) xs = b.place r xs ∧ poolAt b.pool (r.entry i) xs = b.poolWith r xs
  := by
  have hend := hb.extents_le hr
  have hn := entry_extentN hb hr
  have hoff : (r.entry i).extentOff.toNat = r.extentOff :=
    Word.toNat_ofNat_le (Nat.le_trans (Nat.le_add_right ..) hend) (by decide)
  have hplace : placeAt b.pool (r.entry i) xs = b.place r xs := by
    rw [placeAt, place, hn, hoff]
  refine ⟨?_, hplace, by rw [poolAt, poolWith, hn]⟩
  rw [moveWrites, rewriteWrites, movedEntry, hplace, poolWrites, countWrites, hn]
  rfl

theorem ListedIn.move (h : b.ListedIn s.mem) (hb : b.Sound) (hlen : s.len = manifestTotalSize)
    (hr : b.regions[i]? = some r) :
  (b.move i xs).ListedIn (s.writeAll (sealedWrites b.generation (b.moveWrites i r xs))).mem
  := by
  obtain ⟨hwrites, hplace, hpool⟩ := moveWrites_eq xs hb hr
  obtain ⟨hheader, hentry, hentries, hextent, hextents⟩ :=
    writeAll_rewriteWrites (r.entry i) xs (h.headed hb hlen) (hb.toNat_slot hr).2 rfl
  rw [← hwrites] at hheader hentry hentries hextent hextents
  rw [hpool] at hheader
  rw [hplace] at hextent hextents
  rw [move_eq hr]
  apply h.replace rfl
  · rw [hheader, Book.header, List.length_set]
  · rw [hentry, movedEntry, hplace]
    rfl
  · intro j r₂ hr₂ hne
    exact hentries j (hb.toNat_slot hr₂).2 hne
  · exact hextent
  · intro j r₂ hr₂ hne k hk
    have hapart : b.place r xs + xs.length ≤ r₂.extentOff ∨
        r₂.extentOff + r₂.extents.length ≤ b.place r xs := place_apart hb hr hr₂ hne
    apply hextents
    omega

theorem Sound.move (hb : b.Sound) (hr : b.regions[i]? = some r)
    (hfit : xs.length ≤ r.extents.length ∨ b.pool + xs.length ≤ extentCapacity) :
  (b.move i xs).Sound
  := by
  rw [move_eq hr]
  apply hb.replace rfl rfl pool_le_poolWith (poolWith_le hb hfit) (place_le hb hr)
  intro j r₂ hr₂ hne
  exact place_apart hb hr hr₂ hne

/-- The extents of a region are moved while there is room for them. -/
theorem run_rewriteExtents (dbg : Bool) (h : b.ListedIn s.mem) (hb : b.Sound)
    (hlen : s.len = manifestTotalSize) (hr : b.regions[i]? = some r)
    (hfit : xs.length ≤ r.extents.length ∨ b.pool + xs.length ≤ extentCapacity) :
  Seals dbg s b.generation (b.moveWrites i r xs) (rewriteExtents dbg (UInt32.ofNat i) xs)
    (b.generation + 2)
  := by
  have hin := hb.inside r (List.mem_of_getElem? hr)
  have hoff : (r.entry i).extentOff.toNat = r.extentOff :=
    Word.toNat_ofNat_le (Nat.le_trans (Nat.le_add_right ..) (hb.extents_le hr)) (by decide)
  rw [(moveWrites_eq _ hb hr).1]
  apply Agent.run_rewriteExtents _ dbg (h.headed hb hlen) (hb.toNat_slot hr).2 (h.entry i r hr)
  · rw [hoff, entry_extentN hb hr]
    exact hin
  · rw [FitsAt, entry_extentN hb hr]
    exact hfit

/-- Without room in the pool for the extents nothing is written. -/
theorem run_rewriteExtents_exhausted (dbg : Bool) (h : b.ListedIn s.mem) (hb : b.Sound)
    (hlen : s.len = manifestTotalSize) (hr : b.regions[i]? = some r)
    (hfit : ¬ (xs.length ≤ r.extents.length ∨ b.pool + xs.length ≤ extentCapacity)) :
  (rewriteExtents dbg (UInt32.ofNat i) xs).run s = (s, .err .tooManyExtents)
  := by
  apply Agent.run_rewriteExtents_exhausted _ dbg (h.headed hb hlen) (hb.toNat_slot hr).2
    (h.entry i r hr)
  rw [FitsAt, entry_extentN hb hr]
  exact hfit

end Book

end Agent
