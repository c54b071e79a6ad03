import DetGuest.Host.Channel
import DetGuest.Wire.Manifest

/-!
# Reading the manifest

The host reads the manifest under its seqlock, looks regions up by name, and reads the memory of a
region along its extents.  A reading takes the bytes of the extents in order, without the ones
before the offset, until the buffer is full.
-/

namespace Host

open Wire

/-! ### Snapshots -/

/-- Readings of the manifest before the host gives up. -/
def seqlockRetries : Nat := 64

/-- A consistent snapshot of the manifest. -/
structure RegionManifest where
  header : ManifestHeader
  entries : List RegionEntry
  extents : List Extent
  deriving DecidableEq, Repr

/-- A live region and its extents. -/
structure ResolvedRegion where
  regionId : UInt32
  layoutVersion : UInt32
  len : UInt64
  flags : UInt32
  extents : List Extent
  deriving DecidableEq, Repr

/-- `xs.get(off..off + n)`. -/
def getRange {α : Type} (xs : List α) (off n : Nat) : Option (List α) :=
  if off + n ≤ xs.length then some ((xs.drop off).take n) else none

/-- The first live region of the given name. -/
def RegionManifest.resolve (m : RegionManifest) (name : Bytes) : Option ResolvedRegion := do
  let e ← m.entries.find? fun e => e.isLive && e.nameBytes = name
  let extents ← getRange m.extents e.extentOff.toNat e.extentN.toNat
  pure { regionId := e.regionId, layoutVersion := e.layoutVersion, len := e.len, flags := e.flags
         extents }

/-- Parse `n` slots from slot `i` on. -/
def readSlots {ε α : Type} (f : Nat → Res ε α) : Nat → Nat → Res ε (List α)
  | _, 0 => .ok []
  | i, n + 1 => do
      let x ← f i
      let xs ← readSlots f (i + 1) n
      pure (x :: xs)

/-- Parse and check a copy of the manifest area. -/
def parseManifest (dbg : Bool) (area : Slice) : Res DecodeError RegionManifest := do
  let header ← ManifestHeader.readFrom area
  header.validate
  let entries ← readSlots (RegionEntry.readFrom area) 0 regionCapacity
  let n := header.extentCount.toNat
  Res.debugAssert dbg (n ≤ extentCapacity)
  let extents ← readSlots (Extent.readFrom area) 0 n
  for e in entries.filter RegionEntry.isLive do
    e.validateExtents header
  pure { header, entries, extents }

/-- `GuestMem::read_u64`. -/
def GuestMem.readU64 (gm : GuestMem) (gpa : Nat) : Res MemError UInt64 := do
  pure (← gm.read gpa 8).toU64

/-- One reading of the manifest; nothing when it met a write. -/
def readAttempt (dbg : Bool) (gm : GuestMem) (base : PageBase) :
    Res WireError (Option RegionManifest) := do
  let genGpa := base.gpa + (offManifest + offGeneration)
  let g1 ← (gm.readU64 genGpa).mapErr .mem
  if g1 % 2 ≠ 0 then
    pure none
  else do
    let area ← (gm.read (base.gpa + offManifest) manifestTotalSize).mapErr .mem
    let g2 ← (gm.readU64 genGpa).mapErr .mem
    if g1 ≠ g2 then
      pure none
    else do
      let m ← (parseManifest dbg (Slice.ofBytes area)).mapErr .decode
      pure (some m)

/-- Read the manifest, at most the given number of times. -/
def retryManifest (dbg : Bool) (gm : GuestMem) (base : PageBase) :
    Nat → Res WireError RegionManifest
  | 0 => .err .seqlockLivelock
  | n + 1 => do
      match ← readAttempt dbg gm base with
      | some m => pure m
      | none => retryManifest dbg gm base n

/-- A consistent snapshot of the manifest. -/
def readManifest (dbg : Bool) (gm : GuestMem) (base : PageBase) : Res WireError RegionManifest :=
  retryManifest dbg gm base seqlockRetries

/-! ### Reading a region -/

/-- Errors of reading a region. -/
inductive RegionReadError where
  | nameNotFound
  | outOfBounds
  | wire (e : WireError)
  | mem (e : MemError)
  deriving DecidableEq, Repr

/-- A buffer that is filled from its start on: the bytes that were written, and the rest. -/
structure ReadBuf where
  filled : Bytes
  remaining : Bytes

/-- The sum of the lengths of extents, where it fits. -/
def coveredLen (extents : List Extent) : Option UInt64 :=
  extents.foldlM (fun a x => Word.checkedAdd a x.len) 0

/-- A value, or the error when there is none. -/
def okOr {ε α : Type} (e : ε) : Option α → Res ε α
  | some a => .ok a
  | none => .err e

/-- Fill the rest of the buffer from the extents, behind `toSkip` bytes. -/
def walkExtents (gm : GuestMem) : List Extent → UInt64 → Exec ReadBuf RegionReadError Unit
  | [], _ => pure ()
  | x :: xs, toSkip => do
      let b ← Exec.get
      if b.remaining = [] then
        pure ()
      else if toSkip ≥ x.len then
        walkExtents gm xs (toSkip - x.len)
      else do
        let take := min (x.len - toSkip).toNat b.remaining.length
        let gpa ← Exec.lift (okOr .outOfBounds (Word.checkedAdd x.gpa toSkip))
        let chunk ← Exec.lift ((gm.read gpa.toNat take).mapErr .mem)
        Exec.set { filled := b.filled ++ chunk, remaining := b.remaining.drop take }
        walkExtents gm xs 0

/-- Fill the buffer with the bytes of a region from an offset on. -/
def readRegion (dbg : Bool) (gm : GuestMem) (base : PageBase) (name : Bytes) (offset : UInt64) :
    Exec ReadBuf RegionReadError Unit := do
  let manifest ← Exec.lift ((readManifest dbg gm base).mapErr .wire)
  let region ← Exec.lift (okOr .nameNotFound (manifest.resolve name))
  let b ← Exec.get
  let want := b.remaining.length
  Exec.failIf (offset.toNat + want ≥ 2 ^ 64) .outOfBounds
  Exec.failIf (offset.toNat + want > region.len.toNat) .outOfBounds
  let covered ← Exec.lift (okOr .outOfBounds (coveredLen region.extents))
  Exec.failIf (covered < region.len) .outOfBounds
  walkExtents gm region.extents offset
  let b ← Exec.get
  Exec.debugAssert dbg (b.remaining = [])

/-! ### What a snapshot holds -/

/-- The manifest in memory. -/
def manifestOf (m : ByteMem) : RegionManifest :=
  { header := ManifestHeader.ofMem m
    entries := (List.range regionCapacity).map (RegionEntry.ofMem m)
    extents := (List.range (ManifestHeader.ofMem m).extentCount.toNat).map (Extent.ofMem m) }

/-- What the host checks of a manifest. -/
structure ManifestOk (m : ByteMem) : Prop where
  valid : (ManifestHeader.ofMem m).validate = .ok ()
  inside : ∀ i < regionCapacity, (RegionEntry.ofMem m i).isLive →
    (RegionEntry.ofMem m i).extentOff.toNat + (RegionEntry.ofMem m i).extentN.toNat
      ≤ (ManifestHeader.ofMem m).extentCount.toNat

theorem readSlots_eq {ε α : Type} {f : Nat → Res ε α} {g : Nat → α} {i n : Nat}
    (h : ∀ k, i ≤ k → k < i + n → f k = .ok (g k)) :
  readSlots f i n = .ok ((List.range' i n).map g)
  := by
  induction n generalizing i with
  | zero => rfl
  | succ n ih =>
      rw [readSlots, h i (Nat.le_refl i) (by omega), Res.ok_bind,
        ih fun k hlo hhi => h k (by omega) (by omega)]
      rfl

theorem readFrom_entry {area : Slice} (hlen : area.len = manifestTotalSize) {i : Nat}
    (hi : i < regionCapacity) :
  RegionEntry.readFrom area i = .ok (RegionEntry.ofMem area.mem i)
  := by
  have hend : ¬ area.len < RegionEntry.offset i + regionEntrySize := by
    simp only [hlen, RegionEntry.offset, manifestTotalSize, offExtents, regionEntrySize,
      regionCapacity, offEntries, extentCapacity, extentSize] at *
    omega
  rw [RegionEntry.readFrom, Res.failIf_of_not (Nat.not_le.mpr hi), Res.ok_bind,
    Res.failIf_of_not hend]
  rfl

theorem readFrom_extent {area : Slice} (hlen : area.len = manifestTotalSize) {i : Nat}
    (hi : i < extentCapacity) :
  Extent.readFrom area i = .ok (Extent.ofMem area.mem i)
  := by
  have hend : ¬ area.len < Extent.offset i + extentSize := by
    simp only [hlen, Extent.offset, manifestTotalSize, extentCapacity, extentSize] at *
    omega
  rw [Extent.readFrom, Res.failIf_of_not (Nat.not_le.mpr hi), Res.ok_bind, Res.failIf_of_not hend]
  rfl

theorem validateExtents_eq_ok {e : RegionEntry} {hdr : ManifestHeader} :
  e.validateExtents hdr = .ok () ↔ e.extentOff.toNat + e.extentN.toNat ≤ hdr.extentCount.toNat
  := by
  rw [RegionEntry.validateExtents, Res.failIf_eq_ok, not_not]

/-- A copy of the manifest area is accepted exactly when it passes the checks; then the snapshot
is what the area holds. -/
theorem parseManifest_eq_ok (dbg : Bool) {area : Slice} (hlen : area.len = manifestTotalSize)
    {m : RegionManifest} :
  parseManifest dbg area = .ok m ↔ ManifestOk area.mem ∧ m = manifestOf area.mem
  := by
  have hshort : ¬ area.len < offEntries := by
    rw [hlen]
    decide
  have hentries : readSlots (RegionEntry.readFrom area) 0 regionCapacity
      = .ok ((List.range regionCapacity).map (RegionEntry.ofMem area.mem)) := by
    rw [readSlots_eq fun k _ hk => readFrom_entry hlen (by simpa using hk), List.range_eq_range']
  have hextents : (ManifestHeader.ofMem area.mem).extentCount.toNat ≤ extentCapacity →
      readSlots (Extent.readFrom area) 0 (ManifestHeader.ofMem area.mem).extentCount.toNat
        = .ok (manifestOf area.mem).extents := by
    intro hcount
    rw [readSlots_eq fun k _ hk => readFrom_extent hlen (by omega)]
    dsimp only [manifestOf]
    rw [List.range_eq_range']
  have hdebug : (ManifestHeader.ofMem area.mem).extentCount.toNat ≤ extentCapacity →
      (Res.debugAssert dbg ((ManifestHeader.ofMem area.mem).extentCount.toNat ≤ extentCapacity) :
        Res DecodeError Unit) = .ok () :=
    fun hcount => if_neg fun h => h.2 hcount
  have hlive : (∀ e ∈ (manifestOf area.mem).entries.filter RegionEntry.isLive,
        e.validateExtents (ManifestHeader.ofMem area.mem) = .ok ()) ↔
      ∀ i < regionCapacity, (RegionEntry.ofMem area.mem i).isLive →
        (RegionEntry.ofMem area.mem i).extentOff.toNat + (RegionEntry.ofMem area.mem i).extentN.toNat
          ≤ (ManifestHeader.ofMem area.mem).extentCount.toNat := by
    simp only [manifestOf, List.mem_filter, List.mem_map, List.mem_range, validateExtents_eq_ok]
    constructor
    · intro h i hi hl
      apply h _ ⟨⟨i, hi, rfl⟩, hl⟩
    · rintro h e ⟨⟨i, hi, rfl⟩, hl⟩
      apply h i hi hl
  rw [parseManifest, ManifestHeader.readFrom, Res.failIf_of_not hshort, Res.ok_bind, Res.pure_eq,
    Res.ok_bind, Res.seq_eq_ok, hentries, Res.ok_bind]
  constructor
  · rintro ⟨hvalid, hrest⟩
    have hcount := (ManifestHeader.validate_eq_ok.mp hvalid).2.2.2.2
    dsimp only at hrest
    rw [hdebug hcount, Res.ok_bind, hextents hcount, Res.ok_bind, Res.seq_eq_ok,
      Res.forIn_eq_ok] at hrest
    exact ⟨⟨hvalid, hlive.mp hrest.1⟩, (Res.ok.inj hrest.2).symm⟩
  · rintro ⟨⟨hvalid, hinside⟩, rfl⟩
    have hcount := (ManifestHeader.validate_eq_ok.mp hvalid).2.2.2.2
    refine ⟨hvalid, ?_⟩
    dsimp only
    rw [hdebug hcount, Res.ok_bind, hextents hcount, Res.ok_bind, Res.seq_eq_ok, Res.forIn_eq_ok]
    exact ⟨hlive.mpr hinside, rfl⟩

/-- The header, the entries and the extents lie in the manifest area. -/
theorem ofMem_area {m m' : ByteMem} (h : ∀ i < manifestTotalSize, m i = m' i) :
  ManifestHeader.ofMem m = ManifestHeader.ofMem m' ∧
    (∀ i < regionCapacity, RegionEntry.ofMem m i = RegionEntry.ofMem m' i) ∧
    ∀ i < extentCapacity, Extent.ofMem m i = Extent.ofMem m' i
  := by
  refine ⟨?_, fun i hi => ?_, fun i hi => ?_⟩
  · apply ManifestHeader.ofMem_congr
    intro i hi
    apply h
    exact Nat.lt_trans hi (by decide)
  · apply RegionEntry.ofMem_congr
    intro j hj
    apply h
    simp only [RegionEntry.offset, manifestTotalSize, offExtents, regionEntrySize, regionCapacity,
      offEntries, extentCapacity, extentSize] at *
    omega
  · have hread : ∀ lo, lo ≤ 8 → m.read (Extent.offset i + lo) 8 = m'.read (Extent.offset i + lo) 8 := by
      intro lo hlo
      apply ByteMem.read_congr
      intro j hj
      apply h
      simp only [Extent.offset, manifestTotalSize, extentCapacity, extentSize] at *
      omega
    rw [Extent.ofMem, Extent.ofMem, ByteMem.u64, ByteMem.u64, ByteMem.u64, ByteMem.u64,
      ← Nat.add_zero (Extent.offset i), hread 0 (by omega), Nat.add_zero, hread 8 (by omega)]

theorem manifestOf_congr {m m' : ByteMem} (h : ∀ i < manifestTotalSize, m i = m' i)
    (hr : ManifestOk m) :
  ManifestOk m' ∧ manifestOf m = manifestOf m'
  := by
  obtain ⟨hheader, hentries, hextents⟩ := ofMem_area h
  have hcount := (ManifestHeader.validate_eq_ok.mp hr.valid).2.2.2.2
  constructor
  · constructor
    · rw [← hheader]
      exact hr.valid
    · intro i hi
      rw [← hheader, ← hentries i hi]
      exact hr.inside i hi
  · have hes : (List.range regionCapacity).map (RegionEntry.ofMem m)
        = (List.range regionCapacity).map (RegionEntry.ofMem m') := by
      apply List.map_congr_left
      intro i hi
      apply hentries i (List.mem_range.mp hi)
    have hxs : (List.range (ManifestHeader.ofMem m).extentCount.toNat).map (Extent.ofMem m)
        = (List.range (ManifestHeader.ofMem m).extentCount.toNat).map (Extent.ofMem m') := by
      apply List.map_congr_left
      intro i hi
      apply hextents i (Nat.lt_of_lt_of_le (List.mem_range.mp hi) hcount)
    rw [manifestOf, manifestOf, ← hheader, hes, hxs]

/-- The generation is read where it can be. -/
theorem readU64_generation {gm : GuestMem} {base : PageBase}
    (hgen : gm.readErr (base.gpa + (offManifest + offGeneration)) 8 = none) :
  gm.readU64 (base.gpa + (offManifest + offGeneration))
    = .ok (ManifestHeader.ofMem (gm.bytes.view (base.gpa + offManifest))).generation
  := by
  rw [GuestMem.readU64, GuestMem.read, hgen, Res.ok_bind, Res.pure_eq, ← Nat.add_assoc]
  dsimp only [ManifestHeader.ofMem, ByteMem.u64]
  rw [ByteMem.read_view]
  rfl

/-- Where the generation is even, an area that cannot be read has no snapshot. -/
theorem readManifest_of_refused {dbg : Bool} {gm : GuestMem} {base : PageBase} {e : MemError}
    (hgen : gm.readErr (base.gpa + (offManifest + offGeneration)) 8 = none)
    (harea : gm.readErr (base.gpa + offManifest) manifestTotalSize = some e)
    (heven : (ManifestHeader.ofMem (gm.bytes.view (base.gpa + offManifest))).generation % 2 = 0) :
  readManifest dbg gm base = .err (.mem e)
  := by
  have hcopy : gm.read (base.gpa + offManifest) manifestTotalSize = .err e := by
    rw [GuestMem.read, harea]
  rw [readManifest, seqlockRetries, retryManifest, readAttempt, readU64_generation hgen, hcopy]
  dsimp only [Res.mapErr]
  rw [Res.ok_bind, if_neg (not_not.mpr heven)]
  rfl

/-- Where the manifest can be read and no write is open, the snapshot is what the memory holds. -/
theorem readManifest_of_ok {dbg : Bool} {gm : GuestMem} {base : PageBase}
    (hgen : gm.readErr (base.gpa + (offManifest + offGeneration)) 8 = none)
    (harea : gm.readErr (base.gpa + offManifest) manifestTotalSize = none)
    {m : ByteMem} (hm : m = gm.bytes.view (base.gpa + offManifest))
    (heven : (ManifestHeader.ofMem m).generation % 2 = 0) (hr : ManifestOk m) :
  readManifest dbg gm base = .ok (manifestOf m)
  := by
  have hgeneration : gm.readU64 (base.gpa + (offManifest + offGeneration))
      = .ok (ManifestHeader.ofMem m).generation := by
    rw [hm]
    exact readU64_generation hgen
  have hcopy : gm.read (base.gpa + offManifest) manifestTotalSize
      = .ok (gm.bytes.read (base.gpa + offManifest) manifestTotalSize) := by
    rw [GuestMem.read, harea]
  have hagree : ∀ i < manifestTotalSize, m i
      = (Slice.ofBytes (gm.bytes.read (base.gpa + offManifest) manifestTotalSize)).mem i := by
    intro i hi
    rw [Slice.ofBytes_read_mem hi, hm]
    rfl
  obtain ⟨hr', hsame⟩ := manifestOf_congr hagree hr
  have hparse := (parseManifest_eq_ok dbg (ByteMem.length_read ..)).mpr ⟨hr', rfl⟩
  have hodd : ¬ (ManifestHeader.ofMem m).generation % 2 ≠ 0 := fun h => h heven
  rw [readManifest, seqlockRetries, retryManifest, readAttempt, hgeneration, hcopy]
  dsimp only [Res.mapErr]
  rw [Res.ok_bind, if_neg hodd, Res.ok_bind, Res.ok_bind, if_neg (fun h => h rfl), hparse, hsame]
  rfl

/-! ### Filling a buffer -/

section Fill

variable {gm : GuestMem}

/-- A piece of a reading that starts in the address space and can be read. -/
def PieceOk (gm : GuestMem) (p : Run) : Prop :=
  p.first < 2 ^ 64 ∧ gm.readErr p.first p.len = none

/-- The bytes of the pieces, one behind the other. -/
def piecesBytes (gm : GuestMem) (ps : List Run) : Bytes :=
  ps.flatMap fun p => gm.bytes.read p.first p.len

/-- A walk over an extent that reaches behind the skipped bytes. -/
theorem run_walkExtents_cons {x : Extent} {xs : List Extent} {toSkip : UInt64} {b : ReadBuf}
    (hrest : b.remaining ≠ []) (hlt : ¬ x.len.toNat ≤ toSkip.toNat) {take : Nat}
    (htake : take = min (x.len.toNat - toSkip.toNat) b.remaining.length) :
  (walkExtents gm (x :: xs) toSkip).run b
    = if x.gpa.toNat + toSkip.toNat < 2 ^ 64 then
        match gm.readErr (x.gpa.toNat + toSkip.toNat) take with
        | some e => (b, .err (.mem e))
        | none =>
            (walkExtents gm xs 0).run
              { filled := b.filled ++ gm.bytes.read (x.gpa.toNat + toSkip.toNat) take
                remaining := b.remaining.drop take }
      else (b, .err .outOfBounds)
  := by
  have hge : ¬ toSkip ≥ x.len := by
    rw [ge_iff_le, UInt64.le_iff_toNat_le]
    exact hlt
  have hsub : (x.len - toSkip).toNat = x.len.toNat - toSkip.toNat := by
    rw [UInt64.toNat_sub_of_le _ _ (UInt64.le_iff_toNat_le.mpr (by omega))]
  rw [walkExtents, Exec.run_bind_of_ok (Exec.run_get b), if_neg hrest, if_neg hge, hsub, ← htake]
  by_cases hfits : x.gpa.toNat + toSkip.toNat < 2 ^ 64
  · rw [if_pos hfits]
    cases hadd : Word.checkedAdd x.gpa toSkip with
    | none =>
        rw [Word.checkedAdd_eq_none] at hadd
        omega
    | some gpa =>
        rw [Word.checkedAdd_eq_some] at hadd
        dsimp only [okOr]
        rw [Exec.run_bind_of_ok (Exec.run_lift _ b), hadd, GuestMem.read]
        cases gm.readErr (x.gpa.toNat + toSkip.toNat) take with
        | some e =>
            dsimp only [Res.mapErr]
            rw [Exec.run_bind_of_err (Exec.run_lift _ b)]
        | none =>
            dsimp only [Res.mapErr]
            rw [Exec.run_bind_of_ok (Exec.run_lift _ b), Exec.run_bind_of_ok (Exec.run_set b _)]
  · rw [if_neg hfits, Word.checkedAdd_eq_none.mpr (by omega)]
    dsimp only [okOr]
    rw [Exec.run_bind_of_err (Exec.run_lift _ b)]

/-- A walk whose pieces can all be read fills the buffer with them. -/
theorem run_walkExtents_of_ok {xs : List Extent} {toSkip : UInt64} {b : ReadBuf}
    (h : ∀ p ∈ Runs.slice (runsOf xs) toSkip.toNat b.remaining.length, PieceOk gm p) :
  (walkExtents gm xs toSkip).run b
    = ({ filled := b.filled
            ++ piecesBytes gm (Runs.slice (runsOf xs) toSkip.toNat b.remaining.length)
         remaining := b.remaining.drop
            (Runs.total (Runs.slice (runsOf xs) toSkip.toNat b.remaining.length)) }, .ok ())
  := by
  induction xs generalizing toSkip b with
  | nil => simp [walkExtents, runsOf, Runs.slice, piecesBytes]
  | cons x xs ih =>
      have hruns : runsOf (x :: xs) = x.run :: runsOf xs := rfl
      by_cases hrest : b.remaining = []
      · obtain ⟨filled, remaining⟩ := b
        dsimp only at hrest
        subst hrest
        rw [walkExtents, Exec.run_bind_of_ok (Exec.run_get _), if_pos rfl]
        simp [piecesBytes]
      have hwant : b.remaining.length ≠ 0 := by simpa using hrest
      rw [hruns, Runs.slice, if_neg hwant] at h ⊢
      by_cases hskip : x.run.len ≤ toSkip.toNat
      · have hge : toSkip ≥ x.len := UInt64.le_iff_toNat_le.mpr hskip
        have hsub : (toSkip - x.len).toNat = toSkip.toNat - x.run.len :=
          UInt64.toNat_sub_of_le _ _ hge
        rw [if_pos hskip] at h ⊢
        rw [walkExtents, Exec.run_bind_of_ok (Exec.run_get b), if_neg hrest, if_pos hge, ← hsub,
          ih (by rwa [hsub])]
      · rw [if_neg hskip] at h ⊢
        obtain ⟨hfits, hread⟩ := h _ (List.mem_cons_self ..)
        dsimp only [Extent.run] at hfits hread hskip
        rw [run_walkExtents_cons hrest hskip rfl, if_pos hfits, hread]
        dsimp only [Extent.run] at h ⊢
        rw [ih (by
          intro p hp
          apply h p
          simp only [UInt64.toNat_zero, List.length_drop] at hp
          simp [hp])]
        simp only [UInt64.toNat_zero, List.length_drop, List.drop_drop, Runs.total_cons,
          piecesBytes, List.flatMap_cons, List.append_assoc]

/-- A walk one of whose pieces cannot be read ends in an error. -/
theorem run_walkExtents_of_bad {xs : List Extent} {toSkip : UInt64} {b : ReadBuf} {p : Run}
    (hp : p ∈ Runs.slice (runsOf xs) toSkip.toNat b.remaining.length) (hbad : ¬ PieceOk gm p) :
  ∃ e, ((walkExtents gm xs toSkip).run b).2 = .err e
  := by
  induction xs generalizing toSkip b with
  | nil => cases hp
  | cons x xs ih =>
      have hruns : runsOf (x :: xs) = x.run :: runsOf xs := rfl
      by_cases hrest : b.remaining = []
      · simp [hrest] at hp
      have hwant : b.remaining.length ≠ 0 := by simpa using hrest
      rw [hruns, Runs.slice, if_neg hwant] at hp
      by_cases hskip : x.run.len ≤ toSkip.toNat
      · have hge : toSkip ≥ x.len := UInt64.le_iff_toNat_le.mpr hskip
        have hsub : (toSkip - x.len).toNat = toSkip.toNat - x.run.len :=
          UInt64.toNat_sub_of_le _ _ hge
        rw [if_pos hskip, ← hsub] at hp
        rw [walkExtents, Exec.run_bind_of_ok (Exec.run_get b), if_neg hrest, if_pos hge]
        apply ih hp
      · rw [if_neg hskip] at hp
        rw [run_walkExtents_cons hrest hskip rfl]
        split
        · next hfits =>
          cases hread : gm.readErr (x.gpa.toNat + toSkip.toNat)
              (min (x.len.toNat - toSkip.toNat) b.remaining.length) with
          | some e => exact ⟨_, rfl⟩
          | none =>
              rcases List.mem_cons.mp hp with rfl | hp
              · exact absurd ⟨hfits, hread⟩ hbad
              · apply ih
                simp only [UInt64.toNat_zero, List.length_drop]
                exact hp
        · exact ⟨_, rfl⟩

/-- The lengths of extents add up where their sum fits. -/
theorem coveredLen_eq_some {xs : List Extent} {c : UInt64} :
  coveredLen xs = some c ↔ c.toNat = Runs.total (runsOf xs)
  := by
  have hfold : ∀ a : UInt64, xs.foldlM (fun a x => Word.checkedAdd a x.len) a = some c ↔
      c.toNat = a.toNat + Runs.total (runsOf xs) := by
    induction xs with
    | nil =>
        intro a
        simp [runsOf, UInt64.toNat_inj, eq_comm]
    | cons x xs ih =>
        intro a
        have htotal : Runs.total (runsOf (x :: xs)) = x.len.toNat + Runs.total (runsOf xs) :=
          Runs.total_cons _ _
        rw [List.foldlM_cons, htotal]
        cases hadd : Word.checkedAdd a x.len with
        | none =>
            have hc := UInt64.toNat_lt c
            rw [Word.checkedAdd_eq_none] at hadd
            simp only [Option.bind_eq_bind, Option.bind_none, reduceCtorEq, false_iff]
            omega
        | some b =>
            rw [Word.checkedAdd_eq_some] at hadd
            simp only [Option.bind_eq_bind, Option.bind_some]
            rw [ih, hadd, Nat.add_assoc]
  rw [coveredLen, hfold, UInt64.toNat_zero, Nat.zero_add]

theorem length_piecesBytes (ps : List Run) :
  (piecesBytes gm ps).length = Runs.total ps
  := by
  induction ps with
  | nil => rfl
  | cons p ps ih =>
      rw [piecesBytes, List.flatMap_cons, List.length_append, ByteMem.length_read, ← piecesBytes,
        ih, Runs.total_cons]

/-- The bytes of the pieces are those at the numbers of the pieces. -/
theorem getElem?_piecesBytes (ps : List Run) (i : Nat) :
  (piecesBytes gm ps)[i]? = (Runs.addr ps i).map gm.bytes
  := by
  induction ps generalizing i with
  | nil => rfl
  | cons p ps ih =>
      rw [piecesBytes, List.flatMap_cons, ← piecesBytes, Runs.addr, List.getElem?_append,
        ByteMem.length_read]
      by_cases hi : i < p.len
      · rw [if_pos hi, if_pos hi, ByteMem.getElem?_read, if_pos hi]
        rfl
      · rw [if_neg hi, if_neg hi, ih]

end Fill

/-- What a reading of a region needs. -/
structure RegionOk (gm : GuestMem) (region : ResolvedRegion) (offset : UInt64) (want : Nat) :
    Prop where
  fits : offset.toNat + want < 2 ^ 64
  inside : offset.toNat + want ≤ region.len.toNat
  summable : Runs.total (runsOf region.extents) < 2 ^ 64
  covered : region.len.toNat ≤ Runs.total (runsOf region.extents)
  pieces : ∀ p ∈ Runs.slice (runsOf region.extents) offset.toNat want, PieceOk gm p

section Region

variable {gm : GuestMem} {base : PageBase} {dbg : Bool} {manifest : RegionManifest}

/-- A reading of a region that is found, inside of it and of its extents. -/
theorem run_readRegion_of_ok (hm : readManifest dbg gm base = .ok manifest) {name : Bytes}
    {offset : UInt64} {buf : Bytes} {region : ResolvedRegion}
    (hname : manifest.resolve name = some region) (hok : RegionOk gm region offset buf.length) :
  (readRegion dbg gm base name offset).run { filled := [], remaining := buf }
    = ({ filled := piecesBytes gm
            (Runs.slice (runsOf region.extents) offset.toNat buf.length)
         remaining := [] }, .ok ())
  := by
  obtain ⟨hfits, hinside, hsum, hcov, hpieces⟩ := hok
  have htotal : Runs.total (Runs.slice (runsOf region.extents) offset.toNat buf.length)
      = buf.length := Runs.total_slice (by omega)
  have hwalk := run_walkExtents_of_ok (b := { filled := [], remaining := buf }) hpieces
  dsimp only at hwalk
  rw [htotal, List.drop_length, List.nil_append] at hwalk
  obtain ⟨c, hc⟩ : ∃ c, coveredLen region.extents = some c := by
    refine ⟨UInt64.ofNat (Runs.total (runsOf region.extents)), ?_⟩
    rw [coveredLen_eq_some, UInt64.toNat_ofNat_of_lt' hsum]
  have hle : ¬ c < region.len := by
    rw [UInt64.lt_iff_toNat_lt, coveredLen_eq_some.mp hc]
    omega
  rw [readRegion, hm]
  dsimp only [Res.mapErr]
  rw [Exec.run_bind_of_ok (Exec.run_lift _ _), hname]
  dsimp only [okOr]
  rw [Exec.run_bind_of_ok (Exec.run_lift _ _), Exec.run_bind_of_ok (Exec.run_get _)]
  dsimp only
  rw [Exec.run_bind_of_ok (Exec.run_failIf_of_not (by omega) _),
    Exec.run_bind_of_ok (Exec.run_failIf_of_not (by omega) _), hc]
  dsimp only
  rw [Exec.run_bind_of_ok (Exec.run_lift _ _), Exec.run_bind_of_ok (Exec.run_failIf_of_not hle _),
    Exec.run_bind_of_ok hwalk, Exec.run_bind_of_ok (Exec.run_get _),
    Exec.run_debugAssert_of rfl]

/-- A reading of a region that is found ends in an error when it is not inside of the region or of
its extents. -/
theorem run_readRegion_of_bad (hm : readManifest dbg gm base = .ok manifest) {name : Bytes}
    {offset : UInt64} {buf : Bytes} {region : ResolvedRegion}
    (hname : manifest.resolve name = some region) (hbad : ¬ RegionOk gm region offset buf.length) :
  ∃ e, ((readRegion dbg gm base name offset).run { filled := [], remaining := buf }).2 = .err e
  := by
  rw [readRegion, hm]
  dsimp only [Res.mapErr]
  rw [Exec.run_bind_of_ok (Exec.run_lift _ _), hname]
  dsimp only [okOr]
  rw [Exec.run_bind_of_ok (Exec.run_lift _ _), Exec.run_bind_of_ok (Exec.run_get _)]
  dsimp only
  by_cases hfits : offset.toNat + buf.length ≥ 2 ^ 64
  · rw [Exec.run_bind_of_err (Exec.run_failIf_of hfits _)]
    exact ⟨_, rfl⟩
  rw [Exec.run_bind_of_ok (Exec.run_failIf_of_not hfits _)]
  by_cases hinside : offset.toNat + buf.length > region.len.toNat
  · rw [Exec.run_bind_of_err (Exec.run_failIf_of hinside _)]
    exact ⟨_, rfl⟩
  rw [Exec.run_bind_of_ok (Exec.run_failIf_of_not hinside _)]
  cases hc : coveredLen region.extents with
  | none =>
      dsimp only
      rw [Exec.run_bind_of_err (Exec.run_lift _ _)]
      exact ⟨_, rfl⟩
  | some c =>
  have hsum := coveredLen_eq_some.mp hc
  have hlt := UInt64.toNat_lt c
  dsimp only
  rw [Exec.run_bind_of_ok (Exec.run_lift _ _)]
  by_cases hcov : c < region.len
  · rw [Exec.run_bind_of_err (Exec.run_failIf_of hcov _)]
    exact ⟨_, rfl⟩
  rw [Exec.run_bind_of_ok (Exec.run_failIf_of_not hcov _)]
  rw [UInt64.lt_iff_toNat_lt, hsum] at hcov
  obtain ⟨p, hp, hpbad⟩ : ∃ p ∈ Runs.slice (runsOf region.extents) offset.toNat buf.length,
      ¬ PieceOk gm p := by
    by_contra hall
    push Not at hall
    exact hbad ⟨by omega, by omega, by omega, by omega, hall⟩
  obtain ⟨e, he⟩ := run_walkExtents_of_bad (b := { filled := [], remaining := buf }) hp hpbad
  use e
  rw [Exec.run_bind_of_err (Prod.ext rfl he)]

/-- A reading of a name that is not found. -/
theorem run_readRegion_of_none (hm : readManifest dbg gm base = .ok manifest) {name : Bytes}
    (offset : UInt64) {b : ReadBuf} (hname : manifest.resolve name = none) :
  (readRegion dbg gm base name offset).run b = (b, .err .nameNotFound)
  := by
  rw [readRegion, hm]
  dsimp only [Res.mapErr]
  rw [Exec.run_bind_of_ok (Exec.run_lift _ _), hname]
  dsimp only [okOr]
  rw [Exec.run_bind_of_err (Exec.run_lift _ _)]

/-- Over any manifest that the host accepts, reading a region returns.  It succeeds exactly when
the name resolves, the range lies inside the region, the extents cover the region and each piece
can be read.  Then the pieces have filled the buffer from its start to its end, with the bytes at
the addresses of the extents. -/
theorem readRegion_reads (dbg : Bool) (gm : GuestMem) (base : PageBase) (manifest : RegionManifest)
    (hm : readManifest dbg gm base = .ok manifest) (name : Bytes) (offset : UInt64) (buf : Bytes) :
  let out := (readRegion dbg gm base name offset).run { filled := [], remaining := buf }
  out.2 ≠ .panic ∧
  (out.2 = .ok () ↔ ∃ region, manifest.resolve name = some region ∧
    RegionOk gm region offset buf.length) ∧
  (out.2 = .ok () → ∀ region, manifest.resolve name = some region →
    out.1.remaining = [] ∧ out.1.filled.length = buf.length ∧
    out.1.filled = piecesBytes gm
      (Runs.slice (runsOf region.extents) offset.toNat buf.length) ∧
    ∀ k < buf.length, ∃ a, Runs.addr (runsOf region.extents) (offset.toNat + k) = some a ∧
      out.1.filled[k]? = some (gm.bytes a))
  := by
  intro out
  cases hname : manifest.resolve name with
  | none =>
      have hrun := run_readRegion_of_none hm offset
        (b := { filled := [], remaining := buf }) hname
      have hout : out = _ := hrun
      rw [hout]
      simp
  | some region =>
      by_cases hok : RegionOk gm region offset buf.length
      · have hout : out = _ := run_readRegion_of_ok hm hname hok
        have htotal : Runs.total (Runs.slice (runsOf region.extents) offset.toNat buf.length)
            = buf.length := by
          apply Runs.total_slice
          have hinside := hok.inside
          have hcov := hok.covered
          omega
        rw [hout]
        refine ⟨by simp, ⟨fun _ => ⟨region, rfl, hok⟩, fun _ => rfl⟩, fun _ region' heq => ?_⟩
        obtain rfl := Option.some.inj heq
        refine ⟨rfl, by rw [length_piecesBytes, htotal], rfl, fun k hk => ?_⟩
        obtain ⟨a, ha⟩ : ∃ a, Runs.addr (runsOf region.extents) (offset.toNat + k) = some a := by
          rw [← Option.isSome_iff_exists, Runs.isSome_addr]
          have hinside := hok.inside
          have hcov := hok.covered
          omega
        refine ⟨a, ha, ?_⟩
        rw [getElem?_piecesBytes, Runs.addr_slice, if_pos hk, ha]
        rfl
      · obtain ⟨e, he⟩ := run_readRegion_of_bad hm hname hok
        have hout : out.2 = .err e := he
        rw [hout]
        refine ⟨by simp, ⟨(nomatch ·), ?_⟩, (nomatch ·)⟩
        rintro ⟨region', heq, hok'⟩
        obtain rfl := Option.some.inj heq
        exact absurd hok' hok

end Region

/-! ### An empty manifest -/

/-- The header of an empty manifest. -/
def emptyHeader : ManifestHeader :=
  { magic := manifestMagic
    manifestVersion := Wire.manifestVersion
    regionCapacity := UInt16.ofNat Wire.regionCapacity
    generation := 0
    regionCount := 0
    extentCount := 0 }

/-- Guest memory that refuses nothing, with an empty manifest in the channel page at address
zero. -/
def emptyManifestMem : GuestMem :=
  { bytes := fun i =>
      (ByteMem.write (fun _ => 0) 0 emptyHeader.fields.flatten) (i - offManifest)
    readErr := fun _ _ => none
    writeErr := fun _ _ => none }

/-- The area of an empty manifest passes the checks. -/
theorem manifestOk_empty :
  ManifestOk (ByteMem.write (fun _ => 0) 0 emptyHeader.fields.flatten)
  := by
  have hheader := ManifestHeader.ofMem_write (fun _ => 0) emptyHeader
  have hzero : ∀ i, (RegionEntry.ofMem (ByteMem.write (fun _ => 0) 0 emptyHeader.fields.flatten) i)
      = RegionEntry.ofMem (fun _ => 0) i := by
    intro i
    apply RegionEntry.ofMem_write_beside
    right
    rw [ManifestHeader.length_fields, RegionEntry.offset, Nat.zero_add]
    apply Nat.le_add_right
  refine ⟨?_, ?_⟩
  · rw [hheader]
    decide
  · intro i _ _
    rw [hheader, hzero]
    exact Nat.zero_le _

theorem readManifest_empty (dbg : Bool) :
  ∃ manifest, readManifest dbg emptyManifestMem { gpa := 0, fits := by decide } = .ok manifest
  := by
  have hview : ByteMem.write (fun _ => 0) 0 emptyHeader.fields.flatten
      = emptyManifestMem.bytes.view (0 + offManifest) := by
    funext i
    rw [ByteMem.view, emptyManifestMem, Nat.zero_add]
    dsimp only
    rw [Nat.add_sub_cancel_left]
  refine ⟨_, readManifest_of_ok rfl rfl hview ?_ manifestOk_empty⟩
  rw [ManifestHeader.ofMem_write]
  decide

/-! ### A region in two pieces -/

/-- The header of a manifest with one region. -/
def pairHeader : ManifestHeader :=
  { emptyHeader with generation := 2, regionCount := 1, extentCount := 2 }

/-- The entry of a page under the name `a`. -/
def pairEntry : RegionEntry :=
  { regionId := 0
    nameId := 1
    layoutVersion := 1
    flags := 0
    gva := 0x1000
    len := 0x1000
    extentOff := 0
    extentN := 2
    name := ⟨0x61 :: Bytes.zeros 55, by decide⟩ }

/-- The page as the host finds it. -/
def pairRegion : ResolvedRegion :=
  { regionId := 0
    layoutVersion := 1
    len := 0x1000
    flags := 0
    extents := [⟨0x200800, 0x800⟩, ⟨0x100000, 0x800⟩] }

/-- A zeroed area.  Behind it each byte tells its mebibyte. -/
def pairGround : ByteMem := fun i =>
  if i < manifestTotalSize then 0 else UInt8.ofNat ((i + offManifest) / 0x100000)

/-- The manifest area. -/
def pairArea : ByteMem :=
  ((pairGround.write 0 pairHeader.fields.flatten).write
      (RegionEntry.offset 0) pairEntry.fields.flatten).write
    offExtents (pairRegion.extents.map fun x => Bytes.ofU64 x.gpa ++ Bytes.ofU64 x.len).flatten

/-- Guest memory that refuses nothing, with the area in the channel page at address zero. -/
def pairMem : GuestMem :=
  { bytes := fun i => pairArea (i - offManifest)
    readErr := fun _ _ => none
    writeErr := fun _ _ => none }

/-- Only the first slot is written. -/
theorem ofMem_pairArea {i : Nat} (hi : i < regionCapacity) (hpos : 0 < i) :
  RegionEntry.ofMem pairArea i = RegionEntry.ofMem pairGround i
  := by
  have hentry : pairEntry.fields.flatten.length = regionEntrySize := RegionEntry.length_fields _
  have hheader : pairHeader.fields.flatten.length = offEntries := ManifestHeader.length_fields _
  simp only [regionCapacity, regionEntrySize, offEntries] at hi hentry hheader
  rw [pairArea, RegionEntry.ofMem_write_beside (Or.inl ?_),
    RegionEntry.ofMem_write_beside (Or.inr ?_), RegionEntry.ofMem_write_beside (Or.inr ?_)]
  all_goals
    simp only [RegionEntry.offset, offEntries, offExtents, regionCapacity, regionEntrySize, hentry,
      hheader]
    omega

theorem readManifest_pair (dbg : Bool) :
  readManifest dbg pairMem { gpa := 0, fits := by decide } = .ok (manifestOf pairArea)
  := by
  have hview : pairArea = pairMem.bytes.view (0 + offManifest) := by
    funext i
    rw [ByteMem.view, pairMem, Nat.zero_add]
    dsimp only
    rw [Nat.add_sub_cancel_left]
  have hground : ∀ i < regionCapacity, (RegionEntry.ofMem pairGround i).extentOff = 0 ∧
      (RegionEntry.ofMem pairGround i).extentN = 0 := by
    decide +kernel
  refine readManifest_of_ok rfl rfl hview (by decide +kernel) ⟨by decide +kernel, ?_⟩
  intro i hi _
  rcases Nat.eq_zero_or_pos i with rfl | hpos
  · decide +kernel
  · rw [ofMem_pairArea hi hpos, (hground i hi).1, (hground i hi).2]
    exact Nat.zero_le _

/-- Across its pieces the page is read from both of them. -/
theorem readRegion_reads_pair :
  let out := (readRegion true pairMem { gpa := 0, fits := by decide } [0x61] 0x7FE).run
    { filled := [], remaining := [0, 0, 0, 0] }
  out.2 = .ok () ∧ out.1.remaining = [] ∧ out.1.filled = [2, 2, 1, 1]
  := by
  have hresolve : (manifestOf pairArea).resolve [0x61] = some pairRegion := by decide +kernel
  have hok : RegionOk pairMem pairRegion 0x7FE 4 := by
    have hfirst : ∀ p ∈ Runs.slice (runsOf pairRegion.extents) 0x7FE 4, p.first < 2 ^ 64 := by
      decide
    exact ⟨by decide, by decide, by decide, by decide, fun p hp => ⟨hfirst p hp, rfl⟩⟩
  obtain ⟨_, hiff, hread⟩ := readRegion_reads true pairMem { gpa := 0, fits := by decide } _
    (readManifest_pair true) [0x61] 0x7FE [0, 0, 0, 0]
  have hout := hiff.mpr ⟨pairRegion, hresolve, hok⟩
  obtain ⟨hremaining, _, hfilled, _⟩ := hread hout pairRegion hresolve
  refine ⟨hout, hremaining, hfilled.trans ?_⟩
  decide +kernel

end Host
