import DetGuest.Lib.Bytes
import DetGuest.Lib.Hoare

/-!
# The game image

The agent reads the image of a game from a block device that has no register for its size: it
reads pages until the device refuses one, and then finds the end with reads of four, two and
one sectors.  The checksum of the stream is folded along.
-/

namespace Agent

namespace Pvblk

/-! ### The device -/

/-- The status of a read that is served. -/
def statusOk : UInt32 := 0

/-- The status of a read beyond the end. -/
def statusBadRequest : UInt32 := 1

/-- Bytes of a sector. -/
def sectorSize : Nat := 512

/-- Bytes of the page that the device reads into. -/
def dmaPageSize : Nat := 4096

/-- Sectors of a page. -/
def sectorsPerPage : Nat := dmaPageSize / sectorSize

/-- Greatest size of an image. -/
def maxGameBytes : Nat := 32 <<< 20

/-- The checksum of no bytes. -/
def checksumSeed : UInt64 := 0x70626C6B5F696F31

/-- Fold the bytes at an offset of the stream into a checksum. -/
def checksumFold (sum : UInt64) : Bytes → UInt64 → UInt64
  | [], _ => sum
  | byte :: bytes, streamOff =>
      checksumFold (UInt64.ofBitVec (sum.toBitVec.rotateLeft 5) ^^^ (byte.toUInt64 + streamOff))
        bytes (streamOff + 1)

/-- Access to a device: reads of sectors into a page, with their status, and the page. -/
structure PvBlkRegs (δ : Type) where
  readSectors : δ → Nat → Nat → δ × UInt32
  dma : δ → Bytes
  dma_length : ∀ d, (dma d).length = dmaPageSize

/-- A sink of bytes, which may refuse them. -/
structure Writer (ω : Type) where
  writeAll : ω → Bytes → ω × Except String Unit

/-- The sink that appends to a byte string. -/
def vecWriter : Writer Bytes where
  writeAll := fun out bytes => (out ++ bytes, .ok ())

/-! ### Reading the device -/

/-- Why the image cannot be read. -/
inductive ReadDeviceError where
  | write (sector : Nat) (e : String)
  | overCap
  | status (answer : UInt32) (sector count : Nat)
  | empty
  deriving DecidableEq, Repr

/-- The text of an error. -/
def ReadDeviceError.message : ReadDeviceError → String
  | .write sector e => s!"pv-blk: write game image at sector {sector}: {e}"
  | .overCap => s!"pv-blk: game image exceeds {maxGameBytes}-byte cap"
  | .status answer sector count =>
      s!"pv-blk: read status {answer} at sector {sector} (count {count})"
  | .empty => "pv-blk: game device is empty (0 sectors)"

/-- The device and the sink. -/
structure Reading (δ ω : Type) where
  regs : δ
  out : ω

section Reading

variable {δ ω : Type} (w : Writer ω) (regs : PvBlkRegs δ)

/-- Read sectors. -/
def readSectors (sector count : Nat) : Exec (Reading δ ω) ReadDeviceError UInt32 :=
  ⟨fun s => ({ s with regs := (regs.readSectors s.regs sector count).1 },
    .ok (regs.readSectors s.regs sector count).2)⟩

/-- Write bytes to the sink. -/
def writeAll (sector : Nat) (bytes : Bytes) : Exec (Reading δ ω) ReadDeviceError Unit :=
  ⟨fun s => ({ s with out := (w.writeAll s.out bytes).1 },
    match (w.writeAll s.out bytes).2 with
    | .ok () => .ok ()
    | .error e => .err (.write sector e))⟩

/-- Append the sectors in the page to the sink and to the checksum. -/
def append (sector count : Nat) (checksum : UInt64) :
    Exec (Reading δ ω) ReadDeviceError UInt64 := do
  let s ← Exec.get
  Exec.assert (count * sectorSize ≤ (regs.dma s.regs).length)
  let bytes := (regs.dma s.regs).take (count * sectorSize)
  writeAll w sector bytes
  pure (checksumFold checksum bytes (UInt64.ofNat (sector * sectorSize)))

/-- Read pages until the device refuses one: the sectors read, and their checksum. -/
def readPages (sector : Nat) (checksum : UInt64) :
    Exec (Reading δ ω) ReadDeviceError (Nat × UInt64) := do
  let status ← readSectors regs sector sectorsPerPage
  if status = statusOk then
    let checksum ← append w regs sector sectorsPerPage checksum
    if _ : (sector + sectorsPerPage) * sectorSize > maxGameBytes then
      Exec.fail .overCap
    else
      readPages (sector + sectorsPerPage) checksum
  else if status = statusBadRequest then
    pure (sector, checksum)
  else
    Exec.fail (.status status sector sectorsPerPage)
termination_by maxGameBytes - sector * sectorSize
decreasing_by
  rename_i hcap
  simp only [sectorsPerPage, dmaPageSize, sectorSize] at hcap ⊢
  omega

/-- Read the tail with ever fewer sectors. -/
def readTail : List Nat → Nat → UInt64 → Exec (Reading δ ω) ReadDeviceError (Nat × UInt64)
  | [], sector, checksum => pure (sector, checksum)
  | count :: counts, sector, checksum => do
      let status ← readSectors regs sector count
      if status = statusOk then
        let checksum ← append w regs sector count checksum
        readTail counts (sector + count) checksum
      else if status = statusBadRequest then
        readTail counts sector checksum
      else
        Exec.fail (.status status sector count)

/-- Read the whole device: the number of bytes, and their checksum. -/
def readDevice : Exec (Reading δ ω) ReadDeviceError (Nat × UInt64) := do
  let (sector, checksum) ← readPages w regs 0 checksumSeed
  let (sector, checksum) ← readTail w regs [4, 2, 1] sector checksum
  Exec.failIf (sector = 0) .empty
  pure (sector * sectorSize, checksum)

end Reading

/-! ### Statuses -/

section Statuses

variable {δ ω : Type} {w : Writer ω} {regs : PvBlkRegs δ}

section Projections

variable {δ' ω' : Type} {w' : Writer ω'} {regs' : PvBlkRegs δ'} {p : Reading δ' ω' → Reading δ ω}
  (hread : ∀ sector count,
    Exec.Projects p (readSectors regs' sector count) (readSectors regs sector count))
  (happend : ∀ sector count checksum,
    Exec.Projects p (append w' regs' sector count checksum) (append w regs sector count checksum))

include hread happend

theorem projects_readPages (sector : Nat) (checksum : UInt64) :
  Exec.Projects p (readPages w' regs' sector checksum) (readPages w regs sector checksum)
  := by
  induction sector, checksum using readPages.induct with
  | case1 sector checksum ih =>
      rw [readPages, readPages]
      apply (hread sector sectorsPerPage).bind
      intro status
      apply Exec.projects_ite
      · apply (happend sector sectorsPerPage checksum).bind
        intro checksum
        by_cases hcap : (sector + sectorsPerPage) * sectorSize > maxGameBytes
        · rw [dif_pos hcap, dif_pos hcap]
          apply Exec.projects_fail
        · rw [dif_neg hcap, dif_neg hcap]
          apply ih checksum hcap
      · apply Exec.projects_ite
        · apply Exec.projects_pure
        · apply Exec.projects_fail

theorem projects_readTail (counts : List Nat) (sector : Nat) (checksum : UInt64) :
  Exec.Projects p (readTail w' regs' counts sector checksum)
    (readTail w regs counts sector checksum)
  := by
  induction counts generalizing sector checksum with
  | nil => apply Exec.projects_pure
  | cons count counts ih =>
      rw [readTail, readTail]
      apply (hread sector count).bind
      intro status
      apply Exec.projects_ite
      · apply (happend sector count checksum).bind
        intro checksum
        apply ih
      · apply Exec.projects_ite
        · apply ih
        · apply Exec.projects_fail

/-- Where the reads and the appends do the same to a projection of the state, so does reading the
whole device. -/
theorem projects_device :
  Exec.Projects p (readDevice w' regs') (readDevice w regs)
  := by
  apply (projects_readPages hread happend 0 checksumSeed).bind
  rintro ⟨sector, checksum⟩
  apply (projects_readTail hread happend [4, 2, 1] sector checksum).bind
  rintro ⟨sector, checksum⟩
  apply Exec.Projects.bind
  · apply Exec.projects_ite
    · apply Exec.projects_fail
    · apply Exec.projects_pure
  · intro _
    apply Exec.projects_pure

end Projections

/-- The device with a record of the statuses that it answered. -/
def PvBlkRegs.recording (regs : PvBlkRegs δ) : PvBlkRegs (δ × List UInt32) where
  readSectors := fun d sector count =>
    (((regs.readSectors d.1 sector count).1, d.2 ++ [(regs.readSectors d.1 sector count).2]),
      (regs.readSectors d.1 sector count).2)
  dma := fun d => regs.dma d.1
  dma_length := fun d => regs.dma_length d.1

/-- The state without the record. -/
def Reading.forget (s : Reading (δ × List UInt32) ω) : Reading δ ω :=
  { regs := s.regs.1, out := s.out }

theorem projects_readSectors (sector count : Nat) :
  Exec.Projects (Reading.forget (ω := ω)) (readSectors regs.recording sector count)
    (readSectors regs sector count)
  := fun _ => rfl

theorem projects_append (sector count : Nat) (checksum : UInt64) :
  Exec.Projects (Reading.forget (ω := ω)) (append w regs.recording sector count checksum)
    (append w regs sector count checksum)
  := by
  intro s
  by_cases hlen : count * sectorSize ≤ (regs.dma s.regs.1).length
  · rcases hout : w.writeAll s.out ((regs.dma s.regs.1).take (count * sectorSize))
      with ⟨out, _ | ⟨⟩⟩
    · simp [append, writeAll, Reading.forget, PvBlkRegs.recording, Exec.assert, hlen, hout]
    · simp [append, writeAll, Reading.forget, PvBlkRegs.recording, Exec.assert, hlen, hout]
  · simp [append, writeAll, Reading.forget, PvBlkRegs.recording, Exec.assert, hlen]

variable (w regs) in
/-- Recording the statuses changes nothing else. -/
theorem projects_readDevice :
  Exec.Projects (Reading.forget (ω := ω)) (readDevice w regs.recording) (readDevice w regs)
  := projects_device projects_readSectors projects_append

/-- The device has answered nothing but that a read is served or beyond the end. -/
def Answered (s : Reading (δ × List UInt32) ω) : Prop :=
  ∀ status ∈ s.regs.2, status = statusOk ∨ status = statusBadRequest

/-- A read adds its status to the record. -/
theorem triple_readSectors (sector count : Nat) :
  Exec.Triple (Answered (ω := ω)) (readSectors regs.recording sector count)
    (fun status s => status = statusOk ∨ status = statusBadRequest → Answered s) (fun _ => True)
  := by
  intro s hs hstatus status hmem
  rcases List.mem_append.mp hmem with hold | hnew
  · exact hs status hold
  · rw [List.mem_singleton.mp hnew]
    exact hstatus

/-- Appending leaves the device alone. -/
theorem regs_append (sector count : Nat) (checksum : UInt64) (s : Reading δ ω) :
  ((append w regs sector count checksum).run s).1.regs = s.regs
  := by
  by_cases hlen : count * sectorSize ≤ (regs.dma s.regs).length
  · rcases hout : w.writeAll s.out ((regs.dma s.regs).take (count * sectorSize))
      with ⟨out, _ | ⟨⟩⟩
    · simp [append, writeAll, Exec.assert, hlen, hout]
    · simp [append, writeAll, Exec.assert, hlen, hout]
  · simp [append, Exec.assert, hlen]

theorem triple_append (sector count : Nat) (checksum : UInt64) :
  Exec.Triple (Answered (ω := ω)) (append w regs.recording sector count checksum)
    (fun _ => Answered) (fun _ => True)
  := by
  have halways : Exec.Triple (Answered (ω := ω)) (append w regs.recording sector count checksum)
      (fun _ => Answered) Answered := by
    apply Exec.triple_of_always
    intro s hs
    rw [Answered, regs_append]
    exact hs
  exact halways.conseq (fun _ h => h) (fun _ _ h => h) (fun _ _ => trivial)

theorem triple_readPages (sector : Nat) (checksum : UInt64) :
  Exec.Triple (Answered (ω := ω)) (readPages w regs.recording sector checksum)
    (fun _ => Answered) (fun _ => True)
  := by
  induction sector, checksum using readPages.induct with
  | case1 sector checksum ih =>
      rw [readPages]
      apply (triple_readSectors sector sectorsPerPage).bind
      intro status
      by_cases hok : status = statusOk
      · rw [if_pos hok]
        apply Exec.Triple.pre _ fun s hs => hs (.inl hok)
        apply (triple_append sector sectorsPerPage checksum).bind
        intro checksum
        by_cases hcap : (sector + sectorsPerPage) * sectorSize > maxGameBytes
        · rw [dif_pos hcap]
          apply Exec.triple_fail fun _ _ => trivial
        · rw [dif_neg hcap]
          apply ih checksum hcap
      · rw [if_neg hok]
        by_cases hbad : status = statusBadRequest
        · rw [if_pos hbad]
          apply Exec.triple_pure fun s hs => hs (.inr hbad)
        · rw [if_neg hbad]
          apply Exec.triple_fail fun _ _ => trivial

theorem triple_readTail (counts : List Nat) (sector : Nat) (checksum : UInt64) :
  Exec.Triple (Answered (ω := ω)) (readTail w regs.recording counts sector checksum)
    (fun _ => Answered) (fun _ => True)
  := by
  induction counts generalizing sector checksum with
  | nil => exact Exec.triple_pure fun _ hs => hs
  | cons count counts ih =>
      rw [readTail]
      apply (triple_readSectors sector count).bind
      intro status
      by_cases hok : status = statusOk
      · rw [if_pos hok]
        apply Exec.Triple.pre _ fun s hs => hs (.inl hok)
        apply (triple_append sector count checksum).bind
        intro checksum
        apply ih
      · rw [if_neg hok]
        by_cases hbad : status = statusBadRequest
        · rw [if_pos hbad]
          apply (ih sector checksum).pre fun s hs => hs (.inr hbad)
        · rw [if_neg hbad]
          apply Exec.triple_fail fun _ _ => trivial

variable (w regs) in
/-- When the whole device has been read, it has answered nothing but that a read is served or
beyond the end. -/
theorem triple_readDevice :
  Exec.Triple (Answered (ω := ω)) (readDevice w regs.recording) (fun _ => Answered)
    (fun _ => True)
  := by
  apply (triple_readPages 0 checksumSeed).bind
  rintro ⟨sector, checksum⟩
  apply (triple_readTail [4, 2, 1] sector checksum).bind
  rintro ⟨sector, checksum⟩
  apply Exec.Triple.bind (Q := fun _ => Answered)
  · apply Exec.triple_failIf
    · intro _ hs _
      exact hs
    · intro _ _ _
      trivial
  · intro _
    exact Exec.triple_pure fun _ hs => hs

/-! ### Panics -/

theorem total_readSectors (sector count : Nat) :
  Exec.Total (readSectors regs sector count : Exec (Reading δ ω) _ _)
  := by
  intro s hpanic
  cases hpanic

theorem total_append {sector count : Nat} (checksum : UInt64) (hcount : count ≤ sectorsPerPage) :
  Exec.Total (append w regs sector count checksum)
  := by
  intro s
  have hlen : count * sectorSize ≤ (regs.dma s.regs).length := by
    rw [regs.dma_length]
    exact Nat.mul_le_mul_right sectorSize hcount
  rcases hout : w.writeAll s.out ((regs.dma s.regs).take (count * sectorSize))
    with ⟨out, _ | ⟨⟩⟩
  · simp [append, writeAll, Exec.assert, hlen, hout]
  · simp [append, writeAll, Exec.assert, hlen, hout]

theorem total_readPages (sector : Nat) (checksum : UInt64) :
  Exec.Total (readPages w regs sector checksum)
  := by
  induction sector, checksum using readPages.induct with
  | case1 sector checksum ih =>
      rw [readPages]
      apply (total_readSectors sector sectorsPerPage).bind
      intro status
      apply Exec.Total.ite
      · apply (total_append checksum (Nat.le_refl _)).bind
        intro checksum
        by_cases hcap : (sector + sectorsPerPage) * sectorSize > maxGameBytes
        · rw [dif_pos hcap]
          apply Exec.total_fail
        · rw [dif_neg hcap]
          apply ih checksum hcap
      · apply Exec.Total.ite
        · apply Exec.total_pure
        · apply Exec.total_fail

theorem total_readTail {counts : List Nat} (sector : Nat) (checksum : UInt64)
    (hcounts : ∀ count ∈ counts, count ≤ sectorsPerPage) :
  Exec.Total (readTail w regs counts sector checksum)
  := by
  induction counts generalizing sector checksum with
  | nil => apply Exec.total_pure
  | cons count counts ih =>
      have hrest : ∀ count ∈ counts, count ≤ sectorsPerPage :=
        fun c hc => hcounts c (List.mem_cons_of_mem count hc)
      rw [readTail]
      apply (total_readSectors sector count).bind
      intro status
      apply Exec.Total.ite
      · apply (total_append checksum (hcounts count List.mem_cons_self)).bind
        intro checksum
        apply ih _ _ hrest
      · apply Exec.Total.ite
        · apply ih _ _ hrest
        · apply Exec.total_fail

variable (w regs) in
/-- Reading the device ends without a panic. -/
theorem total_readDevice :
  Exec.Total (readDevice w regs)
  := by
  apply (total_readPages 0 checksumSeed).bind
  rintro ⟨sector, checksum⟩
  apply (total_readTail sector checksum (by decide)).bind
  rintro ⟨sector, checksum⟩
  apply (Exec.total_failIf (sector = 0) ReadDeviceError.empty).bind
  intro _
  apply Exec.total_pure

end Statuses

/-! ### Devices with an image -/

/-- Sectors of an image that can be addressed. -/
def capacity (image : Bytes) : Nat := image.length / sectorSize

/-- The first sectors of an image. -/
def sectors (image : Bytes) (n : Nat) : Bytes := image.take (n * sectorSize)

/-- The device serves the reads up to the end of the image with its bytes, and answers every
other read that it is beyond the end. -/
def PvBlkRegs.Serves {δ : Type} (regs : PvBlkRegs δ) (image : Bytes) : Prop :=
  ∀ d sector count, 0 < count → count ≤ sectorsPerPage →
    if sector + count ≤ capacity image then
      (regs.readSectors d sector count).2 = statusOk ∧
        (regs.dma (regs.readSectors d sector count).1).take (count * sectorSize)
          = (image.drop (sector * sectorSize)).take (count * sectorSize)
    else
      (regs.readSectors d sector count).2 = statusBadRequest

theorem checksumFold_append (sum : UInt64) (xs ys : Bytes) (streamOff : UInt64) :
  checksumFold sum (xs ++ ys) streamOff
    = checksumFold (checksumFold sum xs streamOff) ys (streamOff + UInt64.ofNat xs.length)
  := by
  induction xs generalizing sum streamOff with
  | nil => simp [checksumFold]
  | cons x xs ih =>
      rw [List.cons_append, checksumFold, ih, checksumFold, List.length_cons, UInt64.ofNat_add,
        UInt64.add_comm (UInt64.ofNat xs.length), ← UInt64.add_assoc]
      rfl

/-- The checksum of the first sectors of an image. -/
def checksumOf (image : Bytes) (n : Nat) : UInt64 :=
  checksumFold checksumSeed (sectors image n) 0

section Images

variable {δ : Type} {regs : PvBlkRegs δ} {image : Bytes} {s : Reading δ Bytes} {n count : Nat}

theorem length_sectors (h : n ≤ capacity image) :
  (sectors image n).length = n * sectorSize
  := by
  rw [sectors, List.length_take, Nat.min_eq_left]
  exact (Nat.le_div_iff_mul_le (by decide)).mp h

theorem sectors_add (image : Bytes) (n count : Nat) :
  sectors image (n + count)
    = sectors image n ++ (image.drop (n * sectorSize)).take (count * sectorSize)
  := by
  rw [sectors, sectors, Nat.add_mul, List.take_add]

theorem run_readSectors (sector count : Nat) :
  (readSectors regs sector count : Exec (Reading δ Bytes) _ _).run s
    = ({ s with regs := (regs.readSectors s.regs sector count).1 },
        .ok (regs.readSectors s.regs sector count).2)
  := rfl

/-- A read up to the end of the image is served, and its bytes are appended. -/
theorem run_served (h : regs.Serves image) (hpos : 0 < count) (hcount : count ≤ sectorsPerPage)
    (hend : n + count ≤ capacity image) (hout : s.out = sectors image n) :
  ∃ d, (readSectors regs n count : Exec (Reading δ Bytes) _ _).run s
      = ({ s with regs := d }, .ok statusOk) ∧
    (append vecWriter regs n count (checksumOf image n)).run { s with regs := d }
      = ({ regs := d, out := sectors image (n + count) },
          .ok (checksumOf image (n + count)))
  := by
  have hserve := h s.regs n count hpos hcount
  rw [if_pos hend] at hserve
  obtain ⟨hstatus, hdma⟩ := hserve
  refine ⟨(regs.readSectors s.regs n count).1, ?_, ?_⟩
  · rw [run_readSectors, hstatus]
  · have hlen : count * sectorSize ≤ (regs.dma (regs.readSectors s.regs n count).1).length := by
      rw [regs.dma_length]
      exact Nat.mul_le_mul_right sectorSize hcount
    have hsum : checksumFold (checksumOf image n)
        ((image.drop (n * sectorSize)).take (count * sectorSize)) (UInt64.ofNat (n * sectorSize))
        = checksumOf image (n + count) := by
      rw [checksumOf, checksumOf, sectors_add, checksumFold_append,
        length_sectors (Nat.le_of_add_right_le hend), UInt64.zero_add]
    simp only [append, Exec.run_bind, Exec.run_get, Exec.run_assert_of hlen, hdma, hsum, writeAll,
      vecWriter, hout, Exec.run_pure, ← sectors_add]

/-- A read beyond the end of the image is refused. -/
theorem run_refused (h : regs.Serves image) (hpos : 0 < count) (hcount : count ≤ sectorsPerPage)
    (hend : ¬ n + count ≤ capacity image) :
  ∃ d, (readSectors regs n count : Exec (Reading δ Bytes) _ _).run s
      = ({ s with regs := d }, .ok statusBadRequest)
  := by
  have hserve := h s.regs n count hpos hcount
  rw [if_neg hend] at hserve
  refine ⟨(regs.readSectors s.regs n count).1, ?_⟩
  rw [run_readSectors, hserve]

/-- Pages that the cap allows. -/
def maxPages : Nat := 8192

theorem overCap_iff (k : Nat) :
  (k * sectorsPerPage + sectorsPerPage) * sectorSize > maxGameBytes ↔ maxPages ≤ k
  := by
  simp only [sectorsPerPage, dmaPageSize, sectorSize, maxGameBytes, maxPages]
  omega

/-- From a page within the cap, the pages are read up to the last full one of the image, unless
a page behind the cap is full. -/
theorem run_readPages (h : regs.Serves image) {k : Nat} (hk : k ≤ maxPages)
    (hfull : k ≤ capacity image / sectorsPerPage)
    (hout : s.out = sectors image (k * sectorsPerPage)) :
  ∃ s', (readPages vecWriter regs (k * sectorsPerPage)
        (checksumOf image (k * sectorsPerPage))).run s
      = (s', if capacity image / sectorsPerPage ≤ maxPages then
          .ok (capacity image / sectorsPerPage * sectorsPerPage,
            checksumOf image (capacity image / sectorsPerPage * sectorsPerPage))
        else .err .overCap) ∧
    (capacity image / sectorsPerPage ≤ maxPages →
      s'.out = sectors image (capacity image / sectorsPerPage * sectorsPerPage))
  := by
  have hpage : 0 < sectorsPerPage := by decide
  induction hj : maxPages - k using Nat.strong_induction_on generalizing k s with
  | _ j ih =>
  rw [readPages]
  by_cases hend : k * sectorsPerPage + sectorsPerPage ≤ capacity image
  · have hnext : k + 1 ≤ capacity image / sectorsPerPage := by
      rw [Nat.le_div_iff_mul_le hpage, Nat.succ_mul]
      exact hend
    obtain ⟨d, hread, happend⟩ := run_served h hpage (Nat.le_refl _) hend hout
    rw [Exec.run_bind_of_ok hread, if_pos rfl, Exec.run_bind_of_ok happend]
    by_cases hover : maxPages ≤ k
    · rw [dif_pos ((overCap_iff k).mpr hover), if_neg (by omega)]
      exact ⟨_, rfl, fun hle => by omega⟩
    · rw [dif_neg (fun hcap => hover ((overCap_iff k).mp hcap)), ← Nat.succ_mul]
      apply ih (maxPages - (k + 1)) (by omega) (by omega) hnext _ rfl
      rfl
  · have hlast : capacity image / sectorsPerPage = k := by
      apply Nat.le_antisymm _ hfull
      rw [← Nat.lt_succ_iff, Nat.div_lt_iff_lt_mul hpage, Nat.succ_mul]
      exact Nat.lt_of_not_le hend
    obtain ⟨d, hread⟩ := run_refused (s := s) h hpage (Nat.le_refl _) hend
    rw [hlast, if_pos hk, Exec.run_bind_of_ok hread, if_neg (by decide), if_pos rfl]
    exact ⟨_, rfl, fun _ => hout⟩

/-- Where the tail is read on, when a read of `count` sectors is tried. -/
def narrow (image : Bytes) (n count : Nat) : Nat :=
  if n + count ≤ capacity image then n + count else n

variable (count) in
/-- Trying a number of sectors halves the tail. -/
theorem narrow_within (hn : n ≤ capacity image) (hlast : capacity image < n + (count + count)) :
  narrow image n count ≤ capacity image ∧ capacity image < narrow image n count + count
  := by
  rw [narrow]
  split <;> omega

/-- A read of the tail is served when it is within the image, and else nothing changes. -/
theorem run_readTail_cons (h : regs.Serves image) (hpos : 0 < count)
    (hcount : count ≤ sectorsPerPage) (hout : s.out = sectors image n) (counts : List Nat) :
  ∃ s', (readTail vecWriter regs (count :: counts) n (checksumOf image n)).run s
      = (readTail vecWriter regs counts (narrow image n count)
          (checksumOf image (narrow image n count))).run s' ∧
    s'.out = sectors image (narrow image n count)
  := by
  rw [readTail, narrow]
  by_cases hend : n + count ≤ capacity image
  · obtain ⟨d, hread, happend⟩ := run_served h hpos hcount hend hout
    rw [Exec.run_bind_of_ok hread, if_pos rfl, Exec.run_bind_of_ok happend, if_pos hend]
    exact ⟨_, rfl, rfl⟩
  · obtain ⟨d, hread⟩ := run_refused (s := s) h hpos hcount hend
    rw [Exec.run_bind_of_ok hread, if_neg (by decide), if_pos rfl, if_neg hend]
    exact ⟨_, rfl, hout⟩

/-- Behind the last full page, the tail is read to the end of the image. -/
theorem run_readTail (h : regs.Serves image) (hn : n ≤ capacity image)
    (hlast : capacity image < n + sectorsPerPage) (hout : s.out = sectors image n) :
  ∃ s', (readTail vecWriter regs [4, 2, 1] n (checksumOf image n)).run s
      = (s', .ok (capacity image, checksumOf image (capacity image))) ∧
    s'.out = sectors image (capacity image)
  := by
  obtain ⟨s₁, hrun₁, hout₁⟩ := @run_readTail_cons _ _ _ _ _ 4 h (by decide) (by decide) hout [2, 1]
  obtain ⟨hle₁, hlt₁⟩ := narrow_within 4 hn hlast
  obtain ⟨s₂, hrun₂, hout₂⟩ := @run_readTail_cons _ _ _ _ _ 2 h (by decide) (by decide) hout₁ [1]
  obtain ⟨hle₂, hlt₂⟩ := narrow_within 2 hle₁ hlt₁
  obtain ⟨s₃, hrun₃, hout₃⟩ := @run_readTail_cons _ _ _ _ _ 1 h (by decide) (by decide) hout₂ []
  obtain ⟨hle₃, hlt₃⟩ := narrow_within 1 hle₂ hlt₂
  have hend := Nat.le_antisymm hle₃ (Nat.le_of_lt_succ hlt₃)
  rw [hend] at hrun₃ hout₃
  exact ⟨s₃, (hrun₁.trans hrun₂).trans hrun₃, hout₃⟩

/-- The outcome of reading a device that serves an image. -/
theorem run_readDevice (h : regs.Serves image) (hout : s.out = []) :
  ∃ s', (readDevice vecWriter regs).run s
      = (s', if maxPages < capacity image / sectorsPerPage then .err .overCap
        else if capacity image = 0 then .err .empty
        else .ok (capacity image * sectorSize, checksumOf image (capacity image))) ∧
    (capacity image / sectorsPerPage ≤ maxPages → s'.out = sectors image (capacity image))
  := by
  have hpage : 0 < sectorsPerPage := by decide
  have hstart : s.out = sectors image (0 * sectorsPerPage) := by
    rw [hout, sectors, Nat.zero_mul, Nat.zero_mul, List.take_zero]
  have hseed : checksumOf image (0 * sectorsPerPage) = checksumSeed := by
    rw [checksumOf, sectors, Nat.zero_mul, Nat.zero_mul, List.take_zero]
    rfl
  obtain ⟨s₁, hpages, hout₁⟩ := run_readPages h (Nat.zero_le maxPages) (Nat.zero_le _) hstart
  rw [hseed, Nat.zero_mul] at hpages
  rw [readDevice]
  by_cases hfit : capacity image / sectorsPerPage ≤ maxPages
  · rw [if_pos hfit] at hpages
    have hle := Nat.div_mul_le_self (capacity image) sectorsPerPage
    have hlt := Nat.lt_div_mul_add (a := capacity image) hpage
    obtain ⟨s₂, htail, hout₂⟩ := run_readTail h hle hlt (hout₁ hfit)
    rw [if_neg (Nat.not_lt.mpr hfit), Exec.run_bind_of_ok hpages]
    dsimp only
    rw [Exec.run_bind_of_ok htail]
    dsimp only
    refine ⟨s₂, ?_, fun _ => hout₂⟩
    by_cases hzero : capacity image = 0
    · rw [if_pos hzero, Exec.run_bind_of_err (Exec.run_failIf_of hzero s₂)]
    · rw [if_neg hzero, Exec.run_bind_of_ok (Exec.run_failIf_of_not hzero s₂)]
      rfl
  · rw [if_neg hfit] at hpages
    rw [if_pos (Nat.lt_of_not_le hfit), Exec.run_bind_of_err hpages]
    exact ⟨s₁, rfl, fun hle => absurd hle hfit⟩

end Images

/-! ### Materialization -/

/-- A device is read as it should be: the image comes out when it is neither empty nor beyond the
cap, with its length and its checksum. -/
def Materializes {δ : Type} (regs : PvBlkRegs δ) (d : δ) (image : Bytes) : Prop :=
  ((∃ r, ((readDevice vecWriter regs).run { regs := d, out := [] }).2 = .ok r) ↔
      0 < capacity image * sectorSize ∧ capacity image * sectorSize ≤ maxGameBytes) ∧
    ∀ bytes sum, ((readDevice vecWriter regs).run { regs := d, out := [] }).2 = .ok (bytes, sum) →
      ((readDevice vecWriter regs).run { regs := d, out := [] }).1.out
          = image.take (capacity image * sectorSize) ∧
        bytes = capacity image * sectorSize ∧
        sum = checksumFold checksumSeed (image.take (capacity image * sectorSize)) 0

theorem beyond_iff (image : Bytes) :
  maxPages < capacity image / sectorsPerPage ↔ 65544 ≤ capacity image
  := by
  have hpage : sectorsPerPage = 8 := rfl
  rw [maxPages, hpage]
  omega

theorem size_iff (image : Bytes) :
  (0 < capacity image * sectorSize ∧ capacity image * sectorSize ≤ maxGameBytes)
    ↔ 0 < capacity image ∧ capacity image ≤ 65536
  := by
  have hmax : maxGameBytes = 33554432 := rfl
  rw [sectorSize, hmax]
  omega

/-- Images that exceed the cap by less than a page are read nevertheless, and no others. -/
theorem materializes_iff {δ : Type} {regs : PvBlkRegs δ} {image : Bytes} (h : regs.Serves image)
    (d : δ) :
  Materializes regs d image ↔ ¬ (65536 < capacity image ∧ capacity image < 65544)
  := by
  obtain ⟨s', hrun, hout⟩ := run_readDevice (s := { regs := d, out := [] }) h rfl
  rw [Materializes, hrun, size_iff]
  dsimp only
  by_cases hover : maxPages < capacity image / sectorsPerPage
  · have hbeyond := (beyond_iff image).mp hover
    rw [if_pos hover]
    simp only [reduceCtorEq, exists_false, false_iff, false_implies, implies_true, and_true]
    omega
  · have hbeyond := mt (beyond_iff image).mpr hover
    rw [if_neg hover]
    by_cases hzero : capacity image = 0
    · rw [if_pos hzero]
      simp only [reduceCtorEq, exists_false, false_iff, false_implies, implies_true, and_true]
      omega
    · rw [if_neg hzero, hout (Nat.le_of_not_lt hover)]
      have hread : ∀ bytes sum, (Res.ok (capacity image * sectorSize,
            checksumOf image (capacity image)) : Res ReadDeviceError _) = .ok (bytes, sum) →
          sectors image (capacity image) = image.take (capacity image * sectorSize) ∧
            bytes = capacity image * sectorSize ∧
            sum = checksumFold checksumSeed (image.take (capacity image * sectorSize)) 0 := by
        intro bytes sum heq
        cases heq
        exact ⟨rfl, rfl, rfl⟩
      have hsome : ∃ r, (Res.ok (capacity image * sectorSize, checksumOf image (capacity image)) :
          Res ReadDeviceError _) = .ok r := ⟨_, rfl⟩
      constructor
      · intro hmeets
        have hsize := hmeets.1.mp hsome
        omega
      · intro hgap
        exact ⟨iff_of_true hsome (by omega), hread⟩

/-- The statuses that a device answers while it is read. -/
def statuses {δ : Type} (regs : PvBlkRegs δ) (d : δ) : List UInt32 :=
  ((readDevice vecWriter regs.recording).run { regs := (d, []), out := [] }).1.regs.2

/-- A device that answers another status is not read. -/
theorem err_of_status {δ : Type} {regs : PvBlkRegs δ} {d : δ} {status : UInt32}
    (hmem : status ∈ statuses regs d) (hok : status ≠ statusOk) (hbad : status ≠ statusBadRequest) :
  ∃ e, ((readDevice vecWriter regs).run { regs := d, out := [] }).2 = .err e
  := by
  have hstart : Answered { regs := (d, []), out := ([] : Bytes) } := by
    intro status hin
    exact absurd hin List.not_mem_nil
  have hplain := projects_readDevice vecWriter regs { regs := (d, []), out := [] }
  have hall := triple_readDevice vecWriter regs _ hstart
  have hpanic := total_readDevice vecWriter regs.recording { regs := (d, []), out := [] }
  rw [statuses] at hmem
  rcases hrun : (readDevice vecWriter regs.recording).run { regs := (d, []), out := [] }
    with ⟨s', r | e | _⟩ <;> rw [hrun] at hplain hall hpanic hmem
  · rcases hall status hmem with heq | heq
    · exact absurd heq hok
    · exact absurd heq hbad
  · refine ⟨e, ?_⟩
    exact congrArg Prod.snd hplain
  · exact absurd rfl hpanic

/-- A device that serves an image is read as it should be exactly when its image does not exceed
the cap by less than a page; and every device that answers another status is not read. -/
theorem readDevice_meets_iff {δ : Type} (regs : PvBlkRegs δ) (d : δ) :
  (∀ image, regs.Serves image →
      (Materializes regs d image ↔ ¬ (65536 < capacity image ∧ capacity image < 65544))) ∧
    ((∃ status ∈ statuses regs d, status ≠ statusOk ∧ status ≠ statusBadRequest) →
      ∃ e, ((readDevice vecWriter regs).run { regs := d, out := [] }).2 = .err e)
  := by
  constructor
  · intro image h
    apply materializes_iff h
  · rintro ⟨status, hmem, hok, hbad⟩
    apply err_of_status hmem hok hbad

/-! ### A device -/

/-- The page of a device. -/
abbrev DmaPage : Type := { page : Bytes // page.length = dmaPageSize }

/-- The page with the bytes of a read in front. -/
def DmaPage.fill (page : DmaPage) (bytes : Bytes) : DmaPage :=
  ⟨(bytes ++ page.val.drop bytes.length).take dmaPageSize, by
    have hpage := page.property
    rw [List.length_take, List.length_append, List.length_drop]
    omega⟩

/-- The device with an image. -/
def PvBlkRegs.ofImage (image : Bytes) : PvBlkRegs DmaPage where
  readSectors := fun page sector count =>
    if 0 < count ∧ sector + count ≤ capacity image then
      (page.fill ((image.drop (sector * sectorSize)).take (count * sectorSize)), statusOk)
    else
      (page, statusBadRequest)
  dma := fun page => page.val
  dma_length := fun page => page.property

theorem take_fill {page : DmaPage} {bytes : Bytes} {n : Nat} (hlen : bytes.length = n)
    (hn : n ≤ dmaPageSize) :
  (page.fill bytes).val.take n = bytes
  := by
  rw [DmaPage.fill, List.take_take, Nat.min_eq_left hn, ← hlen, List.take_left]

theorem serves_ofImage (image : Bytes) :
  (PvBlkRegs.ofImage image).Serves image
  := by
  intro page sector count hpos hcount
  by_cases hend : sector + count ≤ capacity image
  · have hbytes : (sector + count) * sectorSize ≤ image.length :=
      (Nat.le_div_iff_mul_le (by decide)).mp hend
    have hlen : ((image.drop (sector * sectorSize)).take (count * sectorSize)).length
        = count * sectorSize := by
      rw [List.length_take, List.length_drop, Nat.min_eq_left]
      rw [Nat.add_mul] at hbytes
      exact Nat.le_sub_of_add_le' hbytes
    simp only [if_pos hend, PvBlkRegs.ofImage, if_pos (And.intro hpos hend), true_and]
    exact take_fill hlen (Nat.mul_le_mul_right sectorSize hcount)
  · have hrefuse : ¬ (0 < count ∧ sector + count ≤ capacity image) := fun h => hend h.2
    simp only [if_neg hend, PvBlkRegs.ofImage, if_neg hrefuse]

/-- A page of zeros. -/
def zeroPage : DmaPage := ⟨Bytes.zeros dmaPageSize, List.length_replicate⟩

/-- An image of a page, a tail of seven sectors and a part of one more. -/
def tailedImage : Bytes :=
  List.replicate dmaPageSize 1 ++ (List.replicate (7 * sectorSize) 2 ++ List.replicate 100 3)

theorem capacity_tailedImage :
  capacity tailedImage = 15
  := by
  rw [capacity, tailedImage, List.length_append, List.length_append, List.length_replicate,
    List.length_replicate, List.length_replicate]
  rfl

/-- A device that serves a page, and answers every read behind it with the status 2. -/
def brokenRegs : PvBlkRegs DmaPage where
  readSectors := fun page sector _ => (page, if sector < 8 then statusOk else 2)
  dma := fun page => page.val
  dma_length := fun page => page.property

/-- An image with a tail is read, and a device that breaks behind its first page is not. -/
theorem readDevice_meets_iff_tailed :
  Materializes (PvBlkRegs.ofImage tailedImage) zeroPage tailedImage ∧
    ∃ e, ((readDevice vecWriter brokenRegs).run { regs := zeroPage, out := [] }).2 = .err e
  := by
  have hbroken : 2 ∈ statuses brokenRegs zeroPage := by
    decide +kernel
  constructor
  · apply ((readDevice_meets_iff (PvBlkRegs.ofImage tailedImage) zeroPage).1 _
      (serves_ofImage tailedImage)).mpr
    rw [capacity_tailedImage]
    decide
  · apply (readDevice_meets_iff brokenRegs zeroPage).2
    exact ⟨2, hbroken, by decide, by decide⟩

/-- An image one sector beyond the cap is read. -/
theorem not_materializes_beyond_cap :
  ¬ ∀ image : Bytes, Materializes (PvBlkRegs.ofImage image) zeroPage image
  := by
  intro h
  have hcap : capacity (Bytes.zeros (65537 * sectorSize)) = 65537 := by
    rw [capacity, Bytes.zeros, List.length_replicate]
    rfl
  have hgap := (materializes_iff (serves_ofImage _) zeroPage).mp
    (h (Bytes.zeros (65537 * sectorSize)))
  rw [hcap] at hgap
  exact hgap ⟨by decide, by decide⟩

end Pvblk

end Agent
