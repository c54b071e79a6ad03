import DetGuest.Agent.Pvblk

/-!
# Verification of the game image

The agent reads the file that it has written once more, in reads of any sizes, and compares its
length and its checksum with those of the device's stream.  The checksum of a stream does not
depend on how it is cut.
-/

namespace Agent

namespace Pvblk

/-! ### Checksums of chunks -/

/-- Fold the chunks of a stream into a checksum, each at its own offset. -/
def foldChunks (sum : UInt64) : List Bytes → UInt64 → UInt64
  | [], _ => sum
  | chunk :: chunks, streamOff =>
      foldChunks (checksumFold sum chunk streamOff) chunks
        (streamOff + UInt64.ofNat chunk.length)

/-- However a stream is cut, its checksum is the same. -/
theorem foldChunks_eq (sum : UInt64) (chunks : List Bytes) (streamOff : UInt64) :
  foldChunks sum chunks streamOff = checksumFold sum chunks.flatten streamOff
  := by
  induction chunks generalizing sum streamOff with
  | nil => rfl
  | cons chunk chunks ih => rw [foldChunks, ih, List.flatten_cons, checksumFold_append]

/-! ### Reading the file again -/

/-- Why the file is not what the device has. -/
inductive VerifyError where
  | reopen (e : String)
  | reread (e : String)
  | length (len bytes : Nat)
  | drift (sum checksum : UInt64)
  deriving DecidableEq, Repr

/-- A number in hexadecimal. -/
def hexadecimal (n : UInt64) : String := "0x" ++ String.ofList (Nat.toDigits 16 n.toNat)

/-- The text of an error. -/
def VerifyError.message (dest : String) : VerifyError → String
  | .reopen e => s!"pv-blk: reopen {dest}: {e}"
  | .reread e => s!"pv-blk: re-read {dest}: {e}"
  | .length len bytes =>
      s!"pv-blk: materialized file is {len} bytes, device stream was {bytes}"
  | .drift sum checksum =>
      "pv-blk: materialized file checksum drift (" ++ hexadecimal sum ++ " != "
        ++ hexadecimal checksum ++ ")"

/-- The reads of a file: what each returns, up to the end of the file or an error. -/
abbrev Reads : Type := List (Except String Bytes)

/-- `len += n`, which panics at the end of the range when overflow is checked, and wraps when
it is not. -/
def countRead (dbg : Bool) (len n : Nat) : Res VerifyError Nat :=
  if dbg = true ∧ 2 ^ 64 ≤ len + n then .panic else .ok ((len + n) % 2 ^ 64)

/-- Read a file to its end: its length and its checksum.  A read without bytes is the end. -/
def rereadFile (dbg : Bool) : Reads → Nat → UInt64 → Res VerifyError (Nat × UInt64)
  | [], len, sum => .ok (len, sum)
  | .error e :: _, _, _ => .err (.reread e)
  | .ok bytes :: reads, len, sum =>
      if bytes = [] then
        .ok (len, sum)
      else do
        let next ← countRead dbg len bytes.length
        rereadFile dbg reads next (checksumFold sum bytes (UInt64.ofNat len))

/-- Compare the file with the length and the checksum of the device's stream. -/
def verifyFile (dbg : Bool) (file : Except String Reads) (bytes : Nat) (checksum : UInt64) :
    Res VerifyError Unit :=
  match file with
  | .error e => .err (.reopen e)
  | .ok reads => do
      let (len, sum) ← rereadFile dbg reads 0 checksumSeed
      Res.failIf (len ≠ bytes) (.length len bytes)
      Res.failIf (sum ≠ checksum) (.drift sum checksum)

theorem countRead_of_lt {dbg : Bool} {len n : Nat} (h : len + n < 2 ^ 64) :
  countRead dbg len n = .ok (len + n)
  := by
  rw [countRead, if_neg (fun hover => Nat.not_le_of_lt h hover.2), Nat.mod_eq_of_lt h]

/-- However a file is read, its length and its checksum come out. -/
theorem rereadFile_eq (dbg : Bool) {chunks : List Bytes} (hchunks : ∀ chunk ∈ chunks, chunk ≠ [])
    (len : Nat) (hlen : len + chunks.flatten.length < 2 ^ 64) (sum : UInt64) :
  rereadFile dbg (chunks.map .ok) len sum
    = .ok (len + chunks.flatten.length, foldChunks sum chunks (UInt64.ofNat len))
  := by
  induction chunks generalizing len sum with
  | nil => rfl
  | cons chunk chunks ih =>
      rw [List.flatten_cons, List.length_append, ← Nat.add_assoc] at hlen ⊢
      rw [List.map_cons, rereadFile, if_neg (hchunks chunk List.mem_cons_self),
        countRead_of_lt (Nat.lt_of_le_of_lt (Nat.le_add_right _ _) hlen), Res.ok_bind,
        ih (fun c hc => hchunks c (List.mem_cons_of_mem chunk hc)) _ hlen, foldChunks,
        UInt64.ofNat_add]

/-- A file is accepted when its length and its checksum are those of the device's stream,
however it is read. -/
theorem verifyFile_iff {dbg : Bool} {chunks : List Bytes} (hchunks : ∀ chunk ∈ chunks, chunk ≠ [])
    (hlen : chunks.flatten.length < 2 ^ 64) (bytes : Nat) (checksum : UInt64) :
  verifyFile dbg (.ok (chunks.map .ok)) bytes checksum = .ok () ↔
    chunks.flatten.length = bytes ∧ checksumFold checksumSeed chunks.flatten 0 = checksum
  := by
  have hread := rereadFile_eq dbg hchunks 0 (by rwa [Nat.zero_add]) checksumSeed
  rw [Nat.zero_add, foldChunks_eq] at hread
  simp only [verifyFile, hread, Res.ok_bind]
  rw [Res.seq_eq_ok, Res.failIf_eq_ok, Res.failIf_eq_ok, not_not, not_not]
  rfl

/-! ### The stream of the device -/

section Stream

variable {δ ω : Type} {w : Writer ω} {regs : PvBlkRegs δ}

/-- The sink with a record of the bytes that were written to it. -/
def Writer.recording (w : Writer ω) : Writer (ω × Bytes) where
  writeAll := fun out bytes =>
    (((w.writeAll out.1 bytes).1, out.2 ++ bytes), (w.writeAll out.1 bytes).2)

/-- The state without the record. -/
def Reading.erase (s : Reading δ (ω × Bytes)) : Reading δ ω :=
  { regs := s.regs, out := s.out.1 }

variable (w regs) in
/-- Recording the bytes changes nothing else. -/
theorem projects_recording :
  Exec.Projects (Reading.erase (δ := δ)) (readDevice w.recording regs) (readDevice w regs)
  := by
  apply projects_device
  · intro sector count s
    rfl
  · intro sector count checksum s
    by_cases hlen : count * sectorSize ≤ (regs.dma s.regs).length
    · rcases hout : w.writeAll s.out.1 ((regs.dma s.regs).take (count * sectorSize))
        with ⟨out, _ | ⟨⟩⟩
      · simp [append, writeAll, Reading.erase, Writer.recording, Exec.assert, hlen, hout]
      · simp [append, writeAll, Reading.erase, Writer.recording, Exec.assert, hlen, hout]
    · simp [append, writeAll, Reading.erase, Writer.recording, Exec.assert, hlen]

variable (w regs) in
/-- The stream of a device: the bytes that are written to the sink while it is read. -/
def stream (d : δ) (o : ω) : Bytes :=
  ((readDevice w.recording regs).run { regs := d, out := (o, []) }).1.out.2

/-- The number of sectors and the checksum are those of the stream so far. -/
def Tracks (sector : Nat) (checksum : UInt64) (s : Reading δ (ω × Bytes)) : Prop :=
  s.out.2.length = sector * sectorSize ∧ checksum = checksumFold checksumSeed s.out.2 0

theorem tracks_readSectors {sector n : Nat} {checksum : UInt64} (count : Nat) :
  Exec.Triple (Tracks (ω := ω) n checksum) (readSectors regs sector count)
    (fun _ => Tracks n checksum) (fun _ => True)
  := by
  intro s hs
  exact hs

theorem tracks_append (sector count : Nat) (checksum : UInt64) :
  Exec.Triple (Tracks sector checksum) (append w.recording regs sector count checksum)
    (fun checksum => Tracks (sector + count) checksum) (fun _ => True)
  := by
  rintro s ⟨hlength, hsum⟩
  by_cases hlen : count * sectorSize ≤ (regs.dma s.regs).length
  · rcases hout : w.writeAll s.out.1 ((regs.dma s.regs).take (count * sectorSize))
      with ⟨out, _ | ⟨⟩⟩
    · simp [append, writeAll, Writer.recording, Exec.assert, hlen, hout]
    · simp only [append, writeAll, Writer.recording, Exec.run_bind, Exec.run_get,
        Exec.run_assert_of hlen, hout, Exec.run_pure]
      constructor
      · rw [List.length_append, hlength, List.length_take, Nat.min_eq_left hlen, Nat.add_mul]
      · rw [checksumFold_append, ← hsum, hlength, UInt64.zero_add]
  · simp [append, writeAll, Writer.recording, Exec.assert, hlen]

theorem tracks_readPages (sector : Nat) (checksum : UInt64) :
  Exec.Triple (Tracks sector checksum) (readPages w.recording regs sector checksum)
    (fun r => Tracks r.1 r.2) (fun _ => True)
  := by
  induction sector, checksum using readPages.induct with
  | case1 sector checksum ih =>
      rw [readPages]
      apply (tracks_readSectors sectorsPerPage).bind
      intro status
      by_cases hok : status = statusOk
      · rw [if_pos hok]
        apply (tracks_append sector sectorsPerPage checksum).bind
        intro checksum
        by_cases hcap : (sector + sectorsPerPage) * sectorSize > maxGameBytes
        · rw [dif_pos hcap]
          apply Exec.triple_fail fun _ _ => trivial
        · rw [dif_neg hcap]
          apply ih checksum hcap
      · rw [if_neg hok]
        by_cases hbad : status = statusBadRequest
        · rw [if_pos hbad]
          exact Exec.triple_pure fun _ hs => hs
        · rw [if_neg hbad]
          apply Exec.triple_fail fun _ _ => trivial

theorem tracks_readTail (counts : List Nat) (sector : Nat) (checksum : UInt64) :
  Exec.Triple (Tracks sector checksum) (readTail w.recording regs counts sector checksum)
    (fun r => Tracks r.1 r.2) (fun _ => True)
  := by
  induction counts generalizing sector checksum with
  | nil => exact Exec.triple_pure fun _ hs => hs
  | cons count counts ih =>
      rw [readTail]
      apply (tracks_readSectors count).bind
      intro status
      by_cases hok : status = statusOk
      · rw [if_pos hok]
        apply (tracks_append sector count checksum).bind
        intro checksum
        apply ih
      · rw [if_neg hok]
        by_cases hbad : status = statusBadRequest
        · rw [if_pos hbad]
          apply ih
        · rw [if_neg hbad]
          apply Exec.triple_fail fun _ _ => trivial

/-- Reading a device returns the length and the checksum of its stream. -/
theorem readDevice_stream {d : δ} {o : ω} {bytes : Nat} {sum : UInt64}
    (h : ((readDevice w regs).run { regs := d, out := o }).2 = .ok (bytes, sum)) :
  bytes = (stream w regs d o).length ∧ sum = checksumFold checksumSeed (stream w regs d o) 0
  := by
  have hplain := projects_recording w regs { regs := d, out := (o, []) }
  have htracks : Exec.Triple (Tracks 0 checksumSeed) (readDevice w.recording regs)
      (fun r s => r.1 = s.out.2.length ∧ r.2 = checksumFold checksumSeed s.out.2 0)
      (fun _ => True) := by
    apply (tracks_readPages 0 checksumSeed).bind
    rintro ⟨sector, checksum⟩
    apply (tracks_readTail [4, 2, 1] sector checksum).bind
    rintro ⟨sector, checksum⟩
    apply Exec.Triple.bind (Q := fun _ => Tracks sector checksum)
    · apply Exec.triple_failIf
      · intro _ hs _
        exact hs
      · intro _ _ _
        trivial
    · intro _
      exact Exec.triple_pure fun _ hs => ⟨hs.1.symm, hs.2⟩
  rw [stream]
  rcases hrun : (readDevice w.recording regs).run { regs := d, out := (o, []) } with ⟨s', r⟩
  rw [hrun] at hplain
  have hr : r = .ok (bytes, sum) := (congrArg Prod.snd hplain).symm.trans h
  rw [hr] at hrun
  have hstart : Tracks 0 checksumSeed { regs := d, out := (o, []) } :=
    ⟨(Nat.zero_mul sectorSize).symm, rfl⟩
  exact htracks.of_ok hstart hrun

end Stream

/-- The checksum of a byte string is folded over its chunks, however it is cut.  Hence a file is
accepted, however it is read, exactly when it has the length of the device's stream and the
checksum that was returned for it. -/
theorem checksum_uniform :
  (∀ (sum streamOff : UInt64) (s : Bytes) (chunks : List Bytes), chunks.flatten = s →
      foldChunks sum chunks streamOff = checksumFold sum s streamOff) ∧
    ∀ {δ ω : Type} (w : Writer ω) (regs : PvBlkRegs δ) (d : δ) (o : ω) (bytes : Nat)
      (sum : UInt64), ((readDevice w regs).run { regs := d, out := o }).2 = .ok (bytes, sum) →
      ∀ (dbg : Bool) (file : Bytes) (chunks : List Bytes), chunks.flatten = file →
        (∀ chunk ∈ chunks, chunk ≠ []) → file.length < 2 ^ 64 →
        (verifyFile dbg (.ok (chunks.map .ok)) bytes sum = .ok () ↔
          file.length = (stream w regs d o).length ∧ checksumFold checksumSeed file 0 = sum)
  := by
  constructor
  · rintro sum streamOff _ chunks rfl
    apply foldChunks_eq
  · rintro δ ω w regs d o bytes sum hread dbg _ chunks rfl hchunks hlen
    rw [verifyFile_iff hchunks hlen, (readDevice_stream hread).1]

/-- A device of one sector, whose file is read in two parts. -/
theorem checksum_uniform_sector :
  verifyFile true (.ok [.ok (Bytes.zeros 100), .ok (Bytes.zeros 412)]) 512
      (checksumOf (Bytes.zeros 512) 1) = .ok () ↔
    (Bytes.zeros 512).length
        = (stream vecWriter (PvBlkRegs.ofImage (Bytes.zeros 512)) zeroPage []).length ∧
      checksumFold checksumSeed (Bytes.zeros 512) 0 = checksumOf (Bytes.zeros 512) 1
  := by
  have hcap : capacity (Bytes.zeros 512) = 1 := by
    rw [capacity, Bytes.zeros, List.length_replicate]
    rfl
  obtain ⟨s', hrun, _⟩ := run_readDevice (s := { regs := zeroPage, out := [] })
    (serves_ofImage (Bytes.zeros 512)) rfl
  rw [hcap, if_neg (by decide), if_neg (by decide)] at hrun
  apply checksum_uniform.2 vecWriter (PvBlkRegs.ofImage (Bytes.zeros 512)) zeroPage [] 512
    (checksumOf (Bytes.zeros 512) 1) (congrArg Prod.snd hrun) true (Bytes.zeros 512)
    [Bytes.zeros 100, Bytes.zeros 412]
  · rw [List.flatten_cons, List.flatten_cons, List.flatten_nil, List.append_nil]
    apply List.replicate_append_replicate
  · intro chunk hchunk
    simp only [List.mem_cons, List.not_mem_nil, or_false] at hchunk
    rcases hchunk with rfl | rfl
    · exact List.cons_ne_nil _ _
    · exact List.cons_ne_nil _ _
  · rw [Bytes.zeros, List.length_replicate]
    decide

end Pvblk

end Agent
