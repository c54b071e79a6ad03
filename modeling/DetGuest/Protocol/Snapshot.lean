import DetGuest.Agent.Brackets
import DetGuest.Host.Manifest

/-!
# Snapshots of a manifest that is written

The host copies the manifest while the agent writes it.  The steps of the two come in any order, and
the writes of the agent reach memory field by field or byte by byte.  A snapshot that the host
accepts is what the area holds at a moment when no write is open.
-/

namespace Protocol.Snapshot

open Wire Agent Host

/-- The manifest area in memory. -/
def area (m : ByteMem) : Slice := { mem := m, len := manifestTotalSize, writes := [] }

/-- The writes of calls of the agent on the area. -/
def writesOf (dbg : Bool) (m : ByteMem) (ops : List WriterOp) : List (Nat × Bytes) :=
  (runWriter dbg (area m) ops).writes

/-- The pieces in which a write reaches memory. -/
inductive Grain where
  | field
  | byte

/-- A field is written at once, or byte by byte; the generation is always written at once. -/
def Grain.pieces : Grain → Nat × Bytes → List (Nat × Bytes)
  | .field, w => [w]
  | .byte, w => Seqlock.scatter offGeneration w

/-- A step of the agent, which writes its next piece, or of the host, which reads the manifest: it
reads the generation, copies the area byte by byte in any order, and reads the generation again. -/
abbrev Step : Seqlock.System → Seqlock.System → Prop :=
  Seqlock.Step offGeneration manifestTotalSize

/-- The manifest in a copy of the area. -/
def parseCopy (dbg : Bool) (copy : ByteMem) : Res DecodeError RegionManifest :=
  parseManifest dbg (Slice.ofBytes (copy.read 0 manifestTotalSize))

/-- A copy is parsed as the area that it has the bytes of. -/
theorem parseCopy_congr {dbg : Bool} {copy m : ByteMem}
    (h : ∀ a < manifestTotalSize, copy a = m a) :
  parseCopy dbg copy = parseCopy dbg m
  := by
  have hread : copy.read 0 manifestTotalSize = m.read 0 manifestTotalSize := by
    apply ByteMem.read_congr
    intro i hi
    rw [Nat.zero_add]
    exact h i hi
  rw [parseCopy, parseCopy, hread]

/-- A copy that is accepted is the manifest of its memory. -/
theorem parseCopy_eq_ok {dbg : Bool} {m : ByteMem} {manifest : RegionManifest}
    (h : parseCopy dbg m = .ok manifest) :
  manifest = manifestOf m
  := by
  obtain ⟨hok, rfl⟩ := (parseManifest_eq_ok dbg (ByteMem.length_read ..)).mp h
  apply (manifestOf_congr _ hok).2
  intro a ha
  rw [Slice.ofBytes_read_mem ha, Nat.zero_add]

section Interleaving

/-- The pieces of the writes of the agent are brackets, but for the last one that may be open. -/
theorem bracketed_pieces (dbg : Bool) {m : ByteMem} (ops : List WriterOp) (grain : Grain)
    (heven : m.u64 offGeneration % 2 = 0) :
  ∃ extra k, Seqlock.Bracketed offGeneration (m.u64 offGeneration)
      ((writesOf dbg m ops).flatMap grain.pieces ++ extra) k ∧ k ≤ ops.length
  := by
  obtain ⟨ws, extra, k, hrun, hbrackets, hk⟩ :=
    brackets_runWriter (s := area m) dbg ops rfl heven
  have hws : writesOf dbg m ops = ws := by
    rw [writesOf, hrun, Slice.writeAll_writes]
    rfl
  rw [hws]
  cases grain with
  | field =>
      have hsame : ws.flatMap Grain.field.pieces = ws := List.flatMap_singleton' ws
      rw [hsame]
      exact ⟨extra, k, hbrackets, hk⟩
  | byte =>
      have hpieces := hbrackets.scatter
      rw [List.flatMap_append] at hpieces
      exact ⟨_, k, hpieces, hk⟩

/-- In every order of the steps of the agent, which makes any calls of its writer, and of the host,
a snapshot that the host accepts is the manifest at a moment between two brackets of the writes, and
its generation is the even one of that moment. -/
theorem snapshot_of_moment (dbg dbg' : Bool) (m : ByteMem) (ops : List WriterOp) (grain : Grain)
    (heven : (ManifestHeader.ofMem m).generation % 2 = 0)
    (hwrap : (ManifestHeader.ofMem m).generation.toNat + 2 * ops.length < 2 ^ 64)
    (m' : ByteMem) (ahead : List (Nat × Bytes)) (copy : ByteMem)
    (hrun : Relation.ReflTransGen Step
      ⟨m, (writesOf dbg m ops).flatMap grain.pieces, .waiting seqlockRetries⟩
      ⟨m', ahead, .done copy⟩)
    (manifest : RegionManifest) (hparse : parseCopy dbg' copy = .ok manifest) :
  ∃ front back k, (writesOf dbg m ops).flatMap grain.pieces = front ++ back ∧ ahead <:+ back ∧
    Seqlock.Bracketed offGeneration (ManifestHeader.ofMem m).generation front k ∧
    parseCopy dbg' (m.writeAll front) = .ok manifest ∧
    manifest.header.generation = (ManifestHeader.ofMem (m.writeAll front)).generation ∧
    manifest.header.generation % 2 = 0
  := by
  obtain ⟨extra, n, hbrackets, hn⟩ := bracketed_pieces dbg ops grain heven
  have hroom : (m.u64 offGeneration).toNat + 2 * n < 2 ^ 64 := by
    have hgen : (m.u64 offGeneration).toNat = (ManifestHeader.ofMem m).generation.toNat := rfl
    omega
  obtain ⟨front, back, k, hws, hsuffix, hfront, hcopy⟩ :=
    Seqlock.moment_of_done_open hbrackets heven hroom hrun
  have hmoment : parseCopy dbg' (m.writeAll front) = .ok manifest := by
    rw [← hparse]
    exact (parseCopy_congr hcopy).symm
  have hgen : manifest.header.generation
      = (ManifestHeader.ofMem (m.writeAll front)).generation := by
    rw [parseCopy_eq_ok hmoment]
    rfl
  refine ⟨front, back, k, hws, hsuffix, hfront, hmoment, hgen, ?_⟩
  have hversion : (ManifestHeader.ofMem (m.writeAll front)).generation
      = (ManifestHeader.ofMem m).generation + UInt64.ofNat (2 * k) := hfront.u64 rfl
  rw [hgen, hversion]
  apply UInt64.toNat_inj.mp
  have hzero := congrArg UInt64.toNat heven
  rw [Seqlock.toNat_mod_two, UInt64.toNat_zero] at hzero
  rw [Seqlock.toNat_mod_two, UInt64.toNat_add, UInt64.toNat_ofNat', UInt64.toNat_zero]
  omega

/-- The area of an empty manifest. -/
def emptyArea : ByteMem := ByteMem.write (fun _ => 0) 0 emptyHeader.fields.flatten

/-- A call that writes a region. -/
def briefRegion : WriterOp := .writeRegion [0x61] 1 1 0 0x1000 1 [⟨0x5000, 1⟩]

/-- The writes of the region. -/
def briefWrites : List (Nat × Bytes) := writesOf true emptyArea [briefRegion]

/-- The single bytes of the calls that write the region and mark it as dead. -/
def briefPieces : List (Nat × Bytes) :=
  (writesOf true emptyArea [briefRegion, .markRegionDead 0]).flatMap Grain.byte.pieces

/-- The single bytes that mark the region as dead. -/
def briefBack : List (Nat × Bytes) :=
  briefPieces.drop (briefWrites.flatMap Grain.byte.pieces).length

theorem briefPieces_eq :
  briefPieces = briefWrites.flatMap Grain.byte.pieces ++ briefBack
  := by
  decide +kernel

/-- The area with the region. -/
def briefArea : ByteMem := emptyArea.writeAll briefWrites

theorem generation_brief :
  briefArea.u64 offGeneration = 2
  := by
  decide +kernel

/-- Writes beside a slot leave its entry. -/
theorem entry_writeAll_beside {m : ByteMem} {ws : List (Nat × Bytes)} {k : Nat}
    (h : ∀ w ∈ ws, RegionEntry.offset k + regionEntrySize ≤ w.1 ∨
      w.1 + w.2.length ≤ RegionEntry.offset k) :
  RegionEntry.ofMem (m.writeAll ws) k = RegionEntry.ofMem m k
  := by
  induction ws generalizing m with
  | nil => rfl
  | cons w ws ih =>
      rw [ByteMem.writeAll_cons, ih (List.forall_mem_cons.mp h).2,
        RegionEntry.ofMem_write_beside (List.forall_mem_cons.mp h).1]

theorem briefWrites_beside :
  ∀ w ∈ briefWrites, offExtents ≤ w.1 ∨ w.1 + w.2.length ≤ RegionEntry.offset 1
  := by
  decide +kernel

/-- A slot behind the first one has no extents. -/
theorem entry_briefArea {k : Nat} (hpos : 0 < k) (hk : k < regionCapacity) :
  RegionEntry.ofMem briefArea k = RegionEntry.ofMem (fun _ => 0) k
  := by
  rw [briefArea, entry_writeAll_beside, emptyArea, RegionEntry.ofMem_write_beside]
  · right
    exact Nat.le_trans (Nat.le_of_ble_eq_true rfl) (Nat.le_add_right ..)
  · intro w hw
    apply (briefWrites_beside w hw).imp
    · intro h
      simp only [RegionEntry.offset, offExtents, offEntries, regionEntrySize, regionCapacity] at *
      omega
    · intro h
      simp only [RegionEntry.offset, offEntries, regionEntrySize, regionCapacity] at *
      omega

theorem manifestOk_brief :
  ManifestOk briefArea
  := by
  refine ⟨by decide +kernel, fun i hi hlive => ?_⟩
  obtain rfl | hpos := Nat.eq_zero_or_pos i
  · decide +kernel
  · rw [entry_briefArea hpos hi]
    exact Nat.zero_le _

/-- While the host copies the area a region is written, byte by byte, so that the host tries again.
Its second copy is accepted in front of the writes that mark the region as dead. -/
theorem snapshot_of_moment_brief :
  ∃ copy manifest, Relation.ReflTransGen Step ⟨emptyArea, briefPieces, .waiting seqlockRetries⟩
      ⟨briefArea, briefBack, .done copy⟩ ∧
    parseCopy true copy = .ok manifest ∧ manifest.header.generation = 2 ∧
      ∃ front back k, briefPieces = front ++ back ∧ briefBack <:+ back ∧
        Seqlock.Bracketed offGeneration 0 front k ∧
        parseCopy true (emptyArea.writeAll front) = .ok manifest ∧
        manifest.header.generation = (ManifestHeader.ofMem (emptyArea.writeAll front)).generation ∧
        manifest.header.generation % 2 = 0
  := by
  have harea : emptyArea.writeAll (briefWrites.flatMap Grain.byte.pieces) = briefArea :=
    Seqlock.writeAll_scatter emptyArea briefWrites
  have hretry : Relation.ReflTransGen Step ⟨emptyArea, briefPieces, .waiting seqlockRetries⟩
      ⟨briefArea, briefBack, .waiting 63⟩ := by
    rw [briefPieces_eq, ← harea]
    apply Seqlock.run_retries emptyArea _ briefBack 63 (by decide) (by decide +kernel)
    rw [harea, generation_brief]
    decide +kernel
  have heven : briefArea.u64 offGeneration % 2 = 0 := by
    rw [generation_brief]
    decide
  obtain ⟨copy, hcopying, hcopy⟩ : ∃ copy, Relation.ReflTransGen Step
      ⟨briefArea, briefBack, .waiting 63⟩ ⟨briefArea, briefBack, .done copy⟩ ∧
        ∀ a < manifestTotalSize, copy a = briefArea a :=
    Seqlock.run_accepts briefArea briefBack 62 heven
  have hmem : ∀ a < manifestTotalSize,
      briefArea a = (Slice.ofBytes (briefArea.read 0 manifestTotalSize)).mem a := by
    intro a ha
    rw [Slice.ofBytes_read_mem ha, Nat.zero_add]
  have hparse : parseCopy true copy = .ok (manifestOf briefArea) := by
    obtain ⟨hok, hsame⟩ := manifestOf_congr hmem manifestOk_brief
    rw [parseCopy_congr hcopy, hsame]
    exact (parseManifest_eq_ok true (ByteMem.length_read ..)).mpr ⟨hok, rfl⟩
  have hrun := hretry.trans hcopying
  have hzero : (ManifestHeader.ofMem emptyArea).generation = 0 := by decide +kernel
  have hmoment := snapshot_of_moment true true emptyArea [briefRegion, .markRegionDead 0] .byte
    (by decide +kernel) (by rw [hzero]; decide) briefArea briefBack copy hrun _ hparse
  rw [hzero] at hmoment
  exact ⟨copy, _, hrun, hparse, generation_brief, hmoment⟩

/-! ### The host alone -/

/-- Without a writer the steps of the host are those of `readManifest`. -/
theorem readManifest_of_run {dbg : Bool} {gm : GuestMem} {base : PageBase} {x : Seqlock.System}
    (hgen : gm.readErr (base.gpa + (offManifest + offGeneration)) 8 = none)
    (harea : gm.readErr (base.gpa + offManifest) manifestTotalSize = none)
    (hrun : Relation.ReflTransGen Step
      ⟨gm.bytes.view (base.gpa + offManifest), [], .waiting seqlockRetries⟩ x) :
  (∀ copy, x.reader = .done copy →
      readManifest dbg gm base = (parseCopy dbg copy).mapErr .decode) ∧
    (x.reader = .gaveUp → readManifest dbg gm base = .err .seqlockLivelock)
  := by
  obtain ⟨m, hm⟩ : ∃ m, gm.bytes.view (base.gpa + offManifest) = m := ⟨_, rfl⟩
  rw [hm] at hrun
  have hgeneration := readU64_generation hgen
  have hcopyArea : gm.read (base.gpa + offManifest) manifestTotalSize
      = .ok (gm.bytes.read (base.gpa + offManifest) manifestTotalSize) := by
    rw [GuestMem.read, harea]
  have hread : gm.bytes.read (base.gpa + offManifest) manifestTotalSize
      = m.read 0 manifestTotalSize := by
    rw [← hm, ByteMem.read_view, Nat.add_zero]
  rw [hm] at hgeneration
  obtain ⟨-, -, hreader⟩ := Seqlock.alone hrun
  constructor
  · intro copy hdone
    rw [hdone] at hreader
    obtain ⟨heven, _, hcopy⟩ := hreader
    have heven' : ¬ (ManifestHeader.ofMem m).generation % 2 ≠ 0 := not_not.mpr heven
    rw [parseCopy_congr hcopy, readManifest, seqlockRetries, retryManifest, readAttempt,
      hgeneration, hcopyArea, hread]
    dsimp only [Res.mapErr]
    rw [Res.ok_bind, if_neg heven', Res.ok_bind, Res.ok_bind, if_neg (fun h => h rfl)]
    rw [parseCopy]
    cases parseManifest dbg (Slice.ofBytes (m.read 0 manifestTotalSize)) with
    | ok manifest => rfl
    | err e => rfl
    | panic => rfl
  · intro hgave
    rw [hgave] at hreader
    have hodd : (ManifestHeader.ofMem m).generation % 2 ≠ 0 := by
      intro heven
      exact absurd (hreader heven) (by decide)
    have hattempt : readAttempt dbg gm base = .ok none := by
      rw [readAttempt, hgeneration]
      dsimp only [Res.mapErr]
      rw [Res.ok_bind, if_pos hodd]
      rfl
    have hretry : ∀ n, retryManifest dbg gm base n = .err .seqlockLivelock := by
      intro n
      induction n with
      | zero => rfl
      | succ n ih =>
          rw [retryManifest, hattempt, Res.ok_bind]
          exact ih
    exact hretry seqlockRetries

end Interleaving

end Protocol.Snapshot
