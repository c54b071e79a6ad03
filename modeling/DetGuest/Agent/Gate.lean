import DetGuest.Agent.Ready
import Mathlib.Data.List.Forall2

/-!
# The gate of `Ready`

With regions to wait for, the agent looks each of them up in a copy of the manifest area.  It finds
evidence about all of them, or it names those that are missing.
-/

namespace Agent

open Wire

/-! ### Evidence -/

/-- The bytes of a text. -/
def asBytes (t : Text) : Bytes := t.flatMap String.utf8EncodeChar

/-- What the manifest tells about an expected region. -/
structure RegionEvidence where
  regionId : UInt32
  nameId : UInt32
  name : Bytes
  layoutVersion : UInt32
  manifestGeneration : UInt32
  deriving DecidableEq, Repr

/-- Why the gate is closed. -/
inductive GateError where
  | manifest (e : ReadyError)
  | generationExceeds (generation : UInt64)
  | entry (i : Nat) (e : DecodeError)
  | pending (missing : List Boot.ExpectedRegion)
  deriving DecidableEq, Repr

/-- Whether an entry is live and has the name and the layout of an expected region. -/
def fulfils (entry : RegionEntry) (expected : Boot.ExpectedRegion) : Bool :=
  entry.isLive ∧ entry.layoutVersion = expected.layoutVersion ∧
    entry.nameBytes = asBytes expected.name

/-- The evidence of an entry. -/
def evidenceOf (entry : RegionEntry) (manifestGeneration : UInt32) : RegionEvidence :=
  { regionId := entry.regionId
    nameId := entry.nameId
    name := entry.nameBytes
    layoutVersion := entry.layoutVersion
    manifestGeneration }

/-- The evidence of the first entry, in the order of the slots given, that fulfils what is
expected. -/
def findEvidence (bytes : Slice) (expected : Boot.ExpectedRegion) (manifestGeneration : UInt32) :
    List Nat → Res GateError (Option RegionEvidence)
  | [] => .ok none
  | i :: is => do
      let entry ← (RegionEntry.readFrom bytes i).mapErr (.entry i)
      if fulfils entry expected then
        pure (some (evidenceOf entry manifestGeneration))
      else
        findEvidence bytes expected manifestGeneration is

/-- The expected regions that are missing, and the evidence about the others. -/
def collectEvidence (bytes : Slice) (manifestGeneration regionCount : UInt32) :
    List Boot.ExpectedRegion → Res GateError (List Boot.ExpectedRegion × List RegionEvidence)
  | [] => .ok ([], [])
  | expected :: rest => do
      let found ← findEvidence bytes expected manifestGeneration (List.range regionCount.toNat)
      let others ← collectEvidence bytes manifestGeneration regionCount rest
      match found with
      | some evidence => pure (others.1, evidence :: others.2)
      | none => pure (expected :: others.1, others.2)

/-- The evidence about all expected regions, and what `Ready` tells. -/
def expectedRegionEvidence (manifest : Slice) (expectedRegions : List Boot.ExpectedRegion) :
    Res GateError (ReadyManifest × List RegionEvidence) := do
  let bytes ← (copyManifestStable manifest).mapErr fun e => .manifest (.read e)
  let hdr ← (ManifestHeader.readFrom bytes).mapErr fun e => .manifest (.decode e)
  hdr.validate.mapErr fun e => .manifest (.validate e)
  Res.failIf (hdr.generation.toNat ≥ 2 ^ 32) (.generationExceeds hdr.generation)
  let (missing, evidence) ←
    collectEvidence bytes hdr.generation.toUInt32 hdr.regionCount expectedRegions
  Res.failIf (missing ≠ []) (.pending missing)
  pure ({ regionCount := hdr.regionCount, manifestGeneration := hdr.generation }, evidence)

/-- What `Ready` tells, when the gate is open. -/
def expectedRegionsReady (manifest : Slice) (expectedRegions : List Boot.ExpectedRegion) :
    Res GateError ReadyManifest := do
  let (snapshot, _evidence) ← expectedRegionEvidence manifest expectedRegions
  pure snapshot

/-! ### Copies of the area -/

/-- What `Ready` tells is what the header of the manifest area says, and no write was open. -/
structure Snapshots (manifest : Slice) (snapshot : ReadyManifest) : Prop where
  regionCount : (ManifestHeader.ofMem manifest.mem).regionCount = snapshot.regionCount
  generation : (ManifestHeader.ofMem manifest.mem).generation = snapshot.manifestGeneration
  even : snapshot.manifestGeneration % 2 = 0
  valid : (ManifestHeader.ofMem manifest.mem).validate = .ok ()

section Copies

variable {manifest bytes : Slice} {hdr : ManifestHeader}

/-- A copy that was stable is the area, at an even generation. -/
theorem copyManifestTries_eq_ok {tries : Nat} (h : copyManifestTries tries manifest = .ok bytes) :
  bytes = Slice.ofBytes (manifest.mem.read 0 manifest.len) ∧
    manifest.mem.u64 offGeneration % 2 = 0
  := by
  induction tries with
  | zero => cases h
  | succ tries ih =>
      obtain ⟨before, hread, h⟩ := Res.bind_eq_ok.mp h
      split at h
      · exact ih h
      · rename_i heven
        obtain ⟨after, hread', h⟩ := Res.bind_eq_ok.mp h
        obtain ⟨_, hbefore⟩ := Res.seq_eq_ok.mp hread
        split at h
        · obtain rfl := Res.ok.inj h
          obtain rfl := Res.ok.inj hbefore
          exact ⟨rfl, not_not.mp heven⟩
        · exact ih h

/-- Below the length of the area the copy has its bytes. -/
theorem copy_mem {i : Nat} (hi : i < manifest.len) :
  (Slice.ofBytes (manifest.mem.read 0 manifest.len)).mem i = manifest.mem i
  := by
  rw [Slice.ofBytes_read_mem hi, Nat.zero_add]

theorem copy_len (manifest : Slice) :
  (Slice.ofBytes (manifest.mem.read 0 manifest.len)).len = manifest.len
  := ByteMem.length_read ..

/-- The header of a copy is the header of the area. -/
theorem readFrom_copy (h : ManifestHeader.readFrom
    (Slice.ofBytes (manifest.mem.read 0 manifest.len)) = .ok hdr) :
  hdr = ManifestHeader.ofMem manifest.mem
  := by
  obtain ⟨hlen, h⟩ := Res.seq_eq_ok.mp h
  rw [Res.failIf_eq_ok, copy_len, Nat.not_lt] at hlen
  rw [← Res.ok.inj h]
  apply ManifestHeader.ofMem_congr
  intro i hi
  exact copy_mem (Nat.lt_of_lt_of_le hi (Nat.le_trans (by decide) hlen))

/-- An entry of a copy is the entry of the area. -/
theorem readEntry_copy {i : Nat} {entry : RegionEntry} (h : RegionEntry.readFrom
    (Slice.ofBytes (manifest.mem.read 0 manifest.len)) i = .ok entry) :
  entry = RegionEntry.ofMem manifest.mem i
  := by
  obtain ⟨_, h⟩ := Res.seq_eq_ok.mp h
  obtain ⟨hlen, h⟩ := Res.seq_eq_ok.mp h
  rw [Res.failIf_eq_ok, copy_len, Nat.not_lt] at hlen
  rw [← Res.ok.inj h]
  apply RegionEntry.ofMem_congr
  intro k hk
  exact copy_mem (Nat.lt_of_lt_of_le (Nat.add_lt_add_left hk _) hlen)

theorem snapshots_of_reads (hcopy : copyManifestStable manifest = .ok bytes)
    (hheader : ManifestHeader.readFrom bytes = .ok hdr) (hvalid : hdr.validate = .ok ()) :
  Snapshots manifest ⟨hdr.regionCount, hdr.generation⟩
  := by
  obtain ⟨rfl, heven⟩ := copyManifestTries_eq_ok hcopy
  obtain rfl := readFrom_copy hheader
  exact ⟨rfl, rfl, heven, hvalid⟩

/-- What `Ready` tells without regions to wait for. -/
theorem snapshots_of_readyManifest {snapshot : ReadyManifest}
    (h : readyManifest manifest = .ok snapshot) :
  Snapshots manifest snapshot
  := by
  obtain ⟨bytes, hcopy, h⟩ := Res.bind_eq_ok.mp h
  obtain ⟨hdr, hheader, h⟩ := Res.bind_eq_ok.mp h
  obtain ⟨hvalid, h⟩ := Res.seq_eq_ok.mp h
  cases h
  exact snapshots_of_reads (Res.mapErr_eq_ok.mp hcopy) (Res.mapErr_eq_ok.mp hheader)
    (Res.mapErr_eq_ok.mp hvalid)

end Copies

/-! ### What the evidence is about -/

/-- The evidence tells of a live entry, below the region count, that has the name and the layout of
the expected region. -/
def Backs (manifest : Slice) (snapshot : ReadyManifest) (expected : Boot.ExpectedRegion)
    (evidence : RegionEvidence) : Prop :=
  ∃ i < snapshot.regionCount.toNat,
    let entry := RegionEntry.ofMem manifest.mem i
    fulfils entry expected ∧
      evidence = evidenceOf entry snapshot.manifestGeneration.toUInt32

section Evidence

variable {manifest : Slice} {snapshot : ReadyManifest} {expected : Boot.ExpectedRegion}
  {generation regionCount : UInt32}

/-- What is found is an entry of a slot that was looked at. -/
theorem findEvidence_eq_some {is : List Nat} {evidence : RegionEvidence}
    (h : findEvidence (Slice.ofBytes (manifest.mem.read 0 manifest.len)) expected generation is
      = .ok (some evidence)) :
  ∃ i ∈ is, fulfils (RegionEntry.ofMem manifest.mem i) expected ∧
    evidence = evidenceOf (RegionEntry.ofMem manifest.mem i) generation
  := by
  induction is with
  | nil => cases h
  | cons i is ih =>
      obtain ⟨entry, hentry, h⟩ := Res.bind_eq_ok.mp h
      obtain rfl := readEntry_copy (Res.mapErr_eq_ok.mp hentry)
      split at h
      · rename_i hfulfils
        cases h
        exact ⟨i, List.mem_cons_self, hfulfils, rfl⟩
      · obtain ⟨k, hk, hrest⟩ := ih h
        exact ⟨k, List.mem_cons_of_mem _ hk, hrest⟩

/-- When nothing is missing there is evidence about each expected region, in their order. -/
theorem collectEvidence_complete {es : List Boot.ExpectedRegion} {evidence : List RegionEvidence}
    (h : collectEvidence (Slice.ofBytes (manifest.mem.read 0 manifest.len)) generation regionCount
      es = .ok ([], evidence)) :
  List.Forall₂ (fun expected evidence => ∃ i < regionCount.toNat,
      fulfils (RegionEntry.ofMem manifest.mem i) expected ∧
        evidence = evidenceOf (RegionEntry.ofMem manifest.mem i) generation)
    es evidence
  := by
  induction es generalizing evidence with
  | nil =>
      cases h
      exact List.Forall₂.nil
  | cons expected es ih =>
      obtain ⟨found, hfound, h⟩ := Res.bind_eq_ok.mp h
      obtain ⟨others, hothers, h⟩ := Res.bind_eq_ok.mp h
      cases found with
      | none => cases h
      | some first =>
          obtain ⟨missing, rest⟩ := others
          cases h
          obtain ⟨i, hi, hfulfils⟩ := findEvidence_eq_some hfound
          exact List.Forall₂.cons ⟨i, List.mem_range.mp hi, hfulfils⟩ (ih hothers)

/-- An open gate: the copy is stable, and there is evidence about each expected region. -/
theorem evidence_backs {es : List Boot.ExpectedRegion} {evidence : List RegionEvidence}
    (h : expectedRegionEvidence manifest es = .ok (snapshot, evidence)) :
  Snapshots manifest snapshot ∧ snapshot.manifestGeneration.toNat < 2 ^ 32 ∧
    List.Forall₂ (Backs manifest snapshot) es evidence
  := by
  obtain ⟨bytes, hcopy, h⟩ := Res.bind_eq_ok.mp h
  obtain ⟨hdr, hheader, h⟩ := Res.bind_eq_ok.mp h
  obtain ⟨hvalid, h⟩ := Res.seq_eq_ok.mp h
  obtain ⟨hsmall, h⟩ := Res.seq_eq_ok.mp h
  obtain ⟨⟨missing, found⟩, hcollect, h⟩ := Res.bind_eq_ok.mp h
  obtain ⟨hmissing, h⟩ := Res.seq_eq_ok.mp h
  rw [Res.failIf_eq_ok, not_not] at hmissing
  subst hmissing
  cases h
  have hcopy := Res.mapErr_eq_ok.mp hcopy
  refine ⟨snapshots_of_reads hcopy (Res.mapErr_eq_ok.mp hheader) (Res.mapErr_eq_ok.mp hvalid),
    Nat.not_le.mp (Res.failIf_eq_ok.mp hsmall), ?_⟩
  obtain ⟨rfl, _⟩ := copyManifestTries_eq_ok hcopy
  exact collectEvidence_complete hcollect

/-- The gate is open exactly when there is evidence. -/
theorem expectedRegionsReady_eq_ok {es : List Boot.ExpectedRegion} :
  expectedRegionsReady manifest es = .ok snapshot ↔
    ∃ evidence, expectedRegionEvidence manifest es = .ok (snapshot, evidence)
  := by
  rw [expectedRegionsReady, Res.bind_eq_ok]
  constructor
  · rintro ⟨⟨_, evidence⟩, hrun, h⟩
    cases h
    exact ⟨evidence, hrun⟩
  · rintro ⟨evidence, hrun⟩
    exact ⟨_, hrun, rfl⟩

end Evidence

end Agent
