import DetGuest.Agent.Boot
import DetGuest.Agent.Ledger

/-!
# What `Ready` tells

The agent tells the host with `Ready` how many regions the manifest counts, and at which
generation.  It reads them from a copy of the manifest area that no write was open in.
-/

namespace Agent

open Wire

/-- Copies of the manifest area before the agent gives up. -/
def stableTries : Nat := 1024

/-- Copy the manifest area with at most the given number of tries.  The agent is the only writer of
the area, so that all tries find the same bytes. -/
def copyManifestTries : Nat → Slice → Res DecodeError Slice
  | 0, _ => .err .badField
  | n + 1, manifest => do
      let before ← readGeneration manifest
      if before % 2 ≠ 0 then
        copyManifestTries n manifest
      else do
        let copy := Slice.ofBytes (manifest.mem.read 0 manifest.len)
        let after ← readGeneration manifest
        if before = after ∧ after % 2 = 0 then
          pure copy
        else
          copyManifestTries n manifest

/-- `copy_manifest_stable`. -/
def copyManifestStable (manifest : Slice) : Res DecodeError Slice :=
  copyManifestTries stableTries manifest

/-- Why the agent is not ready. -/
inductive ReadyError where
  | read (e : DecodeError)
  | decode (e : DecodeError)
  | validate (e : DecodeError)
  deriving DecidableEq, Repr

/-- What `Ready` tells about the manifest. -/
structure ReadyManifest where
  regionCount : UInt32
  manifestGeneration : UInt64
  deriving DecidableEq, Repr

/-- What `Ready` tells without regions to wait for. -/
def readyManifest (manifest : Slice) : Res ReadyError ReadyManifest := do
  let bytes ← (copyManifestStable manifest).mapErr .read
  let hdr ← (ManifestHeader.readFrom bytes).mapErr .decode
  hdr.validate.mapErr .validate
  pure { regionCount := hdr.regionCount, manifestGeneration := hdr.generation }

variable {m : Slice} {g : UInt64} {n p : Nat}

/-- A manifest at rest is copied at the first try. -/
theorem Headed.copyManifestStable (h : Headed m g n p) :
  Agent.copyManifestStable m = .ok (Slice.ofBytes (m.mem.read 0 m.len))
  := by
  rw [Agent.copyManifestStable, stableTries, copyManifestTries, readGeneration_eq h.len,
    h.generation, Res.ok_bind, if_neg (not_not.mpr h.even), Res.ok_bind, if_pos ⟨rfl, h.even⟩]
  rfl

/-- `Ready` tells the counts of the header. -/
theorem Headed.readyManifest (h : Headed m g n p) :
  Agent.readyManifest m = .ok ⟨UInt32.ofNat n, g⟩
  := by
  have hmem : ManifestHeader.ofMem (Slice.ofBytes (m.mem.read 0 m.len)).mem
      = canonicalHeader g n p := by
    rw [← h.header]
    apply ManifestHeader.ofMem_congr
    intro i hi
    rw [Slice.ofBytes_read_mem (by rw [h.len]; exact Nat.lt_of_lt_of_le hi (by decide)),
      Nat.zero_add]
  have hlong : ¬ (Slice.ofBytes (m.mem.read 0 m.len)).len < offEntries := by
    rw [Slice.ofBytes, ByteMem.length_read, h.len]
    decide
  rw [Agent.readyManifest, h.copyManifestStable, Res.mapErr_ok, Res.ok_bind,
    ManifestHeader.readFrom, Res.failIf_of_not hlong, Res.ok_bind, hmem]
  change (do
    let hdr ← (Res.ok (canonicalHeader g n p)).mapErr ReadyError.decode
    hdr.validate.mapErr ReadyError.validate
    pure (⟨hdr.regionCount, hdr.generation⟩ : ReadyManifest)) = _
  rw [Res.mapErr_ok, Res.ok_bind, h.validate, Res.mapErr_ok, Res.ok_bind]
  rfl

end Agent
