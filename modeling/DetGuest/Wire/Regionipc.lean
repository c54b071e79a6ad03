import DetGuest.Wire.Events
import DetGuest.Wire.Manifest

/-!
# Region requests

The messages between a workload and the agent about regions: one datagram is one message.  A
request registers a region under a name or takes one back; a reply carries a status.  The name
ids are allocated by the workload, and the process of the caller never travels in a message.
-/

namespace Wire

namespace Regionipc

/-- Message magic. -/
def magic : UInt32 := 0x52524744

/-- Protocol version. -/
def version : UInt16 := 1

/-- Greatest length of a datagram. -/
def maxDatagram : Nat := 128

/-- Kind of a register request. -/
def kindRegister : UInt16 := 1

/-- Kind of an unregister request. -/
def kindUnregister : UInt16 := 2

/-- Kind of a reply. -/
def kindReply : UInt16 := 3

/-- Greatest length of a name. -/
def maxNameLen : Nat := maxRegionName

/-- The statuses of a reply. -/
inductive Status where
  | ok
  | manifestFull
  | tooManyExtents
  | notPinned
  | nameTooLong
  | badRequest
  | unknownPid
  | unknownRegion
  | internal
  deriving DecidableEq, Repr

/-- The status as the number on the wire. -/
def Status.toU16 : Status → UInt16
  | ok => 0
  | manifestFull => 1
  | tooManyExtents => 2
  | notPinned => 3
  | nameTooLong => 4
  | badRequest => 5
  | unknownPid => 6
  | unknownRegion => 7
  | internal => 8

/-- Length of the header of a message. -/
def headerLen : Nat := 8

/-- Offset of the name in a register request. -/
def regOffName : Nat := 38

/-- Length of an unregister request. -/
def unregLen : Nat := 12

/-- Length of a reply. -/
def replyLen : Nat := 28

/-- A request: publish a range of the caller's memory under a name, or take a region back. -/
inductive Request where
  | register (flags layoutVersion nameId : UInt32) (gva len : UInt64) (name : Bytes)
  | unregister (regionId : UInt32)
  deriving DecidableEq, Repr

/-- A reply.  Its fields beside the status count only when the status is `ok`. -/
structure Reply where
  status : UInt16
  regionId : UInt32
  nameId : UInt32
  manifestGeneration : UInt64
  deriving DecidableEq, Repr

/-! ### Encoders -/

/-- Write the header of a message. -/
def writeHeader (kind : UInt16) : Exec Bytes EncodeError Unit := do
  Bytes.put 0 (Bytes.ofU32 magic)
  Bytes.put 4 (Bytes.ofU16 version)
  Bytes.put 6 (Bytes.ofU16 kind)

/-- Encode a request; returns the length of the datagram. -/
def encodeRequest (req : Request) : Exec Bytes EncodeError Nat :=
  match req with
  | .register flags layoutVersion nameId gva len name => do
      Exec.failIf (name = [] ∨ name.length > maxNameLen) .fieldTooLong
      let total := regOffName + name.length
      let out ← Exec.get
      Exec.failIf (out.length < total) .bufferTooSmall
      writeHeader kindRegister
      putU32 8 flags
      putU32 12 layoutVersion
      putU32 16 nameId
      putU64 20 gva
      putU64 28 len
      Bytes.put 36 (Bytes.ofU16 (UInt16.ofNat name.length))
      Bytes.put regOffName name
      pure total
  | .unregister regionId => do
      let out ← Exec.get
      Exec.failIf (out.length < unregLen) .bufferTooSmall
      writeHeader kindUnregister
      putU32 8 regionId
      pure unregLen

/-- Encode a reply; returns the length of the datagram. -/
def encodeReply (reply : Reply) : Exec Bytes EncodeError Nat := do
  let out ← Exec.get
  Exec.failIf (out.length < replyLen) .bufferTooSmall
  writeHeader kindReply
  Bytes.put 8 (Bytes.ofU16 reply.status)
  Bytes.put 10 (Bytes.ofU16 0)
  putU32 12 reply.regionId
  putU32 16 reply.nameId
  putU64 20 reply.manifestGeneration
  pure replyLen

/-! ### Decoders -/

/-- Check the header of a message; returns its kind. -/
def checkHeader (bytes : Bytes) : Res DecodeError UInt16 := do
  Res.failIf (bytes.length < headerLen) .truncated
  Res.failIf ((← getU32 bytes 0) ≠ magic) .badMagic
  Res.failIf ((← getU16 bytes 4) ≠ version) .badVersion
  getU16 bytes 6

/-- Decode a register request behind its header. -/
def decodeRegister (bytes : Bytes) : Res DecodeError Request := do
  Res.failIf (bytes.length < regOffName) .truncated
  let flags ← getU32 bytes 8
  let layoutVersion ← getU32 bytes 12
  let nameId ← getU32 bytes 16
  let gva ← getU64 bytes 20
  let len ← getU64 bytes 28
  let nameLen := (← getU16 bytes 36).toNat
  Res.failIf (nameLen = 0 ∨ nameLen > maxNameLen) .badField
  Res.failIf (bytes.length < regOffName + nameLen) .truncated
  Res.failIf (bytes.length ≠ regOffName + nameLen) .badLen
  Res.failIf (flags &&& regionFlagDead ≠ 0 ∨ nameId = 0 ∨ len = 0) .badField
  pure (.register flags layoutVersion nameId gva len
    (← bytes.slice regOffName (regOffName + nameLen)))

/-- Decode a request.  Trailing bytes are rejected. -/
def decodeRequest (bytes : Bytes) : Res DecodeError Request := do
  let kind ← checkHeader bytes
  if kind = kindRegister then
    decodeRegister bytes
  else if kind = kindUnregister then
    Res.failIf (bytes.length < unregLen) .truncated
    Res.failIf (bytes.length ≠ unregLen) .badLen
    pure (.unregister (← getU32 bytes 8))
  else
    .err .badField

/-- Decode a reply. -/
def decodeReply (bytes : Bytes) : Res DecodeError Reply := do
  Res.failIf ((← checkHeader bytes) ≠ kindReply) .badField
  Res.failIf (bytes.length < replyLen) .truncated
  Res.failIf (bytes.length ≠ replyLen) .badLen
  pure
    { status := ← getU16 bytes 8
      regionId := ← getU32 bytes 12
      nameId := ← getU32 bytes 16
      manifestGeneration := ← getU64 bytes 20 }

/-- What a register request that was decoded keeps to. -/
theorem decodeRequest_register {bytes : Bytes} {flags layoutVersion nameId : UInt32}
    {gva len : UInt64} {name : Bytes}
    (h : decodeRequest bytes = .ok (.register flags layoutVersion nameId gva len name)) :
  flags &&& regionFlagDead = 0 ∧ name ≠ [] ∧ name.length ≤ maxRegionName
  := by
  obtain ⟨kind, _, h⟩ := Res.bind_eq_ok.mp h
  split at h
  · obtain ⟨_, h⟩ := Res.seq_eq_ok.mp h
    obtain ⟨flags', _, h⟩ := Res.bind_eq_ok.mp h
    obtain ⟨layoutVersion', _, h⟩ := Res.bind_eq_ok.mp h
    obtain ⟨nameId', _, h⟩ := Res.bind_eq_ok.mp h
    obtain ⟨gva', _, h⟩ := Res.bind_eq_ok.mp h
    obtain ⟨len', _, h⟩ := Res.bind_eq_ok.mp h
    obtain ⟨nameLen, _, h⟩ := Res.bind_eq_ok.mp h
    obtain ⟨hrange, h⟩ := Res.seq_eq_ok.mp h
    obtain ⟨hshort, h⟩ := Res.seq_eq_ok.mp h
    obtain ⟨_, h⟩ := Res.seq_eq_ok.mp h
    obtain ⟨hfield, h⟩ := Res.seq_eq_ok.mp h
    obtain ⟨name', hname, h⟩ := Res.bind_eq_ok.mp h
    obtain ⟨rfl, rfl, rfl, rfl, rfl, rfl⟩ := Request.register.inj (Res.ok.inj h)
    rw [Res.failIf_eq_ok] at hrange hshort hfield
    have hle : regOffName + nameLen.toNat ≤ bytes.length := Nat.not_lt.mp hshort
    rw [Bytes.slice_of_le (Nat.le_add_right ..) hle] at hname
    have hlen : name'.length = nameLen.toNat := by
      rw [← Res.ok.inj hname, Bytes.length_extract]
      omega
    refine ⟨?_, ?_, ?_⟩
    · by_contra hflags
      exact hfield (Or.inl hflags)
    · intro hnil
      apply hrange
      left
      rw [← hlen, hnil]
      rfl
    · rw [hlen]
      exact Nat.not_lt.mp fun hlt => hrange (Or.inr hlt)
  · split at h
    · obtain ⟨_, h⟩ := Res.seq_eq_ok.mp h
      obtain ⟨_, h⟩ := Res.seq_eq_ok.mp h
      obtain ⟨_, _, h⟩ := Res.bind_eq_ok.mp h
      cases h
    · cases h

end Regionipc

end Wire
