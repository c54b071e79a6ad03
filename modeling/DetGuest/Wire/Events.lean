import DetGuest.Wire.Record

/-!
# Typed payloads and whole-record codecs

The event payloads of rings A and W, the commands of ring C and the workload-control
records of ring I, with the encoders and decoders of whole records.  Byte strings are
raw: that they are UTF-8 is the producer's contract.
-/

namespace Wire

/-- Greatest length of `AssertViolation.details`. -/
def maxDetails : Nat := 512

/-- Greatest length of `LogLine.msg`. -/
def maxLogMsg : Nat := 1024

/-- Greatest length of `NameIntern.name`. -/
def maxName : Nat := 256

/-- The modes of a `Quiesce` command. -/
inductive QuiesceMode where
  | coop
  | forced
  deriving DecidableEq, Repr

/-- The mode as the number on the wire. -/
def QuiesceMode.toU32 : QuiesceMode → UInt32
  | coop => 0
  | forced => 1

/-- The modes of a `Shutdown` command. -/
inductive ShutdownMode where
  | graceful
  | immediate
  deriving DecidableEq, Repr

/-- The mode as the number on the wire. -/
def ShutdownMode.toU32 : ShutdownMode → UInt32
  | graceful => 0
  | immediate => 1

/-- Common payload of `RegionRegister` and `RegionUpdate`. -/
structure RegionEvent where
  regionId : UInt32
  nameId : UInt32
  layoutVersion : UInt32
  manifestGeneration : UInt32
  deriving DecidableEq, Repr

/-- A payload of rings A and W. -/
inductive EventPayload where
  | pad
  | hello (protoVersion agentVersion : UInt32) (capabilities : UInt64)
  | nameIntern (nameId : UInt32) (name : Bytes)
  | assertViolation (nameId violationCount : UInt32) (details : Bytes)
  | reachable (nameId : UInt32)
  | beacon (beaconId : UInt32)
  | injectQuery (iseq nameId : UInt32)
  | regionRegister (r : RegionEvent)
  | regionUpdate (r : RegionEvent)
  | workloadStarted (guestPid unit : UInt32)
  | workloadExited (guestPid : UInt32) (exitCode termSignal : Int32)
  | logLine (stream level : UInt8) (msg : Bytes)
  | quiesceReady (token : UInt64)
  | frameMark (frameIndex : UInt32)
  | ready (unit regionCount : UInt32) (manifestGeneration : UInt64)
  deriving DecidableEq, Repr

/-- A command of ring C. -/
inductive Command where
  | startWorkload (unit logMask : UInt32)
  | quiesce (token : UInt64) (mode : QuiesceMode)
  | resume (token : UInt64)
  | shutdown (mode : ShutdownMode)
  | setLogMask (mask : UInt32)
  | reverifyRegions
  deriving DecidableEq, Repr

/-- A workload-control record of ring I. -/
inductive WorkloadCtrl where
  | quiesceReq (token : UInt64)
  | resume (token : UInt64)
  deriving DecidableEq, Repr

/-! ### Fields -/

/-- The `u16` at an offset of a payload. -/
def getU16 (b : Bytes) (pos : Nat) : Res DecodeError UInt16 := do
  pure (← b.slice pos (pos + 2)).toU16

/-- The `u32` at an offset of a payload. -/
def getU32 (b : Bytes) (pos : Nat) : Res DecodeError UInt32 := do
  pure (← b.slice pos (pos + 4)).toU32

/-- The `u64` at an offset of a payload. -/
def getU64 (b : Bytes) (pos : Nat) : Res DecodeError UInt64 := do
  pure (← b.slice pos (pos + 8)).toU64

/-- Write a `u32` at an offset of the payload. -/
def putU32 (pos : Nat) (v : UInt32) : Exec Bytes EncodeError Unit :=
  Bytes.put pos (Bytes.ofU32 v)

/-- Write a `u64` at an offset of the payload. -/
def putU64 (pos : Nat) (v : UInt64) : Exec Bytes EncodeError Unit :=
  Bytes.put pos (Bytes.ofU64 v)

/-! ### Encoders -/

/-- Write a record with a payload of `payloadLen` bytes that `fill` writes. -/
def encodeWith (dbg : Bool) (kind flags : UInt8) (seq : UInt32) (vnanos : UInt64)
    (payloadLen : Nat) (fill : Exec Bytes EncodeError Unit) : Exec Bytes EncodeError Nat := do
  let total := recordLen payloadLen
  Exec.debugAssert dbg (total ≤ maxRecordLen)
  let buf ← Exec.get
  Exec.failIf (buf.length < total) .bufferTooSmall
  let hdr : RecordHeader := { len := UInt16.ofNat total, kind, flags, seq, vnanos }
  Bytes.put 0 (Bytes.zeros total)
  hdr.writeTo
  Bytes.within recordHeaderLen (recordHeaderLen + payloadLen) fill
  pure total

/-- Encode an event record of ring A or W.  Details and messages over their cap are
clipped and flagged; a name over its cap is an error. -/
def encodeEvent (dbg : Bool) (seq : UInt32) (vnanos : UInt64) (extraFlags : UInt8)
    (ev : EventPayload) : Exec Bytes EncodeError Nat :=
  match ev with
  | .pad => do
      let _ ← encodePad dbg recordHeaderLen seq
      pure recordHeaderLen
  | .hello protoVersion agentVersion capabilities =>
      encodeWith dbg EventKind.hello.toU8 extraFlags seq vnanos 16 do
        putU32 0 protoVersion
        putU32 4 agentVersion
        putU64 8 capabilities
  | .nameIntern nameId name => do
      Exec.failIf (name.length > maxName) .fieldTooLong
      encodeWith dbg EventKind.nameIntern.toU8 extraFlags seq vnanos (8 + name.length) do
        putU32 0 nameId
        Bytes.put 4 (Bytes.ofU16 (UInt16.ofNat name.length))
        Bytes.put 8 name
  | .assertViolation nameId violationCount details =>
      let clipped := details.take maxDetails
      let flags := extraFlags ||| if clipped.length < details.length then flagTruncated else 0
      encodeWith dbg EventKind.assertViolation.toU8 flags seq vnanos (16 + clipped.length) do
        putU32 0 nameId
        putU32 4 violationCount
        Bytes.put 8 (Bytes.ofU16 (UInt16.ofNat clipped.length))
        Bytes.put 16 clipped
  | .reachable nameId =>
      encodeWith dbg EventKind.reachable.toU8 extraFlags seq vnanos 8 (putU32 0 nameId)
  | .beacon beaconId =>
      encodeWith dbg EventKind.beacon.toU8 extraFlags seq vnanos 8 (putU32 0 beaconId)
  | .injectQuery iseq nameId =>
      encodeWith dbg EventKind.injectQuery.toU8 extraFlags seq vnanos 8 do
        putU32 0 iseq
        putU32 4 nameId
  | .regionRegister r | .regionUpdate r =>
      let kind := match ev with
        | .regionRegister _ => EventKind.regionRegister
        | _ => EventKind.regionUpdate
      encodeWith dbg kind.toU8 extraFlags seq vnanos 16 do
        putU32 0 r.regionId
        putU32 4 r.nameId
        putU32 8 r.layoutVersion
        putU32 12 r.manifestGeneration
  | .workloadStarted guestPid unit =>
      encodeWith dbg EventKind.workloadStarted.toU8 extraFlags seq vnanos 8 do
        putU32 0 guestPid
        putU32 4 unit
  | .workloadExited guestPid exitCode termSignal =>
      encodeWith dbg EventKind.workloadExited.toU8 extraFlags seq vnanos 16 do
        putU32 0 guestPid
        putU32 4 exitCode.toUInt32
        putU32 8 termSignal.toUInt32
  | .logLine stream level msg =>
      let clipped := msg.take maxLogMsg
      let flags := extraFlags ||| if clipped.length < msg.length then flagTruncated else 0
      encodeWith dbg EventKind.logLine.toU8 flags seq vnanos (8 + clipped.length) do
        Bytes.put 0 [stream]
        Bytes.put 1 [level]
        Bytes.put 2 (Bytes.ofU16 (UInt16.ofNat clipped.length))
        Bytes.put 8 clipped
  | .quiesceReady token =>
      encodeWith dbg EventKind.quiesceReady.toU8 extraFlags seq vnanos 8 (putU64 0 token)
  | .frameMark frameIndex =>
      encodeWith dbg EventKind.frameMark.toU8 extraFlags seq vnanos 8 (putU32 0 frameIndex)
  | .ready unit regionCount manifestGeneration =>
      encodeWith dbg EventKind.ready.toU8 extraFlags seq vnanos 16 do
        putU32 0 unit
        putU32 4 regionCount
        putU64 8 manifestGeneration

/-- The length of the record of an event, after clipping. -/
def encodedEventLen (ev : EventPayload) : Nat :=
  match ev with
  | .pad => recordHeaderLen
  | .hello _ _ _ | .regionRegister _ | .regionUpdate _ | .workloadExited _ _ _
  | .ready _ _ _ => recordLen 16
  | .nameIntern _ name => recordLen (8 + name.length)
  | .assertViolation _ _ details => recordLen (16 + min details.length maxDetails)
  | .logLine _ _ msg => recordLen (8 + min msg.length maxLogMsg)
  | .reachable _ | .beacon _ | .injectQuery _ _ | .workloadStarted _ _ | .quiesceReady _
  | .frameMark _ => recordLen 8

/-- Encode a command record of ring C; its time stamp is zero. -/
def encodeCommand (dbg : Bool) (seq : UInt32) (cmd : Command) : Exec Bytes EncodeError Nat :=
  match cmd with
  | .startWorkload unit logMask =>
      encodeWith dbg CommandKind.startWorkload.toU8 0 seq 0 8 do
        putU32 0 unit
        putU32 4 logMask
  | .quiesce token mode =>
      encodeWith dbg CommandKind.quiesce.toU8 0 seq 0 16 do
        putU64 0 token
        putU32 8 mode.toU32
  | .resume token =>
      encodeWith dbg CommandKind.resume.toU8 0 seq 0 8 (putU64 0 token)
  | .shutdown mode =>
      encodeWith dbg CommandKind.shutdown.toU8 0 seq 0 8 (putU32 0 mode.toU32)
  | .setLogMask mask =>
      encodeWith dbg CommandKind.setLogMask.toU8 0 seq 0 8 (putU32 0 mask)
  | .reverifyRegions =>
      encodeWith dbg CommandKind.reverifyRegions.toU8 0 seq 0 0 (pure ())

/-- Encode a workload-control record of ring I. -/
def encodeWorkloadCtrl (dbg : Bool) (seq : UInt32) (vnanos : UInt64) (rec : WorkloadCtrl) :
    Exec Bytes EncodeError Nat :=
  match rec with
  | .quiesceReq token =>
      encodeWith dbg WorkloadCtrlKind.quiesceReq.toU8 0 seq vnanos 8 (putU64 0 token)
  | .resume token =>
      encodeWith dbg WorkloadCtrlKind.resume.toU8 0 seq vnanos 8 (putU64 0 token)

/-! ### Decoders -/

/-- Decode the payload of an event of the given kind. -/
def decodeEventPayload (kind : EventKind) (payload : Bytes) : Res DecodeError EventPayload :=
  match kind with
  | .pad => pure .pad
  | .hello => do
      Res.failIf (payload.length < 16) .badLen
      pure (.hello (← getU32 payload 0) (← getU32 payload 4) (← getU64 payload 8))
  | .nameIntern => do
      Res.failIf (payload.length < 8) .badLen
      let nameLen := (← getU16 payload 4).toNat
      Res.failIf (nameLen > maxName ∨ 8 + nameLen > payload.length) .badField
      pure (.nameIntern (← getU32 payload 0) (← payload.slice 8 (8 + nameLen)))
  | .assertViolation => do
      Res.failIf (payload.length < 16) .badLen
      let detailsLen := (← getU16 payload 8).toNat
      Res.failIf (detailsLen > maxDetails ∨ 16 + detailsLen > payload.length) .badField
      pure (.assertViolation (← getU32 payload 0) (← getU32 payload 4)
        (← payload.slice 16 (16 + detailsLen)))
  | .reachable => do
      Res.failIf (payload.length < 8) .badLen
      pure (.reachable (← getU32 payload 0))
  | .beacon => do
      Res.failIf (payload.length < 8) .badLen
      pure (.beacon (← getU32 payload 0))
  | .injectQuery => do
      Res.failIf (payload.length < 8) .badLen
      pure (.injectQuery (← getU32 payload 0) (← getU32 payload 4))
  | .regionRegister | .regionUpdate => do
      Res.failIf (payload.length < 16) .badLen
      let r : RegionEvent :=
        { regionId := ← getU32 payload 0
          nameId := ← getU32 payload 4
          layoutVersion := ← getU32 payload 8
          manifestGeneration := ← getU32 payload 12 }
      pure (if kind = .regionRegister then .regionRegister r else .regionUpdate r)
  | .workloadStarted => do
      Res.failIf (payload.length < 8) .badLen
      pure (.workloadStarted (← getU32 payload 0) (← getU32 payload 4))
  | .workloadExited => do
      Res.failIf (payload.length < 16) .badLen
      pure (.workloadExited (← getU32 payload 0) (← getU32 payload 4).toInt32
        (← getU32 payload 8).toInt32)
  | .logLine => do
      Res.failIf (payload.length < 8) .badLen
      let msgLen := (← getU16 payload 2).toNat
      Res.failIf (msgLen > maxLogMsg ∨ 8 + msgLen > payload.length) .badField
      pure (.logLine (← payload.byte 0) (← payload.byte 1) (← payload.slice 8 (8 + msgLen)))
  | .quiesceReady => do
      Res.failIf (payload.length < 8) .badLen
      pure (.quiesceReady (← getU64 payload 0))
  | .frameMark => do
      Res.failIf (payload.length < 8) .badLen
      pure (.frameMark (← getU32 payload 0))
  | .ready => do
      Res.failIf (payload.length < 16) .badLen
      pure (.ready (← getU32 payload 0) (← getU32 payload 4) (← getU64 payload 8))

/-- Decode one event record. -/
def decodeEvent (bytes : Bytes) : Res DecodeError (RecordHeader × EventPayload) := do
  let hdr ← RecordHeader.readFrom bytes
  let payload ← bytes.slice hdr.payloadRange.1 hdr.payloadRange.2
  match EventKind.fromU8 hdr.kind with
  | none => .err (.unknownKind hdr.kind)
  | some kind => do
      let ev ← decodeEventPayload kind payload
      pure (hdr, ev)

/-- Decode the payload of a command of the given kind. -/
def decodeCommandPayload (kind : CommandKind) (payload : Bytes) : Res DecodeError Command :=
  match kind with
  | .startWorkload => do
      Res.failIf (payload.length < 8) .badLen
      pure (.startWorkload (← getU32 payload 0) (← getU32 payload 4))
  | .quiesce => do
      Res.failIf (payload.length < 16) .badLen
      let mode ← match ← getU32 payload 8 with
        | 0 => pure QuiesceMode.coop
        | 1 => pure QuiesceMode.forced
        | _ => .err .badField
      pure (.quiesce (← getU64 payload 0) mode)
  | .resume => do
      Res.failIf (payload.length < 8) .badLen
      pure (.resume (← getU64 payload 0))
  | .shutdown => do
      Res.failIf (payload.length < 8) .badLen
      let mode ← match ← getU32 payload 0 with
        | 0 => pure ShutdownMode.graceful
        | 1 => pure ShutdownMode.immediate
        | _ => .err .badField
      pure (.shutdown mode)
  | .setLogMask => do
      Res.failIf (payload.length < 8) .badLen
      pure (.setLogMask (← getU32 payload 0))
  | .reverifyRegions => pure .reverifyRegions

/-- Decode one command record. -/
def decodeCommand (bytes : Bytes) : Res DecodeError (RecordHeader × Command) := do
  let hdr ← RecordHeader.readFrom bytes
  let payload ← bytes.slice hdr.payloadRange.1 hdr.payloadRange.2
  match CommandKind.fromU8 hdr.kind with
  | none => .err (.unknownKind hdr.kind)
  | some kind => do
      let cmd ← decodeCommandPayload kind payload
      pure (hdr, cmd)

/-- Decode the payload of a workload-control record of the given kind. -/
def decodeWorkloadCtrlPayload (kind : WorkloadCtrlKind) (payload : Bytes) :
    Res DecodeError WorkloadCtrl :=
  match kind with
  | .quiesceReq => do
      Res.failIf (payload.length < 8) .badLen
      pure (.quiesceReq (← getU64 payload 0))
  | .resume => do
      Res.failIf (payload.length < 8) .badLen
      pure (.resume (← getU64 payload 0))

/-- Decode one workload-control record. -/
def decodeWorkloadCtrl (bytes : Bytes) : Res DecodeError (RecordHeader × WorkloadCtrl) := do
  let hdr ← RecordHeader.readFrom bytes
  let payload ← bytes.slice hdr.payloadRange.1 hdr.payloadRange.2
  match WorkloadCtrlKind.fromU8 hdr.kind with
  | none => .err (.unknownKind hdr.kind)
  | some kind => do
      let rec ← decodeWorkloadCtrlPayload kind payload
      pure (hdr, rec)

end Wire
