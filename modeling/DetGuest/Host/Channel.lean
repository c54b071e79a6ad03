import Std.Data.ExtTreeMap
import DetGuest.Lib.Utf8
import DetGuest.Wire.Header

/-!
# The host's channel

Access to guest memory, attaching to a channel, and the state the host keeps beside guest
memory.  The host calls run over the channel, the trace of the mutations reported to the
sink and the trace of the accesses to guest memory.
-/

namespace Host

open Wire

/-! ### Guest memory -/

/-- Errors of accesses to guest memory. -/
inductive MemError where
  | unmapped (gpa len : Nat)
  | overflow
  deriving DecidableEq, Repr

/-- Guest memory as the hypervisor gives access to it: the bytes, and the accesses it
refuses. -/
structure GuestMem where
  bytes : ByteMem
  readErr : Nat → Nat → Option MemError
  writeErr : Nat → Nat → Option MemError

/-- Read `len` bytes at `gpa`. -/
def GuestMem.read (gm : GuestMem) (gpa len : Nat) : Res MemError Bytes :=
  match gm.readErr gpa len with
  | some e => .err e
  | none => .ok (gm.bytes.read gpa len)

/-- Write bytes at `gpa`; a refused write changes nothing. -/
def GuestMem.write (gm : GuestMem) (gpa : Nat) (bs : Bytes) : Res MemError GuestMem :=
  match gm.writeErr gpa bs.length with
  | some e => .err e
  | none => .ok { gm with bytes := gm.bytes.write gpa bs }

/-- The base of a channel page.  The page lies inside the 64-bit address space, so the
addresses computed from the base do not overflow. -/
structure PageBase where
  gpa : Nat
  fits : gpa + channelSize ≤ 2 ^ 64

/-! ### Reports -/

/-- A mutation reported to the sink. -/
inductive SinkOp where
  | ringPush (ring : RingId) (bytes : Bytes) (newProd : UInt32)
  | consBump (ring : RingId) (newCons : UInt32)
  | pioAnswer (port : UInt16) (value : UInt32)
  deriving DecidableEq, Repr

/-- An access to guest memory. -/
inductive Access where
  | read (gpa len : Nat)
  | write (gpa : Nat) (bytes : Bytes)
  deriving DecidableEq, Repr

/-- Errors of reading channel memory. -/
inductive WireError where
  | mem (e : MemError)
  | decode (e : DecodeError)
  | corruptIndices (ring : RingId)
  | seqlockLivelock
  deriving DecidableEq, Repr

/-- Errors of pushing a record. -/
inductive PushError where
  | ringFull
  | mem (e : MemError)
  | encode (e : EncodeError)
  deriving DecidableEq, Repr

/-! ### Channels -/

/-- `BTreeMap` keyed by `u32`. -/
abbrev BTreeMap (α : Type) : Type := Std.ExtTreeMap UInt32 α compare

/-- An interned name, in the lossy form the host caches. -/
structure InternEntry where
  name : Bytes
  reachableDecl : Bool
  deriving DecidableEq, Repr

/-- An attached channel. -/
structure Channel where
  gm : GuestMem
  base : PageBase
  header : ChannelHeader
  interns : BTreeMap InternEntry
  pendingInjects : BTreeMap UInt32
  nextSeqC : UInt32
  nextSeqI : UInt32
  unknownKindRecords : Nat
  unmatchedInjects : Nat
  internRedefinitions : Nat

/-- Why attaching was refused. -/
inductive AttachError where
  | badMagic (found : UInt64)
  | badVersion (found : UInt32)
  | ringOutOfBounds (ring : RingId)
  | badRingSize (ring : RingId)
  | ringsOverlap
  | mem (e : MemError)
  | alreadyAttached
  deriving DecidableEq, Repr

/-- The check of one descriptor. -/
def checkDesc (ring : RingId) (d : RingDesc) : Res AttachError Unit := do
  Res.failIf (d.size = 0 ∨ ¬ Word.isPowerOfTwo d.size) (.badRingSize ring)
  match d.validate with
  | .err _ => .err (.ringOutOfBounds ring)
  | .ok () => .ok ()
  | .panic => .panic

/-- Whether two data areas share a byte. -/
def RingsOverlap (a b : RingDesc) : Prop :=
  a.offset.toNat < b.offset.toNat + b.size.toNat ∧ b.offset.toNat < a.offset.toNat + a.size.toNat

instance (a b : RingDesc) : Decidable (RingsOverlap a b) :=
  inferInstanceAs (Decidable (_ ∧ _))

/-- The checks of a header: magic, version, the descriptors, and that no two data areas
overlap. -/
def checkHeader (header : ChannelHeader) : Res AttachError Unit := do
  Res.failIf (header.magic ≠ channelMagic) (.badMagic header.magic)
  Res.failIf (header.protoVersion ≠ protoVersion) (.badVersion header.protoVersion)
  for ring in RingId.all do
    checkDesc ring (header.ringDesc ring)
  for pair in ringPairs do
    Res.failIf (RingsOverlap (header.ringDesc pair.1) (header.ringDesc pair.2)) .ringsOverlap

/-- A channel with the given header and empty host state. -/
def Channel.fresh (gm : GuestMem) (base : PageBase) (header : ChannelHeader) : Channel :=
  { gm, base, header
    interns := ∅
    pendingInjects := ∅
    nextSeqC := 0
    nextSeqI := 0
    unknownKindRecords := 0
    unmatchedInjects := 0
    internRedefinitions := 0 }

/-- Attach to the channel at `base`. -/
def attach (gm : GuestMem) (base : PageBase) : Res AttachError Channel := do
  let hdrBytes ← (gm.read base.gpa offReserved).mapErr .mem
  match ChannelHeader.readFrom hdrBytes with
  | .ok header => do
      checkHeader header
      pure (Channel.fresh gm base header)
  | _ => .panic

/-! ### Checkpoints -/

/-- The sequence numbers the host cannot reconstruct. -/
structure ProducerSeqs where
  ringC : UInt32
  ringI : UInt32
  deriving DecidableEq, Repr

/-- One entry of the intern table, for a checkpoint. -/
structure InternSnapshotEntry where
  nameId : UInt32
  name : Bytes
  reachableDecl : Bool
  deriving DecidableEq, Repr

namespace Channel

def producerSeqs (ch : Channel) : ProducerSeqs :=
  { ringC := ch.nextSeqC, ringI := ch.nextSeqI }

def restoreProducerSeqs (ch : Channel) (seqs : ProducerSeqs) : Channel :=
  { ch with nextSeqC := seqs.ringC, nextSeqI := seqs.ringI }

/-- The intern table in the order of the ids. -/
def internsSnapshot (ch : Channel) : List InternSnapshotEntry :=
  ch.interns.toList.map fun (id, e) =>
    { nameId := id, name := e.name, reachableDecl := e.reachableDecl }

/-- Replace the intern table; the table of a restored channel should be empty. -/
def restoreInterns (dbg : Bool) (entries : List InternSnapshotEntry) :
    Exec Channel Empty Unit := do
  let ch ← Exec.get
  Exec.debugAssert dbg (ch.interns.isEmpty)
  Exec.set { ch with
    interns := Std.ExtTreeMap.ofList (entries.map fun e =>
      (e.nameId, { name := e.name, reachableDecl := e.reachableDecl })) compare }

/-- The table of unanswered queries in the order of the sequence numbers. -/
def pendingInjectsSnapshot (ch : Channel) : List (UInt32 × UInt32) :=
  ch.pendingInjects.toList

/-- Replace the table of unanswered queries. -/
def restorePendingInjects (dbg : Bool) (entries : List (UInt32 × UInt32)) :
    Exec Channel Empty Unit := do
  let ch ← Exec.get
  Exec.debugAssert dbg (ch.pendingInjects.isEmpty)
  Exec.set { ch with pendingInjects := Std.ExtTreeMap.ofList entries compare }

/-! ### Lookups -/

def ringDesc (ch : Channel) (ring : RingId) : RingDesc := ch.header.ringDesc ring

def prodGpa (ch : Channel) (ring : RingId) : Nat := ch.base.gpa + ring.prodOffset

def consGpa (ch : Channel) (ring : RingId) : Nat := ch.base.gpa + ring.consOffset

def dataGpa (ch : Channel) (ring : RingId) : Nat :=
  ch.base.gpa + (ch.ringDesc ring).offset.toNat

/-- The name of an interned id. -/
def internName (ch : Channel) (id : UInt32) : Option Bytes :=
  (ch.interns[id]?).map InternEntry.name

/-- The ids that are interned as targets of reachability, in their order. -/
def declaredReachables (ch : Channel) : List UInt32 :=
  (ch.interns.toList.filter fun e => e.2.reachableDecl).map Prod.fst

end Channel

/-! ### Calls -/

/-- The state of a host call: the channel, what was reported to the sink and how guest
memory was accessed. -/
structure HostState where
  ch : Channel
  sink : List SinkOp
  io : List Access

/-- Read guest memory. -/
def gmRead (gpa len : Nat) : Exec HostState MemError Bytes := do
  let h ← Exec.get
  Exec.set { h with io := h.io ++ [.read gpa len] }
  Exec.lift (h.ch.gm.read gpa len)

/-- Read a `u32` of guest memory. -/
def gmReadU32 (gpa : Nat) : Exec HostState MemError UInt32 := do
  pure (← gmRead gpa 4).toU32

/-- Read a `u64` of guest memory. -/
def gmReadU64 (gpa : Nat) : Exec HostState MemError UInt64 := do
  pure (← gmRead gpa 8).toU64

/-- Write guest memory. -/
def gmWrite (gpa : Nat) (bs : Bytes) : Exec HostState MemError Unit := do
  let h ← Exec.get
  Exec.set { h with io := h.io ++ [.write gpa bs] }
  let gm ← Exec.lift (h.ch.gm.write gpa bs)
  Exec.modify fun h => { h with ch := { h.ch with gm } }

/-- Write a `u32` of guest memory. -/
def gmWriteU32 (gpa : Nat) (v : UInt32) : Exec HostState MemError Unit :=
  gmWrite gpa (Bytes.ofU32 v)

/-- Report a mutation. -/
def report {ε : Type} (op : SinkOp) : Exec HostState ε Unit :=
  Exec.modify fun h => { h with sink := h.sink ++ [op] }

/-! ### Drop counters -/

/-- The drop counters in the header of a channel; those of ring W also for each kind of event. -/
structure DropCounters where
  ringARecords : UInt64
  ringABytes : UInt64
  ringWRecords : UInt64
  ringWBytes : UInt64
  ringWByKind : List UInt64
  deriving DecidableEq, Repr

/-- Read the counters of `n` kinds, from the kind `i` on. -/
def droppedByKind (base : PageBase) (i : Nat) : Nat → Exec HostState MemError (List UInt64)
  | 0 => pure []
  | n + 1 => do
      let slot ← gmReadU64 (base.gpa + (offRingWDroppedByKind + i * 8))
      let rest ← droppedByKind base (i + 1) n
      pure (slot :: rest)

/-- The drop counters of the guest. -/
def dropCounters : Exec HostState MemError DropCounters := do
  let h ← Exec.get
  let base := h.ch.base
  let ringARecords ← gmReadU64 (base.gpa + offRingADroppedRecords)
  let ringABytes ← gmReadU64 (base.gpa + offRingADroppedBytes)
  let ringWRecords ← gmReadU64 (base.gpa + offRingWDroppedRecords)
  let ringWBytes ← gmReadU64 (base.gpa + offRingWDroppedBytes)
  let ringWByKind ← droppedByKind base 0 droppedByKindSlots
  pure { ringARecords, ringABytes, ringWRecords, ringWBytes, ringWByKind }

theorem run_gmRead (gpa len : Nat) (h : HostState) :
  (gmRead gpa len).run h
    = ({ h with io := h.io ++ [.read gpa len] }, h.ch.gm.read gpa len)
  := rfl

theorem run_gmReadU32 {ε : Type} (f : MemError → ε) (gpa : Nat) (h : HostState) :
  (Exec.mapErr f (gmReadU32 gpa)).run h
    = ({ h with io := h.io ++ [.read gpa 4] },
        match h.ch.gm.readErr gpa 4 with
        | some e => .err (f e)
        | none => .ok (h.ch.gm.bytes.u32 gpa))
  := by
  simp only [gmReadU32, Exec.run_mapErr, Exec.run_bind, run_gmRead, GuestMem.read]
  cases h.ch.gm.readErr gpa 4 with
  | some e => rfl
  | none => rfl

theorem run_gmReadU64 {gpa : Nat} {h : HostState} (hread : h.ch.gm.readErr gpa 8 = none) :
  (gmReadU64 gpa).run h
    = ({ h with io := h.io ++ [.read gpa 8] }, .ok (h.ch.gm.bytes.u64 gpa))
  := by
  simp only [gmReadU64, Exec.run_bind, run_gmRead, GuestMem.read, hread]
  rfl

theorem run_gmWrite (gpa : Nat) (bs : Bytes) (h : HostState) :
  (gmWrite gpa bs).run h
    = match h.ch.gm.writeErr gpa bs.length with
      | some e => ({ h with io := h.io ++ [.write gpa bs] }, .err e)
      | none =>
          ({ h with
              ch := { h.ch with gm := { h.ch.gm with bytes := h.ch.gm.bytes.write gpa bs } }
              io := h.io ++ [.write gpa bs] }, .ok ())
  := by
  simp only [gmWrite, Exec.run_bind, Exec.run_get, Exec.run_set, Exec.run_lift, Exec.run_modify,
    GuestMem.write]
  cases h.ch.gm.writeErr gpa bs.length with
  | some e => rfl
  | none => rfl

theorem run_gmWriteU32 {ε : Type} (f : MemError → ε) (gpa : Nat) (v : UInt32) (h : HostState) :
  (Exec.mapErr f (gmWriteU32 gpa v)).run h
    = match h.ch.gm.writeErr gpa 4 with
      | some e => ({ h with io := h.io ++ [.write gpa (Bytes.ofU32 v)] }, .err (f e))
      | none =>
          ({ h with
              ch := { h.ch with gm := { h.ch.gm with
                bytes := h.ch.gm.bytes.write gpa (Bytes.ofU32 v) } }
              io := h.io ++ [.write gpa (Bytes.ofU32 v)] }, .ok ())
  := by
  have hlen : (Bytes.ofU32 v).length = 4 := Bytes.length_ofU32 v
  rw [Exec.run_mapErr, gmWriteU32, run_gmWrite, hlen]
  cases h.ch.gm.writeErr gpa 4 with
  | some e => rfl
  | none => rfl

/-- What a host call does: the channel it leaves, what it reports and how it accesses
guest memory, and its result. -/
structure Outcome (ε α : Type) where
  ch : Channel
  ops : List SinkOp
  io : List Access
  res : Res ε α

/-! ### Accepted headers -/

/-- What attaching checked. -/
structure Accepted (header : ChannelHeader) : Prop where
  magic : header.magic = channelMagic
  version : header.protoVersion = protoVersion
  valid : ∀ ring, (header.ringDesc ring).Valid
  disjoint : ∀ a b, a ≠ b → ¬ RingsOverlap (header.ringDesc a) (header.ringDesc b)

theorem checkDesc_eq_ok {ring : RingId} {d : RingDesc} :
  checkDesc ring d = .ok () ↔ d.Valid
  := by
  rw [← RingDesc.validate_eq_ok, checkDesc]
  by_cases hsize : d.size = 0 ∨ ¬ Word.isPowerOfTwo d.size
  · rw [Res.failIf_of hsize, RingDesc.validate, Res.failIf_of hsize]
    simp
  · rw [Res.failIf_of_not hsize, Res.ok_bind]
    rcases hv : d.validate with _ | e | _
    · simp
    · simp
    · simp

/-- The checks succeed exactly on the headers they are about. -/
theorem checkHeader_eq_ok {header : ChannelHeader} :
  checkHeader header = .ok () ↔ Accepted header
  := by
  have hpairs : (∀ a b, a ≠ b → ¬ RingsOverlap (header.ringDesc a) (header.ringDesc b))
      ↔ ∀ pair ∈ ringPairs, ¬ RingsOverlap (header.ringDesc pair.1) (header.ringDesc pair.2) := by
    constructor
    · intro h pair hpair
      apply h
      revert pair
      decide
    · intro h a b hab hover
      -- the loops visit each pair in one order only
      have hmem : (a, b) ∈ ringPairs ∨ (b, a) ∈ ringPairs := by
        cases a <;> cases b <;> simp [ringPairs] at hab ⊢
      rcases hmem with hmem | hmem
      · apply h _ hmem hover
      · apply h _ hmem ⟨hover.2, hover.1⟩
  rw [checkHeader, Res.seq_eq_ok, Res.seq_eq_ok, Res.seq_eq_ok, Res.seq_eq_ok, Res.failIf_eq_ok,
    Res.failIf_eq_ok, Res.forIn_eq_ok, Res.forIn_eq_ok]
  simp only [checkDesc_eq_ok, Res.failIf_eq_ok, not_not, ← hpairs]
  constructor
  · rintro ⟨hmagic, hversion, hvalid, hdisjoint, _⟩
    refine ⟨hmagic, hversion, ?_, hdisjoint⟩
    intro ring
    apply hvalid
    cases ring <;> simp [RingId.all]
  · intro h
    exact ⟨h.magic, h.version, fun ring _ => h.valid ring, h.disjoint, rfl⟩

/-- Attaching succeeds exactly when the header can be read and is accepted. -/
theorem attach_eq_ok {gm : GuestMem} {base : PageBase} {ch : Channel} :
  attach gm base = .ok ch ↔ gm.readErr base.gpa offReserved = none ∧
    ∃ header, ChannelHeader.readFrom (gm.bytes.read base.gpa offReserved) = .ok header
      ∧ Accepted header ∧ ch = Channel.fresh gm base header
  := by
  rw [attach, GuestMem.read]
  cases gm.readErr base.gpa offReserved with
  | some e => simp
  | none =>
      simp only [Res.mapErr_ok, Res.ok_bind]
      rcases hhdr : ChannelHeader.readFrom (gm.bytes.read base.gpa offReserved) with header | e | _
      · simp only [Res.seq_eq_ok, checkHeader_eq_ok, Res.pure_eq, Res.ok.injEq, true_and]
        constructor
        · rintro ⟨hacc, rfl⟩
          exact ⟨header, rfl, hacc, rfl⟩
        · rintro ⟨_, rfl, hacc, rfl⟩
          exact ⟨hacc, rfl⟩
      · simp
      · simp

end Host
