import DetGuest.Lib.Circular
import DetGuest.Wire.Header

/-!
# Rings over shared memory

A ring has a data area and two free-running `u32` index cells.  The producer writes its
records behind the producer index and then stores the new index; the consumer copies
records from the consumer index on and then stores the new index.  A record that does not
fit in front of the end of the data area is preceded by a `Pad` that fills the tail.
-/

namespace Wire

/-! ### Index arithmetic -/

/-- Bytes currently in the ring. -/
def used (prod cons : UInt32) : UInt32 := prod - cons

/-- Free bytes in the ring; saturates on a forged pair of indices. -/
def free (prod cons size : UInt32) : UInt32 := Word.saturatingSub size (used prod cons)

/-- Contiguous bytes from the producer position to the end of the ring. -/
def contiguousTail (prod size : UInt32) : UInt32 := size - (prod &&& (size - 1))

/-- The bytes a record of the given length takes at the producer position, with the tail
when a `Pad` has to fill it first. -/
def bytesNeeded (prod size len : UInt32) : UInt32 :=
  let tail := contiguousTail prod size
  if len > tail then tail + len else len

theorem toNat_contiguousTail {size : UInt32} (h : Word.isPowerOfTwo size) (prod : UInt32) :
  (contiguousTail prod size).toNat = size.toNat - prod.toNat % size.toNat
  := by
  have hmask := Word.toNat_and_mask h prod
  have hlt := Nat.mod_lt prod.toNat (Word.toNat_pos h)
  rw [contiguousTail, UInt32.toNat_sub_of_le, hmask]
  rw [UInt32.le_iff_toNat_le, hmask]
  omega

/-- Behind the tail a ring starts again at offset zero. -/
theorem add_contiguousTail_mod {size : UInt32} (h : Word.isPowerOfTwo size) (prod : UInt32) :
  (prod.toNat + (contiguousTail prod size).toNat) % size.toNat = 0
  := by
  have hlt := Nat.mod_lt prod.toNat (Word.toNat_pos h)
  have hdiv := Nat.div_add_mod prod.toNat size.toNat
  have hround : prod.toNat + (contiguousTail prod size).toNat
      = size.toNat * (prod.toNat / size.toNat + 1) := by
    rw [toNat_contiguousTail h, Nat.mul_succ]
    omega
  rw [hround, Nat.mul_mod_right]

/-- The bytes a record needs, with the tail when it does not fit in front of the end. -/
theorem toNat_bytesNeeded {size : UInt32} (h : Word.isPowerOfTwo size) (prod : UInt32) {n : Nat}
    (hn : n ≤ maxRecordLen) :
  (bytesNeeded prod size (UInt32.ofNat n)).toNat
    = if n ≤ (contiguousTail prod size).toNat then n else (contiguousTail prod size).toNat + n
  := by
  have hn' : n ≤ 4096 := hn
  have hlen : (UInt32.ofNat n).toNat = n := Word.toNat_ofNat_le hn' (by decide)
  have htail := toNat_contiguousTail h prod
  simp only [bytesNeeded, gt_iff_lt, UInt32.lt_iff_toNat_lt, hlen]
  by_cases hle : n ≤ (contiguousTail prod size).toNat
  · rw [if_neg (by omega), if_pos hle, hlen]
  · rw [if_pos (by omega), if_neg hle, UInt32.toNat_add, hlen, Nat.mod_eq_of_lt (by omega)]

/-- A `Pad` is needed exactly when the record is longer than the tail. -/
theorem bytesNeeded_gt {size : UInt32} (h : Word.isPowerOfTwo size) (prod : UInt32) {n : Nat}
    (hn : n ≤ maxRecordLen) :
  bytesNeeded prod size (UInt32.ofNat n) > UInt32.ofNat n
    ↔ (contiguousTail prod size).toNat < n
  := by
  have hn' : n ≤ 4096 := hn
  have hlen : (UInt32.ofNat n).toNat = n := Word.toNat_ofNat_le hn' (by decide)
  have htail := toNat_contiguousTail h prod
  have hlt := Nat.mod_lt prod.toNat (Word.toNat_pos h)
  rw [gt_iff_lt, UInt32.lt_iff_toNat_lt, toNat_bytesNeeded h prod hn, hlen]
  split
  · omega
  · omega

/-- The free bytes behind `n` used ones. -/
theorem toNat_free {size cons : UInt32} {n : Nat} (hn : n ≤ size.toNat) :
  (free (cons + UInt32.ofNat n) cons size).toNat = size.toNat - n
  := by
  have hs := size.toNat_lt
  rw [free, used, Word.add_ofNat_sub, Word.toNat_saturatingSub, Word.toNat_ofNat_le hn hs]

/-! ### Mapped rings -/

/-- The arguments of `from_raw`: the address of the data area, its size and the addresses of the
index cells. -/
structure RawRing where
  data : Nat
  size : UInt32
  prod : Nat
  cons : Nat
  deriving DecidableEq, Repr

/-- What `from_raw` asserts of a size. -/
def SizeAsserted (size : UInt32) : Prop := Word.isPowerOfTwo size ∧ maxRecordLen ≤ size.toNat

instance (size : UInt32) : Decidable (SizeAsserted size) :=
  inferInstanceAs (Decidable (_ ∧ _))

/-- `Producer::from_raw` and `Consumer::from_raw`, which assert the size. -/
def fromRaw {ε : Type} (ring : RawRing) : Res ε RawRing :=
  if SizeAsserted ring.size then .ok ring else .panic

/-- A ring as `from_raw` gets it: the address of the data area, its size and the addresses
of the index cells.  The size was asserted to be a power of two that holds a record of any
length; the cells lie beside the data area and beside each other. -/
structure RingMap where
  data : Nat
  size : UInt32
  prod : Nat
  cons : Nat
  size_pow : Word.isPowerOfTwo size
  size_ge : maxRecordLen ≤ size.toNat
  prod_sep : prod + 4 ≤ data ∨ data + size.toNat ≤ prod
  cons_sep : cons + 4 ≤ data ∨ data + size.toNat ≤ cons
  cell_sep : prod + 4 ≤ cons ∨ cons + 4 ≤ prod

/-- The addresses of a ring: its data area and its cells. -/
def RingMap.Owns (r : RingMap) (i : Nat) : Prop :=
  (r.data ≤ i ∧ i < r.data + r.size.toNat) ∨ (r.prod ≤ i ∧ i < r.prod + 4)
    ∨ (r.cons ≤ i ∧ i < r.cons + 4)

/-- Two rings that share no address. -/
def RingMap.Apart (r r' : RingMap) : Prop := ∀ i, r.Owns i → ¬ r'.Owns i

/-- The producer had no room for the record. -/
inductive RingFull where
  | ringFull
  deriving DecidableEq, Repr

/-- What a push changes: the shared memory and the next sequence number of the
producer. -/
structure Producer where
  mem : ByteMem
  nextSeq : UInt32

/-- Take a sequence number. -/
def Producer.allocSeq {ε : Type} : Exec Producer ε UInt32 := do
  let p ← Exec.get
  Exec.set { p with nextSeq := p.nextSeq + 1 }
  pure p.nextSeq

/-- Store a `u32`. -/
def Producer.storeU32 {ε : Type} (a : Nat) (v : UInt32) : Exec Producer ε Unit :=
  Exec.modify fun p => { p with mem := p.mem.write a (Bytes.ofU32 v) }

/-- Run an encoder in place on `n` bytes of the data area. -/
def Producer.sliceMut {ε α : Type} (dbg : Bool) (r : RingMap) (off : UInt32) (n : Nat)
    (encode : Exec Bytes ε α) : Exec Producer ε α := do
  Exec.debugAssert dbg (off.toNat + n ≤ r.size.toNat)
  let p ← Exec.get
  let (bytes, res) := encode.run (p.mem.read (r.data + off.toNat) n)
  Exec.set { p with mem := p.mem.write (r.data + off.toNat) bytes }
  Exec.lift res

/-- Fill the tail in front of the end of the ring by a `Pad`; returns the position behind
it. -/
def Producer.padTail (dbg : Bool) (r : RingMap) (prod : UInt32) :
    Exec Producer RingFull UInt32 := do
  let mask := r.size - 1
  let tail := (contiguousTail prod r.size).toNat
  let seq ← Producer.allocSeq
  let _ ← Exec.expect (Producer.sliceMut dbg r (prod &&& mask) tail (encodePad dbg tail seq))
  let pos := prod + UInt32.ofNat tail
  Exec.debugAssert dbg (pos &&& mask = 0)
  pure pos

/-- Encode the record in place at `pos`; returns its sequence number. -/
def Producer.placeRecord (dbg : Bool) (r : RingMap) (pos : UInt32) (totalLen : Nat)
    (encode : UInt32 → Exec Bytes EncodeError Nat) : Exec Producer RingFull UInt32 := do
  let seq ← Producer.allocSeq
  let written ← Exec.mapErr (fun _ => .ringFull)
    (Producer.sliceMut dbg r (pos &&& (r.size - 1)) totalLen (encode seq))
  Exec.debugAssert dbg (written = totalLen)
  pure seq

/-- Push one record of exactly `totalLen` bytes, encoded in place.  A tail that is too
short is filled by a `Pad`, which takes a sequence number of its own. -/
def Producer.tryPush (dbg : Bool) (r : RingMap) (totalLen : Nat)
    (encode : UInt32 → Exec Bytes EncodeError Nat) : Exec Producer RingFull UInt32 := do
  Exec.debugAssert dbg (totalLen % recordAlign = 0 ∧ padMinLen ≤ totalLen
    ∧ totalLen ≤ maxRecordLen)
  let len := UInt32.ofNat totalLen
  let p ← Exec.get
  let prod := p.mem.u32 r.prod
  let cons := p.mem.u32 r.cons
  let needed := bytesNeeded prod r.size len
  Exec.failIf (free prod cons r.size < needed) .ringFull
  let pos ← if needed > len then Producer.padTail dbg r prod else pure prod
  let seq ← Producer.placeRecord dbg r pos totalLen encode
  Producer.storeU32 r.prod (prod + needed)
  pure seq

/-- What a pop changes: the shared memory and the scratch buffer of the caller. -/
structure Consumer where
  mem : ByteMem
  scratch : Bytes

/-- Copy `n` bytes of the data area to the start of the scratch buffer. -/
def Consumer.copyOut {ε : Type} (dbg : Bool) (r : RingMap) (off : UInt32) (n : Nat) :
    Exec Consumer ε Unit := do
  Exec.debugAssert dbg (off.toNat + n ≤ r.size.toNat)
  Exec.modify fun c =>
    { c with scratch := c.scratch.splice 0 (c.mem.read (r.data + off.toNat) n) }

/-- Store a `u32`. -/
def Consumer.storeU32 {ε : Type} (a : Nat) (v : UInt32) : Exec Consumer ε Unit :=
  Exec.modify fun c => { c with mem := c.mem.write a (Bytes.ofU32 v) }

/-- Peek at the first eight bytes of the record for its length, and check it. -/
def Consumer.peekLen (dbg : Bool) (r : RingMap) (off avail tail : UInt32) :
    Exec Consumer DecodeError Nat := do
  Consumer.copyOut dbg r off padMinLen
  let c ← Exec.get
  let len := (← Exec.lift (c.scratch.slice 0 2)).toU16.toNat
  let kind ← Exec.lift (c.scratch.byte 2)
  Exec.failIf (len % recordAlign ≠ 0 ∨ len < minLen kind ∨ len > maxRecordLen) .badLen
  Exec.failIf (len > avail.toNat ∨ len > tail.toNat) .truncated
  Exec.failIf (c.scratch.length < len) .truncated
  pure len

/-- Copy the whole record, and parse the copy again. -/
def Consumer.copyRecord (dbg : Bool) (r : RingMap) (off : UInt32) (len : Nat) :
    Exec Consumer DecodeError Unit := do
  Consumer.copyOut dbg r off len
  let c ← Exec.get
  let rec ← Exec.lift (c.scratch.slice 0 len)
  let _ ← Exec.lift (RecordHeader.readFrom rec)

/-- Pop the next record, a `Pad` included, into the scratch buffer and return its length;
nothing when the ring is empty.  A record that breaks the framing rules is an error and
is not consumed. -/
def Consumer.popInto (dbg : Bool) (r : RingMap) : Exec Consumer DecodeError (Option Nat) := do
  let c ← Exec.get
  let prod := c.mem.u32 r.prod
  let cons := c.mem.u32 r.cons
  let avail := used prod cons
  if avail = 0 then
    pure none
  else do
    let off := cons &&& (r.size - 1)
    let tail := contiguousTail cons r.size
    Exec.failIf (avail.toNat < padMinLen ∨ tail.toNat < padMinLen
      ∨ c.scratch.length < padMinLen) .truncated
    let len ← Consumer.peekLen dbg r off avail tail
    Consumer.copyRecord dbg r off len
    Consumer.storeU32 r.cons (cons + UInt32.ofNat len)
    pure (some len)

/-- Pop records until `take` finds a value in one of them, or none is left.  A pop takes
at least eight bytes away, so `fuel` bounds the loop by the bytes in use. -/
def Consumer.popLoop {α : Type} (dbg : Bool) (r : RingMap)
    (take : Bytes → Res DecodeError (Option α)) : Nat → Exec Consumer DecodeError (Option α)
  | 0 => Exec.panic
  | fuel + 1 => do
      match ← Consumer.popInto dbg r with
      | none => pure none
      | some n => do
          let c ← Exec.get
          let rec ← Exec.lift (c.scratch.slice 0 n)
          match ← Exec.lift (take rec) with
          | some a => pure (some a)
          | none => Consumer.popLoop dbg r take fuel

/-- The loop of a poll, with enough fuel for all records in the ring. -/
def Consumer.popUntil {α : Type} (dbg : Bool) (r : RingMap)
    (take : Bytes → Res DecodeError (Option α)) : Exec Consumer DecodeError (Option α) := do
  let c ← Exec.get
  Consumer.popLoop dbg r take ((used (c.mem.u32 r.prod) (c.mem.u32 r.cons)).toNat + 1)

/-- The ring of the canonical layout of a channel at address `base`. -/
def RingMap.canonical (base : Nat) (ring : RingId) : RingMap :=
  { data := base + ring.canonicalDesc.offset.toNat
    size := ring.canonicalDesc.size
    prod := base + ring.prodOffset
    cons := base + ring.consOffset
    size_pow := by cases ring <;> decide
    size_ge := by cases ring <;> decide
    prod_sep := by
      have h : ring.prodOffset + 4 ≤ ring.canonicalDesc.offset.toNat := by
        cases ring <;> decide
      omega
    cons_sep := by
      have h : ring.consOffset + 4 ≤ ring.canonicalDesc.offset.toNat := by
        cases ring <;> decide
      omega
    cell_sep := by
      have h : ring.prodOffset + 4 ≤ ring.consOffset := by
        cases ring <;> decide
      omega }

end Wire
