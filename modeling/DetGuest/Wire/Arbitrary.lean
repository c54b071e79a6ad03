import DetGuest.Wire.Queue

/-!
# Rings with arbitrary contents

The other side of a ring may have written anything into it, into the index cells too.  A pop
is determined by the cells and by the bytes at the consumer position; it stays inside of the
data area whatever they are.

A push trusts its encoder.  When the encoder fails the push reports a full ring, but the
sequence numbers are spent, and so may be the tail.
-/

namespace Wire

/-! ### Pops -/

section Pop

variable {r : RingMap} {m : ByteMem} {scratch : Bytes}

/-- The address of the next byte to be consumed. -/
def RingMap.head (r : RingMap) (m : ByteMem) : Nat :=
  r.data + (m.u32 r.cons).toNat % r.size.toNat

/-- The bytes in use, as the index cells say. -/
def RingMap.avail (r : RingMap) (m : ByteMem) : Nat :=
  (used (m.u32 r.prod) (m.u32 r.cons)).toNat

/-- The length of the record at the head, for a scratch buffer of `room` bytes. -/
def RingMap.frontLen (r : RingMap) (m : ByteMem) (room : Nat) : Res DecodeError Nat :=
  let len := (m.u16 (r.head m)).toNat
  if len % recordAlign ≠ 0 ∨ len < minLen (m (r.head m + 2)) ∨ len > maxRecordLen then
    .err .badLen
  else if len > r.avail m ∨ len > r.tail (m.u32 r.cons) then
    .err .truncated
  else if room < len then
    .err .truncated
  else
    .ok len

/-- What a pop returns: an error, nothing on an empty ring, or the length of the record at the
head. -/
def RingMap.front (r : RingMap) (m : ByteMem) (room : Nat) : Res DecodeError (Option Nat) :=
  if r.avail m = 0 then
    .ok none
  else if r.avail m < padMinLen ∨ r.tail (m.u32 r.cons) < padMinLen ∨ room < padMinLen then
    .err .truncated
  else do
    let len ← r.frontLen m room
    pure (some len)

/-- The scratch buffer behind a peek at the head. -/
def RingMap.peeked (r : RingMap) (m : ByteMem) (scratch : Bytes) : Bytes :=
  if r.avail m < padMinLen ∨ r.tail (m.u32 r.cons) < padMinLen ∨ scratch.length < padMinLen then
    scratch
  else
    m.read (r.head m) padMinLen ++ scratch.drop padMinLen

theorem frontLen_eq_ok {room n : Nat} :
  r.frontLen m room = .ok n ↔
    n = (m.u16 (r.head m)).toNat ∧ n % recordAlign = 0 ∧ minLen (m (r.head m + 2)) ≤ n ∧
      n ≤ maxRecordLen ∧ n ≤ r.avail m ∧ n ≤ r.tail (m.u32 r.cons) ∧ n ≤ room
  := by
  rw [RingMap.frontLen]
  constructor
  · intro h
    split at h
    · cases h
    split at h
    · cases h
    split at h
    · cases h
    obtain rfl := Res.ok.inj h
    omega
  · rintro ⟨rfl, h⟩
    rw [if_neg (by omega), if_neg (by omega), if_neg (by omega)]

/-- A record at the head that may be copied has a header, so the early checks pass. -/
theorem front_eq_some {room n : Nat} :
  r.front m room = .ok (some n) ↔ r.frontLen m room = .ok n
  := by
  constructor
  · intro h
    rw [RingMap.front] at h
    split at h
    · cases h
    split at h
    · cases h
    obtain ⟨k, hk, hn⟩ := Res.bind_eq_ok.mp h
    cases hn
    exact hk
  · intro h
    obtain ⟨_, _, hmin, _, havail, htail, hroom⟩ := frontLen_eq_ok.mp h
    have hge := minLen_ge (m (r.head m + 2))
    rw [RingMap.front, if_neg (by omega), if_neg (by simp only [padMinLen]; omega), h]
    rfl

theorem frontLen_ne_panic {room : Nat} :
  r.frontLen m room ≠ .panic
  := by
  rw [RingMap.frontLen]
  split
  · simp
  split
  · simp
  split
  · simp
  · simp

theorem front_ne_panic {room : Nat} :
  r.front m room ≠ .panic
  := by
  rw [RingMap.front]
  split
  · simp
  split
  · simp
  rw [ne_eq, Res.bind_eq_panic]
  simp [frontLen_ne_panic]

theorem length_peeked :
  (r.peeked m scratch).length = scratch.length
  := by
  rw [RingMap.peeked]
  split
  · rfl
  rename_i hlong
  rw [List.length_append, ByteMem.length_read, List.length_drop]
  omega

/-- The header of the bytes at an address, as far as a peek reads it. -/
theorem exists_framed_read {a n : Nat} (h : 8 ≤ n) :
  ∃ flags seq, m.read a n = framed (m.u16 a) (m (a + 2)) flags seq (m.read (a + 8) (n - 8))
  := by
  obtain ⟨len, kind, flags, seq, hb⟩ := exists_framed (b := m.read a n) (by
    rw [ByteMem.length_read]
    exact h)
  rw [ByteMem.drop_read] at hb
  have hlen : m.u16 a = len := by
    rw [ByteMem.u16, ← ByteMem.take_read (show 2 ≤ n by omega), hb]
    apply Bytes.toU16_ofU16
  have hkind : (m.read a n)[2]? = some kind := by
    rw [hb]
    rfl
  rw [ByteMem.getElem?_read, if_pos (by omega)] at hkind
  use flags, seq
  rw [hlen, Option.some.inj hkind]
  exact hb

/-- A peek at an arbitrary header. -/
theorem run_peekLen_eq {dbg : Bool} {off avail tail : UInt32} (hoff : off.toNat + 8 ≤ r.size.toNat)
    (hscratch : 8 ≤ scratch.length) :
  (Consumer.peekLen dbg r off avail tail).run ⟨m, scratch⟩
    = (⟨m, m.read (r.data + off.toNat) 8 ++ scratch.drop 8⟩,
        let len := (m.u16 (r.data + off.toNat)).toNat
        if len % recordAlign ≠ 0 ∨ len < minLen (m (r.data + off.toNat + 2))
            ∨ len > maxRecordLen then
          .err .badLen
        else if len > avail.toNat ∨ len > tail.toNat then
          .err .truncated
        else if scratch.length < len then
          .err .truncated
        else
          .ok len)
  := by
  generalize ha : r.data + off.toNat = a
  obtain ⟨flags, seq, hb⟩ := exists_framed_read (m := m) (a := a) (Nat.le_refl 8)
  have hcopy : (Consumer.copyOut dbg r off 8 : Exec Consumer DecodeError Unit).run ⟨m, scratch⟩
      = (⟨m, m.read a 8 ++ scratch.drop 8⟩, .ok ()) := by
    rw [run_copyOut scratch hoff, ha]
  have hlen : (m.read a 8 ++ scratch.drop 8).length = scratch.length := by
    rw [List.length_append, ByteMem.length_read, List.length_drop]
    omega
  have hlen2 : ((m.read a 8 ++ scratch.drop 8).slice 0 2 : Res DecodeError Bytes)
      = .ok (Bytes.ofU16 (m.u16 a)) := by
    rw [Bytes.slice_of_le (by omega) (by omega), hb]
    rfl
  have hkind : ((m.read a 8 ++ scratch.drop 8).byte 2 : Res DecodeError UInt8)
      = .ok (m (a + 2)) := by
    rw [hb]
    rfl
  simp only [Consumer.peekLen, padMinLen]
  rw [Exec.run_bind_of_ok hcopy, Exec.run_bind_of_ok (Exec.run_get _)]
  dsimp only
  rw [hlen2, hkind, Exec.run_bind_of_ok (Exec.run_lift _ _),
    Exec.run_bind_of_ok (Exec.run_lift _ _), hlen, Bytes.toU16_ofU16]
  split
  · rename_i hbad
    rw [Exec.run_bind_of_err (Exec.run_failIf_of hbad _)]
  rename_i hgood
  rw [Exec.run_bind_of_ok (Exec.run_failIf_of_not hgood _)]
  split
  · rename_i hlong
    rw [Exec.run_bind_of_err (Exec.run_failIf_of hlong _)]
  rename_i hfits
  rw [Exec.run_bind_of_ok (Exec.run_failIf_of_not hfits _)]
  split
  · rename_i hroom
    rw [Exec.run_bind_of_err (Exec.run_failIf_of hroom _)]
  rename_i hroom
  rw [Exec.run_bind_of_ok (Exec.run_failIf_of_not hroom _)]
  rfl

/-- The record at the head parses. -/
theorem readFrom_head {room n : Nat} (h : r.frontLen m room = .ok n) :
  ∃ hdr, RecordHeader.readFrom (m.read (r.head m) n) = .ok hdr ∧ hdr.len.toNat = n
  := by
  obtain ⟨hlen, hmod, hmin, hmax, _⟩ := frontLen_eq_ok.mp h
  have hge := minLen_ge (m (r.head m + 2))
  obtain ⟨flags, seq, hrec⟩ := exists_framed_read (m := m) (a := r.head m) (n := n) (by omega)
  rw [hlen] at hmod hmin hmax
  have hread := readFrom_framed (m.u16 (r.head m)) (m (r.head m + 2)) flags seq
    (m.read (r.head m + 8) (n - 8)) hmod hmax hmin (by rw [ByteMem.length_read]; omega)
  rw [hrec]
  exact ⟨_, hread, hlen.symm⟩

/-- The length a peek at the head finds, for a scratch buffer of `room` bytes. -/
theorem run_peekLen_head (dbg : Bool) (htail : ¬ r.tail (m.u32 r.cons) < padMinLen)
    (hscratch : ¬ scratch.length < padMinLen) :
  (Consumer.peekLen dbg r (m.u32 r.cons &&& (r.size - 1)) (used (m.u32 r.prod) (m.u32 r.cons))
      (contiguousTail (m.u32 r.cons) r.size)).run ⟨m, scratch⟩
    = (⟨m, m.read (r.head m) padMinLen ++ scratch.drop padMinLen⟩, r.frontLen m scratch.length)
  := by
  have htail' : ¬ r.size.toNat - (m.u32 r.cons).toNat % r.size.toNat < 8 := htail
  have hscratch' : ¬ scratch.length < 8 := hscratch
  have hlt := Nat.mod_lt (m.u32 r.cons).toNat r.size_pos
  rw [run_peekLen_eq (by rw [r.mask_toNat]; omega) (by omega), r.mask_toNat,
    r.toNat_contiguousTail]
  rfl

/-- A pop without a record leaves memory alone. -/
theorem run_popInto_none {dbg : Bool} {res : Res DecodeError (Option Nat)}
    (h : r.front m scratch.length = res) (hres : ∀ n, res ≠ .ok (some n)) :
  (Consumer.popInto dbg r).run ⟨m, scratch⟩ = (⟨m, r.peeked m scratch⟩, res)
  := by
  rw [Consumer.popInto, Exec.run_bind_of_ok (Exec.run_get _)]
  dsimp only
  rw [RingMap.front] at h
  rw [RingMap.peeked]
  by_cases hzero : r.avail m = 0
  · have hused : used (m.u32 r.prod) (m.u32 r.cons) = 0 := UInt32.toNat_inj.mp hzero
    rw [if_pos hzero] at h
    rw [if_pos hused, if_pos (by left; rw [hzero]; decide), ← h]
    rfl
  have hused : ¬ used (m.u32 r.prod) (m.u32 r.cons) = 0 := by
    intro hused
    apply hzero
    rw [RingMap.avail, hused]
    rfl
  rw [if_neg hzero] at h
  have havail : (used (m.u32 r.prod) (m.u32 r.cons)).toNat = r.avail m := rfl
  rw [if_neg hused, r.toNat_contiguousTail, havail]
  split
  · rename_i hshort
    rw [if_pos hshort] at h
    rw [Exec.run_bind_of_err (Exec.run_failIf_of hshort _), ← h]
  rename_i hlong
  rw [if_neg hlong] at h
  rw [Exec.run_bind_of_ok (Exec.run_failIf_of_not hlong _)]
  simp only [not_or] at hlong
  have hpeek := run_peekLen_head dbg hlong.2.1 hlong.2.2
  cases hlen : r.frontLen m scratch.length with
  | ok n =>
      rw [hlen] at h
      exact absurd h.symm (hres n)
  | err e =>
      rw [hlen] at h hpeek
      rw [Exec.run_bind_of_err hpeek, ← h]
      rfl
  | panic =>
      rw [hlen] at h hpeek
      rw [Exec.run_bind_of_panic hpeek, ← h]
      rfl

/-- A pop of a record copies it to the scratch buffer and advances the consumer index. -/
theorem run_popInto_some {dbg : Bool} {n : Nat} (h : r.front m scratch.length = .ok (some n)) :
  (Consumer.popInto dbg r).run ⟨m, scratch⟩
    = (⟨m.write r.cons (Bytes.ofU32 (m.u32 r.cons + UInt32.ofNat n)),
        m.read (r.head m) n ++ scratch.drop n⟩, .ok (some n))
  := by
  have hfront := front_eq_some.mp h
  obtain ⟨hlen, hmod, hmin, hmax, havail, htail, hroom⟩ := frontLen_eq_ok.mp hfront
  have hge := minLen_ge (m (r.head m + 2))
  have hlt := Nat.mod_lt (m.u32 r.cons).toNat r.size_pos
  have hdef : r.tail (m.u32 r.cons) = r.size.toNat - (m.u32 r.cons).toNat % r.size.toNat := rfl
  have hused : (used (m.u32 r.prod) (m.u32 r.cons)).toNat = r.avail m := rfl
  have hzero : ¬ used (m.u32 r.prod) (m.u32 r.cons) = 0 := by
    intro hzero
    rw [hzero, UInt32.toNat_zero] at hused
    omega
  have hlong : ¬ (r.avail m < padMinLen ∨ r.tail (m.u32 r.cons) < padMinLen
      ∨ scratch.length < padMinLen) := by
    simp only [padMinLen]
    omega
  have hpeek := run_peekLen_head (r := r) (m := m) dbg
    (fun hshort => hlong (.inr (.inl hshort))) (fun hshort => hlong (.inr (.inr hshort)))
  rw [hfront] at hpeek
  obtain ⟨hdr, hread, _⟩ := readFrom_head hfront
  have hend : (m.u32 r.cons &&& (r.size - 1)).toNat + n ≤ r.size.toNat := by
    rw [r.mask_toNat]
    omega
  rw [RingMap.head, ← r.mask_toNat] at hread
  have hcopy := run_copyRecord_eq dbg _
    (m.read (r.head m) padMinLen ++ scratch.drop padMinLen) hend hread
  rw [Consumer.popInto, Exec.run_bind_of_ok (Exec.run_get _)]
  dsimp only
  rw [if_neg hzero, r.toNat_contiguousTail, hused,
    Exec.run_bind_of_ok (Exec.run_failIf_of_not hlong _), Exec.run_bind_of_ok hpeek,
    Exec.run_bind_of_ok hcopy, r.mask_toNat]
  have hrest : (m.read (r.head m) padMinLen ++ scratch.drop padMinLen).drop n
      = scratch.drop n := by
    rw [List.drop_append, ByteMem.length_read, List.drop_eq_nil_of_le (by
      rw [ByteMem.length_read]
      simp only [padMinLen]
      omega), List.nil_append, List.drop_drop]
    congr 1
    simp only [padMinLen]
    omega
  rw [hrest]
  rfl

/-! ### The addresses a pop reads -/

section Congr

variable {m' : ByteMem}

/-- The bytes from the head to the end of the data area are among the addresses of the ring. -/
theorem read_head_congr {n : Nat} (h : ∀ i, r.Owns i → m' i = m i)
    (hn : n ≤ r.tail (m.u32 r.cons)) :
  m'.read (r.head m') n = m.read (r.head m) n
  := by
  have hlt := Nat.mod_lt (m.u32 r.cons).toNat r.size_pos
  rw [RingMap.head, RingMap.head, (cells_congr h).2]
  apply ByteMem.read_congr
  intro i hi
  apply h
  left
  simp only [RingMap.tail] at hn
  omega

theorem front_congr (h : ∀ i, r.Owns i → m' i = m i) (room : Nat) :
  r.front m' room = r.front m room
  := by
  obtain ⟨hprod, hcons⟩ := cells_congr h
  have havail : r.avail m' = r.avail m := by
    rw [RingMap.avail, RingMap.avail, hprod, hcons]
  rw [RingMap.front, RingMap.front, havail, hcons]
  split
  · rfl
  split
  · rfl
  rename_i hlong
  -- the header is read only where it lies inside of the data area
  have htail : 8 ≤ r.tail (m.u32 r.cons) := by
    simp only [padMinLen] at hlong
    omega
  have hread := read_head_congr h htail
  have hlen : m'.u16 (r.head m') = m.u16 (r.head m) := by
    rw [ByteMem.u16, ByteMem.u16, read_head_congr h (by omega)]
  have hkind : (m'.read (r.head m') 8)[2]? = (m.read (r.head m) 8)[2]? := by rw [hread]
  rw [ByteMem.getElem?_read, ByteMem.getElem?_read, if_pos (by decide), if_pos (by decide)] at hkind
  rw [RingMap.frontLen, RingMap.frontLen, hlen, Option.some.inj hkind, havail, hcons]

theorem peeked_congr (h : ∀ i, r.Owns i → m' i = m i) :
  r.peeked m' scratch = r.peeked m scratch
  := by
  obtain ⟨hprod, hcons⟩ := cells_congr h
  have havail : r.avail m' = r.avail m := by
    rw [RingMap.avail, RingMap.avail, hprod, hcons]
  rw [RingMap.peeked, RingMap.peeked, havail, hcons]
  split
  · rfl
  rename_i hlong
  rw [read_head_congr h (by omega)]

end Congr

/-- A pop of a ring with arbitrary cells and contents.  It does not panic, not by an assertion
about the range it copies either, and depends on no byte beside the ring.  Without a record it
leaves memory alone; with a record, the record lies between the indices and in front of the end
of the ring, it is copied and parses, and the consumer index moves behind it. -/
theorem popInto_arbitrary (dbg : Bool) (r : RingMap) (m : ByteMem) (scratch : Bytes) :
  let out := (Consumer.popInto dbg r).run ⟨m, scratch⟩
  (∀ m', (∀ i, r.Owns i → m' i = m i) →
    ((Consumer.popInto dbg r).run ⟨m', scratch⟩).2 = out.2 ∧
      ((Consumer.popInto dbg r).run ⟨m', scratch⟩).1.scratch = out.1.scratch) ∧
  out.1.scratch.length = scratch.length ∧
  (((∃ e, out.2 = .err e) ∨ out.2 = .ok none) ∧ out.1.mem = m ∨
    ∃ n, out.2 = .ok (some n) ∧ n % 8 = 0 ∧ 8 ≤ n ∧ n ≤ 4096 ∧
      n ≤ (used (m.u32 r.prod) (m.u32 r.cons)).toNat ∧
      n ≤ r.size.toNat - (m.u32 r.cons).toNat % r.size.toNat ∧ n ≤ scratch.length ∧
      out.1.scratch.take n = m.read (r.data + (m.u32 r.cons).toNat % r.size.toNat) n ∧
      (∃ hdr, RecordHeader.readFrom (out.1.scratch.take n) = .ok hdr ∧ hdr.len.toNat = n) ∧
      out.1.mem = m.write r.cons (Bytes.ofU32 (m.u32 r.cons + UInt32.ofNat n)))
  := by
  dsimp only
  cases hfront : r.front m scratch.length with
  | panic => exact absurd hfront front_ne_panic
  | err e =>
      have hrun : ∀ m', r.front m' scratch.length = .err e →
          (Consumer.popInto dbg r).run ⟨m', scratch⟩ = (⟨m', r.peeked m' scratch⟩, .err e) :=
        fun m' h => run_popInto_none h (by simp)
      rw [hrun m hfront]
      refine ⟨fun m' h => ?_, length_peeked, .inl ⟨.inl ⟨e, rfl⟩, rfl⟩⟩
      rw [hrun m' (by rw [front_congr h, hfront]), peeked_congr h]
      exact ⟨rfl, rfl⟩
  | ok a =>
  cases a with
  | none =>
      have hrun : ∀ m', r.front m' scratch.length = .ok none →
          (Consumer.popInto dbg r).run ⟨m', scratch⟩ = (⟨m', r.peeked m' scratch⟩, .ok none) :=
        fun m' h => run_popInto_none h (by simp)
      rw [hrun m hfront]
      refine ⟨fun m' h => ?_, length_peeked, .inl ⟨.inr rfl, rfl⟩⟩
      rw [hrun m' (by rw [front_congr h, hfront]), peeked_congr h]
      exact ⟨rfl, rfl⟩
  | some n =>
      obtain ⟨_, hmod, hmin, hmax, havail, htail, hroom⟩ :=
        frontLen_eq_ok.mp (front_eq_some.mp hfront)
      have hge := minLen_ge (m (r.head m + 2))
      have hcopied : (m.read (r.head m) n ++ scratch.drop n).take n = m.read (r.head m) n :=
        List.take_left' (ByteMem.length_read ..)
      rw [run_popInto_some hfront]
      refine ⟨fun m' h => ?_, ?_, .inr ⟨n, rfl, hmod, by omega, hmax, havail, htail, hroom, ?_, ?_,
        rfl⟩⟩
      · rw [run_popInto_some (by rw [front_congr h, hfront]), read_head_congr h htail]
        exact ⟨rfl, rfl⟩
      · rw [List.length_append, ByteMem.length_read, List.length_drop]
        omega
      · exact hcopied
      · rw [hcopied]
        apply readFrom_head (front_eq_some.mp hfront)

end Pop

/-! ### Pushes -/

section Push

variable {dbg : Bool} {r : RingMap} {p : Producer} {n : Nat}
variable {encode : UInt32 → Exec Bytes EncodeError Nat}

/-- The slot of a record of `n` bytes: its offset and the sequence number it is given.  Behind a
`Pad`, which takes a number too, it starts at offset zero. -/
def Producer.slot (r : RingMap) (p : Producer) (n : Nat) : Nat × UInt32 :=
  let prod := p.mem.u32 r.prod
  if n ≤ r.tail prod then (prod.toNat % r.size.toNat, p.nextSeq) else (0, p.nextSeq + 1)

/-- There is room for a record of `n` bytes, with the tail when it does not fit in front of the
end. -/
def Producer.Room (r : RingMap) (p : Producer) (n : Nat) : Prop :=
  bytesNeeded (p.mem.u32 r.prod) r.size (UInt32.ofNat n)
    ≤ free (p.mem.u32 r.prod) (p.mem.u32 r.cons) r.size

/-- No `Pad` is needed, or the tail can hold one: it has room for a header and, for the debug
assertion, whole words. -/
def Producer.Paddable (dbg : Bool) (r : RingMap) (p : Producer) (n : Nat) : Prop :=
  n ≤ r.tail (p.mem.u32 r.prod) ∨
    padMinLen ≤ r.tail (p.mem.u32 r.prod)
      ∧ (dbg = true → r.tail (p.mem.u32 r.prod) % recordAlign = 0)

/-- The push gets as far as its encoder, and the encoder fails. -/
def Producer.EncoderFails (dbg : Bool) (r : RingMap) (p : Producer) (n : Nat)
    (encode : UInt32 → Exec Bytes EncodeError Nat) : Prop :=
  p.Room r n ∧ p.Paddable dbg r n ∧
    ∃ e, ((encode (p.slot r n).2).run (p.mem.read (r.data + (p.slot r n).1) n)).2 = .err e

/-- A tail without room for the header of a `Pad`, or an unaligned one in a build with debug
assertions. -/
theorem run_padTail_panic {pos : UInt32} (h : r.tail pos < padMinLen
    ∨ dbg = true ∧ r.tail pos % recordAlign ≠ 0) :
  ((Producer.padTail dbg r pos).run p).2 = .panic
  := by
  have hlt := Nat.mod_lt pos.toNat r.size_pos
  have hdef : r.tail pos = r.size.toNat - pos.toNat % r.size.toNat := rfl
  rw [Producer.padTail, r.toNat_contiguousTail, Exec.run_bind_of_ok (run_allocSeq _)]
  apply Exec.panic_of_bind
  have hpad : ((encodePad dbg (r.tail pos) p.nextSeq).run
      (p.mem.read (r.data + (pos &&& (r.size - 1)).toNat) (r.tail pos))).2 = .panic := by
    rcases h with hshort | ⟨rfl, hmod⟩
    · apply run_encodePad_short hshort (ByteMem.length_read ..)
    · rw [encodePad]
      apply Exec.panic_of_bind
      rw [Exec.run_debugAssert_of_not (fun h => hmod h.1)]
  have hoff : (pos &&& (r.size - 1)).toNat + r.tail pos ≤ r.size.toNat := by
    rw [r.mask_toNat]
    omega
  obtain ⟨q, hq⟩ : ∃ q, (Producer.sliceMut dbg r (pos &&& (r.size - 1)) (r.tail pos)
      (encodePad dbg (r.tail pos) p.nextSeq)).run ⟨p.mem, p.nextSeq + 1⟩ = (q, .panic) := by
    rw [run_sliceMut hoff rfl, hpad]
    exact ⟨_, rfl⟩
  simp only [Exec.expect, hq]

/-- What placing a record returns, from what its encoder returned. -/
def placed (dbg : Bool) (n : Nat) (seq : UInt32) : Res EncodeError Nat → Res RingFull UInt32
  | .ok k => if dbg = true ∧ k ≠ n then .panic else .ok seq
  | .err _ => .err .ringFull
  | .panic => .panic

/-- Placing a record by an arbitrary encoder. -/
theorem run_placeRecord_eq {pos : UInt32} {m : ByteMem} {seq : UInt32} {bs : Bytes}
    {res : Res EncodeError Nat} (hend : pos.toNat % r.size.toNat + n ≤ r.size.toNat)
    (henc : (encode seq).run (m.read (r.data + pos.toNat % r.size.toNat) n) = (bs, res)) :
  (Producer.placeRecord dbg r pos n encode).run ⟨m, seq⟩
    = (⟨m.write (r.data + pos.toNat % r.size.toNat) bs, seq + 1⟩, placed dbg n seq res)
  := by
  rw [← r.mask_toNat] at hend henc
  have hslice : (Exec.mapErr (fun _ => RingFull.ringFull)
        (Producer.sliceMut dbg r (pos &&& (r.size - 1)) n (encode seq))).run ⟨m, seq + 1⟩
      = (⟨m.write (r.data + (pos &&& (r.size - 1)).toNat) bs, seq + 1⟩,
          res.mapErr fun _ => .ringFull) := by
    rw [Exec.run_mapErr, run_sliceMut hend henc]
  rw [Producer.placeRecord, Exec.run_bind_of_ok (run_allocSeq _), ← r.mask_toNat]
  dsimp only
  cases res with
  | ok k =>
      rw [Exec.run_bind_of_ok hslice, placed]
      by_cases hk : k = n
      · rw [Exec.run_bind_of_ok (Exec.run_debugAssert_of hk _), if_neg (by tauto)]
        rfl
      · cases dbg with
        | true =>
            rw [Exec.run_bind_of_panic (Exec.run_debugAssert_of_not hk _), if_pos ⟨rfl, hk⟩]
        | false =>
            rw [Exec.run_bind_of_ok (Exec.run_debugAssert_false _ _), if_neg (by simp)]
            rfl
  | err e => rw [Exec.run_bind_of_err hslice, placed]
  | panic => rw [Exec.run_bind_of_panic hslice, placed]

/-- Storing the producer index changes neither the next sequence number nor the outcome. -/
theorem run_bind_storeU32 (x : Exec Producer RingFull UInt32) (a : Nat) (v : UInt32) :
  ((x >>= fun seq => do
      Producer.storeU32 a v
      pure seq).run p).1.nextSeq = (x.run p).1.nextSeq ∧
  ((x >>= fun seq => do
      Producer.storeU32 a v
      pure seq).run p).2 = (x.run p).2
  := by
  rcases h : x.run p with ⟨q, s | e | _⟩
  · rw [Exec.run_bind_of_ok h]
    exact ⟨rfl, rfl⟩
  · rw [Exec.run_bind_of_err h]
    exact ⟨rfl, rfl⟩
  · rw [Exec.run_bind_of_panic h]
    exact ⟨rfl, rfl⟩

/-- A record that needs the tail filled first lies in front of the tail. -/
theorem Producer.Room.le_of_tail_lt (hroom : p.Room r n) (hmax : n ≤ maxRecordLen)
    (hlt : r.tail (p.mem.u32 r.prod) < n) :
  n ≤ (p.mem.u32 r.prod).toNat % r.size.toNat
  := by
  have hneeded := r.toNat_bytesNeeded (p.mem.u32 r.prod) hmax
  rw [if_neg (by omega)] at hneeded
  have hmod := Nat.mod_lt (p.mem.u32 r.prod).toNat r.size_pos
  have hdef : r.tail (p.mem.u32 r.prod)
      = r.size.toNat - (p.mem.u32 r.prod).toNat % r.size.toNat := rfl
  have hle : (bytesNeeded (p.mem.u32 r.prod) r.size (UInt32.ofNat n)).toNat ≤ r.size.toNat := by
    apply Nat.le_trans (UInt32.le_iff_toNat_le.mp hroom)
    rw [free, Word.toNat_saturatingSub]
    apply Nat.sub_le
  omega

/-- A push that has room, and whose tail can be filled when it has to be, runs its encoder on its
slot. -/
theorem run_tryPush_room (encode : UInt32 → Exec Bytes EncodeError Nat) (hmod : n % recordAlign = 0)
    (hmin : padMinLen ≤ n) (hmax : n ≤ maxRecordLen) (hroom : p.Room r n) (hpad : p.Paddable dbg r n) :
  ((Producer.tryPush dbg r n encode).run p).1.nextSeq = (p.slot r n).2 + 1 ∧
  ((Producer.tryPush dbg r n encode).run p).2 = placed dbg n (p.slot r n).2
    ((encode (p.slot r n).2).run (p.mem.read (r.data + (p.slot r n).1) n)).2
  := by
  have hsize : maxRecordLen ≤ r.size.toNat := r.size_ge
  have hlt := Nat.mod_lt (p.mem.u32 r.prod).toNat r.size_pos
  have hdef : r.tail (p.mem.u32 r.prod)
      = r.size.toNat - (p.mem.u32 r.prod).toNat % r.size.toNat := rfl
  have hlong := bytesNeeded_gt r.size_pow (p.mem.u32 r.prod) hmax
  rw [r.toNat_contiguousTail] at hlong
  rw [Producer.tryPush, Exec.run_bind_of_ok (Exec.run_debugAssert_of ⟨hmod, hmin, hmax⟩ _),
    Exec.run_bind_of_ok (Exec.run_get _),
    Exec.run_bind_of_ok (Exec.run_failIf_of_not (UInt32.not_lt.mpr hroom) _), Producer.slot]
  by_cases hle : n ≤ r.tail (p.mem.u32 r.prod)
  · rw [if_neg (by rw [hlong]; omega), Exec.run_bind_of_ok (Exec.run_pure _ _), if_pos hle]
    obtain ⟨hseq, hres⟩ := run_bind_storeU32 (p := p)
      (Producer.placeRecord dbg r (p.mem.u32 r.prod) n encode) r.prod
      (p.mem.u32 r.prod + bytesNeeded (p.mem.u32 r.prod) r.size (UInt32.ofNat n))
    rw [hseq, hres, run_placeRecord_eq (by omega) rfl]
    exact ⟨rfl, rfl⟩
  · -- the `Pad` lies behind the slot of the record
    have hfront := hroom.le_of_tail_lt hmax (Nat.lt_of_not_le hle)
    obtain ⟨htmin, htmod⟩ := hpad.resolve_left hle
    have hzero : (p.mem.u32 r.prod + UInt32.ofNat (r.tail (p.mem.u32 r.prod))).toNat
        % r.size.toNat = 0 := by
      rw [Word.toNat_add_mod r.size_pow, r.add_tail_mod]
    have hread : (p.mem.write (r.data + (p.mem.u32 r.prod).toNat % r.size.toNat)
        (padBytes (r.tail (p.mem.u32 r.prod)) p.nextSeq)).read r.data n = p.mem.read r.data n :=
      ByteMem.read_write_outside (.inl (by omega))
    rw [if_pos (by rw [hlong]; omega), Exec.run_bind_of_ok (run_padTail htmod htmin (by omega)),
      if_neg hle]
    obtain ⟨hseq, hres⟩ := run_bind_storeU32
      (p := ⟨p.mem.write (r.data + (p.mem.u32 r.prod).toNat % r.size.toNat)
        (padBytes (r.tail (p.mem.u32 r.prod)) p.nextSeq), p.nextSeq + 1⟩)
      (Producer.placeRecord dbg r
        (p.mem.u32 r.prod + UInt32.ofNat (r.tail (p.mem.u32 r.prod))) n encode) r.prod
      (p.mem.u32 r.prod + bytesNeeded (p.mem.u32 r.prod) r.size (UInt32.ofNat n))
    rw [hseq, hres, run_placeRecord_eq (by omega) rfl, hzero, Nat.add_zero, hread]
    exact ⟨rfl, rfl⟩

/-- A push whose tail cannot be filled panics. -/
theorem run_tryPush_panic (encode : UInt32 → Exec Bytes EncodeError Nat) (hmod : n % recordAlign = 0)
    (hmin : padMinLen ≤ n) (hmax : n ≤ maxRecordLen) (hroom : p.Room r n) (hpad : ¬ p.Paddable dbg r n) :
  ((Producer.tryPush dbg r n encode).run p).2 = .panic
  := by
  simp only [Producer.Paddable, not_or, not_and, Classical.not_imp] at hpad
  have hlong := bytesNeeded_gt r.size_pow (p.mem.u32 r.prod) hmax
  rw [r.toNat_contiguousTail] at hlong
  rw [Producer.tryPush, Exec.run_bind_of_ok (Exec.run_debugAssert_of ⟨hmod, hmin, hmax⟩ _),
    Exec.run_bind_of_ok (Exec.run_get _),
    Exec.run_bind_of_ok (Exec.run_failIf_of_not (UInt32.not_lt.mpr hroom) _),
    if_pos (by rw [hlong]; omega)]
  apply Exec.panic_of_bind
  apply run_padTail_panic
  by_cases hshort : r.tail (p.mem.u32 r.prod) < padMinLen
  · exact .inl hshort
  · exact .inr (hpad.2 (Nat.le_of_not_lt hshort))

/-- The lengths of a record that the debug assertion of a push admits. -/
structure Admitted (n : Nat) : Prop where
  aligned : n % recordAlign = 0
  min : padMinLen ≤ n
  max : n ≤ maxRecordLen

/-- A push without effect: the ring and the next sequence number are as they were, so the next
push that succeeds continues the numbers. -/
structure Producer.NoOp (r : RingMap) (p p' : Producer) : Prop where
  ring : ∀ i, r.Owns i → p'.mem i = p.mem i
  nextSeq : p'.nextSeq = p.nextSeq
  continues : ∀ dbg n encode q s, Admitted n →
    (Producer.tryPush dbg r n encode).run p' = (q, .ok s) → s = (p.slot r n).2

/-- The sequence number a push returns is the one of its slot. -/
theorem slot_of_run_ok {q : Producer} {s : UInt32} (hn : Admitted n)
    (h : (Producer.tryPush dbg r n encode).run p = (q, .ok s)) :
  s = (p.slot r n).2
  := by
  obtain ⟨hmod, hmin, hmax⟩ := hn
  by_cases hroom : p.Room r n
  · by_cases hpad : p.Paddable dbg r n
    · have hres := (run_tryPush_room encode hmod hmin hmax hroom hpad).2
      rw [h] at hres
      generalize ((encode (p.slot r n).2).run _).2 = res at hres
      cases res with
      | ok k =>
          rw [placed] at hres
          split at hres
          · cases hres
          · exact Res.ok.inj hres
      | err e => cases hres
      | panic => cases hres
    · have hres := run_tryPush_panic encode hmod hmin hmax hroom hpad
      rw [h] at hres
      cases hres
  · rw [run_tryPush_full hmod hmin hmax (UInt32.not_le.mp hroom)] at h
    cases h

/-- A push whose encoder fails reports a full ring and has taken a sequence number. -/
theorem Producer.EncoderFails.run_tryPush (h : p.EncoderFails dbg r n encode) (hn : Admitted n) :
  ∃ p', (Producer.tryPush dbg r n encode).run p = (p', .err .ringFull) ∧ p'.nextSeq ≠ p.nextSeq
  := by
  obtain ⟨hroom, hpad, e, henc⟩ := h
  obtain ⟨hseq, hres⟩ := run_tryPush_room encode hn.aligned hn.min hn.max hroom hpad
  rw [henc, placed] at hres
  refine ⟨_, Prod.ext rfl hres, ?_⟩
  rw [hseq, Producer.slot]
  split
  · simp
  · simp [UInt32.add_assoc]

/-- A push whose encoder does not fail reports a full ring only when the ring is full, and then
changes nothing. -/
theorem eq_of_run_tryPush_err {p' : Producer} (hn : Admitted n)
    (hnot : ¬ p.EncoderFails dbg r n encode)
    (h : (Producer.tryPush dbg r n encode).run p = (p', .err .ringFull)) :
  p' = p
  := by
  obtain ⟨hmod, hmin, hmax⟩ := hn
  by_cases hroom : p.Room r n
  · by_cases hpad : p.Paddable dbg r n
    · have hres := (run_tryPush_room encode hmod hmin hmax hroom hpad).2
      rw [h] at hres
      generalize henc : ((encode (p.slot r n).2).run _).2 = res at hres
      cases res with
      | ok k =>
          rw [placed] at hres
          split at hres
          · cases hres
          · cases hres
      | err e => exact absurd ⟨hroom, hpad, e, henc⟩ hnot
      | panic => cases hres
    · have hres := run_tryPush_panic encode hmod hmin hmax hroom hpad
      rw [h] at hres
      cases hres
  · rw [run_tryPush_full hmod hmin hmax (UInt32.not_le.mp hroom)] at h
    exact (congrArg Prod.fst h).symm

/-- A push that reports a full ring is without effect exactly when it is not its encoder that
failed. -/
theorem tryPush_noOp_iff (dbg : Bool) (r : RingMap) (p : Producer) {n : Nat}
    (encode : UInt32 → Exec Bytes EncodeError Nat) (hn : Admitted n) :
  (∀ p', (Producer.tryPush dbg r n encode).run p = (p', .err .ringFull) → p.NoOp r p') ↔
    ¬ p.EncoderFails dbg r n encode
  := by
  constructor
  · intro hall hfails
    obtain ⟨p', hrun, hseq⟩ := hfails.run_tryPush hn
    exact hseq (hall p' hrun).nextSeq
  · intro hnot p' hrun
    obtain rfl := eq_of_run_tryPush_err hn hnot hrun
    exact ⟨fun _ _ => rfl, rfl, fun _ _ _ _ _ hn' hok => slot_of_run_ok hn' hok⟩

/-- Memory of zeros. -/
def blankMem : ByteMem := fun _ => 0

/-- A producer of the canonical ring W in which eight bytes are free. -/
def fullProducer : Producer :=
  { mem := (blankMem.write RingId.W.prodOffset (Bytes.ofU32 0x100010)).write RingId.W.consOffset
      (Bytes.ofU32 0x18)
    nextSeq := 9 }

/-- An event of twenty-four bytes finds the ring full, and its push is without effect. -/
theorem tryPush_noOp_iff_full :
  ∃ p', (Producer.tryPush true (RingMap.canonical 0 .W) (encodedEventLen (.reachable 7))
      (fun seq => encodeEvent true seq 0 0 (.reachable 7))).run fullProducer
        = (p', .err .ringFull) ∧
    Producer.NoOp (RingMap.canonical 0 .W) fullProducer p'
  := by
  have hnot : ¬ fullProducer.EncoderFails true (RingMap.canonical 0 .W)
      (encodedEventLen (.reachable 7)) (fun seq => encodeEvent true seq 0 0 (.reachable 7)) := by
    rintro ⟨hroom, _⟩
    rw [Producer.Room] at hroom
    revert hroom
    decide +kernel
  have hfull : ((Producer.tryPush true (RingMap.canonical 0 .W) (encodedEventLen (.reachable 7))
      (fun seq => encodeEvent true seq 0 0 (.reachable 7))).run fullProducer).2
        = .err .ringFull := by
    decide +kernel
  refine ⟨_, Prod.ext rfl hfull, ?_⟩
  exact (tryPush_noOp_iff true (RingMap.canonical 0 .W) fullProducer
    (fun seq => encodeEvent true seq 0 0 (.reachable 7)) ⟨by decide, by decide, by decide⟩).mpr
    hnot _ (Prod.ext rfl hfull)

/-- A name of 257 bytes is over the cap of its encoder. -/
def overlongName : EventPayload := .nameIntern 0 (List.replicate 257 97)

/-- Pushing an overlong name on an empty ring reports a full ring, but the sequence number is
gone. -/
theorem overlong_name_takes_seq :
  ¬ ∀ p', (Producer.tryPush true (RingMap.canonical 0 .W) (encodedEventLen overlongName)
        (fun seq => encodeEvent true seq 0 0 overlongName)).run ⟨blankMem, 0⟩
      = (p', .err .ringFull) → Producer.NoOp (RingMap.canonical 0 .W) ⟨blankMem, 0⟩ p'
  := by
  have hlen : encodedEventLen overlongName = 288 := by
    simp only [overlongName, encodedEventLen, List.length_replicate]
    rfl
  have henc : ∀ seq b, ((encodeEvent true seq 0 0 overlongName).run b).2 = .err .fieldTooLong := by
    intro seq b
    rw [overlongName, encodeEvent,
      Exec.run_bind_of_err (Exec.run_failIf_of (by rw [List.length_replicate]; decide) b)]
  rw [hlen]
  have hfails : Producer.EncoderFails true (RingMap.canonical 0 .W) ⟨blankMem, 0⟩ 288
      (fun seq => encodeEvent true seq 0 0 overlongName) := by
    refine ⟨?_, .inl (by decide), .fieldTooLong, ?_⟩
    · rw [Producer.Room]
      decide
    · apply henc
  obtain ⟨p', hrun, hseq⟩ := hfails.run_tryPush ⟨by decide, by decide, by decide⟩
  intro hall
  exact hseq (hall p' hrun).nextSeq

end Push

end Wire
