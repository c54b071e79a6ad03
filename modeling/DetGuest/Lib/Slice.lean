import DetGuest.Lib.Bytes

/-!
# Slices of memory

A slice is a range of memory that is written field by field.  It remembers the writes that
were made through it, so that what another party sees between two of them can be told.
-/

namespace ByteMem

variable {m m' : ByteMem} {a : Nat} {bs : Bytes}

@[simp]
theorem view_zero (m : ByteMem) :
  m.view 0 = m
  := by
  funext i
  rw [view, Nat.zero_add]

/-- Reading inside of what was written, from its start on. -/
theorem read_view_write {lo n : Nat} (h : lo + n ≤ bs.length) :
  ((m.write a bs).view a).read lo n = bs.extract lo (lo + n)
  := by
  rw [read_view, read_write_inside h]

theorem length_of_extract {lo n : Nat} {f : Bytes} (h : bs.extract lo (lo + n) = f)
    (hf : f.length = n) (hn : 0 < n) :
  lo + n ≤ bs.length
  := by
  have hlen := congrArg List.length h
  rw [Bytes.length_extract, hf] at hlen
  omega

theorem u16_view_write {lo : Nat} {v : UInt16} (h : bs.extract lo (lo + 2) = Bytes.ofU16 v) :
  ((m.write a bs).view a).u16 lo = v
  := by
  rw [u16, read_view_write (length_of_extract h (Bytes.length_ofU16 v) (by decide)), h,
    Bytes.toU16_ofU16]

theorem u32_view_write {lo : Nat} {v : UInt32} (h : bs.extract lo (lo + 4) = Bytes.ofU32 v) :
  ((m.write a bs).view a).u32 lo = v
  := by
  rw [u32, read_view_write (length_of_extract h (Bytes.length_ofU32 v) (by decide)), h,
    Bytes.toU32_ofU32]

theorem u64_view_write {lo : Nat} {v : UInt64} (h : bs.extract lo (lo + 8) = Bytes.ofU64 v) :
  ((m.write a bs).view a).u64 lo = v
  := by
  rw [u64, read_view_write (length_of_extract h (Bytes.length_ofU64 v) (by decide)), h,
    Bytes.toU64_ofU64]

/-- A write beside a range leaves the bytes of the range. -/
theorem write_beside {b n i : Nat} (h : b + n ≤ a ∨ a + bs.length ≤ b) (hi : i < n) :
  m.write a bs (b + i) = m (b + i)
  := by
  rcases h with h | h
  · apply write_apply_of_lt
    omega
  · apply write_apply_of_le
    omega

end ByteMem

/-- A range of memory of the given length, with the writes so far, oldest first. -/
structure Slice where
  mem : ByteMem
  len : Nat
  writes : List (Nat × Bytes)

namespace Slice

/-- Bytes as a slice. -/
def ofBytes (bs : Bytes) : Slice := { mem := ByteMem.ofBytes bs, len := bs.length, writes := [] }

/-- A copy of memory has the bytes of the memory. -/
theorem ofBytes_read_mem {m : ByteMem} {a n i : Nat} (hi : i < n) :
  (ofBytes (m.read a n)).mem i = m (a + i)
  := by
  change (m.read a n).getD i 0 = m (a + i)
  rw [List.getD_eq_getElem?_getD, ByteMem.getElem?_read, if_pos hi, Option.getD_some]

/-- The slice with `bs` written from offset `lo` on. -/
def write (s : Slice) (lo : Nat) (bs : Bytes) : Slice :=
  { s with mem := s.mem.write lo bs, writes := s.writes ++ [(lo, bs)] }

/-- `s[lo..lo + bs.len()].copy_from_slice(bs)`, which panics when it is out of range. -/
def put {ε : Type} (lo : Nat) (bs : Bytes) : Exec Slice ε Unit :=
  ⟨fun s => if lo + bs.length ≤ s.len then (s.write lo bs, .ok ()) else (s, .panic)⟩

/-- The slice after a list of writes. -/
def writeAll (s : Slice) (ws : List (Nat × Bytes)) : Slice :=
  ws.foldl (fun s w => s.write w.1 w.2) s

/-- The writes of fields one behind the other, from offset `lo` on. -/
def fieldsAt (lo : Nat) : List Bytes → List (Nat × Bytes)
  | [] => []
  | b :: bs => (lo, b) :: fieldsAt (lo + b.length) bs

@[simp]
theorem write_mem (s : Slice) (lo : Nat) (bs : Bytes) :
  (s.write lo bs).mem = s.mem.write lo bs
  := rfl

@[simp]
theorem write_len (s : Slice) (lo : Nat) (bs : Bytes) :
  (s.write lo bs).len = s.len
  := rfl

theorem run_put {ε : Type} {s : Slice} {lo : Nat} {bs : Bytes} (h : lo + bs.length ≤ s.len) :
  (put lo bs : Exec Slice ε Unit).run s = (s.write lo bs, .ok ())
  := if_pos h

@[simp]
theorem writeAll_nil (s : Slice) :
  s.writeAll [] = s
  := rfl

@[simp]
theorem writeAll_cons (s : Slice) (w : Nat × Bytes) (ws : List (Nat × Bytes)) :
  s.writeAll (w :: ws) = (s.write w.1 w.2).writeAll ws
  := rfl

theorem writeAll_append (s : Slice) (ws ws' : List (Nat × Bytes)) :
  s.writeAll (ws ++ ws') = (s.writeAll ws).writeAll ws'
  := List.foldl_append ..

@[simp]
theorem writeAll_len (s : Slice) (ws : List (Nat × Bytes)) :
  (s.writeAll ws).len = s.len
  := by
  induction ws generalizing s with
  | nil => rfl
  | cons w ws ih => rw [writeAll_cons, ih, write_len]

theorem writeAll_writes (s : Slice) (ws : List (Nat × Bytes)) :
  (s.writeAll ws).writes = s.writes ++ ws
  := by
  induction ws generalizing s with
  | nil => simp
  | cons w ws ih => simp [ih, write]

/-- Fields one behind the other change memory like their concatenation. -/
theorem writeAll_fieldsAt_mem (s : Slice) (lo : Nat) (bs : List Bytes) :
  (s.writeAll (fieldsAt lo bs)).mem = s.mem.write lo bs.flatten
  := by
  induction bs generalizing s lo with
  | nil => rw [List.flatten_nil, ByteMem.write_nil, fieldsAt, writeAll_nil]
  | cons b bs ih =>
      rw [fieldsAt, writeAll_cons, ih, write_mem, List.flatten_cons, ByteMem.write_append]

/-- A write that is followed by others. -/
theorem run_put_bind {ε α : Type} {s : Slice} {lo : Nat} {bs : Bytes} {f : Unit → Exec Slice ε α}
    (h : lo + bs.length ≤ s.len) :
  (put lo bs >>= f).run s = (f ()).run (s.write lo bs)
  := Exec.run_bind_of_ok (run_put h)

end Slice
