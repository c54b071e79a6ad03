import Mathlib.Algebra.Order.Ring.Nat
import DetGuest.Lib.Exec

/-!
# Byte strings and byte memories

Little-endian numbers as byte strings, the slices of a byte string with the checks
Rust makes on their bounds, and memories: functions from addresses to bytes, read and
written a run of consecutive addresses at a time.
-/

/-- A byte string. -/
abbrev Bytes : Type := List UInt8

namespace Bytes

/-! ### Little-endian numbers -/

/-- The `w` low-order bytes of `n`, least significant first. -/
def ofNatLE : Nat → Nat → Bytes
  | 0, _ => []
  | w + 1, n => UInt8.ofNat n :: ofNatLE w (n / 256)

/-- The number whose bytes, least significant first, are given. -/
def toNatLE : Bytes → Nat
  | [] => 0
  | b :: bs => b.toNat + 256 * toNatLE bs

@[simp]
theorem length_ofNatLE (w n : Nat) :
  (ofNatLE w n).length = w
  := by
  induction w generalizing n with
  | zero => rfl
  | succ w ih => simp [ofNatLE, ih]

theorem toNatLE_ofNatLE (w n : Nat) :
  toNatLE (ofNatLE w n) = n % 256 ^ w
  := by
  induction w generalizing n with
  | zero => simp [ofNatLE, toNatLE, Nat.mod_one]
  | succ w ih =>
      have hb : (UInt8.ofNat n).toNat = n % 256 := by simp
      rw [ofNatLE, toNatLE, ih, hb, Nat.pow_succ', Nat.mod_mul]

theorem toNatLE_lt (bs : Bytes) :
  toNatLE bs < 256 ^ bs.length
  := by
  induction bs with
  | nil => simp [toNatLE]
  | cons b bs ih =>
      have hb := b.toNat_lt
      rw [toNatLE, List.length_cons, Nat.pow_succ]
      omega

theorem ofNatLE_toNatLE (bs : Bytes) :
  ofNatLE bs.length (toNatLE bs) = bs
  := by
  induction bs with
  | nil => rfl
  | cons b bs ih =>
      have hb := b.toNat_lt
      have hmod : UInt8.ofNat (b.toNat + 256 * toNatLE bs) = b := by
        apply UInt8.toNat_inj.mp
        simp
      have hdiv : (b.toNat + 256 * toNatLE bs) / 256 = toNatLE bs := by omega
      rw [List.length_cons, toNatLE, ofNatLE, hmod, hdiv, ih]

/-- The two bytes of a `u16`. -/
def ofU16 (v : UInt16) : Bytes := ofNatLE 2 v.toNat

/-- The four bytes of a `u32`. -/
def ofU32 (v : UInt32) : Bytes := ofNatLE 4 v.toNat

/-- The eight bytes of a `u64`. -/
def ofU64 (v : UInt64) : Bytes := ofNatLE 8 v.toNat

/-- The `u16` whose bytes are given. -/
def toU16 (bs : Bytes) : UInt16 := UInt16.ofNat (toNatLE bs)

/-- The `u32` whose bytes are given. -/
def toU32 (bs : Bytes) : UInt32 := UInt32.ofNat (toNatLE bs)

/-- The `u64` whose bytes are given. -/
def toU64 (bs : Bytes) : UInt64 := UInt64.ofNat (toNatLE bs)

@[simp]
theorem length_ofU16 (v : UInt16) :
  (ofU16 v).length = 2
  := length_ofNatLE 2 v.toNat

@[simp]
theorem length_ofU32 (v : UInt32) :
  (ofU32 v).length = 4
  := length_ofNatLE 4 v.toNat

@[simp]
theorem length_ofU64 (v : UInt64) :
  (ofU64 v).length = 8
  := length_ofNatLE 8 v.toNat

@[simp]
theorem toU16_ofU16 (v : UInt16) :
  toU16 (ofU16 v) = v
  := by
  have hv : v.toNat < 256 ^ 2 := Nat.lt_of_lt_of_le v.toNat_lt (by decide)
  rw [toU16, ofU16, toNatLE_ofNatLE, Nat.mod_eq_of_lt hv, UInt16.ofNat_toNat]

@[simp]
theorem toU32_ofU32 (v : UInt32) :
  toU32 (ofU32 v) = v
  := by
  have hv : v.toNat < 256 ^ 4 := Nat.lt_of_lt_of_le v.toNat_lt (by decide)
  rw [toU32, ofU32, toNatLE_ofNatLE, Nat.mod_eq_of_lt hv, UInt32.ofNat_toNat]

@[simp]
theorem toU64_ofU64 (v : UInt64) :
  toU64 (ofU64 v) = v
  := by
  have hv : v.toNat < 256 ^ 8 := Nat.lt_of_lt_of_le v.toNat_lt (by decide)
  rw [toU64, ofU64, toNatLE_ofNatLE, Nat.mod_eq_of_lt hv, UInt64.ofNat_toNat]

theorem ofU16_toU16 {bs : Bytes} (h : bs.length = 2) :
  ofU16 (toU16 bs) = bs
  := by
  have hlt := toNatLE_lt bs
  rw [h] at hlt
  rw [ofU16, toU16, UInt16.toNat_ofNat_of_lt' hlt, ← h, ofNatLE_toNatLE]

theorem ofU32_toU32 {bs : Bytes} (h : bs.length = 4) :
  ofU32 (toU32 bs) = bs
  := by
  have hlt := toNatLE_lt bs
  rw [h] at hlt
  rw [ofU32, toU32, UInt32.toNat_ofNat_of_lt' hlt, ← h, ofNatLE_toNatLE]

theorem ofU64_toU64 {bs : Bytes} (h : bs.length = 8) :
  ofU64 (toU64 bs) = bs
  := by
  have hlt := toNatLE_lt bs
  rw [h] at hlt
  rw [ofU64, toU64, UInt64.toNat_ofNat_of_lt' hlt, ← h, ofNatLE_toNatLE]

/-! ### Slices -/

/-- `n` zero bytes. -/
abbrev zeros (n : Nat) : Bytes := List.replicate n 0

/-- The bytes `lo..hi` of `b`, without a check of the bounds. -/
def extract (b : Bytes) (lo hi : Nat) : Bytes := (b.drop lo).take (hi - lo)

/-- The slice `b[lo..hi]`, which panics when it is out of range. -/
def slice {ε : Type} (b : Bytes) (lo hi : Nat) : Res ε Bytes :=
  if lo ≤ hi ∧ hi ≤ b.length then .ok (b.extract lo hi) else .panic

/-- The byte `b[i]`, which panics when it is out of range. -/
def byte {ε : Type} (b : Bytes) (i : Nat) : Res ε UInt8 :=
  match b[i]? with
  | some v => .ok v
  | none => .panic

/-- The string `b` with `bs` in place of its bytes from `lo` on. -/
def splice (b : Bytes) (lo : Nat) (bs : Bytes) : Bytes :=
  b.take lo ++ bs ++ b.drop (lo + bs.length)

/-- `b[lo..lo + bs.len()].copy_from_slice(bs)`, which panics when it is out of range. -/
def put {ε : Type} (lo : Nat) (bs : Bytes) : Exec Bytes ε Unit :=
  ⟨fun b => if lo + bs.length ≤ b.length then (b.splice lo bs, .ok ()) else (b, .panic)⟩

/-- Run `x` on the slice `b[lo..hi]` of the buffer, which panics when it is out of
range. -/
def within {ε α : Type} (lo hi : Nat) (x : Exec Bytes ε α) : Exec Bytes ε α :=
  ⟨fun b =>
    if lo ≤ hi ∧ hi ≤ b.length then
      (b.splice lo (x.run (b.extract lo hi)).1, (x.run (b.extract lo hi)).2)
    else
      (b, .panic)⟩

theorem slice_of_le {ε : Type} {b : Bytes} {lo hi : Nat} (h : lo ≤ hi) (h' : hi ≤ b.length) :
  (b.slice lo hi : Res ε Bytes) = .ok (b.extract lo hi)
  := if_pos ⟨h, h'⟩

@[simp]
theorem length_extract (b : Bytes) (lo hi : Nat) :
  (b.extract lo hi).length = min (hi - lo) (b.length - lo)
  := by
  simp [extract]

theorem length_splice {b : Bytes} {lo : Nat} {bs : Bytes} (h : lo + bs.length ≤ b.length) :
  (b.splice lo bs).length = b.length
  := by
  simp only [splice, List.length_append, List.length_take, List.length_drop]
  omega

theorem run_put {ε : Type} {b : Bytes} {lo : Nat} {bs : Bytes} (h : lo + bs.length ≤ b.length) :
  (put lo bs : Exec Bytes ε Unit).run b = (b.splice lo bs, .ok ())
  := if_pos h

theorem run_within {ε α : Type} {x : Exec Bytes ε α} {b : Bytes} {lo hi : Nat} (h : lo ≤ hi)
    (h' : hi ≤ b.length) :
  (within lo hi x).run b
    = (b.splice lo (x.run (b.extract lo hi)).1, (x.run (b.extract lo hi)).2)
  := if_pos ⟨h, h'⟩

/-- A sequence that starts with a copy panics when its rest panics on every buffer of that
length. -/
theorem panic_of_put {ε α : Type} {b : Bytes} {lo : Nat} {bs : Bytes} {x : Exec Bytes ε α}
    (h : ∀ b' : Bytes, b'.length = b.length → (x.run b').2 = .panic) :
  ((do put lo bs; x).run b).2 = .panic
  := by
  by_cases hfit : lo + bs.length ≤ b.length
  · rw [Exec.run_bind_of_ok (run_put hfit)]
    apply h _ (length_splice hfit)
  · rw [Exec.run_bind_of_panic (if_neg hfit)]

/-- Cutting the given prefix off. -/
theorem extract_append_left {xs ys : Bytes} {hi : Nat} (h : xs.length = hi) :
  (xs ++ ys).extract 0 hi = xs
  := by
  simp [extract, ← h]

/-- Writing right behind a prefix that is followed by zeros. -/
theorem splice_append_zeros {xs bs : Bytes} {lo n : Nat} (h : xs.length = lo) :
  splice (xs ++ zeros n) lo bs = xs ++ bs ++ zeros (n - bs.length)
  := by
  subst h
  rw [splice, List.take_left, List.drop_append, List.drop_eq_nil_of_le (by omega),
    List.nil_append, Nat.add_sub_cancel_left, List.drop_replicate]

end Bytes

/-! ### Memories -/

/-- A memory: the byte at each address. -/
abbrev ByteMem : Type := Nat → UInt8

namespace ByteMem

/-- The `n` bytes from address `a` on. -/
def read (m : ByteMem) : Nat → Nat → Bytes
  | _, 0 => []
  | a, n + 1 => m a :: read m (a + 1) n

/-- The memory with `bs` written from address `a` on. -/
def write (m : ByteMem) (a : Nat) (bs : Bytes) : ByteMem :=
  fun i => if a ≤ i then (bs[i - a]?).getD (m i) else m i

/-- The memory seen from address `a` on. -/
def view (m : ByteMem) (a : Nat) : ByteMem := fun i => m (a + i)

/-- The memory that holds a byte string from address zero on. -/
def ofBytes (bs : Bytes) : ByteMem := fun i => bs.getD i 0

/-- The `u16` at address `a`. -/
def u16 (m : ByteMem) (a : Nat) : UInt16 := (m.read a 2).toU16

/-- The `u32` at address `a`. -/
def u32 (m : ByteMem) (a : Nat) : UInt32 := (m.read a 4).toU32

/-- The `u64` at address `a`. -/
def u64 (m : ByteMem) (a : Nat) : UInt64 := (m.read a 8).toU64

@[simp]
theorem length_read (m : ByteMem) (a n : Nat) :
  (m.read a n).length = n
  := by
  induction n generalizing a with
  | zero => rfl
  | succ n ih => simp [read, ih]

theorem getElem?_read (m : ByteMem) (a n i : Nat) :
  (m.read a n)[i]? = if i < n then some (m (a + i)) else none
  := by
  induction n generalizing a i with
  | zero => simp [read]
  | succ n ih =>
      cases i with
      | zero => simp [read]
      | succ i =>
          have hi : a + 1 + i = a + (i + 1) := by omega
          simp [read, ih, hi]

/-- Two memories that agree on a range hold the same bytes there. -/
theorem read_congr {m m' : ByteMem} {a a' n : Nat} (h : ∀ i < n, m (a + i) = m' (a' + i)) :
  m.read a n = m'.read a' n
  := by
  apply List.ext_getElem?
  intro i
  rw [getElem?_read, getElem?_read]
  split
  · rw [h i ‹_›]
  · rfl

theorem read_add (m : ByteMem) (a n k : Nat) :
  m.read a (n + k) = m.read a n ++ m.read (a + n) k
  := by
  induction n generalizing a with
  | zero => simp [read]
  | succ n ih =>
      have ha : a + (n + 1) = a + 1 + n := by omega
      rw [Nat.succ_add, read, ih, read, ha, List.cons_append]

theorem take_read {m : ByteMem} {a n k : Nat} (h : k ≤ n) :
  (m.read a n).take k = m.read a k
  := by
  obtain ⟨d, rfl⟩ := Nat.exists_eq_add_of_le h
  rw [read_add, List.take_left' (length_read m a k)]

theorem drop_read (m : ByteMem) (a n k : Nat) :
  (m.read a n).drop k = m.read (a + k) (n - k)
  := by
  rcases Nat.le_total k n with h | h
  · obtain ⟨d, rfl⟩ := Nat.exists_eq_add_of_le h
    rw [read_add, List.drop_left' (length_read m a k), Nat.add_sub_cancel_left]
  · rw [List.drop_eq_nil_of_le (by simpa using h), Nat.sub_eq_zero_of_le h, read]

theorem extract_read {m : ByteMem} {a n lo hi : Nat} (h : hi ≤ n) :
  (m.read a n).extract lo hi = m.read (a + lo) (hi - lo)
  := by
  rw [Bytes.extract, drop_read, take_read (by omega)]

theorem read_view (m : ByteMem) (b a n : Nat) :
  (m.view b).read a n = m.read (b + a) n
  := by
  apply read_congr
  intro i _
  rw [view, Nat.add_assoc]

theorem write_apply_of_lt (m : ByteMem) {a i : Nat} (bs : Bytes) (h : i < a) :
  m.write a bs i = m i
  := if_neg (by omega)

theorem write_apply_of_le (m : ByteMem) {a i : Nat} (bs : Bytes) (h : a + bs.length ≤ i) :
  m.write a bs i = m i
  := by
  rw [write, if_pos (by omega), List.getElem?_eq_none (by omega), Option.getD_none]

/-- A write changes its own range only. -/
theorem write_apply_or (m : ByteMem) (a i : Nat) (bs : Bytes) :
  m.write a bs i = m i ∨ (a ≤ i ∧ i < a + bs.length)
  := by
  by_cases hlt : i < a
  · left
    apply write_apply_of_lt m bs hlt
  · by_cases hle : a + bs.length ≤ i
    · left
      apply write_apply_of_le m bs hle
    · right
      omega

theorem write_apply (m : ByteMem) (a i : Nat) (bs : Bytes) (h : i < bs.length) :
  m.write a bs (a + i) = bs[i]
  := by
  simp [write, h]

/-- Reading back what was written. -/
@[simp]
theorem read_write_self (m : ByteMem) (a : Nat) (bs : Bytes) :
  (m.write a bs).read a bs.length = bs
  := by
  apply List.ext_getElem?
  intro i
  rw [getElem?_read]
  split
  · rename_i hi
    rw [write_apply m a i bs hi, List.getElem?_eq_getElem hi]
  · rw [List.getElem?_eq_none (by omega)]

/-- Reading a range inside the one that was written. -/
theorem read_write_inside {m : ByteMem} {a lo n : Nat} {bs : Bytes} (h : lo + n ≤ bs.length) :
  (m.write a bs).read (a + lo) n = bs.extract lo (lo + n)
  := by
  have hd := drop_read (m.write a bs) a bs.length lo
  rw [read_write_self] at hd
  rw [Bytes.extract, hd, take_read (by omega), Nat.add_sub_cancel_left]

/-- Reading a range beside the one that was written. -/
theorem read_write_outside {m : ByteMem} {a b n : Nat} {bs : Bytes}
    (h : b + n ≤ a ∨ a + bs.length ≤ b) :
  (m.write a bs).read b n = m.read b n
  := by
  apply read_congr
  intro i hi
  rcases h with h | h
  · apply write_apply_of_lt
    omega
  · apply write_apply_of_le
    omega

@[simp]
theorem u32_write_self (m : ByteMem) (a : Nat) (v : UInt32) :
  (m.write a (Bytes.ofU32 v)).u32 a = v
  := by
  have h := read_write_self m a (Bytes.ofU32 v)
  rw [Bytes.length_ofU32] at h
  rw [u32, h, Bytes.toU32_ofU32]

theorem u32_congr {m m' : ByteMem} {a : Nat} (h : ∀ i < 4, m (a + i) = m' (a + i)) :
  m.u32 a = m'.u32 a
  := by
  rw [u32, u32, read_congr h]

theorem u32_write_outside {m : ByteMem} {a b : Nat} {bs : Bytes}
    (h : b + 4 ≤ a ∨ a + bs.length ≤ b) :
  (m.write a bs).u32 b = m.u32 b
  := by
  rw [u32, u32, read_write_outside h]

/-- Writing what is already there changes nothing. -/
theorem write_read_self (m : ByteMem) (a n : Nat) :
  m.write a (m.read a n) = m
  := by
  funext i
  rw [write, getElem?_read]
  split
  · split
    · rw [Option.getD_some, Nat.add_sub_cancel' ‹a ≤ i›]
    · rfl
  · rfl

theorem write_u32_self (m : ByteMem) (a : Nat) :
  m.write a (Bytes.ofU32 (m.u32 a)) = m
  := by
  rw [u32, Bytes.ofU32_toU32 (length_read m a 4), write_read_self]

theorem write_nil (m : ByteMem) (a : Nat) :
  m.write a [] = m
  := by
  funext i
  simp [write]

/-- Two writes one behind the other are one write. -/
theorem write_append (m : ByteMem) (a : Nat) (xs ys : Bytes) :
  (m.write a xs).write (a + xs.length) ys = m.write a (xs ++ ys)
  := by
  funext i
  simp only [write]
  by_cases h₁ : a + xs.length ≤ i
  · have h₂ : i - (a + xs.length) = i - a - xs.length := by omega
    have h₃ : xs[i - a]? = none := List.getElem?_eq_none (by omega)
    rw [if_pos h₁, if_pos (by omega), if_pos (by omega), List.getElem?_append_right (by omega),
      h₃, Option.getD_none, h₂]
  · rw [if_neg h₁]
    by_cases h₂ : a ≤ i
    · rw [if_pos h₂, if_pos h₂, List.getElem?_append_left (by omega)]
    · rw [if_neg h₂, if_neg h₂]

end ByteMem
