import Mathlib.Tactic.Common
import Mathlib.Algebra.Order.Ring.Nat
import Mathlib.Data.Nat.Bitwise

/-!
# Index arithmetic

Free-running `u32` indices over a memory whose size is a power of two.  The size divides
`2 ^ 32`, so the residue of an index modulo the size survives the wrap of the index.
-/

namespace Word

/-- `u32::is_power_of_two`. -/
def isPowerOfTwo (v : UInt32) : Bool :=
  (List.range 32).any fun k => v.toNat == 2 ^ k

/-- `u32::saturating_sub`. -/
def saturatingSub (a b : UInt32) : UInt32 :=
  if a < b then 0 else a - b

/-- `u64::checked_add`. -/
def checkedAdd (a b : UInt64) : Option UInt64 :=
  if a.toNat + b.toNat < 2 ^ 64 then some (a + b) else none

theorem isPowerOfTwo_iff {v : UInt32} :
  isPowerOfTwo v = true ↔ ∃ k, k < 32 ∧ v.toNat = 2 ^ k
  := by
  simp [isPowerOfTwo]

theorem toNat_pos {v : UInt32} (h : isPowerOfTwo v) :
  0 < v.toNat
  := by
  obtain ⟨k, _, hv⟩ := isPowerOfTwo_iff.mp h
  rw [hv]
  apply Nat.two_pow_pos

theorem toNat_dvd {v : UInt32} (h : isPowerOfTwo v) :
  v.toNat ∣ 2 ^ 32
  := by
  obtain ⟨k, hk, hv⟩ := isPowerOfTwo_iff.mp h
  rw [hv]
  apply Nat.pow_dvd_pow 2 (Nat.le_of_lt hk)

/-- A power of two of at least eight bytes is a multiple of eight. -/
theorem eight_dvd {v : UInt32} (h : isPowerOfTwo v) (h8 : 8 ≤ v.toNat) :
  8 ∣ v.toNat
  := by
  obtain ⟨k, _, hv⟩ := isPowerOfTwo_iff.mp h
  rw [hv] at h8 ⊢
  have hk : 3 ≤ k := by
    by_contra hlt
    have hle : 2 ^ k ≤ 2 ^ 2 := Nat.pow_le_pow_right (by omega) (by omega)
    omega
  apply Nat.pow_dvd_pow 2 hk

theorem toNat_saturatingSub (a b : UInt32) :
  (saturatingSub a b).toNat = a.toNat - b.toNat
  := by
  rw [saturatingSub]
  split
  · rename_i h
    rw [UInt32.lt_iff_toNat_lt] at h
    simp only [UInt32.toNat_zero]
    omega
  · rename_i h
    rw [UInt32.lt_iff_toNat_lt] at h
    rw [UInt32.toNat_sub_of_le a b (UInt32.le_iff_toNat_le.mpr (by omega))]

theorem checkedAdd_eq_some {a b c : UInt64} :
  checkedAdd a b = some c ↔ c.toNat = a.toNat + b.toNat
  := by
  have ha := UInt64.toNat_add a b
  rw [checkedAdd]
  split
  · rename_i h
    rw [Nat.mod_eq_of_lt h] at ha
    rw [Option.some.injEq, ← ha, UInt64.toNat_inj, eq_comm]
  · rename_i h
    have hc := UInt64.toNat_lt c
    simp only [reduceCtorEq, false_iff]
    omega

theorem checkedAdd_eq_none {a b : UInt64} :
  checkedAdd a b = none ↔ 2 ^ 64 ≤ a.toNat + b.toNat
  := by
  rw [checkedAdd]
  split <;> simp <;> omega

/-- Masking an index with `size - 1` takes its residue. -/
theorem toNat_and_mask {size : UInt32} (h : isPowerOfTwo size) (pos : UInt32) :
  (pos &&& (size - 1)).toNat = pos.toNat % size.toNat
  := by
  obtain ⟨k, _, hv⟩ := isPowerOfTwo_iff.mp h
  have hpos := toNat_pos h
  rw [UInt32.toNat_and, UInt32.toNat_sub_of_le size 1 (UInt32.le_iff_toNat_le.mpr hpos),
    UInt32.toNat_one, hv, Nat.and_two_pow_sub_one_eq_mod]

/-- The residue of an advanced index, whether or not the index wraps. -/
theorem toNat_add_mod {size : UInt32} (h : isPowerOfTwo size) (pos : UInt32) (n : Nat) :
  (pos + UInt32.ofNat n).toNat % size.toNat = (pos.toNat + n) % size.toNat
  := by
  rw [UInt32.toNat_add, UInt32.toNat_ofNat', Nat.mod_mod_of_dvd _ (toNat_dvd h), Nat.add_mod,
    Nat.mod_mod_of_dvd _ (toNat_dvd h), ← Nat.add_mod]

theorem add_ofNat_sub (pos : UInt32) (n : Nat) :
  pos + UInt32.ofNat n - pos = UInt32.ofNat n
  := by
  rw [UInt32.add_comm, UInt32.add_sub_cancel]

theorem add_ofNat_add (pos : UInt32) (a b : Nat) :
  pos + UInt32.ofNat a + UInt32.ofNat b = pos + UInt32.ofNat (a + b)
  := by
  rw [UInt32.ofNat_add, UInt32.add_assoc]

theorem toNat_ofNat_le {n b : Nat} (h : n ≤ b) (hb : b < 2 ^ 32) :
  (UInt32.ofNat n).toNat = n
  := UInt32.toNat_ofNat_of_lt' (Nat.lt_of_le_of_lt h hb)

end Word
