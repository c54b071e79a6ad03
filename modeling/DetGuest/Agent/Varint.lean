import Mathlib.Data.Nat.Digits.Lemmas
import DetGuest.Agent.Control

/-!
# Varints of the control leg

What is read at the front of a byte string when a varint is taken: always the number that was
written, and of other byte strings their exact number unless the tenth byte has bits that do
not fit.
-/

namespace Agent

namespace Control

/-- The exact number whose groups of seven bits are given, least significant first. -/
def exactValue (w : Bytes) : Nat := Nat.ofDigits 128 (w.map fun b => b.toNat % 128)

/-! ### Groups of seven bits -/

theorem exactValue_nil : exactValue [] = 0 := rfl

theorem exactValue_cons (b : UInt8) (bs : Bytes) :
  exactValue (b :: bs) = b.toNat % 128 + 128 * exactValue bs
  := Nat.ofDigits_cons ..

theorem exactValue_append (u v : Bytes) :
  exactValue (u ++ v) = exactValue u + 128 ^ u.length * exactValue v
  := by
  rw [exactValue, List.map_append, Nat.ofDigits_append, List.length_map]
  rfl

theorem exactValue_lt (w : Bytes) :
  exactValue w < 128 ^ w.length
  := by
  induction w with
  | nil => exact Nat.one_pos
  | cons b bs ih =>
      have hgroup : b.toNat % 128 < 128 := Nat.mod_lt _ (by decide)
      rw [exactValue_cons, List.length_cons, Nat.pow_succ]
      omega

theorem toNat_group (b : UInt8) :
  (b &&& 0x7F).toUInt64.toNat = b.toNat % 128
  := by
  have hmask : (0x7F : UInt8).toNat = 2 ^ 7 - 1 := rfl
  rw [UInt8.toNat_toUInt64, UInt8.toNat_and, hmask, Nat.and_two_pow_sub_one_eq_mod]

/-- The last group has no bit for more groups. -/
theorem last_iff (b : UInt8) :
  b &&& 0x80 = 0 ↔ b.toNat < 128
  := by
  have hall : ∀ b : Fin 256, b.val &&& 128 = 0 ↔ b.val < 128 := by decide +kernel
  rw [← UInt8.toNat_inj, UInt8.toNat_and]
  exact hall ⟨b.toNat, b.toNat_lt⟩

theorem toNat_shiftLeft_seven (v : UInt64) :
  (v <<< 7).toNat = v.toNat * 128 % 2 ^ 64
  := by
  rw [UInt64.toNat_shiftLeft, Nat.shiftLeft_eq]
  rfl

/-- The groups are put together modulo the range. -/
theorem toNat_varintValue (w : Bytes) :
  (varintValue w).toNat = exactValue w % 2 ^ 64
  := by
  induction w with
  | nil => rfl
  | cons b bs ih =>
      have hgroup : b.toNat % 128 < 2 ^ 7 := Nat.mod_lt _ (by decide)
      have hshift : exactValue bs % 2 ^ 64 * 128 % 2 ^ 64
          = 2 ^ 7 * (exactValue bs % 2 ^ 57) := by
        omega
      rw [varintValue, UInt64.toNat_or, toNat_group, toNat_shiftLeft_seven, ih, hshift,
        Nat.or_comm, ← Nat.two_pow_add_eq_or_of_lt hgroup, exactValue_cons]
      omega

/-- Groups are bytes with the bit for more groups, and one without it. -/
theorem isGroups_iff {w : Bytes} :
  IsGroups w ↔ ∃ u last, w = u ++ [last] ∧ (∀ x ∈ u, 128 ≤ x.toNat) ∧ last.toNat < 128
  := by
  constructor
  · intro h
    induction w with
    | nil => exact h.elim
    | cons b bs ih =>
        rw [IsGroups] at h
        by_cases hlast : b &&& 0x80 = 0
        · rw [if_pos hlast] at h
          subst h
          exact ⟨[], b, rfl, fun _ hx => absurd hx List.not_mem_nil, (last_iff b).mp hlast⟩
        · rw [if_neg hlast] at h
          obtain ⟨u, last, rfl, hu, hend⟩ := ih h
          refine ⟨b :: u, last, rfl, ?_, hend⟩
          intro x hx
          obtain rfl | hx := List.mem_cons.mp hx
          · exact Nat.le_of_not_lt (mt (last_iff x).mpr hlast)
          · exact hu x hx
  · rintro ⟨u, last, rfl, hu, hend⟩
    induction u with
    | nil =>
        rw [List.nil_append, IsGroups, if_pos ((last_iff last).mpr hend)]
    | cons b u ih =>
        have hb : ¬ b &&& 0x80 = 0 := by
          rw [last_iff, Nat.not_lt]
          apply hu b List.mem_cons_self
        rw [List.cons_append, IsGroups, if_neg hb]
        apply ih fun x hx => hu x (List.mem_cons_of_mem b hx)

/-! ### What is written -/

theorem go_eq (fuel : Nat) (out : Bytes) (value : UInt64) :
  pushVarint.go fuel out value = out ++ pushVarint.go fuel [] value
  := by
  induction fuel generalizing out value with
  | zero => exact (List.append_nil out).symm
  | succ fuel ih =>
      rw [pushVarint.go, pushVarint.go]
      by_cases hmore : value ≥ 0x80
      · rw [if_pos hmore, if_pos hmore, ih, ih ([] ++ _), List.nil_append, List.append_assoc]
      · rw [if_neg hmore, if_neg hmore, List.nil_append]

theorem pushVarint_eq (out : Bytes) (value : UInt64) :
  pushVarint out value = out ++ pushVarint [] value
  := go_eq 10 out value

/-- A group with the bit for more groups. -/
theorem toNat_more (value : UInt64) :
  (value.toUInt8 ||| 0x80).toNat % 128 = value.toNat % 128 ∧
    128 ≤ (value.toUInt8 ||| 0x80).toNat
  := by
  have hall : ∀ b : Fin 256, (b.val ||| 128) % 128 = b.val % 128 ∧ 128 ≤ b.val ||| 128 := by
    decide +kernel
  have hbyte : value.toNat % 2 ^ 8 % 128 = value.toNat % 128 :=
    Nat.mod_mod_of_dvd _ (by decide)
  rw [UInt8.toNat_or, UInt64.toNat_toUInt8, ← hbyte]
  exact hall ⟨value.toNat % 2 ^ 8, Nat.mod_lt _ (by decide)⟩

/-- What is written are groups, of the very number. -/
theorem isGroups_go {fuel : Nat} {value : UInt64} (h : value.toNat < 128 ^ (fuel + 1)) :
  IsGroups (pushVarint.go (fuel + 1) [] value) ∧
    (pushVarint.go (fuel + 1) [] value).length ≤ fuel + 1 ∧
    exactValue (pushVarint.go (fuel + 1) [] value) = value.toNat
  := by
  induction fuel generalizing value with
  | zero =>
      have hlast : ¬ value ≥ 0x80 := by
        rw [ge_iff_le, UInt64.le_iff_toNat_le, Nat.not_le]
        exact h
      have hbyte : value.toUInt8.toNat = value.toNat := by
        rw [UInt64.toNat_toUInt8]
        omega
      rw [pushVarint.go, if_neg hlast, List.nil_append, IsGroups, if_pos]
      · refine ⟨rfl, Nat.le_refl _, ?_⟩
        rw [exactValue_cons, exactValue_nil, hbyte]
        omega
      · rw [last_iff, hbyte]
        omega
  | succ fuel ih =>
      rw [pushVarint.go]
      by_cases hmore : value ≥ 0x80
      · have hshift : (value >>> 7).toNat = value.toNat / 128 := by
          rw [UInt64.toNat_shiftRight, Nat.shiftRight_eq_div_pow]
          rfl
        have hrest : (value >>> 7).toNat < 128 ^ (fuel + 1) := by
          rw [hshift, Nat.div_lt_iff_lt_mul (by decide), ← Nat.pow_succ]
          exact h
        obtain ⟨hgroups, hlength, hvalue⟩ := ih hrest
        obtain ⟨hlow, hhigh⟩ := toNat_more value
        rw [if_pos hmore, go_eq, List.nil_append, List.singleton_append, IsGroups, if_neg]
        · refine ⟨hgroups, Nat.succ_le_succ hlength, ?_⟩
          rw [exactValue_cons, hvalue, hshift, hlow, Nat.mod_add_div]
        · rw [last_iff, Nat.not_lt]
          exact hhigh
      · have hlast : value.toNat < 128 := by
          rw [ge_iff_le, UInt64.le_iff_toNat_le, Nat.not_le] at hmore
          exact hmore
        have hbyte : value.toUInt8.toNat = value.toNat := by
          rw [UInt64.toNat_toUInt8]
          omega
        rw [if_neg hmore, List.nil_append, IsGroups, if_pos]
        · refine ⟨rfl, Nat.succ_le_succ (Nat.zero_le _), ?_⟩
          rw [exactValue_cons, exactValue_nil, hbyte]
          omega
        · rw [last_iff, hbyte]
          exact hlast

/-- What is written is a varint of the number. -/
theorem isVarint_pushVarint (value : UInt64) :
  IsVarint (pushVarint [] value) value
  := by
  have hrange : value.toNat < 128 ^ (9 + 1) :=
    Nat.lt_of_lt_of_le value.toNat_lt (by decide)
  obtain ⟨hgroups, hlength, hvalue⟩ := isGroups_go hrange
  refine ⟨hgroups, hlength, ?_⟩
  rw [← UInt64.toNat_inj, toNat_varintValue]
  exact ((congrArg (· % 2 ^ 64) hvalue).trans (Nat.mod_eq_of_lt value.toNat_lt)).symm

/-! ### What is read -/

/-- The first nine bytes have the bit for more groups, and the tenth has none but more bits than
the one that fits. -/
def LosesBits (b : Bytes) : Prop :=
  ∃ u last suf, b = u ++ last :: suf ∧ u.length = 9 ∧ (∀ x ∈ u, 128 ≤ x.toNat) ∧
    2 ≤ last.toNat ∧ last.toNat < 128

/-- A varint in front of the bytes is read as it should be: to its exact number, and to an
overflow if that does not fit. -/
def ReadsExactly (b : Bytes) : Prop :=
  ∀ pre : Bytes, (pre ++ b).length < 2 ^ 64 →
    (∀ c v, varint.run ⟨pre ++ b, pre.length⟩ = (c, .ok v) →
      ∃ w suf, b = w ++ suf ∧ c = ⟨pre ++ b, pre.length + w.length⟩ ∧
        v.toNat = exactValue w) ∧
    ∀ w suf, b = w ++ suf → IsGroups w → 2 ^ 64 ≤ exactValue w →
      ∃ c, varint.run ⟨pre ++ b, pre.length⟩ = (c, .err .varintOverflow)

/-- Ten groups that do not fit have too many bits in the tenth byte. -/
theorem losesBits_of_groups {w suf : Bytes} (hgroups : IsGroups w) (hlen : w.length ≤ 10)
    (hover : 2 ^ 64 ≤ exactValue w) :
  LosesBits (w ++ suf)
  := by
  obtain ⟨u, last, rfl, hu, hlast⟩ := isGroups_iff.mp hgroups
  have hlt := exactValue_lt u
  rw [List.length_append, List.length_singleton] at hlen
  rw [exactValue_append, exactValue_cons, exactValue_nil, Nat.mod_eq_of_lt hlast] at hover
  have hnine : u.length = 9 := by
    by_contra hne
    have hpow : 128 ^ u.length ≤ 128 ^ 8 := Nat.pow_le_pow_right (by decide) (by omega)
    have hmul : 128 ^ u.length * (last.toNat + 128 * 0) ≤ 128 ^ 8 * 127 :=
      Nat.mul_le_mul hpow (by omega)
    omega
  rw [hnine] at hlt hover
  refine ⟨u, last, suf, by simp, hnine, hu, ?_, hlast⟩
  omega

/-- Where bits are lost, another number is read. -/
theorem LosesBits.not_readsExactly {b : Bytes} (h : LosesBits b) (hlen : b.length < 2 ^ 64) :
  ¬ ReadsExactly b
  := by
  obtain ⟨u, last, suf, rfl, hnine, hu, htwo, hlast⟩ := h
  intro hexact
  have hgroups : IsGroups (u ++ [last]) := isGroups_iff.mpr ⟨u, last, rfl, hu, hlast⟩
  have hten : (u ++ [last]).length = 10 := by
    rw [List.length_append, hnine]
    rfl
  have hsplit : u ++ last :: suf = (u ++ [last]) ++ suf := by simp
  have hrun := (reads_varint [] (u ++ last :: suf) hlen _ _).mpr
    ⟨u ++ [last], suf, hsplit, ⟨hgroups, Nat.le_of_eq hten, rfl⟩, rfl⟩
  obtain ⟨w, suf', hw, hc, hvalue⟩ := (hexact [] hlen).1 _ _ hrun
  have hpos := congrArg Cursor.pos hc
  have hword : w = u ++ [last] := by
    rw [hsplit] at hw
    exact (List.append_inj hw (Nat.add_left_cancel hpos)).1.symm
  have hbig : 2 ^ 64 ≤ exactValue (u ++ [last]) := by
    rw [exactValue_append, exactValue_cons, exactValue_nil, hnine, Nat.mod_eq_of_lt hlast]
    omega
  have hfits := (varintValue (u ++ [last])).toNat_lt
  rw [hvalue, hword] at hfits
  omega

/-- When every byte of the rounds that are left has the bit for more groups, the varint
overflows. -/
theorem run_varintRounds_overflow {fuel k : Nat} (h : fuel + k = 10) (value : UInt64)
    {pre w suf : Bytes} (hw : w.length = fuel) (hmore : ∀ x ∈ w, 128 ≤ x.toNat)
    (hlen : (pre ++ (w ++ suf)).length < 2 ^ 64) :
  ∃ c, (varintRounds fuel value (UInt64.ofNat (7 * k))).run ⟨pre ++ (w ++ suf), pre.length⟩
    = (c, .err .varintOverflow)
  := by
  induction fuel generalizing k value pre w with
  | zero => exact ⟨_, rfl⟩
  | succ fuel ih =>
      obtain ⟨byte, w, rfl⟩ := List.exists_cons_of_length_eq_add_one hw
      have hbyte : ¬ byte &&& 0x80 = 0 := by
        rw [last_iff, Nat.not_lt]
        apply hmore byte List.mem_cons_self
      have hlt : ¬ UInt64.ofNat (7 * k) ≥ 64 := by
        rw [shift_ge_iff (by omega)]
        omega
      have htake := (reads_take 1 pre (byte :: w ++ suf) hlen _ _).mpr
        ⟨[byte], w ++ suf, rfl, ⟨rfl, rfl⟩, rfl⟩
      rw [varintRounds, Exec.run_bind_of_ok htake]
      dsimp only
      rw [Exec.run_bind_of_ok (Exec.run_failIf_of_not hlt _), if_neg hbyte, shift_succ]
      by_cases hover : UInt64.ofNat (7 * (k + 1)) ≥ 64
      · rw [if_pos hover]
        exact ⟨_, rfl⟩
      · have hsplit : pre ++ (byte :: w ++ suf) = (pre ++ [byte]) ++ (w ++ suf) := by simp
        rw [hsplit] at hlen ⊢
        rw [if_neg hover, ← List.length_append]
        apply ih (by omega) _ (Nat.succ_injective hw) _ hlen
        intro x hx
        exact hmore x (List.mem_cons_of_mem byte hx)

/-- Where no bits are lost, the exact number is read. -/
theorem readsExactly_of_not_losesBits {b : Bytes} (h : ¬ LosesBits b) :
  ReadsExactly b
  := by
  intro pre hlen
  constructor
  · intro c v hrun
    obtain ⟨w, suf, rfl, ⟨hgroups, hten, rfl⟩, rfl⟩ := (reads_varint pre b hlen c v).mp hrun
    refine ⟨w, suf, rfl, rfl, ?_⟩
    have hfits : exactValue w < 2 ^ 64 :=
      Nat.lt_of_not_le fun hover => h (losesBits_of_groups hgroups hten hover)
    rw [toNat_varintValue, Nat.mod_eq_of_lt hfits]
  · rintro w suf rfl hgroups hover
    have hlong : 10 < w.length :=
      Nat.lt_of_not_le fun hten => h (losesBits_of_groups hgroups hten hover)
    obtain ⟨u, last, rfl, hu, _⟩ := isGroups_iff.mp hgroups
    rw [List.length_append, List.length_singleton] at hlong
    have hsplit : u ++ [last] ++ suf = u.take 10 ++ (u.drop 10 ++ [last] ++ suf) := by
      rw [List.append_assoc, List.append_assoc, ← List.append_assoc (u.take 10),
        List.take_append_drop]
    rw [hsplit] at hlen ⊢
    apply run_varintRounds_overflow (k := 0) rfl 0 _ _ hlen
    · rw [List.length_take, Nat.min_eq_left (Nat.le_of_lt_succ hlong)]
    · intro x hx
      exact hu x (List.mem_of_mem_take hx)

/-- A varint that was written is read back, whatever stands around it. -/
theorem varint_pushVarint {pre suf : Bytes} {v : UInt64}
    (hlen : (pushVarint pre v ++ suf).length < 2 ^ 64) :
  varint.run ⟨pushVarint pre v ++ suf, pre.length⟩
    = (⟨pushVarint pre v ++ suf, (pushVarint pre v).length⟩, .ok v)
  := by
  rw [pushVarint_eq, List.append_assoc] at hlen ⊢
  apply (reads_varint pre _ hlen _ _).mpr
  exact ⟨pushVarint [] v, suf, rfl, isVarint_pushVarint v, by rw [List.length_append]⟩

/-- Every varint that was written is read back, and of the bytes the exact number is read, or an
overflow: exactly when the tenth byte has no bits that do not fit. -/
theorem varint_exact_iff (b : Bytes) (hlen : b.length < 2 ^ 64) :
  ((∀ (pre suf : Bytes) (v : UInt64), (pushVarint pre v ++ suf).length < 2 ^ 64 →
      varint.run ⟨pushVarint pre v ++ suf, pre.length⟩
        = (⟨pushVarint pre v ++ suf, (pushVarint pre v).length⟩, .ok v)) ∧
    ReadsExactly b) ↔ ¬ LosesBits b
  := by
  constructor
  · rintro ⟨_, hexact⟩ hloses
    exact hloses.not_readsExactly hlen hexact
  · intro hloses
    exact ⟨fun pre suf v => varint_pushVarint, readsExactly_of_not_losesBits hloses⟩

/-- The ten bytes of the greatest number, and one behind them. -/
def greatest : Bytes := List.replicate 9 0xFF ++ [1, 9]

theorem not_losesBits_greatest :
  ¬ LosesBits greatest
  := by
  rintro ⟨u, last, suf, heq, hlen, _, hlast, _⟩
  have hget : greatest[9]? = some last := by
    rw [heq, List.getElem?_append_right (Nat.le_of_eq hlen), hlen]
    rfl
  obtain rfl : 1 = last := Option.some.inj hget
  exact absurd hlast (by decide)

/-- A varint of two bytes is read back between others, and the greatest number from its ten bytes. -/
theorem varint_exact_iff_greatest :
  varint.run ⟨pushVarint [5] 300 ++ [9], 1⟩ = (⟨[5, 0xAC, 2, 9], 3⟩, .ok 300) ∧
    ReadsExactly greatest ∧ (varint.run ⟨greatest, 0⟩).2 = .ok 0xFFFFFFFFFFFFFFFF
  := by
  obtain ⟨hreads, hexact⟩ := (varint_exact_iff greatest (by decide)).mpr not_losesBits_greatest
  exact ⟨hreads [5] [9] 300 (by decide), hexact, by decide +kernel⟩

/-- Nine bytes with the bit for more groups and a tenth with a bit that does not fit are read as
zero. -/
theorem not_readsExactly_tenth :
  (varint.run ⟨List.replicate 9 0x80 ++ [2], 0⟩).2 = .ok 0 ∧
    exactValue (List.replicate 9 0x80 ++ [2]) = 2 ^ 64 ∧
    ¬ ReadsExactly (List.replicate 9 0x80 ++ [2])
  := by
  have hloses : LosesBits (List.replicate 9 0x80 ++ [2]) := by
    refine ⟨List.replicate 9 0x80, 2, [], rfl, List.length_replicate, ?_, by decide, by decide⟩
    intro x hx
    rw [List.eq_of_mem_replicate hx]
    decide
  exact ⟨rfl, by decide, hloses.not_readsExactly (by decide)⟩

end Control

end Agent
