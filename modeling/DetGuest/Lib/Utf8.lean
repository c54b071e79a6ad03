import DetGuest.Lib.Bytes

/-!
# UTF-8

Whether bytes are well-formed, and the bytes of a string with every maximal ill-formed part
replaced by U+FFFD.  A part is ill-formed up to the first byte that no well-formed sequence has
in its place.
-/

namespace Utf8

/-- A continuation byte. -/
def isCont (b : UInt8) : Bool := 0x80 ≤ b && b ≤ 0xBF

/-- The second bytes a well-formed sequence with the given first byte may have. -/
def secondOk (b c : UInt8) : Bool :=
  if b = 0xE0 then 0xA0 ≤ c && c ≤ 0xBF
  else if b = 0xED then 0x80 ≤ c && c ≤ 0x9F
  else if b = 0xF0 then 0x90 ≤ c && c ≤ 0xBF
  else if b = 0xF4 then 0x80 ≤ c && c ≤ 0x8F
  else isCont c

/-- The number of bytes of a sequence with the given first byte; zero when no sequence
starts with it. -/
def width (b : UInt8) : Nat :=
  if b < 0x80 then 1
  else if 0xC2 ≤ b ∧ b ≤ 0xDF then 2
  else if 0xE0 ≤ b ∧ b ≤ 0xEF then 3
  else if 0xF0 ≤ b ∧ b ≤ 0xF4 then 4
  else 0

/-- How many bytes behind the first one belong to its sequence. -/
def follow (b : UInt8) (rest : Bytes) : Nat :=
  if width b ≤ 1 then 0
  else
    match rest with
    | [] => 0
    | c :: rest =>
        if secondOk b c then 1 + ((rest.take (width b - 2)).takeWhile isCont).length else 0

/-- U+FFFD. -/
def replacement : Bytes := [0xEF, 0xBF, 0xBD]

/-- Decode at most `fuel` sequences. -/
def lossyAux : Nat → Bytes → Bytes
  | 0, _ => []
  | _, [] => []
  | fuel + 1, b :: rest =>
      let n := follow b rest
      let chunk := if n + 1 = width b then b :: rest.take n else replacement
      chunk ++ lossyAux fuel (rest.drop n)

/-- `String::from_utf8_lossy`: every sequence has a byte, so the length is fuel enough. -/
def fromUtf8Lossy (bs : Bytes) : Bytes := lossyAux bs.length bs

example : fromUtf8Lossy [0x61, 0xC3, 0xA9, 0xE2, 0x82, 0x61, 0xFF]
    = [0x61, 0xC3, 0xA9, 0xEF, 0xBF, 0xBD, 0x61, 0xEF, 0xBF, 0xBD]
  := by decide

/-- Check at most `fuel` sequences. -/
def validAux : Nat → Bytes → Bool
  | _, [] => true
  | 0, _ :: _ => false
  | fuel + 1, b :: rest => follow b rest + 1 = width b && validAux fuel (rest.drop (follow b rest))

/-- Whether `std::str::from_utf8` accepts the bytes. -/
def isValid (bs : Bytes) : Bool := validAux bs.length bs

example : isValid [0x61, 0xC3, 0xA9] = true ∧ isValid [0x61, 0xE2, 0x82] = false := by decide

/-! ### Prefixes -/

theorem isCont_of_secondOk {b c : UInt8} (h : secondOk b c = true) :
  isCont c = true
  := by
  simp only [secondOk, isCont, Bool.and_eq_true, decide_eq_true_eq, UInt8.le_iff_toNat_le] at h ⊢
  split at h
  · simp only [Bool.and_eq_true, decide_eq_true_eq] at h
    exact ⟨Nat.le_trans (by decide) h.1, h.2⟩
  split at h
  · simp only [Bool.and_eq_true, decide_eq_true_eq] at h
    exact ⟨h.1, Nat.le_trans h.2 (by decide)⟩
  split at h
  · simp only [Bool.and_eq_true, decide_eq_true_eq] at h
    exact ⟨Nat.le_trans (by decide) h.1, h.2⟩
  split at h
  · simp only [Bool.and_eq_true, decide_eq_true_eq] at h
    exact ⟨h.1, Nat.le_trans h.2 (by decide)⟩
  · simpa using h

/-- A continuation byte starts no sequence. -/
theorem width_of_isCont {b : UInt8} (h : isCont b = true) :
  width b = 0
  := by
  simp only [isCont, Bool.and_eq_true, decide_eq_true_eq, UInt8.le_iff_toNat_le] at h
  obtain ⟨hlo, hhi⟩ := h
  have h80 : (0x80 : UInt8).toNat = 0x80 := rfl
  have hbf : (0xBF : UInt8).toNat = 0xBF := rfl
  rw [h80] at hlo
  rw [hbf] at hhi
  have hlt : ∀ c : UInt8, 0xBF < c.toNat → ¬ c ≤ b := by
    intro c hc hle
    rw [UInt8.le_iff_toNat_le] at hle
    omega
  rw [width, if_neg, if_neg, if_neg, if_neg]
  · rintro ⟨hle, _⟩
    exact hlt _ (by decide) hle
  · rintro ⟨hle, _⟩
    exact hlt _ (by decide) hle
  · rintro ⟨hle, _⟩
    exact hlt _ (by decide) hle
  · rw [UInt8.lt_iff_toNat_lt, h80]
    omega

theorem follow_nil (b : UInt8) :
  follow b [] = 0
  := by
  rw [follow.eq_def]
  split <;> rfl

theorem follow_cons_of_lt {b c : UInt8} {rest : Bytes} (hwidth : 1 < width b)
    (hsecond : secondOk b c = true) :
  follow b (c :: rest) = 1 + ((rest.take (width b - 2)).takeWhile isCont).length
  := by
  rw [follow.eq_def, if_neg (Nat.not_le.mpr hwidth)]
  dsimp only
  rw [if_pos hsecond]

theorem follow_eq_zero {b : UInt8} {rest : Bytes}
    (h : ¬ (1 < width b ∧ ∃ c r, rest = c :: r ∧ secondOk b c = true)) :
  follow b rest = 0
  := by
  rw [follow.eq_def]
  split
  · rfl
  · next hwidth =>
    split
    · rfl
    · next c r =>
      rw [if_neg]
      intro hsecond
      exact h ⟨Nat.lt_of_not_le hwidth, c, r, rfl, hsecond⟩

/-- The bytes that belong to a sequence are continuation bytes. -/
theorem isCont_of_lt_follow {b : UInt8} {rest : Bytes} {j : Nat} (h : j < follow b rest) :
  ∃ c, rest[j]? = some c ∧ isCont c = true
  := by
  by_cases hseq : 1 < width b ∧ ∃ c r, rest = c :: r ∧ secondOk b c = true
  · obtain ⟨hwidth, c, rest, rfl, hsecond⟩ := hseq
    rw [follow_cons_of_lt hwidth hsecond] at h
    cases j with
    | zero => exact ⟨c, rfl, isCont_of_secondOk hsecond⟩
    | succ j =>
        have hj : j < ((rest.take (width b - 2)).takeWhile isCont).length := by omega
        have hpre : (rest.take (width b - 2)).takeWhile isCont <+: rest :=
          (List.takeWhile_prefix _).trans (List.take_prefix _ _)
        refine ⟨((rest.take (width b - 2)).takeWhile isCont)[j], ?_, ?_⟩
        · rw [List.getElem?_cons_succ, hpre.getElem hj, List.getElem?_eq_getElem]
        · apply List.all_eq_true.mp List.all_takeWhile
          apply List.getElem_mem hj
  · rw [follow_eq_zero hseq] at h
    cases h

theorem follow_le_length (b : UInt8) (rest : Bytes) :
  follow b rest ≤ rest.length
  := by
  by_contra hlt
  obtain ⟨c, hc, _⟩ := isCont_of_lt_follow (Nat.lt_of_not_le hlt)
  rw [List.getElem?_eq_none (Nat.le_refl _)] at hc
  cases hc

/-- A sequence depends on its own bytes. -/
theorem follow_take {b : UInt8} {rest : Bytes} {k : Nat} (h : width b ≤ k + 1) :
  follow b (rest.take k) = follow b rest
  := by
  cases rest with
  | nil => rw [List.take_nil]
  | cons c rest =>
      by_cases hseq : 1 < width b ∧ secondOk b c = true
      · obtain ⟨hwidth, hsecond⟩ := hseq
        obtain ⟨k, rfl⟩ : ∃ j, k = j + 1 := Nat.exists_eq_succ_of_ne_zero (by omega)
        rw [List.take_succ_cons, follow_cons_of_lt hwidth hsecond,
          follow_cons_of_lt hwidth hsecond, List.take_take, Nat.min_eq_left (by omega)]
      · have hzero : ∀ r, follow b (c :: r) = 0 := by
          intro r
          apply follow_eq_zero
          rintro ⟨hwidth, c', r', heq, hsecond⟩
          obtain ⟨rfl, _⟩ := List.cons.inj heq
          exact hseq ⟨hwidth, hsecond⟩
        cases k with
        | zero => rw [List.take_zero, follow_nil, hzero]
        | succ k => rw [List.take_succ_cons, hzero, hzero]

/-- A check for each byte is enough. -/
theorem validAux_eq {bs : Bytes} {fuel : Nat} (h : bs.length ≤ fuel) :
  validAux fuel bs = isValid bs
  := by
  suffices hall : ∀ {bs : Bytes} {m n : Nat}, bs.length ≤ m → bs.length ≤ n →
      validAux m bs = validAux n bs from hall h (Nat.le_refl _)
  intro bs m n hm hn
  induction m generalizing bs n with
  | zero =>
      obtain rfl := List.eq_nil_of_length_eq_zero (Nat.le_zero.mp hm)
      cases n <;> rfl
  | succ m ih =>
      cases bs with
      | nil => cases n <;> rfl
      | cons b rest =>
          rw [List.length_cons] at hm hn
          obtain ⟨n, rfl⟩ : ∃ k, n = k + 1 := Nat.exists_eq_succ_of_ne_zero (by omega)
          have hdrop := List.length_drop (l := rest) (i := follow b rest)
          rw [validAux, validAux, ih (n := n) (by omega) (by omega)]

theorem isValid_cons (b : UInt8) (rest : Bytes) :
  isValid (b :: rest)
    = (decide (follow b rest + 1 = width b) && isValid (rest.drop (follow b rest)))
  := by
  rw [isValid, List.length_cons, validAux, validAux_eq]
  rw [List.length_drop]
  apply Nat.sub_le

/-- A prefix of well-formed bytes is well-formed exactly when it ends on a boundary: at the end,
or in front of a byte that continues no sequence. -/
theorem isValid_take_iff {bs : Bytes} (h : isValid bs = true) (n : Nat) :
  isValid (bs.take n) = true ↔ ∀ b, bs[n]? = some b → isCont b = false
  := by
  induction hlen : bs.length using Nat.strong_induction_on generalizing bs n with
  | _ len ih =>
  subst hlen
  cases bs with
  | nil =>
      rw [List.take_nil]
      simp [h]
  | cons b rest =>
      rw [isValid_cons, Bool.and_eq_true, decide_eq_true_eq] at h
      obtain ⟨hwidth, hrest⟩ := h
      cases n with
      | zero =>
          rw [List.take_zero, List.getElem?_cons_zero]
          constructor
          · rintro _ c hc
            cases hc
            by_contra hcont
            have hzero := width_of_isCont (Bool.eq_true_of_not_eq_false hcont)
            omega
          · intro _
            rfl
      | succ n =>
          rw [List.take_succ_cons, List.getElem?_cons_succ, isValid_cons, Bool.and_eq_true,
            decide_eq_true_eq]
          by_cases hin : n < follow b rest
          · -- the cut is inside of the first sequence
            obtain ⟨c, hc, hcont⟩ := isCont_of_lt_follow hin
            have hshort := follow_le_length b (rest.take n)
            rw [List.length_take] at hshort
            constructor
            · rintro ⟨hcut, _⟩
              omega
            · intro hboundary
              rw [hboundary c hc] at hcont
              cases hcont
          · have hsame : follow b (rest.take n) = follow b rest := follow_take (by omega)
            have hdrop := List.length_drop (l := rest) (i := follow b rest)
            have hnext := ih (rest.drop (follow b rest)).length (by rw [List.length_cons]; omega)
              hrest (n - follow b rest) rfl
            rw [List.getElem?_drop, Nat.add_sub_cancel' (Nat.le_of_not_lt hin)] at hnext
            rw [hsame, List.drop_take, hnext, and_iff_right hwidth]

end Utf8
