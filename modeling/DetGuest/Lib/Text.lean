import Mathlib.Algebra.Order.Ring.Int
import Mathlib.Data.List.DropRight
import Mathlib.Tactic.Common

/-!
# Texts

The operations of `str` on texts as lists of characters: trimming, lines, and the integers that
`from_str_radix` reads.
-/

/-- A text. -/
abbrev Text : Type := List Char

namespace Text

/-! ### Whitespace and lines -/

/-- `char::is_whitespace`. -/
def isWhitespace (c : Char) : Bool :=
  (9 ≤ c.toNat && c.toNat ≤ 13) || c.toNat == 0x20 || c.toNat == 0x85 || c.toNat == 0xA0 ||
    c.toNat == 0x1680 || (0x2000 ≤ c.toNat && c.toNat ≤ 0x200A) || c.toNat == 0x2028 ||
    c.toNat == 0x2029 || c.toNat == 0x202F || c.toNat == 0x205F || c.toNat == 0x3000

/-- `str::trim_start`. -/
def trimStart (s : Text) : Text := s.dropWhile isWhitespace

/-- `str::trim`. -/
def trim (s : Text) : Text := (trimStart s).rdropWhile isWhitespace

/-- `str::lines`: the lines of a text, without `\n` and `\r\n` at their ends. -/
def lines : Text → List Text
  | [] => []
  | c :: cs =>
      if c = '\n' then [] :: lines cs
      else if c = '\r' ∧ cs.head? = some '\n' then lines cs
      else match lines cs with
        | [] => [[c]]
        | line :: rest => (c :: line) :: rest

/-- `str::len`: the bytes of a text. -/
def byteLen (s : Text) : Nat := (s.map Char.utf8Size).sum

/-! ### Blanks -/

/-- Nothing but whitespace. -/
def Blanks (t : Text) : Prop := ∀ c ∈ t, isWhitespace c = true

/-- A text with no whitespace at its ends. -/
structure Tight (t : Text) : Prop where
  head : ∀ c ∈ t.head?, isWhitespace c = false
  last : ∀ c ∈ t.getLast?, isWhitespace c = false

theorem blanks_nil : Blanks [] := fun _ h => absurd h List.not_mem_nil

theorem tight_nil : Tight [] := ⟨fun _ h => (by cases h), fun _ h => (by cases h)⟩

theorem Tight.cons_concat {c d : Char} {t : Text} (hc : isWhitespace c = false)
    (hd : isWhitespace d = false) :
  Tight (c :: (t ++ [d]))
  := by
  constructor
  · rintro x hx
    cases hx
    exact hc
  · rintro x hx
    rw [← List.cons_append, List.getLast?_concat] at hx
    cases hx
    exact hd

/-- Two texts with no whitespace at their ends have none at the ends of the whole. -/
theorem Tight.append {s t u : Text} (hs : Tight s) (ht : Tight t) (hsne : s ≠ []) (htne : t ≠ []) :
  Tight (s ++ u ++ t)
  := by
  constructor
  · rintro x hx
    rw [List.append_assoc, List.head?_append_of_ne_nil _ hsne] at hx
    exact hs.head x hx
  · rintro x hx
    rw [List.getLast?_append_of_ne_nil _ htne] at hx
    exact ht.last x hx

theorem Tight.of_forall {t : Text} (h : ∀ c ∈ t, isWhitespace c = false) :
  Tight t
  := ⟨fun c hc => h c (List.mem_of_head? hc), fun c hc => h c (List.mem_of_getLast? hc)⟩

theorem trimStart_blanks {p : Text} (hp : Blanks p) (t : Text) :
  trimStart (p ++ t) = trimStart t
  := by
  induction p with
  | nil => rfl
  | cons c p ih =>
      rw [List.cons_append, trimStart, List.dropWhile_cons_of_pos (hp c List.mem_cons_self)]
      exact ih fun d hd => hp d (List.mem_cons_of_mem c hd)

theorem trimStart_of_head {t : Text} (h : ∀ c ∈ t.head?, isWhitespace c = false) :
  trimStart t = t
  := by
  cases t with
  | nil => rfl
  | cons c t =>
      have hc := h c rfl
      rw [trimStart, List.dropWhile_cons_of_neg (by rw [hc]; decide)]

theorem trimStart_append {s t : Text} (h : trimStart s ≠ []) :
  trimStart (s ++ t) = trimStart s ++ t
  := by
  induction s with
  | nil => exact absurd rfl h
  | cons c s ih =>
      by_cases hc : isWhitespace c = true
      · rw [List.cons_append, trimStart, trimStart, List.dropWhile_cons_of_pos hc,
          List.dropWhile_cons_of_pos hc]
        apply ih
        rwa [trimStart, List.dropWhile_cons_of_pos hc] at h
      · rw [List.cons_append, trimStart, trimStart, List.dropWhile_cons_of_neg hc,
          List.dropWhile_cons_of_neg hc, List.cons_append]

theorem rdropWhile_blanks {q : Text} (hq : Blanks q) (t : Text) :
  (t ++ q).rdropWhile isWhitespace = t.rdropWhile isWhitespace
  := by
  induction q using List.reverseRecOn with
  | nil => rw [List.append_nil]
  | append_singleton q c ih =>
      rw [← List.append_assoc, List.rdropWhile_concat_pos _ _ _ (hq c (by simp))]
      exact ih fun d hd => hq d (List.mem_append_left [c] hd)

theorem trimStart_of_blanks {p : Text} (hp : Blanks p) :
  trimStart p = []
  := by
  have h := trimStart_blanks hp []
  rwa [List.append_nil] at h

/-- Blanks behind a text are trimmed. -/
theorem trim_append_blanks {q : Text} (hq : Blanks q) (t : Text) :
  trim (t ++ q) = trim t
  := by
  by_cases h : trimStart t = []
  · have hblank : Blanks t := List.dropWhile_eq_nil_iff.mp h
    have hwhole : Blanks (t ++ q) := by
      intro c hc
      rcases List.mem_append.mp hc with hc | hc
      · exact hblank c hc
      · exact hq c hc
    rw [trim, trim, trimStart_of_blanks hwhole, trimStart_of_blanks hblank]
  · rw [trim, trim, trimStart_append h, rdropWhile_blanks hq]

/-- Blanks around a text are trimmed, and nothing else. -/
theorem trim_padded {p q t : Text} (hp : Blanks p) (hq : Blanks q) (ht : Tight t) :
  trim (p ++ (t ++ q)) = t
  := by
  rw [← List.append_assoc, trim_append_blanks hq, trim, trimStart_blanks hp,
    trimStart_of_head ht.head]
  cases t using List.reverseRecOn with
  | nil => rfl
  | append_singleton t c =>
      have hc := ht.last c List.getLast?_concat
      rw [List.rdropWhile_concat_neg _ _ _ (by rw [hc]; decide)]

/-! ### Lines -/

/-- Lines as they are read, and as they stand between the `\n`: a `\r` may end a line, and the
text behind the last `\n` may be empty. -/
inductive SameLines : List Text → List Text → Prop where
  | nil : SameLines [] [[]]
  | last {l : Text} : SameLines [l] [l]
  | cons {l raw : Text} {ls raws : List Text} : raw = l ∨ raw = l ++ ['\r'] → SameLines ls raws →
      SameLines (l :: ls) (raw :: raws)

theorem sameLines_cons {c : Char} {l raw : Text} {ls raws : List Text}
    (h : SameLines (l :: ls) (raw :: raws)) :
  SameLines ((c :: l) :: ls) ((c :: raw) :: raws)
  := by
  cases h with
  | last => exact .last
  | cons hl h =>
      apply SameLines.cons _ h
      rcases hl with rfl | rfl
      · exact .inl rfl
      · exact .inr rfl

/-- The lines of a text are what stands between its `\n`. -/
theorem lines_splitOn (s : Text) :
  SameLines (lines s) (s.splitOn '\n')
  := by
  induction s with
  | nil => exact .nil
  | cons c cs ih =>
      rw [List.splitOn_cons_eq_if_modifyHead, lines]
      by_cases hnl : c = '\n'
      · rw [if_pos hnl, if_pos (beq_iff_eq.mpr hnl)]
        exact .cons (.inl rfl) ih
      · have hbeq : ¬ (c == '\n') = true := by rwa [beq_iff_eq]
        rw [if_neg hnl, if_neg hbeq]
        by_cases hcr : c = '\r' ∧ cs.head? = some '\n'
        · obtain ⟨rfl, hhead⟩ := hcr
          obtain ⟨cs, rfl⟩ := List.head?_eq_some_iff.mp hhead
          rw [if_pos ⟨rfl, hhead⟩]
          rw [List.splitOn_cons_eq_if_modifyHead, if_pos (by rfl), lines, if_pos rfl] at ih ⊢
          generalize lines cs = ls at ih ⊢
          generalize hraws : cs.splitOn '\n' = raws at ih ⊢
          cases ih with
          | last => exact absurd hraws (List.splitOn_ne_nil '\n' cs)
          | cons _ h => exact .cons (.inr rfl) h
        · rw [if_neg hcr]
          generalize lines cs = ls at ih ⊢
          generalize cs.splitOn '\n' = raws at ih ⊢
          cases ih with
          | nil => exact .last
          | last => exact sameLines_cons .last
          | cons hl h => exact sameLines_cons (.cons hl h)

/-! ### Integers -/

/-- The values of `i64`. -/
def Fits (v : Int) : Prop := -2 ^ 63 ≤ v ∧ v < 2 ^ 63

instance (v : Int) : Decidable (Fits v) := inferInstanceAs (Decidable (_ ∧ _))

/-- `char::to_digit`. -/
def digit (radix : Nat) (c : Char) : Option Nat :=
  (if '0'.toNat ≤ c.toNat ∧ c.toNat ≤ '9'.toNat then some (c.toNat - '0'.toNat)
    else if 'a'.toNat ≤ c.toNat ∧ c.toNat ≤ 'z'.toNat then some (c.toNat - 'a'.toNat + 10)
    else if 'A'.toNat ≤ c.toNat ∧ c.toNat ≤ 'Z'.toNat then some (c.toNat - 'A'.toNat + 10)
    else none).filter (· < radix)

/-- Why a text is no integer. -/
inductive ParseIntError where
  | empty
  | invalidDigit
  | posOverflow
  | negOverflow
  deriving DecidableEq, Repr

/-- The text of an error. -/
def ParseIntError.message : ParseIntError → String
  | .empty => "cannot parse integer from empty string"
  | .invalidDigit => "invalid digit found in string"
  | .posOverflow => "number too large to fit in target type"
  | .negOverflow => "number too small to fit in target type"

/-- The error of a number that does not fit. -/
def overflow (neg : Bool) : ParseIntError := if neg then .negOverflow else .posOverflow

/-- Read digits behind those of `acc`, away from zero. -/
def readDigits (radix : Nat) (neg : Bool) : Int → Text → Except ParseIntError Int
  | acc, [] => .ok acc
  | acc, c :: cs =>
      match digit radix c with
      | none => .error .invalidDigit
      | some d =>
          if ¬ Fits (acc * radix) then .error (overflow neg)
          else
            let next := if neg then acc * radix - d else acc * radix + d
            if ¬ Fits next then .error (overflow neg)
            else readDigits radix neg next cs

/-- `i64::from_str_radix`; a sign may stand in front of the digits. -/
def fromStrRadix (radix : Nat) (s : Text) : Except ParseIntError Int :=
  match s with
  | [] => .error .empty
  | c :: cs =>
      if c = '+' ∨ c = '-' then
        if cs = [] then .error .invalidDigit else readDigits radix (c = '-') 0 cs
      else readDigits radix false 0 (c :: cs)

/-- One or more digits. -/
def Digits (radix : Nat) (ds : Text) : Prop := ds ≠ [] ∧ ∀ c ∈ ds, (digit radix c).isSome

instance (radix : Nat) (ds : Text) : Decidable (Digits radix ds) :=
  inferInstanceAs (Decidable (_ ∧ _))

/-- The number with the digits `ds` behind those of `m`. -/
def valueFrom (radix : Nat) (m : Nat) (ds : Text) : Nat :=
  ds.foldl (fun m c => m * radix + (digit radix c).getD 0) m

/-- The number with the digits `ds`. -/
def value (radix : Nat) (ds : Text) : Nat := valueFrom radix 0 ds

/-- A number with its sign. -/
def signed (neg : Bool) (m : Nat) : Int := if neg then -m else m

theorem le_valueFrom {radix : Nat} (hradix : 0 < radix) (m : Nat) (ds : Text) :
  m ≤ valueFrom radix m ds
  := by
  induction ds generalizing m with
  | nil => apply Nat.le_refl
  | cons c ds ih =>
      apply Nat.le_trans _ (ih _)
      apply Nat.le_trans (Nat.le_mul_of_pos_right m hradix)
      apply Nat.le_add_right

/-- Of two numbers that are signed alike, the lesser fits if the greater does. -/
theorem Fits.of_le {neg : Bool} {m n : Nat} (h : Fits (signed neg n)) (hle : m ≤ n) :
  Fits (signed neg m)
  := by
  cases neg with
  | true =>
      simp only [signed, Fits, if_true] at h ⊢
      omega
  | false =>
      simp only [signed, Fits, Bool.false_eq_true, if_false] at h ⊢
      omega

theorem signed_step (neg : Bool) (m radix d : Nat) :
  (if neg then signed neg m * radix - d else signed neg m * radix + d)
    = signed neg (m * radix + d)
  := by
  cases neg with
  | true =>
      simp only [signed, if_true, Nat.cast_add, Nat.cast_mul]
      rw [Int.neg_mul, Int.neg_add, Int.sub_eq_add_neg]
  | false =>
      simp only [signed, Bool.false_eq_true, if_false, Nat.cast_add, Nat.cast_mul]

theorem signed_mul (neg : Bool) (m radix : Nat) :
  signed neg m * radix = signed neg (m * radix)
  := by
  cases neg with
  | true =>
      simp only [signed, if_true, Nat.cast_mul]
      rw [Int.neg_mul]
  | false => simp only [signed, Bool.false_eq_true, if_false, Nat.cast_mul]

/-- Digits are read to the number that they write, if it fits. -/
theorem readDigits_eq_ok {radix : Nat} (hradix : 0 < radix) {neg : Bool} {m : Nat} {ds : Text}
    (hm : Fits (signed neg m)) {v : Int} :
  readDigits radix neg (signed neg m) ds = .ok v ↔
    (∀ c ∈ ds, (digit radix c).isSome) ∧ v = signed neg (valueFrom radix m ds) ∧ Fits v
  := by
  induction ds generalizing m with
  | nil =>
      simp only [readDigits, Except.ok.injEq, List.not_mem_nil, false_imp_iff, implies_true,
        true_and, valueFrom, List.foldl_nil]
      constructor
      · rintro rfl
        exact ⟨rfl, hm⟩
      · rintro ⟨rfl, _⟩
        rfl
  | cons c ds ih =>
      rw [readDigits]
      cases hd : digit radix c with
      | none =>
          simp only [reduceCtorEq, List.forall_mem_cons, hd, Option.isSome_none, Bool.false_eq_true,
            false_and]
      | some d =>
          have hvalue : valueFrom radix m (c :: ds) = valueFrom radix (m * radix + d) ds := by
            simp only [valueFrom, List.foldl_cons, hd, Option.getD_some]
          have hle := le_valueFrom hradix (m * radix + d) ds
          simp only [List.forall_mem_cons, hd, Option.isSome_some, true_and, hvalue, signed_step]
          rw [signed_mul]
          by_cases hnext : Fits (signed neg (m * radix + d))
          · have hmul := hnext.of_le (Nat.le_add_right (m * radix) d)
            rw [if_neg (not_not.mpr hmul), if_neg (not_not.mpr hnext), ih hnext]
          · have hnot : ∀ w, ¬ (w = signed neg (valueFrom radix (m * radix + d) ds) ∧ Fits w) := by
              rintro w ⟨rfl, hfits⟩
              exact hnext (hfits.of_le hle)
            by_cases hmul : Fits (signed neg (m * radix))
            · rw [if_neg (not_not.mpr hmul), if_pos hnext]
              simp [hnot]
            · rw [if_pos hmul]
              simp [hnot]

/-- A sign. -/
def signChar (neg : Bool) : Char := if neg then '-' else '+'

theorem digit_sign (radix : Nat) (neg : Bool) :
  digit radix (signChar neg) = none
  := by
  cases neg with
  | true => rfl
  | false => rfl

theorem signChar_of_sign {c : Char} (h : c = '+' ∨ c = '-') :
  signChar (c = '-') = c
  := by
  rcases h with rfl | rfl
  · rfl
  · rfl

/-- Digits, with or without a sign in front, and their value. -/
def Numeral (radix : Nat) (s : Text) (v : Int) : Prop :=
  ∃ neg ds, Digits radix ds ∧ v = signed neg (value radix ds) ∧
    (s = signChar neg :: ds ∨ neg = false ∧ s = ds)

theorem digits_cons {radix : Nat} {c : Char} {cs : Text} :
  Digits radix (c :: cs) ↔ ∀ x ∈ c :: cs, (digit radix x).isSome
  := by
  rw [Digits]
  exact and_iff_right (List.cons_ne_nil c cs)

theorem signChar_inj {neg neg' : Bool} (h : signChar neg = signChar neg') :
  neg = neg'
  := by
  cases neg <;> cases neg' <;> first | rfl | exact absurd h (by decide)

/-- Behind a sign is the magnitude. -/
theorem numeral_sign {radix : Nat} {neg : Bool} {cs : Text} {v : Int} :
  Numeral radix (signChar neg :: cs) v ↔ Digits radix cs ∧ v = signed neg (value radix cs)
  := by
  constructor
  · rintro ⟨neg', ds, hds, hv, hs | ⟨_, hs⟩⟩
    · obtain ⟨hsign, rfl⟩ := List.cons.inj hs
      obtain rfl := signChar_inj hsign
      exact ⟨hds, hv⟩
    · rw [← hs, digits_cons] at hds
      have hdigit := hds (signChar neg) List.mem_cons_self
      rw [digit_sign] at hdigit
      cases hdigit
  · rintro ⟨hds, hv⟩
    exact ⟨neg, cs, hds, hv, .inl rfl⟩

/-- Without a sign the digits are the magnitude. -/
theorem numeral_unsigned {radix : Nat} {s : Text} (h : ∀ neg cs, s ≠ signChar neg :: cs)
    {v : Int} :
  Numeral radix s v ↔ Digits radix s ∧ v = value radix s
  := by
  constructor
  · rintro ⟨neg, ds, hds, hv, hs | ⟨rfl, rfl⟩⟩
    · exact absurd hs (h neg ds)
    · exact ⟨hds, hv⟩
  · rintro ⟨hds, hv⟩
    exact ⟨false, s, hds, hv, .inr ⟨rfl, rfl⟩⟩

theorem readDigits_zero {radix : Nat} (hradix : 0 < radix) {neg : Bool} {ds : Text} {v : Int} :
  readDigits radix neg 0 ds = .ok v ↔
    (∀ c ∈ ds, (digit radix c).isSome) ∧ v = signed neg (value radix ds) ∧ Fits v
  := by
  have hzero : signed neg 0 = 0 := by
    cases neg with
    | true => rfl
    | false => rfl
  have hfits : Fits (signed neg 0) := by
    rw [hzero]
    decide
  have h : readDigits radix neg (signed neg 0) ds = .ok v ↔ _ := readDigits_eq_ok hradix hfits
  rwa [hzero] at h

/-- `from_str_radix` accepts the numerals that fit. -/
theorem fromStrRadix_eq_ok {radix : Nat} (hradix : 0 < radix) {s : Text} {v : Int} :
  fromStrRadix radix s = .ok v ↔ Numeral radix s v ∧ Fits v
  := by
  cases s with
  | nil =>
      simp only [fromStrRadix, reduceCtorEq, false_iff]
      rintro ⟨⟨neg, ds, ⟨hne, _⟩, _, hs | ⟨_, hs⟩⟩, _⟩
      · cases hs
      · exact hne hs.symm
  | cons c cs =>
      rw [fromStrRadix]
      by_cases hsign : c = '+' ∨ c = '-'
      · obtain ⟨neg, rfl, hneg⟩ : ∃ neg, c = signChar neg ∧ decide (c = '-') = neg :=
          ⟨_, (signChar_of_sign hsign).symm, rfl⟩
        rw [if_pos hsign, numeral_sign, Digits, hneg]
        by_cases hcs : cs = []
        · rw [if_pos hcs]
          simp [hcs]
        · rw [if_neg hcs, readDigits_zero hradix, and_assoc, and_iff_right hcs]
      · have hnone : ∀ neg ds, c :: cs ≠ signChar neg :: ds := by
          intro neg ds heq
          apply hsign
          obtain ⟨rfl, _⟩ := List.cons.inj heq
          cases neg with
          | true => exact .inr rfl
          | false => exact .inl rfl
        rw [if_neg hsign, readDigits_zero hradix, numeral_unsigned hnone, digits_cons, and_assoc]
        rfl

end Text
