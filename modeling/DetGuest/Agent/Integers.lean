import DetGuest.Agent.Tiny

/-!
# Integer literals

Which texts the parser takes for integers.  It strips a sign by hand and hands the rest to
`from_str_radix`, which takes a sign of its own.
-/

namespace Agent

namespace Tiny

open Text

/-! ### Literals -/

/-- A text without its underscores. -/
def withoutUnderscores (s : Text) : Text := s.filter (· ≠ '_')

/-- The letter of a hexadecimal number. -/
def HexMark (x : Char) : Prop := x = 'x' ∨ x = 'X'

/-- Decimal digits, or hexadecimal digits behind their mark, and the number that they write. -/
inductive Magnitude : Text → Nat → Prop where
  | dec {ds : Text} : Digits 10 ds → Magnitude ds (value 10 ds)
  | hex {x : Char} {hs : Text} : HexMark x → Digits 16 hs →
      Magnitude ('0' :: x :: hs) (value 16 hs)

/-- The text is an integer literal with the value `v`: a magnitude with at most one sign. -/
def IntegerLiteral (s : Text) (v : Int) : Prop :=
  ∃ neg d m, Magnitude d m ∧ v = signed neg m ∧
    (withoutUnderscores (trim s) = signChar neg :: d ∨
      neg = false ∧ withoutUnderscores (trim s) = d)

/-- A text is read as it should be: to its value if it is a literal that fits, and else to an
error. -/
def ReadsLiteral (dbg : Bool) (s : Text) : Prop :=
  parseInt dbg s ≠ .panic ∧ (∀ v, parseInt dbg s = .ok v → IntegerLiteral s v) ∧
    ∀ v, IntegerLiteral s v → Fits v → parseInt dbg s = .ok v

/-! ### What is read -/

/-- Decimal digits behind a sign. -/
def SignedDec (d : Text) (v : Int) : Prop :=
  ∃ neg ds, d = signChar neg :: ds ∧ Digits 10 ds ∧ v = signed neg (value 10 ds)

/-- Hexadecimal digits behind a sign behind their mark. -/
def SignedHex (d : Text) (v : Int) : Prop :=
  ∃ x neg hs, HexMark x ∧ d = '0' :: x :: signChar neg :: hs ∧ Digits 16 hs ∧
    v = signed neg (value 16 hs)

/-- A hexadecimal number behind a sign. -/
def LateHex (d : Text) (v : Int) : Prop :=
  ∃ x neg hs, HexMark x ∧ d = signChar neg :: '0' :: x :: hs ∧ Digits 16 hs ∧
    v = signed neg (value 16 hs)

theorem digit_hexMark {x : Char} (h : HexMark x) :
  digit 10 x = none
  := by
  rcases h with rfl | rfl
  · rfl
  · rfl

theorem not_digits_of_mem {radix : Nat} {c : Char} {ds : Text} (hc : digit radix c = none)
    (hmem : c ∈ ds) :
  ¬ Digits radix ds
  := by
  rintro ⟨_, hall⟩
  have hdigit := hall c hmem
  rw [hc] at hdigit
  cases hdigit

theorem magnitude_iff {d : Text} {m : Nat} :
  Magnitude d m ↔ (Digits 10 d ∧ m = value 10 d) ∨
    ∃ x hs, HexMark x ∧ d = '0' :: x :: hs ∧ Digits 16 hs ∧ m = value 16 hs
  := by
  constructor
  · rintro (hds | ⟨hx, hhs⟩)
    · exact .inl ⟨hds, rfl⟩
    · exact .inr ⟨_, _, hx, rfl, hhs, rfl⟩
  · rintro (⟨hds, rfl⟩ | ⟨x, hs, hx, rfl, hhs, rfl⟩)
    · exact .dec hds
    · exact .hex hx hhs

/-- A hexadecimal mark is no decimal digit. -/
theorem not_digits_hex {x : Char} (hx : HexMark x) {hs : Text} :
  ¬ Digits 10 ('0' :: x :: hs)
  := not_digits_of_mem (digit_hexMark hx) (by simp)

theorem sign_ne_zero (neg : Bool) :
  signChar neg ≠ '0'
  := by
  cases neg with
  | true => decide
  | false => decide

theorem not_magnitude_sign {neg : Bool} {d : Text} {m : Nat} :
  ¬ Magnitude (signChar neg :: d) m
  := by
  rw [magnitude_iff]
  rintro (⟨hds, _⟩ | ⟨x, hs, _, heq, _⟩)
  · exact not_digits_of_mem (digit_sign 10 neg) List.mem_cons_self hds
  · exact sign_ne_zero neg (List.cons.inj heq).1

theorem SignedHex.not_magnitude {d : Text} {v : Int} (h : SignedHex d v) {m : Nat} :
  ¬ Magnitude d m
  := by
  obtain ⟨x, neg, hs, hx, rfl, _, _⟩ := h
  rw [magnitude_iff]
  rintro (⟨hds, _⟩ | ⟨y, gs, _, heq, hgs, _⟩)
  · exact not_digits_hex hx hds
  · obtain ⟨_, hrest⟩ := List.cons.inj heq
    obtain ⟨_, rfl⟩ := List.cons.inj hrest
    exact not_digits_of_mem (digit_sign 16 neg) List.mem_cons_self hgs

theorem SignedDec.not_magnitude {d : Text} {v : Int} (h : SignedDec d v) {m : Nat} :
  ¬ Magnitude d m
  := by
  obtain ⟨neg, ds, rfl, _, _⟩ := h
  exact not_magnitude_sign

/-- The number that a text writes is unique. -/
theorem Magnitude.unique {d : Text} {m n : Nat} (hm : Magnitude d m) (hn : Magnitude d n) :
  m = n
  := by
  rw [magnitude_iff] at hm hn
  rcases hm with ⟨hds, rfl⟩ | ⟨x, hs, hx, rfl, hhs, rfl⟩
  · rcases hn with ⟨_, rfl⟩ | ⟨y, gs, hy, rfl, _, _⟩
    · rfl
    · exact absurd hds (not_digits_hex hy)
  · rcases hn with ⟨hds, _⟩ | ⟨y, gs, hy, heq, _, rfl⟩
    · exact absurd hds (not_digits_hex hx)
    · obtain ⟨_, hrest⟩ := List.cons.inj heq
      obtain ⟨_, rfl⟩ := List.cons.inj hrest
      rfl

/-- What `from_str_radix` is handed is read when it is a magnitude, or has a sign in front of
decimal digits or behind a hexadecimal mark. -/
def Read (d : Text) (v : Int) : Prop :=
  (∃ m, Magnitude d m ∧ v = m) ∨ SignedDec d v ∨ SignedHex d v

theorem numeral_iff {radix : Nat} {s : Text} {v : Int} :
  Numeral radix s v ↔ (Digits radix s ∧ v = value radix s) ∨
    ∃ neg ds, s = signChar neg :: ds ∧ Digits radix ds ∧ v = signed neg (value radix ds)
  := by
  constructor
  · rintro ⟨neg, ds, hds, hv, hs | ⟨rfl, rfl⟩⟩
    · exact .inr ⟨neg, ds, hs, hds, hv⟩
    · exact .inl ⟨hds, hv⟩
  · rintro (⟨hds, hv⟩ | ⟨neg, ds, hs, hds, hv⟩)
    · exact ⟨false, s, hds, hv, .inr ⟨rfl, rfl⟩⟩
    · exact ⟨neg, ds, hds, hv, .inl hs⟩

theorem parseDigits_hex {x : Char} (hx : HexMark x) (hs : Text) :
  parseDigits ('0' :: x :: hs) = fromStrRadix 16 hs
  := by
  rcases hx with rfl | rfl
  · rfl
  · rfl

theorem parseDigits_dec {d : Text} (h : ∀ x hs, HexMark x → d ≠ '0' :: x :: hs) :
  parseDigits d = fromStrRadix 10 d
  := by
  rw [parseDigits]
  · intro hs heq
    exact h 'x' hs (.inl rfl) heq
  · intro hs heq
    exact h 'X' hs (.inr rfl) heq

theorem parseDigits_eq_ok {d : Text} {v : Int} :
  parseDigits d = .ok v ↔ Read d v ∧ Fits v
  := by
  by_cases hhex : ∃ x hs, HexMark x ∧ d = '0' :: x :: hs
  · obtain ⟨x, hs, hx, rfl⟩ := hhex
    rw [parseDigits_hex hx, fromStrRadix_eq_ok (by decide), numeral_iff]
    apply and_congr_left'
    constructor
    · rintro (⟨hhs, rfl⟩ | ⟨neg, gs, rfl, hgs, rfl⟩)
      · exact .inl ⟨_, .hex hx hhs, rfl⟩
      · exact .inr (.inr ⟨x, neg, gs, hx, rfl, hgs, rfl⟩)
    · rintro (⟨m, hm, rfl⟩ | ⟨neg, ds, heq, _⟩ | ⟨y, neg, gs, _, heq, hgs, rfl⟩)
      · rcases magnitude_iff.mp hm with ⟨hds, _⟩ | ⟨y, gs, _, heq, hgs, rfl⟩
        · exact absurd hds (not_digits_hex hx)
        · obtain ⟨_, hrest⟩ := List.cons.inj heq
          obtain ⟨_, rfl⟩ := List.cons.inj hrest
          exact .inl ⟨hgs, rfl⟩
      · exact absurd (List.cons.inj heq).1.symm (sign_ne_zero neg)
      · obtain ⟨_, hrest⟩ := List.cons.inj heq
        obtain ⟨_, rfl⟩ := List.cons.inj hrest
        exact .inr ⟨neg, gs, rfl, hgs, rfl⟩
  · have hnot : ∀ x hs, HexMark x → d ≠ '0' :: x :: hs :=
      fun x hs hx heq => hhex ⟨x, hs, hx, heq⟩
    rw [parseDigits_dec hnot, fromStrRadix_eq_ok (by decide), numeral_iff]
    apply and_congr_left'
    constructor
    · rintro (⟨hds, rfl⟩ | ⟨neg, ds, hd, hds, rfl⟩)
      · exact .inl ⟨_, .dec hds, rfl⟩
      · exact .inr (.inl ⟨neg, ds, hd, hds, rfl⟩)
    · rintro (⟨m, hm, rfl⟩ | ⟨neg, ds, hd, hds, rfl⟩ | ⟨x, neg, gs, hx, hd, _⟩)
      · rcases magnitude_iff.mp hm with ⟨hds, rfl⟩ | ⟨y, gs, hy, hd, _⟩
        · exact .inl ⟨hds, rfl⟩
        · exact absurd hd (hnot y gs hy)
      · exact .inr ⟨neg, ds, hd, hds, rfl⟩
      · exact absurd hd (hnot x _ hx)

/-! ### The texts that are misread -/

/-- What is left of a text behind the sign that is stripped. -/
def unsignedPart (s : Text) : Text := withoutUnderscores (stripSign (trim s)).2

/-- A sign is stripped from a text. -/
def Stripped (s : Text) : Prop := ∃ neg r, trim s = signChar neg :: r

/-- The texts that are not read as they should be: a sign behind the sign that is stripped, a sign
behind a hexadecimal mark, the least number, and a sign between underscores and a hexadecimal
mark. -/
def Misread (s : Text) : Prop :=
  (Stripped s ∧ ∃ v, SignedDec (unsignedPart s) v ∧ Fits v) ∨
    (∃ v, SignedHex (unsignedPart s) v ∧ Fits v) ∨
    ((stripSign (trim s)).1 = true ∧ Magnitude (unsignedPart s) (2 ^ 63)) ∨
    ¬ Stripped s ∧ ∃ v, LateHex (unsignedPart s) v ∧ Fits v

theorem stripSign_sign (neg : Bool) (r : Text) :
  stripSign (signChar neg :: r) = (neg, r)
  := by
  cases neg with
  | true => rfl
  | false => rfl

theorem stripSign_unsigned {t : Text} (h : ∀ neg r, t ≠ signChar neg :: r) :
  stripSign t = (false, t)
  := by
  rw [stripSign]
  · intro r heq
    exact h true r heq
  · intro r heq
    exact h false r heq

theorem parseInt_eq (dbg : Bool) (s : Text) :
  parseInt dbg s
    = match parseDigits (unsignedPart s) with
      | .error e => .err (.badInteger s e)
      | .ok v => if (stripSign (trim s)).1 then negate dbg v else .ok v
  := rfl

theorem negate_of_ne {dbg : Bool} {v : Int} (h : v ≠ -2 ^ 63) :
  negate dbg v = .ok (-v)
  := by
  rw [negate, if_neg h]

/-- What is read does not end in an error. -/
theorem parseInt_of_read (dbg : Bool) {s : Text} {v : Int}
    (h : parseDigits (unsignedPart s) = .ok v) :
  parseInt dbg s = .panic ∨ ∃ w, parseInt dbg s = .ok w
  := by
  rw [parseInt_eq, h]
  dsimp only
  split
  · rw [negate]
    split
    · cases dbg with
      | true => exact .inl rfl
      | false => exact .inr ⟨v, rfl⟩
    · exact .inr ⟨-v, rfl⟩
  · exact .inr ⟨v, rfl⟩

/-- Only what is read ends in a value. -/
theorem read_of_parseInt {dbg : Bool} {s : Text} {w : Int} (h : parseInt dbg s = .ok w) :
  ∃ v, parseDigits (unsignedPart s) = .ok v
  := by
  rw [parseInt_eq] at h
  cases hd : parseDigits (unsignedPart s) with
  | error e =>
      rw [hd] at h
      cases h
  | ok v => exact ⟨v, rfl⟩

/-- What is read of a magnitude is its number. -/
theorem Read.eq_of_magnitude {d : Text} {v : Int} (h : Read d v) {m : Nat} (hm : Magnitude d m) :
  v = m
  := by
  rcases h with ⟨n, hn, rfl⟩ | hdec | hhex
  · rw [hn.unique hm]
  · exact absurd hm hdec.not_magnitude
  · exact absurd hm hhex.not_magnitude

/-! ### Texts with a sign -/

section Stripped

variable {s : Text} {neg : Bool} {r : Text} {v : Int}

theorem unsignedPart_of_sign (h : trim s = signChar neg :: r) :
  unsignedPart s = withoutUnderscores r
  := by
  rw [unsignedPart, h, stripSign_sign]

/-- Behind a sign that is stripped, a literal is a magnitude. -/
theorem integerLiteral_of_sign (h : trim s = signChar neg :: r) :
  IntegerLiteral s v ↔ ∃ m, Magnitude (unsignedPart s) m ∧ v = signed neg m
  := by
  have htext : withoutUnderscores (trim s) = signChar neg :: unsignedPart s := by
    rw [h, unsignedPart_of_sign h, withoutUnderscores, List.filter_cons_of_pos]
    · rfl
    · cases neg with
      | true => decide
      | false => decide
  constructor
  · rintro ⟨neg', d, m, hm, hv, htext' | ⟨_, htext'⟩⟩
    · rw [htext] at htext'
      obtain ⟨hsign, rfl⟩ := List.cons.inj htext'
      obtain rfl := signChar_inj hsign
      exact ⟨m, hm, hv⟩
    · rw [htext] at htext'
      subst htext'
      exact absurd hm not_magnitude_sign
  · rintro ⟨m, hm, hv⟩
    exact ⟨neg, _, m, hm, hv, .inl htext⟩

theorem readsLiteral_of_sign {dbg : Bool} (h : trim s = signChar neg :: r) (hreads : ¬ Misread s) :
  ReadsLiteral dbg s
  := by
  have hneg : (stripSign (trim s)).1 = neg := by
    rw [h, stripSign_sign]
  have hstripped : Stripped s := ⟨neg, r, h⟩
  have hread : ∀ v, parseDigits (unsignedPart s) = .ok v →
      ∃ m, Magnitude (unsignedPart s) m ∧ v = m := by
    intro v hv
    obtain ⟨hread, hfits⟩ := parseDigits_eq_ok.mp hv
    rcases hread with hm | hdec | hhex
    · exact hm
    · exact absurd (.inl ⟨hstripped, v, hdec, hfits⟩) hreads
    · exact absurd (.inr (.inl ⟨v, hhex, hfits⟩)) hreads
  have hvalue : ∀ m : Nat, parseDigits (unsignedPart s) = .ok m →
      parseInt dbg s = .ok (signed neg m) := by
    intro m hm
    rw [parseInt_eq, hm, hneg]
    cases neg with
    | true =>
        dsimp only
        rw [if_pos rfl, negate_of_ne (by omega)]
        rfl
    | false => rfl
  refine ⟨?_, ?_, ?_⟩
  · intro hpanic
    cases hd : parseDigits (unsignedPart s) with
    | error e =>
        rw [parseInt_eq, hd] at hpanic
        cases hpanic
    | ok v =>
        obtain ⟨m, _, rfl⟩ := hread v hd
        rw [hvalue m hd] at hpanic
        cases hpanic
  · intro w hw
    obtain ⟨v, hv⟩ := read_of_parseInt hw
    obtain ⟨m, hm, rfl⟩ := hread v hv
    rw [hvalue m hv] at hw
    cases hw
    exact (integerLiteral_of_sign h).mpr ⟨m, hm, rfl⟩
  · intro w hw hfits
    obtain ⟨m, hm, rfl⟩ := (integerLiteral_of_sign h).mp hw
    apply hvalue m
    rw [parseDigits_eq_ok]
    refine ⟨.inl ⟨m, hm, rfl⟩, ?_⟩
    cases neg with
    | true =>
        have hne : m ≠ 2 ^ 63 := by
          rintro rfl
          exact hreads (.inr (.inr (.inl ⟨hneg, hm⟩)))
        simp only [signed, if_true, Fits] at hfits ⊢
        omega
    | false => exact hfits

theorem not_misread_of_sign {dbg : Bool} (h : trim s = signChar neg :: r)
    (hreads : ReadsLiteral dbg s) :
  ¬ Misread s
  := by
  obtain ⟨hpanic, hsound, hcomplete⟩ := hreads
  have hmagnitude : ∀ v, Read (unsignedPart s) v → Fits v →
      ∃ m, Magnitude (unsignedPart s) m := by
    intro v hread hfits
    rcases parseInt_of_read dbg (parseDigits_eq_ok.mpr ⟨hread, hfits⟩) with hp | ⟨w, hw⟩
    · exact absurd hp hpanic
    · obtain ⟨m, hm, _⟩ := (integerLiteral_of_sign h).mp (hsound w hw)
      exact ⟨m, hm⟩
  rintro (⟨_, v, hdec, hfits⟩ | ⟨v, hhex, hfits⟩ | ⟨hneg, hm⟩ | ⟨hnot, _⟩)
  · obtain ⟨m, hm⟩ := hmagnitude v (.inr (.inl hdec)) hfits
    exact hdec.not_magnitude hm
  · obtain ⟨m, hm⟩ := hmagnitude v (.inr (.inr hhex)) hfits
    exact hhex.not_magnitude hm
  · rw [h, stripSign_sign] at hneg
    dsimp only at hneg
    subst hneg
    have hok := hcomplete (signed true (2 ^ 63))
      ((integerLiteral_of_sign h).mpr ⟨_, hm, rfl⟩) (by decide)
    obtain ⟨v, hv⟩ := read_of_parseInt hok
    obtain ⟨hread, hfits⟩ := parseDigits_eq_ok.mp hv
    rw [hread.eq_of_magnitude hm] at hfits
    exact absurd hfits (by decide)
  · exact hnot ⟨neg, r, h⟩

end Stripped

/-! ### Texts without a sign -/

section Unsigned

variable {s : Text} {v : Int}

theorem unsignedPart_of_unsigned (h : ¬ Stripped s) :
  unsignedPart s = withoutUnderscores (trim s)
  := by
  rw [unsignedPart, stripSign_unsigned fun neg r heq => h ⟨neg, r, heq⟩]

/-- Where no sign is stripped, a literal may have one behind underscores. -/
theorem integerLiteral_of_unsigned (h : ¬ Stripped s) :
  IntegerLiteral s v ↔ (∃ m, Magnitude (unsignedPart s) m ∧ v = m) ∨
    SignedDec (unsignedPart s) v ∨ LateHex (unsignedPart s) v
  := by
  rw [unsignedPart_of_unsigned h]
  constructor
  · rintro ⟨neg, d, m, hm, rfl, htext | ⟨rfl, rfl⟩⟩
    · rcases magnitude_iff.mp hm with ⟨hds, rfl⟩ | ⟨x, hs, hx, rfl, hhs, rfl⟩
      · exact .inr (.inl ⟨neg, d, htext, hds, rfl⟩)
      · exact .inr (.inr ⟨x, neg, hs, hx, htext, hhs, rfl⟩)
    · exact .inl ⟨m, hm, rfl⟩
  · rintro (⟨m, hm, rfl⟩ | ⟨neg, ds, htext, hds, rfl⟩ | ⟨x, neg, hs, hx, htext, hhs, rfl⟩)
    · exact ⟨false, _, m, hm, rfl, .inr ⟨rfl, rfl⟩⟩
    · exact ⟨neg, ds, _, .dec hds, rfl, .inl htext⟩
    · exact ⟨neg, _, _, .hex hx hhs, rfl, .inl htext⟩

theorem parseInt_of_unsigned {dbg : Bool} (h : ¬ Stripped s) :
  parseInt dbg s = .ok v ↔ Read (unsignedPart s) v ∧ Fits v
  := by
  have hneg : (stripSign (trim s)).1 = false := by
    rw [stripSign_unsigned fun neg r heq => h ⟨neg, r, heq⟩]
  rw [parseInt_eq, ← parseDigits_eq_ok, hneg]
  cases parseDigits (unsignedPart s) with
  | error e => simp
  | ok w => simp

theorem LateHex.not_read {d : Text} (h : LateHex d v) {w : Int} :
  ¬ Read d w
  := by
  obtain ⟨x, neg, hs, hx, rfl, _, _⟩ := h
  rintro (⟨m, hm, _⟩ | ⟨neg', ds, heq, hds, _⟩ | ⟨y, neg', gs, _, heq, _⟩)
  · exact not_magnitude_sign hm
  · obtain ⟨_, rfl⟩ := List.cons.inj heq
    exact not_digits_hex hx hds
  · exact sign_ne_zero neg (List.cons.inj heq).1

theorem readsLiteral_of_unsigned (dbg : Bool) (h : ¬ Stripped s) :
  ReadsLiteral dbg s ↔ ¬ Misread s
  := by
  have hneg : (stripSign (trim s)).1 = false := by
    rw [stripSign_unsigned fun neg r heq => h ⟨neg, r, heq⟩]
  constructor
  · rintro ⟨_, hsound, hcomplete⟩
    rintro (⟨hstripped, _⟩ | ⟨v, hhex, hfits⟩ | ⟨htrue, _⟩ | ⟨_, v, hlate, hfits⟩)
    · exact h hstripped
    · have hlit := hsound v ((parseInt_of_unsigned h).mpr ⟨.inr (.inr hhex), hfits⟩)
      rcases (integerLiteral_of_unsigned h).mp hlit with ⟨m, hm, _⟩ | hdec | hlate
      · exact hhex.not_magnitude hm
      · obtain ⟨x, neg, hs, _, hd, _⟩ := hhex
        obtain ⟨neg', ds, hd', _⟩ := hdec
        rw [hd] at hd'
        exact sign_ne_zero neg' (List.cons.inj hd').1.symm
      · exact hlate.not_read (.inr (.inr hhex))
    · rw [hneg] at htrue
      cases htrue
    · have hlit := (integerLiteral_of_unsigned h).mpr (.inr (.inr hlate))
      have hok := (parseInt_of_unsigned h).mp (hcomplete v hlit hfits)
      exact hlate.not_read hok.1
  · intro hreads
    refine ⟨?_, ?_, ?_⟩
    · rw [parseInt_eq, hneg]
      cases parseDigits (unsignedPart s) with
      | error e => simp
      | ok w => simp
    · intro v hv
      obtain ⟨hread, hfits⟩ := (parseInt_of_unsigned h).mp hv
      rw [integerLiteral_of_unsigned h]
      rcases hread with hm | hdec | hhex
      · exact .inl hm
      · exact .inr (.inl hdec)
      · exact absurd (.inr (.inl ⟨v, hhex, hfits⟩)) hreads
    · intro v hlit hfits
      rw [parseInt_of_unsigned h]
      rcases (integerLiteral_of_unsigned h).mp hlit with hm | hdec | hlate
      · exact ⟨.inl hm, hfits⟩
      · exact ⟨.inr (.inl hdec), hfits⟩
      · exact absurd (.inr (.inr (.inr ⟨h, v, hlate, hfits⟩))) hreads

end Unsigned

/-- A text is read as it should be exactly when it is not one of the kinds that are misread. -/
theorem readsLiteral_iff (dbg : Bool) (s : Text) :
  ReadsLiteral dbg s ↔ ¬ Misread s
  := by
  by_cases h : Stripped s
  · obtain ⟨neg, r, hsign⟩ := h
    constructor
    · intro hreads
      exact not_misread_of_sign hsign hreads
    · intro hreads
      exact readsLiteral_of_sign hsign hreads
  · exact readsLiteral_of_unsigned dbg h

/-- Two signs are read, and the second may overflow. -/
theorem parseInt_two_signs :
  parseInt true ['-', '-', '5'] = .ok 5 ∧ (¬ ∃ v, IntegerLiteral ['-', '-', '5'] v) ∧
    parseInt true (['-', '-'] ++ "9223372036854775808".toList) = .panic
  := by
  refine ⟨by decide, ?_, by decide⟩
  rintro ⟨v, hlit⟩
  have htrim : trim ['-', '-', '5'] = signChar true :: ['-', '5'] := by decide
  obtain ⟨m, hm, _⟩ := (integerLiteral_of_sign htrim).mp hlit
  exact @not_magnitude_sign true ['5'] _ hm

end Tiny

end Agent
