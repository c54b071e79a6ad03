import DetGuest.Lib.Bytes

/-!
# Cursors

A cursor reads a byte string from front to back.  A computation over cursors reads a language
when it succeeds exactly on the bytes that start with a word of the language, and then stands
behind that word.
-/

/-- A position in a byte string. -/
structure Cursor where
  bytes : Bytes
  pos : Nat
  deriving DecidableEq, Repr

namespace Cursor

variable {ε α β : Type}

/-- `x` reads the words of `L`: where one stands at the cursor, `x` goes behind it and returns
the value `L` gives it, and otherwise `x` returns no value.  Byte strings fit the address
space. -/
def Reads (x : Exec Cursor ε α) (L : Bytes → α → Prop) : Prop :=
  ∀ pre b : Bytes, (pre ++ b).length < 2 ^ 64 → ∀ c a,
    x.run ⟨pre ++ b, pre.length⟩ = (c, .ok a) ↔
      ∃ w suf, b = w ++ suf ∧ L w a ∧ c = ⟨pre ++ b, pre.length + w.length⟩

theorem reads_pure (a : α) :
  Reads (pure a : Exec Cursor ε α) (fun w a' => w = [] ∧ a' = a)
  := by
  intro pre b _ c a'
  rw [Exec.run_pure]
  constructor
  · intro h
    cases h
    exact ⟨[], b, rfl, ⟨rfl, rfl⟩, rfl⟩
  · rintro ⟨w, suf, _, ⟨rfl, rfl⟩, rfl⟩
    rfl

/-- A sequence reads a word of its first part and behind it one of its second. -/
theorem Reads.bind {x : Exec Cursor ε α} {f : α → Exec Cursor ε β} {L : Bytes → α → Prop}
    {M : α → Bytes → β → Prop} (hx : Reads x L) (hf : ∀ a, Reads (f a) (M a)) :
  Reads (x >>= f) (fun w b => ∃ u v a, w = u ++ v ∧ L u a ∧ M a v b)
  := by
  intro pre b hlen c r
  rw [Exec.run_bind_eq_ok]
  constructor
  · rintro ⟨t, a, hrun, hrest⟩
    obtain ⟨u, suf, rfl, hu, rfl⟩ := (hx pre b hlen t a).mp hrun
    rw [← List.append_assoc, ← List.length_append] at hrest
    rw [← List.append_assoc] at hlen
    obtain ⟨v, suf', rfl, hv, rfl⟩ := (hf a (pre ++ u) suf hlen c r).mp hrest
    refine ⟨u ++ v, suf', (List.append_assoc ..).symm, ⟨u, v, a, rfl, hu, hv⟩, ?_⟩
    simp [Nat.add_assoc]
  · rintro ⟨w, suf, rfl, ⟨u, v, a, rfl, hu, hv⟩, rfl⟩
    refine ⟨⟨pre ++ (u ++ v ++ suf), pre.length + u.length⟩, a, ?_, ?_⟩
    · apply (hx _ _ hlen _ _).mpr
      exact ⟨u, v ++ suf, List.append_assoc .., hu, rfl⟩
    · have hsplit : pre ++ (u ++ v ++ suf) = (pre ++ u) ++ (v ++ suf) := by simp
      rw [hsplit, ← List.length_append]
      rw [hsplit] at hlen
      apply (hf a _ _ hlen _ _).mpr
      refine ⟨v, suf, rfl, hv, ?_⟩
      simp [Nat.add_assoc]

/-- A check reads nothing. -/
theorem reads_failIf (p : Prop) [Decidable p] (e : ε) :
  Reads (Exec.failIf p e) (fun w _ => w = [] ∧ ¬ p)
  := by
  intro pre b _ c _
  by_cases hp : p
  · rw [Exec.run_failIf_of hp]
    constructor
    · intro h
      cases h
    · rintro ⟨w, suf, _, ⟨_, hn⟩, _⟩
      exact absurd hp hn
  · rw [Exec.run_failIf_of_not hp]
    constructor
    · intro h
      cases h
      exact ⟨[], b, rfl, ⟨rfl, hp⟩, rfl⟩
    · rintro ⟨w, suf, _, ⟨rfl, _⟩, rfl⟩
      rfl

theorem reads_fail (e : ε) :
  Reads (Exec.fail e : Exec Cursor ε α) (fun _ _ => False)
  := by
  intro pre b _ c a
  rw [Exec.run_fail]
  constructor
  · intro h
    cases h
  · rintro ⟨w, suf, _, h, _⟩
    exact h.elim

/-- The same computation reads an equal language. -/
theorem Reads.congr {x : Exec Cursor ε α} {L M : Bytes → α → Prop} (hx : Reads x L)
    (h : ∀ w a, L w a ↔ M w a) :
  Reads x M
  := by
  have hLM : L = M := by
    funext w a
    apply propext (h w a)
  subst hLM
  exact hx

/-- Reading up to the very end. -/
theorem Reads.run_end {x : Exec Cursor ε α} {L : Bytes → α → Prop} (hx : Reads x L) {pre b : Bytes}
    (hb : (pre ++ b).length < 2 ^ 64) {a : α} :
  (∃ c, x.run ⟨pre ++ b, pre.length⟩ = (c, .ok a) ∧ c.pos = c.bytes.length) ↔ L b a
  := by
  constructor
  · rintro ⟨c, hrun, hend⟩
    obtain ⟨w, suf, rfl, hw, rfl⟩ := (hx pre b hb c a).mp hrun
    have hsuf : suf = [] := by
      apply List.length_eq_zero_iff.mp
      simp only [List.length_append] at hend
      omega
    subst hsuf
    rw [List.append_nil]
    exact hw
  · intro hL
    refine ⟨⟨pre ++ b, pre.length + b.length⟩, ?_, (List.length_append ..).symm⟩
    apply (hx pre b hb _ _).mpr
    exact ⟨b, [], (List.append_nil b).symm, hL, rfl⟩

end Cursor
