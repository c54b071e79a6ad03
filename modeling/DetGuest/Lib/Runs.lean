import Mathlib.Algebra.Order.Ring.Nat
import Mathlib.Data.Nat.Count
import Mathlib.Data.List.Chain
import Mathlib.Tactic.Common

/-!
# Runs of consecutive numbers

A list of runs stands for the sequence of the numbers of its runs, one run behind the other.  The
canonical lists have no empty run and break only where the sequence does.  They are determined by
their sequence, and there is one run for each break.
-/

/-- A run of consecutive numbers: the first one, and how many there are. -/
@[ext]
structure Run where
  first : Nat
  len : Nat
  deriving DecidableEq, Repr

namespace Runs

/-- How many numbers there are in the runs. -/
def total (xs : List Run) : Nat := (xs.map Run.len).sum

/-- The number at a position of the sequence. -/
def addr : List Run → Nat → Option Nat
  | [], _ => none
  | x :: xs, i => if i < x.len then some (x.first + i) else addr xs (i - x.len)

/-- No run is empty, and none goes on where the one before it stops. -/
structure Canonical (xs : List Run) : Prop where
  pos : ∀ x ∈ xs, 0 < x.len
  broken : xs.IsChain fun a b => a.first + a.len ≠ b.first

/-- Put a run behind others; it lengthens the last one where it goes on. -/
def push (xs : List Run) (first len : Nat) : List Run :=
  match xs.getLast? with
  | some l =>
      if l.first + l.len = first then
        xs.dropLast ++ [{ l with len := l.len + len }]
      else
        xs ++ [⟨first, len⟩]
  | none => xs ++ [⟨first, len⟩]

/-- A position at which a sequence does not go on with the next number. -/
def Breaks (f : Nat → Option Nat) (i : Nat) : Prop := i = 0 ∨ f i ≠ (f (i - 1)).map (· + 1)

instance (f : Nat → Option Nat) : DecidablePred (Breaks f) :=
  fun _ => inferInstanceAs (Decidable (_ ∨ _))

/-- How many runs there are in the first numbers of a sequence. -/
def count (f : Nat → Option Nat) (n : Nat) : Nat := Nat.count (Breaks f) n

variable {xs ys : List Run} {f : Nat → Option Nat}

@[simp]
theorem total_nil :
  total [] = 0
  := rfl

@[simp]
theorem total_cons (x : Run) (xs : List Run) :
  total (x :: xs) = x.len + total xs
  := by
  simp [total]

@[simp]
theorem total_append (xs ys : List Run) :
  total (xs ++ ys) = total xs + total ys
  := by
  simp [total]

theorem addr_append (xs ys : List Run) (i : Nat) :
  addr (xs ++ ys) i = if i < total xs then addr xs i else addr ys (i - total xs)
  := by
  induction xs generalizing i with
  | nil => simp
  | cons x xs ih =>
      rw [List.cons_append, addr, addr, ih, total_cons]
      by_cases hx : i < x.len
      · rw [if_pos hx, if_pos (by omega), if_pos hx]
      · rw [if_neg hx, if_neg hx, Nat.sub_sub]
        by_cases hxs : i - x.len < total xs
        · rw [if_pos hxs, if_pos (by omega)]
        · rw [if_neg hxs, if_neg (by omega)]

/-- The sequence is as long as its runs together. -/
theorem isSome_addr (xs : List Run) {i : Nat} :
  (addr xs i).isSome ↔ i < total xs
  := by
  induction xs generalizing i with
  | nil => simp [addr]
  | cons x xs ih =>
      rw [addr, total_cons]
      split
      · simp
        omega
      · rw [ih]
        omega

theorem addr_eq_none {i : Nat} (h : total xs ≤ i) :
  addr xs i = none
  := by
  rw [← Option.not_isSome_iff_eq_none, isSome_addr]
  omega

/-! ### Canonical lists -/

theorem canonical_nil :
  Canonical []
  := ⟨by simp, List.IsChain.nil⟩

theorem Canonical.tail {x : Run} (h : Canonical (x :: xs)) :
  Canonical xs
  := ⟨fun y hy => h.pos y (List.mem_cons_of_mem x hy), h.broken.tail⟩

/-- Behind the first run of a canonical list the sequence breaks. -/
theorem Canonical.addr_len {x : Run} (h : Canonical (x :: xs)) :
  addr (x :: xs) x.len ≠ some (x.first + x.len)
  := by
  rw [addr, if_neg (Nat.lt_irrefl _), Nat.sub_self]
  cases xs with
  | nil => simp [addr]
  | cons y ys =>
      have hy := h.tail.pos y (by simp)
      have hbreak := h.broken
      rw [List.isChain_cons_cons] at hbreak
      rw [addr, if_pos hy]
      simp only [Nat.add_zero, ne_eq, Option.some.injEq]
      exact fun heq => hbreak.1 heq.symm

theorem addr_cons_of_lt {x : Run} {i : Nat} (h : i < x.len) :
  addr (x :: xs) i = some (x.first + i)
  := by
  rw [addr, if_pos h]

theorem addr_cons_add (x : Run) (i : Nat) :
  addr (x :: xs) (x.len + i) = addr xs i
  := by
  rw [addr, if_neg (by omega), Nat.add_sub_cancel_left]

/-- The first runs of two canonical lists of one sequence are equally long. -/
theorem Canonical.len_le {x y : Run} (hx : Canonical (x :: xs))
    (h : ∀ i, addr (x :: xs) i = addr (y :: ys) i) (hfirst : x.first = y.first) :
  y.len ≤ x.len
  := by
  by_contra hlt
  apply hx.addr_len
  rw [h, addr_cons_of_lt (by omega), hfirst]

/-- A canonical list is determined by its sequence. -/
theorem Canonical.unique (hx : Canonical xs) (hy : Canonical ys)
    (h : ∀ i, addr xs i = addr ys i) :
  xs = ys
  := by
  induction xs generalizing ys with
  | nil =>
      cases ys with
      | nil => rfl
      | cons y ys =>
          have h0 := h 0
          rw [addr_cons_of_lt (hy.pos y (by simp))] at h0
          cases h0
  | cons x xs ih =>
      cases ys with
      | nil =>
          have h0 := h 0
          rw [addr_cons_of_lt (hx.pos x (by simp))] at h0
          cases h0
      | cons y ys =>
          have hfirst : x.first = y.first := by
            have h0 := h 0
            rw [addr_cons_of_lt (hx.pos x (by simp)), addr_cons_of_lt (hy.pos y (by simp))] at h0
            simpa using h0
          have hlen : x.len = y.len :=
            Nat.le_antisymm (hy.len_le (fun i => (h i).symm) hfirst.symm) (hx.len_le h hfirst)
          have htail : xs = ys := by
            apply ih hx.tail hy.tail
            intro i
            have hi := h (x.len + i)
            rwa [addr_cons_add, hlen, addr_cons_add] at hi
          rw [htail, Run.ext hfirst hlen]

/-! ### Putting a run behind others -/

theorem push_concat (ys : List Run) (l : Run) (first len : Nat) :
  push (ys ++ [l]) first len
    = if l.first + l.len = first then ys ++ [{ l with len := l.len + len }]
      else ys ++ [l] ++ [⟨first, len⟩]
  := by
  rw [push, List.getLast?_concat, List.dropLast_concat]

theorem total_push (xs : List Run) (first len : Nat) :
  total (push xs first len) = total xs + len
  := by
  rcases List.eq_nil_or_concat' xs with rfl | ⟨ys, l, rfl⟩
  · simp [push]
  · rw [push_concat]
    split <;> simp <;> omega

/-- The numbers of the new run stand behind the others. -/
theorem addr_push (xs : List Run) (first len i : Nat) :
  addr (push xs first len) i
    = if i < total xs then addr xs i
      else if i < total xs + len then some (first + (i - total xs)) else none
  := by
  rcases List.eq_nil_or_concat' xs with rfl | ⟨ys, l, rfl⟩
  · simp [push, addr]
  rw [push_concat]
  split
  · next hgo =>
    simp only [addr_append, addr, total_append, total_cons, total_nil, Nat.add_zero]
    split_ifs <;> first | rfl | (simp; omega) | omega
  · simp only [addr_append, addr, total_append, total_cons, total_nil, Nat.add_zero]
    split_ifs <;> first | rfl | omega

theorem Canonical.push (h : Canonical xs) (first : Nat) {len : Nat} (hlen : 0 < len) :
  Canonical (push xs first len)
  := by
  rcases List.eq_nil_or_concat' xs with rfl | ⟨ys, l, rfl⟩
  · exact ⟨by simpa [Runs.push] using hlen, by simp [Runs.push]⟩
  have hbroken := h.broken
  rw [push_concat]
  split
  · constructor
    · intro x hx
      rcases List.mem_append.mp hx with hx | hx
      · exact h.pos x (by simp [hx])
      · rw [List.mem_singleton] at hx
        subst hx
        exact Nat.add_pos_right _ hlen
    · rw [List.isChain_append] at hbroken ⊢
      refine ⟨hbroken.1, by simp, ?_⟩
      intro x hx y hy
      have hl := hbroken.2.2 x hx l (by simp)
      simp only [List.head?_cons, Option.mem_def, Option.some.injEq] at hy
      subst hy
      exact hl
  · next hstop =>
    constructor
    · intro x hx
      rcases List.mem_append.mp hx with hx | hx
      · exact h.pos x hx
      · rw [List.mem_singleton] at hx
        subst hx
        exact hlen
    · rw [List.isChain_append]
      refine ⟨hbroken, by simp, ?_⟩
      intro x hx y hy
      simp only [List.getLast?_concat, List.head?_cons, Option.mem_def, Option.some.injEq] at hx hy
      subst hx hy
      exact hstop

/-! ### Counting runs -/

/-- A piece of consecutive numbers breaks at most where it starts. -/
theorem count_piece {n first len : Nat} (hlen : 0 < len)
    (h : ∀ j < len, f (n + j) = some (first + j)) :
  count f (n + len) = count f n + if Breaks f n then 1 else 0
  := by
  obtain ⟨m, rfl⟩ := Nat.exists_eq_succ_of_ne_zero (Nat.ne_of_gt hlen)
  have hgo : ∀ j < m, ¬ Breaks f (n + (j + 1)) := by
    intro j hj hbreak
    rcases hbreak with h0 | hne
    · omega
    · apply hne
      have hprev : n + (j + 1) - 1 = n + j := by omega
      rw [h (j + 1) (by omega), hprev, h j (by omega)]
      rfl
  have hzero : Nat.count (fun k => Breaks f (n + (k + 1))) m = 0 :=
    Nat.count_of_forall_not hgo
  rw [count, count, Nat.succ_eq_add_one, Nat.count_add, Nat.count_succ', hzero, Nat.zero_add]
  rfl

/-- A list of runs grows by a run exactly where its sequence breaks. -/
theorem length_push {first len : Nat} (hcanon : Canonical xs) (hlen : 0 < len)
    (h : ∀ i < total xs + len, f i = addr (push xs first len) i) :
  (push xs first len).length = xs.length + if Breaks f (total xs) then 1 else 0
  := by
  have hfirst : f (total xs) = some first := by
    rw [h _ (by omega), addr_push, if_neg (by omega), if_pos (by omega), Nat.sub_self, Nat.add_zero]
  rcases List.eq_nil_or_concat' xs with rfl | ⟨ys, l, rfl⟩
  · simp [push, Breaks]
  have hl := hcanon.pos l (by simp)
  have htotal : total (ys ++ [l]) = total ys + l.len := by simp
  have hlast : f (total (ys ++ [l]) - 1) = some (l.first + (l.len - 1)) := by
    rw [h _ (by omega), addr_push, if_pos (by omega), addr_append, if_neg (by omega),
      addr_cons_of_lt (by omega)]
    congr 2
    omega
  have hbreaks : Breaks f (total (ys ++ [l])) ↔ l.first + l.len ≠ first := by
    rw [Breaks, hfirst, hlast]
    simp only [Option.map_some, ne_eq, Option.some.injEq]
    omega
  rw [push_concat]
  by_cases hgo : l.first + l.len = first
  · rw [if_pos hgo, if_neg (by rw [hbreaks]; exact fun hne => hne hgo)]
    simp
  · rw [if_neg hgo, if_pos (hbreaks.mpr hgo)]
    simp

/-! ### A part of a sequence -/

/-- The runs of the numbers at `want` positions from `skip` on. -/
def slice : List Run → Nat → Nat → List Run
  | [], _, _ => []
  | x :: xs, skip, want =>
      if want = 0 then
        []
      else if x.len ≤ skip then
        slice xs (skip - x.len) want
      else
        ⟨x.first + skip, min (x.len - skip) want⟩ :: slice xs 0 (want - min (x.len - skip) want)

@[simp]
theorem slice_zero (xs : List Run) (skip : Nat) :
  slice xs skip 0 = []
  := by
  cases xs with
  | nil => rfl
  | cons x xs => rw [slice, if_pos rfl]

/-- The part has the numbers of the sequence. -/
theorem addr_slice (xs : List Run) (skip want i : Nat) :
  addr (slice xs skip want) i = if i < want then addr xs (skip + i) else none
  := by
  induction xs generalizing skip want i with
  | nil => simp [slice, addr]
  | cons x xs ih =>
      rw [slice]
      by_cases hwant : want = 0
      · simp [hwant, addr]
      rw [if_neg hwant]
      by_cases hskip : x.len ≤ skip
      · rw [if_pos hskip, ih, addr, if_neg (show ¬ skip + i < x.len by omega)]
        congr 2
        omega
      · rw [if_neg hskip, addr, addr, ih]
        dsimp only
        split_ifs <;> first | omega | (simp; omega) | (congr 1; omega) | rfl

/-- The part is as long as it was asked for, where the sequence is. -/
theorem total_slice {xs : List Run} {skip want : Nat} (h : skip + want ≤ total xs) :
  total (slice xs skip want) = want
  := by
  apply Nat.le_antisymm
  · by_contra hlt
    have hsome := isSome_addr (slice xs skip want) (i := want)
    rw [addr_slice, if_neg (Nat.lt_irrefl _)] at hsome
    simp only [Option.isSome_none, Bool.false_eq_true, false_iff] at hsome
    omega
  · by_contra hlt
    have hsome := isSome_addr (slice xs skip want) (i := total (slice xs skip want))
    rw [addr_slice, if_pos (by omega), isSome_addr] at hsome
    omega

/-- The numbers of a run stand one behind the other in the sequence. -/
theorem exists_addr_of_mem {p : Run} (h : p ∈ xs) :
  ∃ k, ∀ j < p.len, addr xs (k + j) = some (p.first + j)
  := by
  induction xs with
  | nil => cases h
  | cons x xs ih =>
      rcases List.mem_cons.mp h with rfl | hrest
      · use 0
        intro j hj
        rw [Nat.zero_add, addr_cons_of_lt hj]
      · obtain ⟨k, hk⟩ := ih hrest
        use x.len + k
        intro j hj
        rw [Nat.add_assoc, addr_cons_add, hk j hj]

/-- The runs of a part are not empty. -/
theorem pos_of_mem_slice {p : Run} {skip want : Nat} (h : p ∈ slice xs skip want) :
  0 < p.len
  := by
  induction xs generalizing skip want with
  | nil => cases h
  | cons x xs ih =>
      rw [slice] at h
      by_cases hwant : want = 0
      · rw [if_pos hwant] at h
        cases h
      rw [if_neg hwant] at h
      by_cases hskip : x.len ≤ skip
      · rw [if_pos hskip] at h
        apply ih h
      · rw [if_neg hskip] at h
        rcases List.mem_cons.mp h with rfl | hrest
        · dsimp only
          omega
        · apply ih hrest

/-- The numbers of a run of a part are those of the sequence. -/
theorem addr_of_mem_slice {p : Run} {skip want j : Nat} (h : p ∈ slice xs skip want)
    (hj : j < p.len) :
  ∃ i < want, addr xs (skip + i) = some (p.first + j)
  := by
  obtain ⟨k, hk⟩ := exists_addr_of_mem h
  have hnumber := hk j hj
  rw [addr_slice] at hnumber
  by_cases hlt : k + j < want
  · rw [if_pos hlt] at hnumber
    exact ⟨k + j, hlt, hnumber⟩
  · rw [if_neg hlt] at hnumber
    cases hnumber

end Runs
