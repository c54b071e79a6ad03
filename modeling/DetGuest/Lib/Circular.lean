import DetGuest.Lib.Bytes

/-!
# Records in a circular memory

A circular memory of `size` bytes at address `data` holds the byte of position `i` at
address `data + i % size`.  Records lie in it one behind the other, and none of them
crosses the end of the memory.  Positions run on without bound; only their residues
modulo `size` matter.
-/

namespace Circular

/-- The number of bytes a list of records takes. -/
def span (recs : List Bytes) : Nat := (recs.map List.length).sum

@[simp]
theorem span_nil :
  span [] = 0
  := rfl

@[simp]
theorem span_cons (r : Bytes) (rs : List Bytes) :
  span (r :: rs) = r.length + span rs
  := by
  simp [span]

@[simp]
theorem span_append (xs ys : List Bytes) :
  span (xs ++ ys) = span xs + span ys
  := by
  simp [span]

/-- `Laid m data size pos recs`: from position `pos` on, the circular memory holds the
records `recs` one behind the other, each of them in one piece. -/
def Laid (m : ByteMem) (data size : Nat) : Nat → List Bytes → Prop
  | _, [] => True
  | pos, r :: rs =>
      pos % size + r.length ≤ size ∧ m.read (data + pos % size) r.length = r ∧
        Laid m data size (pos + r.length) rs

variable {m m' : ByteMem} {data size : Nat}

/-- Only the residue of the position matters. -/
theorem laid_mod_congr {pos pos' : Nat} {recs : List Bytes} (h : pos % size = pos' % size) :
  Laid m data size pos recs ↔ Laid m data size pos' recs
  := by
  induction recs generalizing pos pos' with
  | nil => simp [Laid]
  | cons r rs ih =>
      have hr : (pos + r.length) % size = (pos' + r.length) % size := by
        rw [Nat.add_mod, h, ← Nat.add_mod]
      rw [Laid, Laid, h, ih hr]

theorem laid_append {pos : Nat} {xs ys : List Bytes} :
  Laid m data size pos (xs ++ ys)
    ↔ Laid m data size pos xs ∧ Laid m data size (pos + span xs) ys
  := by
  induction xs generalizing pos with
  | nil => simp [Laid]
  | cons x xs ih =>
      rw [List.cons_append, Laid, Laid, ih, span_cons, Nat.add_assoc]
      tauto

/-- In front of the end of the memory positions and offsets advance together. -/
theorem add_mod_of_lt {pos i : Nat} (h : pos % size + i < size) :
  (pos + i) % size = pos % size + i
  := by
  rw [Nat.add_mod, Nat.mod_eq_of_lt (show i < size by omega), Nat.mod_eq_of_lt h]

/-- Records stay in place when the bytes they take keep their values. -/
theorem laid_frame {pos : Nat} {recs : List Bytes}
    (h : ∀ i, pos ≤ i → i < pos + span recs → m' (data + i % size) = m (data + i % size))
    (hl : Laid m data size pos recs) :
  Laid m' data size pos recs
  := by
  induction recs generalizing pos with
  | nil => trivial
  | cons r rs ih =>
      obtain ⟨hend, hread, hrest⟩ := hl
      rw [span_cons] at h
      refine ⟨hend, ?_, ?_⟩
      · apply Eq.trans _ hread
        apply ByteMem.read_congr
        intro i hi
        have hbyte := h (pos + i) (by omega) (by omega)
        rw [add_mod_of_lt (by omega), ← Nat.add_assoc] at hbyte
        apply hbyte
      · apply ih
        · intro i hi₁ hi₂
          apply h
          · omega
          · omega
        · apply hrest

/-- The offset of a position in front of `q` lies beside the range of a write at `q`
that reaches at most once around the memory. -/
theorem mod_outside {q n i : Nat} (hend : q % size + n ≤ size) (hlt : i < q)
    (hfree : q + n ≤ i + size) :
  i % size < q % size ∨ q % size + n ≤ i % size
  := by
  by_contra hin
  obtain ⟨j, hj⟩ : ∃ j, i % size = q % size + j := ⟨i % size - q % size, by omega⟩
  have hsize : 0 < size := by
    by_contra h0
    have : n = 0 := by omega
    omega
  have hij : i % size < size := Nat.mod_lt i hsize
  have hq : (q + j) % size = i % size := by
    rw [add_mod_of_lt (by omega), hj]
  have hz := Nat.sub_mod_eq_zero_of_mod_eq hq
  rw [Nat.mod_eq_of_lt (by omega)] at hz
  omega

/-- A write at position `q`, in one piece and not further than once around the memory
from `pos`, leaves the records between `pos` and `q` in place. -/
theorem laid_write {pos q : Nat} {recs : List Bytes} {bs : Bytes}
    (hend : q % size + bs.length ≤ size) (hpos : pos + span recs ≤ q)
    (hfree : q + bs.length ≤ pos + size) (hl : Laid m data size pos recs) :
  Laid (m.write (data + q % size) bs) data size pos recs
  := by
  apply laid_frame _ hl
  intro i hi₁ hi₂
  rcases mod_outside hend (show i < q by omega) (by omega) with h | h
  · apply ByteMem.write_apply_of_lt
    omega
  · apply ByteMem.write_apply_of_le
    omega

/-- A write beside the circular memory leaves its records in place. -/
theorem laid_write_outside {pos a : Nat} {recs : List Bytes} {bs : Bytes} (hsize : 0 < size)
    (h : a + bs.length ≤ data ∨ data + size ≤ a) (hl : Laid m data size pos recs) :
  Laid (m.write a bs) data size pos recs
  := by
  apply laid_frame _ hl
  intro i _ _
  have hi := Nat.mod_lt i hsize
  rcases h with h | h
  · apply ByteMem.write_apply_of_le
    omega
  · apply ByteMem.write_apply_of_lt
    omega

/-- What was just written at `q`, in one piece, is a record there. -/
theorem laid_write_self {q : Nat} {bs : Bytes} (hend : q % size + bs.length ≤ size) :
  Laid (m.write (data + q % size) bs) data size q [bs]
  := by
  refine ⟨hend, ?_, trivial⟩
  apply ByteMem.read_write_self

/-- The memory with records written from position `pos` on. -/
def lay (m : ByteMem) (data size : Nat) : Nat → List Bytes → ByteMem
  | _, [] => m
  | pos, r :: rs => lay (m.write (data + pos % size) r) data size (pos + r.length) rs

/-- None of the records crosses the end of the memory. -/
def Whole (size : Nat) : Nat → List Bytes → Prop
  | _, [] => True
  | pos, r :: rs => pos % size + r.length ≤ size ∧ Whole size (pos + r.length) rs

/-- Only the residue of the position matters. -/
theorem lay_mod_congr {pos pos' : Nat} {new : List Bytes} (h : pos % size = pos' % size) :
  lay m data size pos new = lay m data size pos' new
  := by
  induction new generalizing m pos pos' with
  | nil => rfl
  | cons r rs ih =>
      have hr : (pos + r.length) % size = (pos' + r.length) % size := by
        rw [Nat.add_mod, h, ← Nat.add_mod]
      rw [lay, lay, h, ih hr]

theorem whole_mod_congr {pos pos' : Nat} {new : List Bytes} (h : pos % size = pos' % size) :
  Whole size pos new ↔ Whole size pos' new
  := by
  induction new generalizing pos pos' with
  | nil => simp [Whole]
  | cons r rs ih =>
      have hr : (pos + r.length) % size = (pos' + r.length) % size := by
        rw [Nat.add_mod, h, ← Nat.add_mod]
      rw [Whole, Whole, h, ih hr]

/-- Records written behind others, at most once around the memory, lie there and leave
the others in place. -/
theorem laid_lay {pos : Nat} {recs new : List Bytes}
    (hwhole : Whole size (pos + span recs) new) (hfree : span recs + span new ≤ size)
    (hl : Laid m data size pos recs) :
  Laid (lay m data size (pos + span recs) new) data size pos (recs ++ new)
  := by
  induction new generalizing m recs with
  | nil => simpa [lay] using hl
  | cons r rs ih =>
      obtain ⟨hend, hrest⟩ := hwhole
      rw [span_cons] at hfree
      have hl' : Laid (m.write (data + (pos + span recs) % size) r) data size pos
          (recs ++ [r]) := by
        rw [laid_append]
        refine ⟨laid_write hend (Nat.le_refl _) (by omega) hl, laid_write_self hend⟩
      have hspan : pos + span (recs ++ [r]) = pos + span recs + r.length := by
        rw [span_append, span_cons, span_nil]
        omega
      have h : Laid (lay (m.write (data + (pos + span recs) % size) r) data size
          (pos + span (recs ++ [r])) rs) data size pos ((recs ++ [r]) ++ rs) := by
        apply ih _ _ hl'
        · rwa [hspan]
        · rw [span_append, span_cons, span_nil]
          omega
      rw [hspan, List.append_assoc] at h
      apply h

/-- Writing records changes nothing outside the circular memory. -/
theorem lay_outside {pos : Nat} {new : List Bytes} (hwhole : Whole size pos new) {i : Nat}
    (hi : i < data ∨ data + size ≤ i) :
  lay m data size pos new i = m i
  := by
  induction new generalizing m pos with
  | nil => rfl
  | cons r rs ih =>
      obtain ⟨hend, hrest⟩ := hwhole
      rw [lay, ih hrest]
      rcases hi with hi | hi
      · apply ByteMem.write_apply_of_lt
        omega
      · apply ByteMem.write_apply_of_le
        omega

/-- The first bytes of a record lie where the record does. -/
theorem Laid.read_take {pos n : Nat} {r : Bytes} {rs : List Bytes}
    (hl : Laid m data size pos (r :: rs)) (hn : n ≤ r.length) :
  m.read (data + pos % size) n = r.take n
  := by
  rw [← ByteMem.take_read hn, hl.2.1]

end Circular
