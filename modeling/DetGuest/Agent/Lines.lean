import Mathlib.Data.List.Induction
import DetGuest.Agent.Supervise
import DetGuest.Wire.Codec

/-!
# The lines of a pipe

What a line buffer emits for a stream of bytes, however the stream is cut into reads.  A round
of its loop takes a line at a newline if there is one, else a full line, and else it stops.
-/

namespace Agent

open Wire

namespace LineBuf

/-- The byte of a newline. -/
abbrev newline : UInt8 := 10

/-- The complete lines of a buffer, and the rest of it. -/
def split (buf : Bytes) : List Bytes × Bytes :=
  lines buf.length buf

theorem push_eq (buf bytes : Bytes) :
  push buf bytes = split (buf ++ bytes)
  := rfl

/-! ### The rounds of the loop -/

theorem idxOf?_newline {l : Bytes} (h : newline ∉ l) (r : Bytes) :
  (l ++ newline :: r).idxOf? newline = some l.length
  := by
  induction l with
  | nil => rfl
  | cons b l ih =>
      have hb : b ≠ newline := fun hb => h (hb ▸ List.mem_cons_self)
      have hl : newline ∉ l := fun hl => h (List.mem_cons_of_mem b hl)
      rw [List.cons_append, List.idxOf?_cons, if_neg (by simpa using hb), ih hl]
      rfl

theorem idxOf?_none {l : Bytes} (h : newline ∉ l) :
  l.idxOf? newline = none
  := List.idxOf?_eq_none_iff.mpr h

/-- A round takes the bytes in front of a newline. -/
theorem lines_newline {l r : Bytes} (h : newline ∉ l) (fuel : Nat) :
  lines (fuel + 1) (l ++ newline :: r) = (l :: (lines fuel r).1, (lines fuel r).2)
  := by
  have hdrop : (l ++ newline :: r).drop (l.length + 1) = r := by
    rw [List.drop_append, List.drop_eq_nil_of_le (Nat.le_succ _), List.nil_append,
      Nat.add_sub_cancel_left]
    rfl
  rw [lines, idxOf?_newline h]
  dsimp only
  rw [hdrop, List.take_left]

/-- A round without a newline takes a full line. -/
theorem lines_full {buf : Bytes} (h : newline ∉ buf) (hlen : maxLine ≤ buf.length) (fuel : Nat) :
  lines (fuel + 1) buf
    = (buf.take maxLine :: (lines fuel (buf.drop maxLine)).1, (lines fuel (buf.drop maxLine)).2)
  := by
  rw [lines, idxOf?_none h]
  dsimp only
  rw [if_pos hlen]

theorem lines_short {buf : Bytes} (h : newline ∉ buf) (hlen : buf.length < maxLine) (fuel : Nat) :
  lines fuel buf = ([], buf)
  := by
  cases fuel with
  | zero => rfl
  | succ fuel =>
      rw [lines, idxOf?_none h]
      dsimp only
      rw [if_neg (Nat.not_le_of_lt hlen)]

/-- The rounds of the loop, as an induction on the buffer. -/
theorem rounds {P : Bytes → Prop}
    (line : ∀ l r, newline ∉ l → P r → P (l ++ newline :: r))
    (full : ∀ buf, newline ∉ buf → maxLine ≤ buf.length → P (buf.drop maxLine) → P buf)
    (short : ∀ buf, newline ∉ buf → buf.length < maxLine → P buf) (buf : Bytes) :
  P buf
  := by
  induction hn : buf.length using Nat.strong_induction_on generalizing buf with
  | _ n ih =>
  subst hn
  by_cases hmem : newline ∈ buf
  · obtain ⟨l, r, rfl, hl⟩ := List.eq_append_cons_of_mem hmem
    apply line l r hl
    apply ih r.length _ r rfl
    rw [List.length_append, List.length_cons]
    omega
  · by_cases hlen : maxLine ≤ buf.length
    · apply full buf hmem hlen
      apply ih (buf.drop maxLine).length _ _ rfl
      rw [List.length_drop]
      have hpos : 0 < maxLine := by decide
      omega
    · apply short buf hmem (Nat.lt_of_not_le hlen)

/-- A round for each byte is enough. -/
theorem lines_congr {buf : Bytes} {m n : Nat} (hm : buf.length ≤ m) (hn : buf.length ≤ n) :
  lines m buf = lines n buf
  := by
  induction buf using rounds generalizing m n with
  | line l r hl ih =>
      rw [List.length_append, List.length_cons] at hm hn
      obtain ⟨m, rfl⟩ : ∃ k, m = k + 1 := Nat.exists_eq_succ_of_ne_zero (by omega)
      obtain ⟨n, rfl⟩ : ∃ k, n = k + 1 := Nat.exists_eq_succ_of_ne_zero (by omega)
      have hnext : lines m r = lines n r := by
        apply ih
        · omega
        · omega
      rw [lines_newline hl, lines_newline hl, hnext]
  | full buf hbuf hlen ih =>
      have hpos : 0 < maxLine := by decide
      obtain ⟨m, rfl⟩ : ∃ k, m = k + 1 := Nat.exists_eq_succ_of_ne_zero (by omega)
      obtain ⟨n, rfl⟩ : ∃ k, n = k + 1 := Nat.exists_eq_succ_of_ne_zero (by omega)
      have hdrop := List.length_drop (l := buf) (i := maxLine)
      have hnext : lines m (buf.drop maxLine) = lines n (buf.drop maxLine) := by
        apply ih
        · omega
        · omega
      rw [lines_full hbuf hlen, lines_full hbuf hlen, hnext]
  | short buf hbuf hlen => rw [lines_short hbuf hlen, lines_short hbuf hlen]

theorem split_newline {l r : Bytes} (h : newline ∉ l) :
  split (l ++ newline :: r) = (l :: (split r).1, (split r).2)
  := by
  have hlen : (l ++ newline :: r).length = (l.length + r.length) + 1 := by
    rw [List.length_append, List.length_cons]
    rfl
  rw [split, hlen, lines_newline h, lines_congr (Nat.le_add_left _ _) (Nat.le_refl _)]
  rfl

theorem split_full {buf : Bytes} (h : newline ∉ buf) (hlen : maxLine ≤ buf.length) :
  split buf = (buf.take maxLine :: (split (buf.drop maxLine)).1, (split (buf.drop maxLine)).2)
  := by
  rw [split, lines_congr (Nat.le_refl _) (Nat.le_succ _), lines_full h hlen,
    lines_congr (by rw [List.length_drop]; apply Nat.sub_le) (Nat.le_refl _)]
  rfl

theorem split_short {buf : Bytes} (h : newline ∉ buf) (hlen : buf.length < maxLine) :
  split buf = ([], buf)
  := lines_short h hlen _

/-! ### Cuttings of a stream -/

/-- What a buffer emits for the reads of a stream, up to its end. -/
def feed (buf : Bytes) : List Bytes → List Bytes
  | [] => (finish buf).1
  | bytes :: reads => (push buf bytes).1 ++ feed (push buf bytes).2 reads

/-- What a fresh buffer emits for the reads of a stream. -/
def emitted (reads : List Bytes) : List Bytes :=
  feed [] reads

/-- What is emitted for the bytes in the buffer when nothing follows. -/
def whole (buf : Bytes) : List Bytes :=
  (split buf).1 ++ (finish (split buf).2).1

theorem emitted_singleton (s : Bytes) :
  emitted [s] = whole s
  := rfl

/-- Every run of bytes in front of a newline is shorter than a full line. -/
def NewlinesInTime (s : Bytes) : Prop :=
  ∀ a l b, s = a ++ l ++ newline :: b → newline ∉ l → l.length < maxLine

theorem NewlinesInTime.suffix {a s : Bytes} (h : NewlinesInTime (a ++ s)) :
  NewlinesInTime s
  := by
  intro a' l b hs hl
  apply h (a ++ a') l b _ hl
  rw [hs]
  simp only [List.append_assoc]

/-- A full line without a newline is not followed by a newline. -/
theorem NewlinesInTime.not_mem {buf r : Bytes} (h : NewlinesInTime (buf ++ r))
    (hbuf : newline ∉ buf) (hlen : maxLine ≤ buf.length) :
  newline ∉ r
  := by
  intro hmem
  obtain ⟨l, b, rfl, hl⟩ := List.eq_append_cons_of_mem hmem
  have hshort : (buf ++ l).length < maxLine := by
    apply h [] (buf ++ l) b
    · simp only [List.nil_append, List.append_assoc]
    · rw [List.mem_append]
      rintro (hin | hin)
      · exact hbuf hin
      · exact hl hin
  rw [List.length_append] at hshort
  omega

/-- The rounds over the bytes read so far are the first rounds over the whole stream. -/
theorem whole_append {buf r : Bytes} (h : NewlinesInTime (buf ++ r)) :
  whole (buf ++ r) = (split buf).1 ++ whole ((split buf).2 ++ r)
  := by
  induction buf using rounds with
  | line l buf hl ih =>
      have hrest : NewlinesInTime (buf ++ r) := by
        apply NewlinesInTime.suffix (a := l ++ [newline])
        simpa using h
      have happ : l ++ newline :: buf ++ r = l ++ newline :: (buf ++ r) := by
        simp
      rw [happ, whole, split_newline hl, split_newline hl, List.cons_append, List.cons_append,
        ← ih hrest]
      rfl
  | full buf hbuf hlen ih =>
      have hr := h.not_mem hbuf hlen
      have hmem : newline ∉ buf ++ r := by
        rw [List.mem_append]
        rintro (hin | hin)
        · exact hbuf hin
        · exact hr hin
      have hrest : NewlinesInTime (buf.drop maxLine ++ r) := by
        apply NewlinesInTime.suffix (a := buf.take maxLine)
        rw [← List.append_assoc, List.take_append_drop]
        exact h
      have hall : maxLine ≤ (buf ++ r).length := by
        rw [List.length_append]
        omega
      rw [whole, split_full hmem hall, split_full hbuf hlen, List.take_append_of_le_length hlen,
        List.drop_append_of_le_length hlen, List.cons_append, List.cons_append, ← ih hrest]
      rfl
  | short buf hbuf hlen =>
      rw [split_short hbuf hlen]
      rfl

/-- The rest of a buffer is its end, short and without a newline. -/
theorem split_rest (buf : Bytes) :
  (∃ a, buf = a ++ (split buf).2) ∧ newline ∉ (split buf).2 ∧ (split buf).2.length < maxLine
  := by
  induction buf using rounds with
  | line l r hl ih =>
      obtain ⟨⟨a, ha⟩, hmem, hlen⟩ := ih
      rw [split_newline hl]
      refine ⟨⟨l ++ newline :: a, ?_⟩, hmem, hlen⟩
      rw [List.append_assoc, List.cons_append, ← ha]
  | full buf hbuf hlen ih =>
      obtain ⟨⟨a, ha⟩, hmem, hshort⟩ := ih
      rw [split_full hbuf hlen]
      refine ⟨⟨buf.take maxLine ++ a, ?_⟩, hmem, hshort⟩
      rw [List.append_assoc, ← ha, List.take_append_drop]
  | short buf hbuf hlen =>
      rw [split_short hbuf hlen]
      exact ⟨⟨[], rfl⟩, hbuf, hlen⟩

/-- However a stream is cut, its lines are those of the whole stream. -/
theorem feed_eq_whole {buf : Bytes} {reads : List Bytes}
    (h : NewlinesInTime (buf ++ reads.flatten)) (hbuf : newline ∉ buf)
    (hlen : buf.length < maxLine) :
  feed buf reads = whole (buf ++ reads.flatten)
  := by
  induction reads generalizing buf with
  | nil =>
      rw [List.flatten_nil, List.append_nil, whole, split_short hbuf hlen]
      rfl
  | cons bytes reads ih =>
      obtain ⟨⟨a, ha⟩, hmem, hshort⟩ := split_rest (buf ++ bytes)
      rw [List.flatten_cons, ← List.append_assoc] at h ⊢
      have hrest : NewlinesInTime ((split (buf ++ bytes)).2 ++ reads.flatten) := by
        apply NewlinesInTime.suffix (a := a)
        rw [← List.append_assoc, ← ha]
        exact h
      rw [whole_append h, ← ih hrest hmem hshort]
      rfl

/-- The lines of a stream whose newlines come in time are no longer than a full line. -/
theorem length_le_of_mem_whole {s line : Bytes} (h : NewlinesInTime s) (hline : line ∈ whole s) :
  line.length ≤ maxLine
  := by
  induction s using rounds with
  | line l r hl ih =>
      rw [whole, split_newline hl, List.cons_append, List.mem_cons] at hline
      rcases hline with rfl | hrest
      · have hshort : line.length < maxLine := h [] line r rfl hl
        apply Nat.le_of_lt hshort
      · apply ih _ hrest
        apply NewlinesInTime.suffix (a := l ++ [newline])
        simpa using h
  | full buf hbuf hlen ih =>
      rw [whole, split_full hbuf hlen, List.cons_append, List.mem_cons] at hline
      rcases hline with rfl | hrest
      · apply List.length_take_le
      · apply ih _ hrest
        apply NewlinesInTime.suffix (a := buf.take maxLine)
        rw [List.take_append_drop]
        exact h
  | short buf hbuf hlen =>
      rw [whole, split_short hbuf hlen, List.nil_append, finish] at hline
      split at hline
      · simp at hline
      · rw [List.mem_singleton] at hline
        rw [hline]
        apply Nat.le_of_lt hlen

/-! ### Conservation -/

/-- A round of the loop: the line that it emits and the buffer behind it, unless it breaks. -/
def round (buf : Bytes) : Option (Bytes × Bytes) :=
  match buf.idxOf? newline with
  | some nl => some (buf.take nl, buf.drop (nl + 1))
  | none => if maxLine ≤ buf.length then some (buf.take maxLine, buf.drop maxLine) else none

/-- The loop breaks after some rounds, in which it has emitted the lines, and keeps the rest. -/
inductive Ends : Bytes → List Bytes → Bytes → Prop where
  | stop {buf : Bytes} : round buf = none → Ends buf [] buf
  | next {buf line rest kept : Bytes} {lines : List Bytes} : round buf = some (line, rest) →
      Ends rest lines kept → Ends buf (line :: lines) kept

/-- The loop breaks on every buffer, with the lines and the rest that come out of it. -/
theorem ends_split (buf : Bytes) :
  Ends buf (split buf).1 (split buf).2
  := by
  induction buf using rounds with
  | line l r hl ih =>
      rw [split_newline hl]
      apply Ends.next _ ih
      rw [round, idxOf?_newline hl]
      dsimp only
      rw [List.take_left, List.drop_append, List.drop_eq_nil_of_le (Nat.le_succ _),
        Nat.add_sub_cancel_left]
      rfl
  | full buf hbuf hlen ih =>
      rw [split_full hbuf hlen]
      apply Ends.next _ ih
      rw [round, idxOf?_none hbuf]
      dsimp only
      rw [if_pos hlen]
  | short buf hbuf hlen =>
      rw [split_short hbuf hlen]
      apply Ends.stop
      rw [round, idxOf?_none hbuf]
      dsimp only
      rw [if_neg (Nat.not_le_of_lt hlen)]

/-- The bytes of a stream that are not newlines. -/
def unbroken (s : Bytes) : Bytes := s.filter (· ≠ newline)

theorem unbroken_append (a b : Bytes) :
  unbroken (a ++ b) = unbroken a ++ unbroken b
  := List.filter_append ..

theorem unbroken_of_not_mem {s : Bytes} (h : newline ∉ s) :
  unbroken s = s
  := by
  rw [unbroken, List.filter_eq_self]
  intro b hb
  rw [decide_eq_true_eq]
  rintro rfl
  exact h hb

/-- A buffer's lines and its rest are its bytes, without the newlines. -/
theorem flatten_split (buf : Bytes) :
  (split buf).1.flatten ++ (split buf).2 = unbroken buf
  := by
  induction buf using rounds with
  | line l r hl ih =>
      have hnewline : unbroken [newline] = [] := rfl
      have hcons : l ++ newline :: r = l ++ ([newline] ++ r) := rfl
      rw [split_newline hl, List.flatten_cons, List.append_assoc, ih, hcons, unbroken_append,
        unbroken_append, unbroken_of_not_mem hl, hnewline, List.nil_append]
  | full buf hbuf hlen ih =>
      rw [split_full hbuf hlen, List.flatten_cons, List.append_assoc, ih, unbroken_of_not_mem hbuf,
        unbroken_of_not_mem fun h => hbuf (List.mem_of_mem_drop h), List.take_append_drop]
  | short buf hbuf hlen =>
      rw [split_short hbuf hlen, unbroken_of_not_mem hbuf]
      rfl

theorem not_mem_of_mem_split {buf line : Bytes} (hline : line ∈ (split buf).1) :
  newline ∉ line
  := by
  induction buf using rounds with
  | line l r hl ih =>
      rw [split_newline hl] at hline
      obtain rfl | hrest := List.mem_cons.mp hline
      · exact hl
      · exact ih hrest
  | full buf hbuf hlen ih =>
      rw [split_full hbuf hlen] at hline
      obtain rfl | hrest := List.mem_cons.mp hline
      · intro h
        exact hbuf (List.mem_of_mem_take h)
      · exact ih hrest
  | short buf hbuf hlen =>
      rw [split_short hbuf hlen] at hline
      cases hline

/-- The buffer behind the reads so far. -/
def retained (buf : Bytes) : List Bytes → Bytes
  | [] => buf
  | bytes :: reads => retained (push buf bytes).2 reads

/-- What stays in the buffer is shorter than a full line and has no newline. -/
theorem retained_kept {buf : Bytes} (reads : List Bytes) (hbuf : newline ∉ buf)
    (hlen : buf.length < maxLine) :
  newline ∉ retained buf reads ∧ (retained buf reads).length < maxLine
  := by
  induction reads generalizing buf with
  | nil => exact ⟨hbuf, hlen⟩
  | cons bytes reads ih =>
      obtain ⟨_, hmem, hshort⟩ := split_rest (buf ++ bytes)
      exact ih hmem hshort

theorem finish_eq (buf : Bytes) :
  (finish buf).1.flatten = buf ∧ (finish buf).2 = [] ∧ ∀ line ∈ (finish buf).1, line = buf
  := by
  rw [finish]
  by_cases hnil : buf = []
  · rw [if_pos hnil]
    exact ⟨hnil.symm, hnil, fun _ h => absurd h List.not_mem_nil⟩
  · rw [if_neg hnil]
    exact ⟨List.append_nil buf, rfl, fun _ h => List.mem_singleton.mp h⟩

/-- What is emitted for the bytes in the buffer and those that follow is these bytes, without
the newlines. -/
theorem flatten_feed {buf : Bytes} (reads : List Bytes) (hbuf : newline ∉ buf) :
  (feed buf reads).flatten = unbroken (buf ++ reads.flatten)
  := by
  induction reads generalizing buf with
  | nil =>
      rw [feed, (finish_eq buf).1, List.flatten_nil, List.append_nil, unbroken_of_not_mem hbuf]
  | cons bytes reads ih =>
      have hrest := (split_rest (buf ++ bytes)).2.1
      rw [feed, List.flatten_append, push_eq, ih hrest, unbroken_append, unbroken_of_not_mem hrest,
        ← List.append_assoc, flatten_split, ← unbroken_append, List.append_assoc,
        List.flatten_cons]

theorem not_mem_of_mem_feed {buf : Bytes} {reads : List Bytes} (hbuf : newline ∉ buf)
    {line : Bytes} (hline : line ∈ feed buf reads) :
  newline ∉ line
  := by
  induction reads generalizing buf with
  | nil =>
      rw [(finish_eq buf).2.2 line hline]
      exact hbuf
  | cons bytes reads ih =>
      rw [feed, push_eq] at hline
      obtain hnow | hlater := List.mem_append.mp hline
      · exact not_mem_of_mem_split hnow
      · exact ih (split_rest (buf ++ bytes)).2.1 hlater

/-- A buffer loses nothing but the newlines: its lines are the bytes that are read, it keeps less
than a full line behind every read and nothing at the end, and its loop always breaks. -/
theorem lossless (reads : List Bytes) :
  (emitted reads).flatten = reads.flatten.filter (· ≠ newline) ∧
    (∀ line ∈ emitted reads, newline ∉ line) ∧
    (∀ done later, reads = done ++ later →
      newline ∉ retained [] done ∧ (retained [] done).length < maxLine) ∧
    (finish (retained [] reads)).2 = [] ∧
    ∀ buf bytes, Ends (buf ++ bytes) (push buf bytes).1 (push buf bytes).2
  := by
  have hpos : 0 < maxLine := by decide
  refine ⟨?_, ?_, ?_, ?_, ?_⟩
  · apply flatten_feed reads List.not_mem_nil
  · intro line hline
    apply not_mem_of_mem_feed List.not_mem_nil hline
  · intro done _ _
    apply retained_kept done List.not_mem_nil hpos
  · exact (finish_eq _).2.1
  · intro buf bytes
    apply ends_split

/-! ### A newline behind a full line -/

/-- In front of a newline that comes too late is the start of the stream or a newline, and
then a line that is full at least. -/
theorem exists_late {s : Bytes} (h : ¬ NewlinesInTime s) :
  ∃ a l b, s = a ++ (l ++ newline :: b) ∧ (a = [] ∨ ∃ a', a = a' ++ [newline]) ∧
    newline ∉ l ∧ maxLine ≤ l.length
  := by
  rw [NewlinesInTime] at h
  push Not at h
  obtain ⟨a, l, b, hs, hl, hlen⟩ := h
  induction a using List.reverseRecOn generalizing l with
  | nil => exact ⟨[], l, b, hs, .inl rfl, hl, hlen⟩
  | append_singleton a c ih =>
      by_cases hc : c = newline
      · subst hc
        refine ⟨a ++ [newline], l, b, ?_, .inr ⟨a, rfl⟩, hl, hlen⟩
        rw [hs, List.append_assoc]
      · apply ih (c :: l)
        · rw [hs]
          simp only [List.append_assoc, List.singleton_append]
        · rw [List.mem_cons]
          rintro (hin | hin)
          · exact hc hin.symm
          · exact hl hin
        · rw [List.length_cons]
          omega

/-- Behind a newline the buffer starts afresh. -/
theorem split_after {a r : Bytes} (h : a = [] ∨ ∃ a', a = a' ++ [newline]) :
  split (a ++ r) = ((split a).1 ++ (split r).1, (split r).2)
  := by
  rcases h with rfl | ⟨a, rfl⟩
  · rfl
  have hfirst : ∀ a : Bytes, newline ∉ a → split (a ++ [newline] ++ r)
      = ((split (a ++ [newline])).1 ++ (split r).1, (split r).2) := by
    intro a ha
    rw [List.append_assoc, List.singleton_append, split_newline ha, split_newline ha]
    rfl
  induction a using rounds with
  | line l a hl ih =>
      have happ : l ++ newline :: a ++ [newline] ++ r
          = l ++ newline :: (a ++ [newline] ++ r) := by
        simp
      have hend : l ++ newline :: a ++ [newline] = l ++ newline :: (a ++ [newline]) := by
        simp
      rw [happ, hend, split_newline hl, split_newline hl, ih]
      rfl
  | full a ha _ _ => exact hfirst a ha
  | short a ha _ => exact hfirst a ha

/-- A line that is longer than a full line is emitted when it is read at once. -/
theorem mem_whole {a l b : Bytes} (ha : a = [] ∨ ∃ a', a = a' ++ [newline])
    (hl : newline ∉ l) :
  l ∈ whole (a ++ (l ++ newline :: b))
  := by
  rw [whole, split_after ha, split_newline hl]
  simp

/-- A cut between a full line and its newline adds an empty line. -/
theorem emitted_cut {a l b : Bytes} (ha : a = [] ∨ ∃ a', a = a' ++ [newline])
    (hl : newline ∉ l) (hlen : l.length = maxLine) :
  emitted [a ++ l, newline :: b] = (split a).1 ++ (l :: [] :: whole b) ∧
    whole (a ++ (l ++ newline :: b)) = (split a).1 ++ (l :: whole b)
  := by
  have hnil : split [] = ([], []) := rfl
  have hfull : split l = ([l], []) := by
    rw [split_full hl (Nat.le_of_eq hlen.symm), ← hlen, List.take_length, List.drop_length, hnil]
  have hempty : split (newline :: b) = ([] :: (split b).1, (split b).2) :=
    split_newline (List.not_mem_nil)
  constructor
  · rw [emitted, feed, push_eq, List.nil_append, split_after ha, hfull, feed, push_eq,
      List.nil_append, hempty, feed]
    simp [whole]
  · rw [whole, split_after ha, split_newline hl]
    simp [whole]

/-! ### Any two cuttings -/

/-- The lines of a stream do not depend on how it is cut, and none of them is clipped behind
the buffer, exactly when its newlines come in time. -/
theorem emitted_uniform_iff (s : Bytes) :
  ((∀ reads reads' : List Bytes, reads.flatten = s → reads'.flatten = s →
        emitted reads = emitted reads') ∧
      ∀ reads : List Bytes, reads.flatten = s → ∀ line ∈ emitted reads,
        line.length ≤ maxLine ∧
          ∀ stream level, (EventPayload.logLine stream level line).overCap = false)
    ↔ NewlinesInTime s
  := by
  have hpos : 0 < maxLine := by decide
  constructor
  · rintro ⟨hsame, hcap⟩
    by_contra hlate
    obtain ⟨a, l, b, rfl, ha, hl, hlen⟩ := exists_late hlate
    rcases Nat.lt_or_eq_of_le hlen with hlong | hfull
    · have hmem : l ∈ emitted [a ++ (l ++ newline :: b)] := by
        rw [emitted_singleton]
        apply mem_whole ha hl
      have hle := (hcap [a ++ (l ++ newline :: b)] (by simp) l hmem).1
      omega
    · obtain ⟨hcut, hwhole⟩ := emitted_cut (b := b) ha hl hfull.symm
      have heq := hsame [a ++ l, newline :: b] [a ++ (l ++ newline :: b)] (by simp) (by simp)
      rw [emitted_singleton, hcut, hwhole] at heq
      have hlens := congrArg List.length heq
      simp at hlens
  · intro h
    have hall : ∀ reads : List Bytes, reads.flatten = s → emitted reads = whole s := by
      rintro reads rfl
      exact feed_eq_whole h (List.not_mem_nil) hpos
    constructor
    · intro reads reads' hs hs'
      rw [hall reads hs, hall reads' hs']
    · intro reads hs line hline
      rw [hall reads hs] at hline
      have hle := length_le_of_mem_whole h hline
      refine ⟨hle, fun stream level => ?_⟩
      rw [EventPayload.overCap, decide_eq_false_iff_not, Nat.not_lt]
      exact hle

/-- A full line and its newline, read at once and read apart. -/
theorem emitted_full_line_apart :
  ¬ ∀ s : Bytes,
    (∀ reads reads' : List Bytes, reads.flatten = s → reads'.flatten = s →
        emitted reads = emitted reads') ∧
      ∀ reads : List Bytes, reads.flatten = s → ∀ line ∈ emitted reads,
        line.length ≤ maxLine ∧
          ∀ stream level, (EventPayload.logLine stream level line).overCap = false
  := by
  intro h
  have hl : newline ∉ List.replicate maxLine (0x61 : UInt8) := by
    rw [List.mem_replicate]
    rintro ⟨_, heq⟩
    exact absurd heq (by decide)
  obtain ⟨hcut, hwhole⟩ := emitted_cut (a := []) (b := []) (.inl rfl) hl List.length_replicate
  have heq := (h (List.replicate maxLine 0x61 ++ [newline])).1
    [List.replicate maxLine 0x61, [newline]] [List.replicate maxLine 0x61 ++ [newline]]
    (by simp) (by simp)
  rw [List.nil_append] at hcut hwhole
  rw [emitted_singleton, hcut, hwhole] at heq
  have hlens := congrArg List.length heq
  simp at hlens

end LineBuf

end Agent
