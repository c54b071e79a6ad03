import DetGuest.Lib.Slice
import Mathlib.Logic.Relation

/-!
# Version words

A writer guards memory by a version: it makes the version odd before its writes and even behind
them.  A reader copies the memory byte by byte while the writer goes on, and accepts its copy when
it found the same even version before and after it.  Such a copy is the memory of one moment, at
which no write was open.
-/

namespace ByteMem

/-- Memory after a list of writes. -/
def writeAll (m : ByteMem) (ws : List (Nat × Bytes)) : ByteMem :=
  ws.foldl (fun m w => m.write w.1 w.2) m

theorem writeAll_append (m : ByteMem) (ws ws' : List (Nat × Bytes)) :
  m.writeAll (ws ++ ws') = (m.writeAll ws).writeAll ws'
  := List.foldl_append ..

theorem writeAll_cons (m : ByteMem) (w : Nat × Bytes) (ws : List (Nat × Bytes)) :
  m.writeAll (w :: ws) = (m.write w.1 w.2).writeAll ws
  := rfl

end ByteMem

namespace Slice

/-- The writes of a slice are those of its memory. -/
theorem writeAll_mem (s : Slice) (ws : List (Nat × Bytes)) :
  (s.writeAll ws).mem = s.mem.writeAll ws
  := by
  induction ws generalizing s with
  | nil => rfl
  | cons w ws ih =>
      rw [writeAll_cons, ih, write_mem]
      rfl

/-! ### Calls that write -/

/-- All writes of a call have a property. -/
def Makes {ε α : Type} (P : Nat × Bytes → Prop) (x : Exec Slice ε α) : Prop :=
  ∀ s, ∃ ws, (x.run s).1 = s.writeAll ws ∧ ∀ w ∈ ws, P w

section Makes

variable {ε ε' α β : Type} {P : Nat × Bytes → Prop} {x : Exec Slice ε α}

/-- A call that leaves the slice makes no writes. -/
theorem makes_of_still (h : ∀ s, (x.run s).1 = s) :
  Makes P x
  := fun s => ⟨[], h s, fun _ hw => (nomatch hw)⟩

theorem makes_failIf (c : Prop) [Decidable c] (e : ε) :
  Makes P (Exec.failIf c e)
  := by
  apply makes_of_still
  intro s
  rw [Exec.failIf]
  split
  · rfl
  · rfl

theorem makes_put {lo : Nat} {bs : Bytes} (h : P (lo, bs)) :
  Makes P (put lo bs : Exec Slice ε Unit)
  := by
  intro s
  by_cases hin : lo + bs.length ≤ s.len
  · refine ⟨[(lo, bs)], by rw [run_put hin]; rfl, ?_⟩
    intro w hw
    rw [List.mem_singleton.mp hw]
    exact h
  · exact ⟨[], congrArg Prod.fst (if_neg hin), fun _ hw => (nomatch hw)⟩

/-- The writes of a sequence are those of its calls. -/
theorem Makes.bind {f : α → Exec Slice ε β} (hx : Makes P x) (hf : ∀ a, Makes P (f a)) :
  Makes P (x >>= f)
  := by
  intro s
  obtain ⟨ws, hrun, hws⟩ := hx s
  rcases hout : x.run s with ⟨t, out⟩
  rw [hout] at hrun
  obtain rfl : t = s.writeAll ws := hrun
  cases out with
  | ok a =>
      obtain ⟨ws', hrun', hws'⟩ := hf a (s.writeAll ws)
      refine ⟨ws ++ ws', ?_, ?_⟩
      · rw [Exec.run_bind_of_ok hout, hrun', writeAll_append]
      · intro w hw
        exact (List.mem_append.mp hw).elim (hws w) (hws' w)
  | err e => exact ⟨ws, by rw [Exec.run_bind_of_err hout], hws⟩
  | panic => exact ⟨ws, by rw [Exec.run_bind_of_panic hout], hws⟩

theorem Makes.mapErr {g : ε → ε'} (hx : Makes P x) :
  Makes P (Exec.mapErr g x)
  := hx

theorem Makes.expect (hx : Makes P x) :
  Makes P (Exec.expect x : Exec Slice ε' α)
  := by
  intro s
  obtain ⟨ws, hrun, hws⟩ := hx s
  refine ⟨ws, ?_, hws⟩
  rw [← hrun]
  rcases hout : x.run s with ⟨t, out⟩
  cases out with
  | ok a => simp only [Exec.expect, hout]
  | err e => simp only [Exec.expect, hout]
  | panic => simp only [Exec.expect, hout]

end Makes

end Slice

namespace Seqlock

/-! ### Brackets -/

/-- The write of a version to the word at `lo`. -/
def mark (lo : Nat) (v : UInt64) : Nat × Bytes := (lo, Bytes.ofU64 v)

/-- A write leaves a version: it is beside the word, or it writes the version again. -/
def Spares (lo : Nat) (v : UInt64) (w : Nat × Bytes) : Prop :=
  w = mark lo v ∨ w.1 + w.2.length ≤ lo ∨ lo + 8 ≤ w.1

/-- Writes in brackets from a version on, with the number of the brackets.  Each opens with the
next version, leaves it, and closes with the one behind it. -/
inductive Bracketed (lo : Nat) : UInt64 → List (Nat × Bytes) → Nat → Prop
  | nil (v : UInt64) : Bracketed lo v [] 0
  | cons {v : UInt64} {ws rest : List (Nat × Bytes)} {k : Nat}
      (hws : ∀ w ∈ ws, Spares lo (v + 1) w) (hrest : Bracketed lo (v + 2) rest k) :
      Bracketed lo v (mark lo (v + 1) :: (ws ++ mark lo (v + 2) :: rest)) (k + 1)

variable {lo : Nat} {v : UInt64} {w : Nat × Bytes} {ws rest : List (Nat × Bytes)} {k n : Nat}
  {m : ByteMem}

theorem Bracketed.append {ws' : List (Nat × Bytes)} {k' : Nat} (h : Bracketed lo v ws k)
    (h' : Bracketed lo (v + UInt64.ofNat (2 * k)) ws' k') :
  Bracketed lo v (ws ++ ws') (k + k')
  := by
  induction h with
  | nil v =>
      rw [Nat.zero_add]
      rw [Nat.mul_zero, show UInt64.ofNat 0 = 0 from rfl, UInt64.add_zero] at h'
      exact h'
  | @cons v ws rest k hws _ ih =>
      rw [Nat.add_right_comm, List.cons_append, List.append_assoc, List.cons_append]
      apply Bracketed.cons hws
      apply ih
      have htwo : UInt64.ofNat (2 * (k + 1)) = 2 + UInt64.ofNat (2 * k) := by
        rw [Nat.mul_succ, Nat.add_comm, UInt64.ofNat_add]
        rfl
      rw [htwo, ← UInt64.add_assoc] at h'
      exact h'

theorem u64_mark (m : ByteMem) (lo : Nat) (v : UInt64) :
  (m.write lo (Bytes.ofU64 v)).u64 lo = v
  := by
  have hself := ByteMem.read_write_self m lo (Bytes.ofU64 v)
  rw [Bytes.length_ofU64] at hself
  rw [ByteMem.u64, hself, Bytes.toU64_ofU64]

/-- A write that spares a version leaves it. -/
theorem Spares.u64 (h : Spares lo v w) (hv : m.u64 lo = v) :
  (m.write w.1 w.2).u64 lo = v
  := by
  rcases h with rfl | hbeside
  · apply u64_mark
  · rw [ByteMem.u64, ByteMem.read_write_outside (by omega)]
    exact hv

/-- Writes that spare a version leave it. -/
theorem writeAll_spares (hv : m.u64 lo = v) (hws : ∀ w ∈ ws, Spares lo v w) :
  (m.writeAll ws).u64 lo = v
  := by
  induction ws generalizing m with
  | nil => exact hv
  | cons w ws ih =>
      rw [ByteMem.writeAll_cons]
      apply ih
      · exact (hws w List.mem_cons_self).u64 hv
      · intro w' hw'
        exact hws w' (List.mem_cons_of_mem _ hw')

/-! ### A writer on its way -/

/-- The writes ahead of a writer whose version is `v`, with the number of the versions ahead: it is
between two brackets, or inside of one. -/
inductive Ahead (lo : Nat) : UInt64 → List (Nat × Bytes) → Nat → Prop
  | rest {v : UInt64} {ws : List (Nat × Bytes)} {k : Nat} (heven : v % 2 = 0)
      (h : Bracketed lo v ws k) : Ahead lo v ws (2 * k)
  | within {v : UInt64} {ws rest : List (Nat × Bytes)} {k : Nat} (hodd : v % 2 = 1)
      (hws : ∀ w ∈ ws, Spares lo v w) (h : Bracketed lo (v + 1) rest k) :
      Ahead lo v (ws ++ mark lo (v + 1) :: rest) (2 * k + 1)

theorem toNat_mod_two (v : UInt64) :
  (v % 2).toNat = v.toNat % 2
  := UInt64.toNat_mod v 2

theorem odd_of_even (h : v % 2 = 0) :
  (v + 1) % 2 = 1
  := by
  have hlt := v.toNat_lt
  have hv := congrArg UInt64.toNat h
  rw [toNat_mod_two, UInt64.toNat_zero] at hv
  apply UInt64.toNat_inj.mp
  rw [toNat_mod_two, UInt64.toNat_add, UInt64.toNat_one]
  omega

theorem even_of_odd (h : v % 2 = 1) :
  (v + 1) % 2 = 0
  := by
  have hlt := v.toNat_lt
  have hv := congrArg UInt64.toNat h
  rw [toNat_mod_two, UInt64.toNat_one] at hv
  apply UInt64.toNat_inj.mp
  rw [toNat_mod_two, UInt64.toNat_add, UInt64.toNat_one, UInt64.toNat_zero]
  omega

theorem toNat_add_one (h : v.toNat + (n + 1) < 2 ^ 64) :
  (v + 1).toNat = v.toNat + 1
  := by
  rw [UInt64.toNat_add, UInt64.toNat_one]
  omega

/-- A write of the writer changes an even version to a later one, and an odd one to the next one at
most. -/
theorem Ahead.write (h : Ahead lo v (w :: ws) n) (hv : m.u64 lo = v)
    (hn : v.toNat + n < 2 ^ 64) :
  ∃ (v' : UInt64) (n' : Nat), (m.write w.1 w.2).u64 lo = v' ∧ Ahead lo v' ws n' ∧
    v'.toNat + n' = v.toNat + n ∧ v.toNat ≤ v'.toNat ∧ (v = v' → v % 2 = 1)
  := by
  generalize hall : w :: ws = all at h
  have hne : ∀ k : Nat, v.toNat + (k + 1) < 2 ^ 64 → v ≠ v + 1 := by
    intro k hk heq
    have hnext := toNat_add_one hk
    rw [← heq] at hnext
    omega
  cases h with
  | rest heven h =>
      cases h with
      | nil v => cases hall
      | @cons v ws' rest k hws hrest =>
          obtain ⟨rfl, rfl⟩ := List.cons.inj hall
          have htwo : v + 2 = v + 1 + 1 := by
            rw [UInt64.add_assoc]
            rfl
          have hnext := toNat_add_one (v := v) (n := 2 * k + 1) (by omega)
          refine ⟨v + 1, 2 * k + 1, u64_mark .., ?_, by omega, by omega, ?_⟩
          · rw [htwo]
            rw [htwo] at hrest
            exact .within (odd_of_even heven) hws hrest
          · intro heq
            exact absurd heq (hne (2 * k + 1) (by omega))
  | @within ws' rest k hodd hws h =>
      cases ws' with
      | nil =>
          obtain ⟨rfl, rfl⟩ := List.cons.inj hall
          have hnext := toNat_add_one (v := v) (n := 2 * k) (by omega)
          refine ⟨v + 1, 2 * k, u64_mark .., .rest (even_of_odd hodd) h, by omega, by omega, ?_⟩
          intro heq
          exact absurd heq (hne (2 * k) (by omega))
      | cons w' ws' =>
          obtain ⟨rfl, rfl⟩ := List.cons.inj hall
          refine ⟨v, 2 * k + 1, (hws w List.mem_cons_self).u64 hv, ?_, rfl, Nat.le_refl _,
            fun _ => hodd⟩
          exact .within hodd (fun w hw => hws w (List.mem_cons_of_mem _ hw)) h

/-- Behind all brackets the version is theirs. -/
theorem Bracketed.u64 (h : Bracketed lo v ws k) (hv : m.u64 lo = v) :
  (m.writeAll ws).u64 lo = v + UInt64.ofNat (2 * k)
  := by
  induction h generalizing m with
  | nil v =>
      rw [Nat.mul_zero, show UInt64.ofNat 0 = 0 from rfl, UInt64.add_zero]
      exact hv
  | @cons v ws rest k hws _ ih =>
      have htwo : UInt64.ofNat (2 * (k + 1)) = 2 + UInt64.ofNat (2 * k) := by
        rw [Nat.mul_succ, Nat.add_comm, UInt64.ofNat_add]
        rfl
      rw [ByteMem.writeAll_cons, ByteMem.writeAll_append, ByteMem.writeAll_cons, htwo,
        ← UInt64.add_assoc]
      apply ih (u64_mark ..)

/-- Where the version is even, the writes so far are brackets, and so are those ahead. -/
theorem Bracketed.split {front back : List (Nat × Bytes)} (h : Bracketed lo v ws k)
    (heven : v % 2 = 0) (hws : ws = front ++ back) (hv : m.u64 lo = v)
    (hrest : (m.writeAll front).u64 lo % 2 = 0) :
  ∃ i j, Bracketed lo v front i ∧ Bracketed lo (v + UInt64.ofNat (2 * i)) back j
  := by
  induction h generalizing m front with
  | nil v =>
      obtain ⟨rfl, rfl⟩ := List.append_eq_nil_iff.mp hws.symm
      exact ⟨0, 0, .nil v, .nil _⟩
  | @cons v ws rest k hspares hbrackets ih =>
      have hodd : ∀ {ws'}, (∀ w ∈ ws', Spares lo (v + 1) w) →
          ¬ ((m.writeAll (mark lo (v + 1) :: ws')).u64 lo % 2 = 0) := by
        intro ws' hws' hzero
        have hmark : ((m.writeAll (mark lo (v + 1) :: ws')).u64 lo) = v + 1 := by
          rw [ByteMem.writeAll_cons]
          exact writeAll_spares (u64_mark ..) hws'
        rw [hmark, odd_of_even heven] at hzero
        exact absurd hzero (by decide)
      cases front with
      | nil =>
          obtain rfl := hws
          refine ⟨0, k + 1, .nil v, ?_⟩
          rw [Nat.mul_zero, show UInt64.ofNat 0 = 0 from rfl, UInt64.add_zero]
          exact .cons hspares hbrackets
      | cons w front =>
          obtain ⟨rfl, htail⟩ := List.cons.inj hws
          rcases List.append_eq_append_iff.mp htail with ⟨bs, rfl, hmark⟩ | ⟨bs, rfl, _⟩
          · cases bs with
            | nil =>
                rw [List.append_nil] at hrest
                exact absurd hrest (hodd hspares)
            | cons w bs =>
                obtain ⟨rfl, rfl⟩ := List.cons.inj hmark
                have htwo : v + 2 = v + 1 + 1 := by
                  rw [UInt64.add_assoc]
                  rfl
                have heven' : (v + 2) % 2 = 0 := by
                  rw [htwo]
                  exact even_of_odd (odd_of_even heven)
                rw [ByteMem.writeAll_cons, ByteMem.writeAll_append, ByteMem.writeAll_cons] at hrest
                obtain ⟨i, j, hfront, hback⟩ := ih heven' rfl (u64_mark ..) hrest
                refine ⟨i + 1, j, .cons hspares hfront, ?_⟩
                rw [Nat.mul_succ, Nat.add_comm, UInt64.ofNat_add, ← UInt64.add_assoc]
                exact hback
          · refine absurd hrest (hodd fun w hw => hspares w (List.mem_append_left _ hw))

/-! ### Readers -/

/-- A reader has attempts left, is in an attempt with the version that it found and the bytes that
it has copied, is done with a copy, or has given up. -/
inductive Reader where
  | waiting (tries : Nat)
  | copying (tries : Nat) (version : UInt64) (copied : Nat → Option UInt8)
  | done (copy : ByteMem)
  | gaveUp

/-- The memory, the writes ahead of the writer, and the reader. -/
structure System where
  mem : ByteMem
  ahead : List (Nat × Bytes)
  reader : Reader

/-- All bytes below a length are copied. -/
def Full (len : Nat) (copied : Nat → Option UInt8) : Prop :=
  ∀ a < len, ∃ b, copied a = some b

/-- A step of the writer, or of the reader of the bytes below `len`.  An attempt reads the version,
copies the bytes one by one in any order, and reads the version again. -/
inductive Step (lo len : Nat) : System → System → Prop
  | write {m : ByteMem} {w : Nat × Bytes} {ws : List (Nat × Bytes)} {r : Reader} :
      Step lo len ⟨m, w :: ws, r⟩ ⟨m.write w.1 w.2, ws, r⟩
  | giveUp {m : ByteMem} {ws : List (Nat × Bytes)} :
      Step lo len ⟨m, ws, .waiting 0⟩ ⟨m, ws, .gaveUp⟩
  | refuse {m : ByteMem} {ws : List (Nat × Bytes)} {n : Nat} (hodd : m.u64 lo % 2 ≠ 0) :
      Step lo len ⟨m, ws, .waiting (n + 1)⟩ ⟨m, ws, .waiting n⟩
  | begin {m : ByteMem} {ws : List (Nat × Bytes)} {n : Nat} (heven : m.u64 lo % 2 = 0) :
      Step lo len ⟨m, ws, .waiting (n + 1)⟩ ⟨m, ws, .copying n (m.u64 lo) fun _ => none⟩
  | copy {m : ByteMem} {ws : List (Nat × Bytes)} {n : Nat} {v : UInt64}
      {copied : Nat → Option UInt8} {a : Nat} (ha : a < len) (hnew : copied a = none) :
      Step lo len ⟨m, ws, .copying n v copied⟩
        ⟨m, ws, .copying n v (Function.update copied a (some (m a)))⟩
  | retry {m : ByteMem} {ws : List (Nat × Bytes)} {n : Nat} {v : UInt64}
      {copied : Nat → Option UInt8} (hfull : Full len copied) (hchanged : m.u64 lo ≠ v) :
      Step lo len ⟨m, ws, .copying n v copied⟩ ⟨m, ws, .waiting n⟩
  | finish {m : ByteMem} {ws : List (Nat × Bytes)} {n : Nat} {v : UInt64}
      {copied : Nat → Option UInt8} (hfull : Full len copied) (hsame : m.u64 lo = v) :
      Step lo len ⟨m, ws, .copying n v copied⟩ ⟨m, ws, .done fun a => (copied a).getD 0⟩

/-- A copy is the memory of a moment at which the version was even. -/
def IsMoment (lo len : Nat) (m₀ : ByteMem) (ws ahead : List (Nat × Bytes)) (copy : ByteMem) : Prop :=
  ∃ front back, ws = front ++ back ∧ ahead <:+ back ∧ (m₀.writeAll front).u64 lo % 2 = 0 ∧
    ∀ a < len, copy a = m₀.writeAll front a

/-- What a reader knows: the bytes that it has copied are those of memory while the version is the
one that it found, and a copy that it accepted is the memory of a moment. -/
def Knows (lo len : Nat) (m₀ : ByteMem) (ws : List (Nat × Bytes)) (x : System) : Prop :=
  match x.reader with
  | .copying _ v copied => v % 2 = 0 ∧ v.toNat ≤ (x.mem.u64 lo).toNat ∧
      (x.mem.u64 lo = v → ∀ a b, copied a = some b → b = x.mem a)
  | .done copy => IsMoment lo len m₀ ws x.ahead copy
  | .waiting _ => True
  | .gaveUp => True

/-- The writer is on its way through its writes, and the reader knows what it has copied. -/
structure Consistent (lo len : Nat) (m₀ : ByteMem) (ws : List (Nat × Bytes)) (x : System) :
    Prop where
  past : ∃ front, ws = front ++ x.ahead ∧ x.mem = m₀.writeAll front
  ahead : ∃ n, Ahead lo (x.mem.u64 lo) x.ahead n ∧ (x.mem.u64 lo).toNat + n < 2 ^ 64
  knows : Knows lo len m₀ ws x

variable {len : Nat} {m₀ : ByteMem} {x y : System}

/-- Each step of the two keeps them consistent. -/
theorem Consistent.step (h : Consistent lo len m₀ ws x) (hstep : Step lo len x y) :
  Consistent lo len m₀ ws y
  := by
  obtain ⟨⟨front, hws, hmem⟩, ⟨n, hahead, hn⟩, hknows⟩ := h
  cases hstep with
  | @write m w ws' r =>
      obtain ⟨v', n', hv', hahead', hsum, hgrow, hsame⟩ := hahead.write rfl hn
      refine ⟨⟨front ++ [w], ?_, ?_⟩, ⟨n', ?_, ?_⟩, ?_⟩
      · rw [hws, List.append_assoc]
        rfl
      · rw [ByteMem.writeAll_append, ← hmem]
        rfl
      · dsimp only
        rw [hv']
        exact hahead'
      · dsimp only at hn ⊢
        rw [hv', hsum]
        exact hn
      · cases r with
        | waiting tries => trivial
        | gaveUp => trivial
        | copying tries v copied =>
            obtain ⟨heven, hle, _⟩ := hknows
            dsimp only at hle hgrow hsame
            refine ⟨heven, ?_, ?_⟩
            · dsimp only
              rw [hv']
              exact Nat.le_trans hle hgrow
            · intro heq
              dsimp only at heq
              rw [hv'] at heq
              -- The version that was found is even, so the write has left it behind.
              have hold : m.u64 lo = v := by
                apply UInt64.toNat_inj.mp
                rw [heq] at hgrow
                exact Nat.le_antisymm hgrow hle
              have hodd := hsame (hold.trans heq.symm)
              rw [hold, heven] at hodd
              exact absurd hodd (by decide)
        | done copy =>
            obtain ⟨front', back, heq, hsuffix, hrest⟩ := hknows
            exact ⟨front', back, heq, (List.suffix_cons w ws').trans hsuffix, hrest⟩
  | giveUp => exact ⟨⟨front, hws, hmem⟩, ⟨n, hahead, hn⟩, trivial⟩
  | refuse hodd => exact ⟨⟨front, hws, hmem⟩, ⟨n, hahead, hn⟩, trivial⟩
  | begin heven =>
      refine ⟨⟨front, hws, hmem⟩, ⟨n, hahead, hn⟩, heven, Nat.le_refl _, ?_⟩
      intro _ a b hcopied
      cases hcopied
  | @copy m ws' tries v copied a ha hnew =>
      obtain ⟨heven, hle, hbytes⟩ := hknows
      refine ⟨⟨front, hws, hmem⟩, ⟨n, hahead, hn⟩, heven, hle, ?_⟩
      intro hsame a' b hcopied
      rw [Function.update_apply] at hcopied
      split at hcopied
      · rename_i heq
        rw [← Option.some.inj hcopied, heq]
      · exact hbytes hsame a' b hcopied
  | retry hfull hchanged => exact ⟨⟨front, hws, hmem⟩, ⟨n, hahead, hn⟩, trivial⟩
  | @finish m ws' tries v copied hfull hsame =>
      obtain ⟨heven, hle, hbytes⟩ := hknows
      refine ⟨⟨front, hws, hmem⟩, ⟨n, hahead, hn⟩, front, ws', hws, List.suffix_refl _, ?_, ?_⟩
      · rw [← hmem]
        dsimp only
        rw [hsame]
        exact heven
      · intro a ha
        obtain ⟨b, hb⟩ := hfull a ha
        have hcopy : (copied a).getD 0 = b := by
          rw [hb]
          rfl
        rw [← hmem]
        exact hcopy.trans (hbytes hsame a b hb)

/-- A copy that a reader accepts is the memory of a moment between two brackets, whatever the order
of the steps. -/
theorem moment_of_done {copy : ByteMem} {ahead : List (Nat × Bytes)} {tries : Nat}
    (hbrackets : Bracketed lo (m₀.u64 lo) ws k) (heven : m₀.u64 lo % 2 = 0)
    (hk : (m₀.u64 lo).toNat + 2 * k < 2 ^ 64)
    (hrun : Relation.ReflTransGen (Step lo len) ⟨m₀, ws, .waiting tries⟩ ⟨m, ahead, .done copy⟩) :
  ∃ front back i j, ws = front ++ back ∧ ahead <:+ back ∧ Bracketed lo (m₀.u64 lo) front i ∧
    Bracketed lo (m₀.u64 lo + UInt64.ofNat (2 * i)) back j ∧
    ∀ a < len, copy a = m₀.writeAll front a
  := by
  have hconsistent : ∀ x, Relation.ReflTransGen (Step lo len) ⟨m₀, ws, .waiting tries⟩ x →
      Consistent lo len m₀ ws x := by
    intro x hx
    induction hx with
    | refl => exact ⟨⟨[], rfl, rfl⟩, ⟨2 * k, .rest heven hbrackets, hk⟩, trivial⟩
    | tail _ hstep ih => exact ih.step hstep
  obtain ⟨front, back, hws, hsuffix, hrest, hcopy⟩ := (hconsistent _ hrun).knows
  obtain ⟨i, j, hfront, hback⟩ := hbrackets.split heven hws rfl hrest
  exact ⟨front, back, i, j, hws, hsuffix, hfront, hback, hcopy⟩

/-! ### Readers alone -/

/-- The writer makes its next writes. -/
theorem run_writes (m : ByteMem) (ws rest : List (Nat × Bytes)) (r : Reader) :
  Relation.ReflTransGen (Step lo len) ⟨m, ws ++ rest, r⟩ ⟨m.writeAll ws, rest, r⟩
  := by
  induction ws generalizing m with
  | nil => exact .refl
  | cons w ws ih =>
      rw [ByteMem.writeAll_cons]
      exact .head .write (ih _)

/-- The reader copies the bytes that it has not copied so far. -/
theorem run_copies (m : ByteMem) (ws : List (Nat × Bytes)) (n : Nat) (v : UInt64)
    (copied : Nat → Option UInt8) :
  Relation.ReflTransGen (Step lo len) ⟨m, ws, .copying n v copied⟩
    ⟨m, ws, .copying n v fun a => if a < len then some ((copied a).getD (m a)) else copied a⟩
  := by
  have hprefix : ∀ k ≤ len, Relation.ReflTransGen (Step lo len) ⟨m, ws, .copying n v copied⟩
      ⟨m, ws, .copying n v fun a => if a < k then some ((copied a).getD (m a)) else copied a⟩ := by
    intro k hk
    induction k with
    | zero =>
        simp only [Nat.not_lt_zero, if_false]
        exact .refl
    | succ k ih =>
        have hold := ih (Nat.le_of_succ_le hk)
        -- only a byte that was not copied before takes a step
        cases hcopied : copied k with
        | some b =>
            have hsame : (fun a => if a < k + 1 then some ((copied a).getD (m a)) else copied a)
                = fun a => if a < k then some ((copied a).getD (m a)) else copied a := by
              funext a
              rcases Nat.lt_trichotomy a k with hlt | rfl | hgt
              · rw [if_pos (by omega), if_pos hlt]
              · rw [if_pos (by omega), if_neg (by omega), hcopied]
                rfl
              · rw [if_neg (by omega), if_neg (by omega)]
            rw [hsame]
            exact hold
        | none =>
            have hupdate : (fun a => if a < k + 1 then some ((copied a).getD (m a)) else copied a)
                = Function.update (fun a => if a < k then some ((copied a).getD (m a)) else copied a)
                  k (some (m k)) := by
              funext a
              rw [Function.update_apply]
              rcases Nat.lt_trichotomy a k with hlt | rfl | hgt
              · rw [if_pos (by omega), if_neg (by omega), if_pos hlt]
              · rw [if_pos (by omega), if_pos rfl, hcopied]
                rfl
              · rw [if_neg (by omega), if_neg (by omega), if_neg (by omega)]
            rw [hupdate]
            exact hold.tail (.copy hk (by rw [if_neg (Nat.lt_irrefl k)]; exact hcopied))
  exact hprefix len (Nat.le_refl len)

/-- A reader that finds an even version while the writer rests copies the memory. -/
theorem run_accepts (m : ByteMem) (ws : List (Nat × Bytes)) (tries : Nat)
    (heven : m.u64 lo % 2 = 0) :
  ∃ copy, Relation.ReflTransGen (Step lo len) ⟨m, ws, .waiting (tries + 1)⟩ ⟨m, ws, .done copy⟩ ∧
    ∀ a < len, copy a = m a
  := by
  refine ⟨_, (Relation.ReflTransGen.head (.begin heven) (run_copies m ws tries _ _)).tail
    (.finish ?_ rfl), ?_⟩
  · intro a ha
    exact ⟨m a, if_pos ha⟩
  · intro a ha
    rw [if_pos ha]
    rfl

/-- A reader whose first byte is copied in front of writes that change the version, and the others
behind them, tries again. -/
theorem run_retries (m : ByteMem) (ws rest : List (Nat × Bytes)) (tries : Nat) (hlen : 0 < len)
    (heven : m.u64 lo % 2 = 0) (hchanged : (m.writeAll ws).u64 lo ≠ m.u64 lo) :
  Relation.ReflTransGen (Step lo len) ⟨m, ws ++ rest, .waiting (tries + 1)⟩
    ⟨m.writeAll ws, rest, .waiting tries⟩
  := by
  have hfirst : Relation.ReflTransGen (Step lo len) ⟨m, ws ++ rest, .waiting (tries + 1)⟩
      ⟨m, ws ++ rest, .copying tries (m.u64 lo) (Function.update (fun _ => none) 0 (some (m 0)))⟩ :=
    .tail (.single (.begin heven)) (.copy hlen rfl)
  apply (hfirst.trans (run_writes m ws rest _)).trans
  apply (run_copies _ _ _ _ _).tail
  apply Step.retry _ hchanged
  intro a ha
  exact ⟨_, if_pos ha⟩

/-- What a reader without a writer has reached: with an odd version it only loses attempts, and with
an even one it is in the first of them, or done with a copy of the memory. -/
theorem alone {tries : Nat}
    (hrun : Relation.ReflTransGen (Step lo len) ⟨m₀, [], .waiting tries⟩ x) :
  x.mem = m₀ ∧ x.ahead = [] ∧
    match x.reader with
    | .waiting n => m₀.u64 lo % 2 = 0 → n = tries
    | .copying _ v copied => m₀.u64 lo % 2 = 0 ∧ v = m₀.u64 lo ∧ 0 < tries ∧
        ∀ a b, copied a = some b → b = m₀ a
    | .done copy => m₀.u64 lo % 2 = 0 ∧ 0 < tries ∧ ∀ a < len, copy a = m₀ a
    | .gaveUp => m₀.u64 lo % 2 = 0 → tries = 0
  := by
  induction hrun with
  | refl => exact ⟨rfl, rfl, fun _ => rfl⟩
  | tail _ hstep ih =>
      obtain ⟨hmem, hahead, hreader⟩ := ih
      cases hstep with
      | write => cases hahead
      | giveUp => exact ⟨hmem, hahead, fun heven => (hreader heven).symm⟩
      | refuse hodd =>
          dsimp only at hmem
          subst hmem
          exact ⟨rfl, hahead, fun heven => absurd heven hodd⟩
      | begin heven =>
          dsimp only at hmem
          subst hmem
          refine ⟨rfl, hahead, heven, rfl, ?_, fun _ _ hcopied => (nomatch hcopied)⟩
          rw [← hreader heven]
          exact Nat.succ_pos _
      | @copy m ws n v copied a ha hnew =>
          dsimp only at hmem hreader ⊢
          subst hmem
          obtain ⟨heven, hv, htries, hbytes⟩ := hreader
          refine ⟨rfl, hahead, heven, hv, htries, ?_⟩
          intro a' b hcopied
          rw [Function.update_apply] at hcopied
          split at hcopied
          · rename_i heq
            rw [← Option.some.inj hcopied, heq]
          · exact hbytes a' b hcopied
      | retry hfull hchanged =>
          dsimp only at hmem hreader
          subst hmem
          exact absurd hreader.2.1.symm hchanged
      | @finish m ws n v copied hfull hsame =>
          dsimp only at hmem hreader ⊢
          subst hmem
          obtain ⟨heven, _, htries, hbytes⟩ := hreader
          refine ⟨rfl, hahead, heven, htries, ?_⟩
          intro a ha
          obtain ⟨b, hb⟩ := hfull a ha
          rw [hb]
          exact hbytes a b hb

/-! ### Brackets left open -/

/-- The steps are possible with more writes ahead. -/
theorem Step.extend {extra : List (Nat × Bytes)} (h : Step lo len x y) :
  Step lo len { x with ahead := x.ahead ++ extra } { y with ahead := y.ahead ++ extra }
  := by
  cases h with
  | write => exact .write
  | giveUp => exact .giveUp
  | refuse hodd => exact .refuse hodd
  | begin heven => exact .begin heven
  | copy ha hnew => exact .copy ha hnew
  | retry hfull hchanged => exact .retry hfull hchanged
  | finish hfull hsame => exact .finish hfull hsame

/-- A copy that a reader accepts is the memory of a moment between two brackets, even when the
writer leaves the last one open. -/
theorem moment_of_done_open {copy : ByteMem} {extra ahead : List (Nat × Bytes)} {tries : Nat}
    (hbrackets : Bracketed lo (m₀.u64 lo) (ws ++ extra) k) (heven : m₀.u64 lo % 2 = 0)
    (hk : (m₀.u64 lo).toNat + 2 * k < 2 ^ 64)
    (hrun : Relation.ReflTransGen (Step lo len) ⟨m₀, ws, .waiting tries⟩ ⟨m, ahead, .done copy⟩) :
  ∃ front back i, ws = front ++ back ∧ ahead <:+ back ∧ Bracketed lo (m₀.u64 lo) front i ∧
    ∀ a < len, copy a = m₀.writeAll front a
  := by
  have hmore : Relation.ReflTransGen (Step lo len) ⟨m₀, ws ++ extra, .waiting tries⟩
      ⟨m, ahead ++ extra, .done copy⟩ :=
    hrun.lift (fun x : System => { x with ahead := x.ahead ++ extra }) fun _ _ h => h.extend
  obtain ⟨front, back, i, _, hws, ⟨mid, hback⟩, hfront, _, hcopy⟩ :=
    moment_of_done hbrackets heven hk hmore
  rw [← hback, ← List.append_assoc, ← List.append_assoc] at hws
  have hsplit := List.append_cancel_right hws
  refine ⟨front, mid ++ ahead, i, ?_, ⟨mid, rfl⟩, hfront, hcopy⟩
  rw [hsplit, List.append_assoc]

/-! ### Single bytes -/

/-- The writes of single bytes that make up a write; the version is written at once. -/
def scatter (lo : Nat) (w : Nat × Bytes) : List (Nat × Bytes) :=
  if w.1 = lo ∧ w.2.length = 8 then [w] else w.2.zipIdx.map fun x => (w.1 + x.2, [x.1])

theorem scatter_mark (lo : Nat) (v : UInt64) :
  scatter lo (mark lo v) = [mark lo v]
  := if_pos ⟨rfl, Bytes.length_ofU64 v⟩

/-- The bytes of a write spare what it spares. -/
theorem Spares.scatter {w' : Nat × Bytes} (h : Spares lo v w) (hw' : w' ∈ scatter lo w) :
  Spares lo v w'
  := by
  rw [Seqlock.scatter] at hw'
  split at hw'
  · rw [List.mem_singleton.mp hw']
    exact h
  · rename_i hword
    obtain ⟨x, hx, rfl⟩ := List.mem_map.mp hw'
    have hlt := List.snd_lt_of_mem_zipIdx hx
    rcases h with rfl | hbeside
    · exact absurd ⟨rfl, Bytes.length_ofU64 v⟩ hword
    · right
      dsimp only [List.length_singleton]
      omega

theorem Bracketed.scatter (h : Bracketed lo v ws k) :
  Bracketed lo v (ws.flatMap (scatter lo)) k
  := by
  induction h with
  | nil v => exact .nil v
  | cons hws _ ih =>
      rw [List.flatMap_cons, List.flatMap_append, List.flatMap_cons, scatter_mark, scatter_mark]
      apply Bracketed.cons _ ih
      intro w' hw'
      obtain ⟨w, hw, hpiece⟩ := List.mem_flatMap.mp hw'
      exact (hws w hw).scatter hpiece

/-- The bytes of writes change memory like the writes. -/
theorem writeAll_scatter (m : ByteMem) (ws : List (Nat × Bytes)) :
  m.writeAll (ws.flatMap (scatter lo)) = m.writeAll ws
  := by
  have hbytes : ∀ (bs : Bytes) (m : ByteMem) (a n : Nat),
      m.writeAll ((bs.zipIdx n).map fun x => (a + x.2, [x.1])) = m.write (a + n) bs := by
    intro bs
    induction bs with
    | nil =>
        intro m a n
        exact (ByteMem.write_nil m (a + n)).symm
    | cons b bs ih =>
        intro m a n
        rw [List.zipIdx_cons, List.map_cons, ByteMem.writeAll_cons, ih, ← Nat.add_assoc]
        exact ByteMem.write_append m (a + n) [b] bs
  induction ws generalizing m with
  | nil => rfl
  | cons w ws ih =>
      rw [List.flatMap_cons, ByteMem.writeAll_append, ih, ByteMem.writeAll_cons]
      congr 1
      rw [scatter]
      split
      · rfl
      · exact hbytes w.2 m w.1 0

end Seqlock
