import Mathlib.Tactic.Common

/-!
# Stateful computations that may fail or panic

`Res ε α` is the outcome of a call: a value, an error value, or a panic.  `Exec σ ε α`
is a computation over a state `σ`; the state reached so far survives an error, as the
referents of mutable borrows do.  The rules below take a sequence of computations
apart one call at a time.
-/

/-- The outcome of a call: a value, an error value, or a panic. -/
inductive Res (ε α : Type) where
  | ok (a : α)
  | err (e : ε)
  | panic
  deriving DecidableEq, Repr

namespace Res

variable {ε ε' α β : Type}

/-- The outcome of a call followed by a function of its value. -/
def bind (x : Res ε α) (f : α → Res ε β) : Res ε β :=
  match x with
  | .ok a => f a
  | .err e => .err e
  | .panic => .panic

instance : Monad (Res ε) where
  pure := .ok
  bind := Res.bind

@[simp]
theorem pure_eq (a : α) :
  (pure a : Res ε α) = .ok a
  := rfl

@[simp]
theorem ok_bind (a : α) (f : α → Res ε β) :
  (Res.ok a >>= f) = f a
  := rfl

@[simp]
theorem err_bind (e : ε) (f : α → Res ε β) :
  ((Res.err e : Res ε α) >>= f) = .err e
  := rfl

@[simp]
theorem panic_bind (f : α → Res ε β) :
  ((Res.panic : Res ε α) >>= f) = .panic
  := rfl

/-- A sequence ends in a value exactly when both of its calls do. -/
theorem bind_eq_ok {x : Res ε α} {f : α → Res ε β} {b : β} :
  (x >>= f) = .ok b ↔ ∃ a, x = .ok a ∧ f a = .ok b
  := by
  cases x with
  | ok a => simp
  | err e => simp
  | panic => simp

theorem seq_eq_ok {x : Res ε Unit} {f : Unit → Res ε β} {b : β} :
  (x >>= f) = .ok b ↔ x = .ok () ∧ f () = .ok b
  := by
  cases x with
  | ok a => simp
  | err e => simp
  | panic => simp

/-- A sequence panics exactly when one of its calls does. -/
theorem bind_eq_panic {x : Res ε α} {f : α → Res ε β} :
  (x >>= f) = .panic ↔ x = .panic ∨ ∃ a, x = .ok a ∧ f a = .panic
  := by
  cases x with
  | ok a => simp
  | err e => simp
  | panic => simp

/-- Whether the outcome is a panic. -/
def isPanic : Res ε α → Bool
  | .panic => true
  | _ => false

theorem isPanic_iff {x : Res ε α} :
  x.isPanic = true ↔ x = .panic
  := by
  cases x <;> simp [isPanic]

/-- The error `e` when `c` holds, and nothing otherwise. -/
def failIf (c : Prop) [Decidable c] (e : ε) : Res ε Unit :=
  if c then .err e else .ok ()

/-- A condition that only a build with debug assertions checks. -/
def debugAssert (dbg : Bool) (c : Prop) [Decidable c] : Res ε Unit :=
  if dbg = true ∧ ¬ c then .panic else .ok ()

/-- A condition that holds passes every build. -/
theorem debugAssert_of {dbg : Bool} {c : Prop} {_ : Decidable c} (h : c) :
  (debugAssert dbg c : Res ε Unit) = .ok ()
  := if_neg fun hnot => hnot.2 h

@[simp]
theorem failIf_of {c : Prop} {_ : Decidable c} {e : ε} (h : c) :
  failIf c e = .err e
  := if_pos h

@[simp]
theorem failIf_of_not {c : Prop} {_ : Decidable c} {e : ε} (h : ¬ c) :
  failIf c e = .ok ()
  := if_neg h

@[simp]
theorem failIf_false {_ : Decidable False} {e : ε} :
  failIf False e = .ok ()
  := if_neg not_false

theorem failIf_eq_ok {c : Prop} [Decidable c] {e : ε} :
  failIf c e = .ok () ↔ ¬ c
  := by
  by_cases h : c
  · simp [h]
  · simp [h]

/-- Behind a check only what the check lets through matters. -/
theorem failIf_bind_ne_panic {c : Prop} [Decidable c] {e : ε} {f : Unit → Res ε α}
    (h : ¬ c → f () ≠ .panic) :
  (failIf c e >>= f) ≠ .panic
  := by
  by_cases hc : c
  · rw [failIf_of hc, err_bind]
    simp
  · rw [failIf_of_not hc, ok_bind]
    apply h hc

/-- A loop of checks succeeds exactly when each check does. -/
theorem forIn_eq_ok {xs : List α} {f : α → Res ε Unit} :
  (forIn xs PUnit.unit fun x _ => do
      f x
      pure (ForInStep.yield PUnit.unit)) = Res.ok PUnit.unit ↔ ∀ x ∈ xs, f x = .ok ()
  := by
  induction xs with
  | nil => simp
  | cons x xs ih =>
      rw [List.forIn_cons]
      cases hx : f x with
      | ok a => simpa [hx] using ih
      | err e => simp [hx]
      | panic => simp [hx]

/-- The same outcome with its error converted. -/
def mapErr (f : ε → ε') : Res ε α → Res ε' α
  | .ok a => .ok a
  | .err e => .err (f e)
  | .panic => .panic

@[simp]
theorem mapErr_ok (f : ε → ε') (a : α) :
  (Res.ok a : Res ε α).mapErr f = .ok a
  := rfl

@[simp]
theorem mapErr_err (f : ε → ε') (e : ε) :
  (Res.err e : Res ε α).mapErr f = .err (f e)
  := rfl

@[simp]
theorem mapErr_panic (f : ε → ε') :
  (Res.panic : Res ε α).mapErr f = .panic
  := rfl

/-- Errors are mapped to errors. -/
theorem mapErr_eq_ok {f : ε → ε'} {x : Res ε α} {a : α} :
  x.mapErr f = .ok a ↔ x = .ok a
  := by
  cases x <;> simp

end Res

/-- A computation over a state `σ` that ends in a value, an error or a panic, and in
each case leaves a state behind. -/
structure Exec (σ ε α : Type) where
  run : σ → σ × Res ε α

namespace Exec

variable {σ ε ε' α β : Type}

/-- Do nothing and return `a`. -/
def ret (a : α) : Exec σ ε α :=
  ⟨fun s => (s, .ok a)⟩

/-- Run `x`, and on a value continue with `f` from the state `x` left. -/
def bind (x : Exec σ ε α) (f : α → Exec σ ε β) : Exec σ ε β :=
  ⟨fun s =>
    match x.run s with
    | (s', .ok a) => (f a).run s'
    | (s', .err e) => (s', .err e)
    | (s', .panic) => (s', .panic)⟩

instance : Monad (Exec σ ε) where
  pure := ret
  bind := bind

/-- Return an error. -/
def fail (e : ε) : Exec σ ε α :=
  ⟨fun s => (s, .err e)⟩

/-- Panic. -/
def panic : Exec σ ε α :=
  ⟨fun s => (s, .panic)⟩

/-- Return the error `e` when `c` holds. -/
def failIf (c : Prop) [Decidable c] (e : ε) : Exec σ ε Unit :=
  if c then fail e else pure ()

/-- Panic unless `c` holds. -/
def assert (c : Prop) [Decidable c] : Exec σ ε Unit :=
  if c then pure () else panic

/-- Panic unless `c` holds, in a build with debug assertions; `dbg` says whether the
build has them. -/
def debugAssert (dbg : Bool) (c : Prop) [Decidable c] : Exec σ ε Unit :=
  if dbg = true ∧ ¬ c then panic else pure ()

/-- The current state. -/
def get : Exec σ ε σ :=
  ⟨fun s => (s, .ok s)⟩

/-- Replace the state. -/
def set (s' : σ) : Exec σ ε Unit :=
  ⟨fun _ => (s', .ok ())⟩

/-- Change the state by `f`. -/
def modify (f : σ → σ) : Exec σ ε Unit :=
  ⟨fun s => (f s, .ok ())⟩

/-- A stateless outcome as a computation. -/
def lift (x : Res ε α) : Exec σ ε α :=
  ⟨fun s => (s, x)⟩

/-- The computation `x` with its error converted. -/
def mapErr (f : ε → ε') (x : Exec σ ε α) : Exec σ ε' α :=
  ⟨fun s => ((x.run s).1, (x.run s).2.mapErr f)⟩

/-- The value of `x`; its error is a panic. -/
def expect (x : Exec σ ε α) : Exec σ ε' α :=
  ⟨fun s =>
    match x.run s with
    | (s', .ok a) => (s', .ok a)
    | (s', .err _) => (s', .panic)
    | (s', .panic) => (s', .panic)⟩

@[simp]
theorem run_pure (a : α) (s : σ) :
  (pure a : Exec σ ε α).run s = (s, .ok a)
  := rfl

@[simp]
theorem run_fail (e : ε) (s : σ) :
  (fail e : Exec σ ε α).run s = (s, .err e)
  := rfl

@[simp]
theorem run_panic (s : σ) :
  (panic : Exec σ ε α).run s = (s, .panic)
  := rfl

@[simp]
theorem run_get (s : σ) :
  (get : Exec σ ε σ).run s = (s, .ok s)
  := rfl

@[simp]
theorem run_set (s s' : σ) :
  (set s' : Exec σ ε Unit).run s = (s', .ok ())
  := rfl

@[simp]
theorem run_modify (f : σ → σ) (s : σ) :
  (modify f : Exec σ ε Unit).run s = (f s, .ok ())
  := rfl

@[simp]
theorem run_lift (x : Res ε α) (s : σ) :
  (lift x : Exec σ ε α).run s = (s, x)
  := rfl

@[simp]
theorem run_mapErr (f : ε → ε') (x : Exec σ ε α) (s : σ) :
  (mapErr f x).run s = ((x.run s).1, (x.run s).2.mapErr f)
  := rfl

@[simp]
theorem run_ite (c : Prop) [Decidable c] (x y : Exec σ ε α) (s : σ) :
  (if c then x else y).run s = if c then x.run s else y.run s
  := by
  split
  · rfl
  · rfl

/-- After a call that returns a value, a sequence continues from the state it left. -/
theorem run_bind_of_ok {x : Exec σ ε α} {f : α → Exec σ ε β} {s s' : σ} {a : α}
    (h : x.run s = (s', .ok a)) :
  (x >>= f).run s = (f a).run s'
  := by
  change (bind x f).run s = _
  simp only [bind, h]

/-- After a call that returns an error, a sequence returns it. -/
theorem run_bind_of_err {x : Exec σ ε α} {f : α → Exec σ ε β} {s s' : σ} {e : ε}
    (h : x.run s = (s', .err e)) :
  (x >>= f).run s = (s', .err e)
  := by
  change (bind x f).run s = _
  simp only [bind, h]

/-- After a call that panics, a sequence panics. -/
theorem run_bind_of_panic {x : Exec σ ε α} {f : α → Exec σ ε β} {s s' : σ}
    (h : x.run s = (s', .panic)) :
  (x >>= f).run s = (s', .panic)
  := by
  change (bind x f).run s = _
  simp only [bind, h]

/-- A sequence panics when its first call does. -/
theorem panic_of_bind {x : Exec σ ε α} {f : α → Exec σ ε β} {s : σ} (h : (x.run s).2 = .panic) :
  ((x >>= f).run s).2 = .panic
  := by
  have hx : x.run s = ((x.run s).1, .panic) := Prod.ext rfl h
  rw [run_bind_of_panic hx]

@[simp]
theorem run_bind (x : Exec σ ε α) (f : α → Exec σ ε β) (s : σ) :
  (x >>= f).run s =
    match x.run s with
    | (s', .ok a) => (f a).run s'
    | (s', .err e) => (s', .err e)
    | (s', .panic) => (s', .panic)
  := rfl

/-- A call whose value is returned as it is. -/
theorem run_bind_pure (x : Exec σ ε α) (s : σ) :
  (x >>= fun a => pure a).run s = x.run s
  := by
  rcases h : x.run s with ⟨t, a | e | _⟩
  · rw [run_bind_of_ok h, run_pure]
  · rw [run_bind_of_err h]
  · rw [run_bind_of_panic h]

/-- A sequence returns a value exactly when both of its calls do. -/
theorem run_bind_eq_ok {x : Exec σ ε α} {f : α → Exec σ ε β} {s s' : σ} {b : β} :
  (x >>= f).run s = (s', .ok b) ↔ ∃ t a, x.run s = (t, .ok a) ∧ (f a).run t = (s', .ok b)
  := by
  rcases h : x.run s with ⟨t, a | e | _⟩
  · rw [run_bind_of_ok h]
    simp
  · rw [run_bind_of_err h]
    simp
  · rw [run_bind_of_panic h]
    simp

/-- Two calls that succeed together, in front of a third. -/
theorem run_bind_bind_of_ok {γ : Type} {x : Exec σ ε α} {f : α → Exec σ ε β} {g : β → Exec σ ε γ}
    {s s' : σ} {b : β} (h : (x >>= f).run s = (s', .ok b)) :
  (x >>= fun a => f a >>= g).run s = (g b).run s'
  := by
  obtain ⟨s₁, a, hx, hf⟩ := run_bind_eq_ok.mp h
  rw [run_bind_of_ok hx, run_bind_of_ok hf]

@[simp]
theorem run_failIf_of {c : Prop} {_ : Decidable c} {e : ε} (h : c) (s : σ) :
  (failIf c e).run s = (s, .err e)
  := by
  simp [failIf, h]

@[simp]
theorem run_failIf_of_not {c : Prop} {_ : Decidable c} {e : ε} (h : ¬ c) (s : σ) :
  (failIf c e).run s = (s, .ok ())
  := by
  simp [failIf, h]

@[simp]
theorem run_assert_of {c : Prop} [Decidable c] (h : c) (s : σ) :
  (assert c : Exec σ ε Unit).run s = (s, .ok ())
  := by
  simp [assert, h]

@[simp]
theorem run_assert_of_not {c : Prop} [Decidable c] (h : ¬ c) (s : σ) :
  (assert c : Exec σ ε Unit).run s = (s, .panic)
  := by
  simp [assert, h]

@[simp]
theorem run_debugAssert_of {dbg : Bool} {c : Prop} [Decidable c] (h : c) (s : σ) :
  (debugAssert dbg c : Exec σ ε Unit).run s = (s, .ok ())
  := by
  simp [debugAssert, h]

@[simp]
theorem run_debugAssert_false (c : Prop) [Decidable c] (s : σ) :
  (debugAssert false c : Exec σ ε Unit).run s = (s, .ok ())
  := by
  simp [debugAssert]

/-- A condition that holds in a build with debug assertions. -/
theorem run_debugAssert_of_imp {dbg : Bool} {c : Prop} [Decidable c] (h : dbg = true → c) (s : σ) :
  (debugAssert dbg c : Exec σ ε Unit).run s = (s, .ok ())
  := by
  cases dbg with
  | false => rfl
  | true => exact run_debugAssert_of (h rfl) s

theorem run_debugAssert_of_not {c : Prop} [Decidable c] (h : ¬ c) (s : σ) :
  (debugAssert true c : Exec σ ε Unit).run s = (s, .panic)
  := by
  simp [debugAssert, h]

theorem run_mapErr_of_ok {f : ε → ε'} {x : Exec σ ε α} {s s' : σ} {a : α}
    (h : x.run s = (s', .ok a)) :
  (mapErr f x).run s = (s', .ok a)
  := by
  rw [run_mapErr, h]
  rfl

theorem run_expect_of_ok {x : Exec σ ε α} {s s' : σ} {a : α} (h : x.run s = (s', .ok a)) :
  (expect x : Exec σ ε' α).run s = (s', .ok a)
  := by
  simp only [expect, h]

/-! ### Computations on a part of the state -/

/-- A part `τ` of a state `σ` that can be read and replaced. -/
structure Part (σ τ : Type) where
  get : σ → τ
  set : σ → τ → σ
  get_set : ∀ s t, get (set s t) = t
  set_get : ∀ s, set s (get s) = s

/-- The whole state. -/
def Part.whole : Part σ σ := { get := id, set := fun _ s => s, get_set := by simp, set_get := by simp }

section Focus

variable {τ : Type}

/-- Run a computation on a part of the state. -/
def focus (part : Part σ τ) (x : Exec τ ε α) : Exec σ ε α :=
  ⟨fun s => (part.set s (x.run (part.get s)).1, (x.run (part.get s)).2)⟩

theorem run_focus {part : Part σ τ} {x : Exec τ ε α} {s : σ} {t : τ} {res : Res ε α}
    (h : x.run (part.get s) = (t, res)) :
  (focus part x).run s = (part.set s t, res)
  := by
  simp only [focus, h]

/-- A computation that leaves its part as it is leaves the whole state as it is. -/
theorem run_focus_same {part : Part σ τ} {x : Exec τ ε α} {s : σ} {res : Res ε α}
    (h : x.run (part.get s) = (part.get s, res)) :
  (focus part x).run s = (s, res)
  := by
  rw [run_focus h, part.set_get]

end Focus

/-- Run `x` and return its value or its error. -/
def attempt (x : Exec σ ε α) : Exec σ ε' (Except ε α) :=
  ⟨fun s =>
    match x.run s with
    | (s', .ok a) => (s', .ok (.ok a))
    | (s', .err e) => (s', .ok (.error e))
    | (s', .panic) => (s', .panic)⟩

theorem run_attempt_of_ok {x : Exec σ ε α} {s s' : σ} {a : α} (h : x.run s = (s', .ok a)) :
  (attempt x : Exec σ ε' (Except ε α)).run s = (s', .ok (.ok a))
  := by
  simp only [attempt, h]

theorem run_attempt_of_err {x : Exec σ ε α} {s s' : σ} {e : ε} (h : x.run s = (s', .err e)) :
  (attempt x : Exec σ ε' (Except ε α)).run s = (s', .ok (.error e))
  := by
  simp only [attempt, h]

/-! ### Computations that never panic -/

/-- `x` panics from no state. -/
def Total (x : Exec σ ε α) : Prop := ∀ s, (x.run s).2 ≠ .panic

theorem total_pure (a : α) : Total (pure a : Exec σ ε α) := fun _ h => by cases h

theorem total_fail (e : ε) : Total (fail e : Exec σ ε α) := fun _ h => by cases h

theorem total_get : Total (get : Exec σ ε σ) := fun _ h => by cases h

theorem total_set (s' : σ) : Total (set s' : Exec σ ε Unit) := fun _ h => by cases h

theorem total_modify (f : σ → σ) : Total (modify f : Exec σ ε Unit) := fun _ h => by cases h

theorem total_failIf (c : Prop) [Decidable c] (e : ε) :
  Total (failIf c e : Exec σ ε Unit)
  := by
  by_cases hc : c
  · rw [failIf, if_pos hc]
    apply total_fail
  · rw [failIf, if_neg hc]
    apply total_pure

theorem Total.bind {x : Exec σ ε α} {f : α → Exec σ ε β} (hx : Total x) (hf : ∀ a, Total (f a)) :
  Total (x >>= f)
  := by
  intro s
  rcases h : x.run s with ⟨t, a | e | _⟩
  · rw [run_bind_of_ok h]
    apply hf a
  · rw [run_bind_of_err h]
    simp
  · exact absurd (by rw [h]) (hx s)

theorem Total.ite {c : Prop} [Decidable c] {x y : Exec σ ε α} (hx : Total x) (hy : Total y) :
  Total (if c then x else y)
  := by
  split
  · exact hx
  · exact hy

/-! ### Parts of the state that a computation leaves alone -/

section Keeps

variable {τ : Type} {f : σ → τ}

/-- The computation `x` returns a value and does not change the part `f` of the state. -/
def Keeps (f : σ → τ) (x : Exec σ ε α) : Prop := ∀ s, ∃ t a, x.run s = (t, .ok a) ∧ f t = f s

theorem keeps_pure (a : α) : Keeps f (pure a : Exec σ ε α) := fun s => ⟨s, a, rfl, rfl⟩

theorem keeps_get : Keeps f (get : Exec σ ε σ) := fun s => ⟨s, s, rfl, rfl⟩

theorem keeps_modify {g : σ → σ} (h : ∀ s, f (g s) = f s) : Keeps f (modify g : Exec σ ε Unit) :=
  fun s => ⟨g s, (), rfl, h s⟩

/-- A sequence leaves alone what both of its parts leave alone. -/
theorem Keeps.bind {x : Exec σ ε α} {g : α → Exec σ ε β} (hx : Keeps f x)
    (hg : ∀ a, Keeps f (g a)) :
  Keeps f (x >>= g)
  := by
  intro s
  obtain ⟨t, a, hrun, hkeep⟩ := hx s
  obtain ⟨u, b, hrun', hkeep'⟩ := hg a t
  exact ⟨u, b, (run_bind_of_ok hrun).trans hrun', hkeep'.trans hkeep⟩

theorem Keeps.forM {xs : List α} {g : α → Exec σ ε PUnit} (h : ∀ a, Keeps f (g a)) :
  Keeps f (xs.forM g)
  := by
  induction xs with
  | nil => exact keeps_pure _
  | cons x xs ih => exact (h x).bind fun _ => ih

/-- What is left alone, in the state that the computation leaves behind. -/
theorem Keeps.eq {x : Exec σ ε α} (h : Keeps f x) (s : σ) :
  f (x.run s).1 = f s
  := by
  obtain ⟨t, a, hrun, hkeep⟩ := h s
  rw [hrun]
  exact hkeep

end Keeps

end Exec
