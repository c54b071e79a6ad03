import DetGuest.Lib.Exec

/-!
# Hoare triples

What holds behind a computation, given what holds before it.  There is one condition for its value
and one for every other outcome.
-/

namespace Exec

variable {σ ε ε' α β : Type}

/-- From a state in `P` the computation ends with a value, in `Q`, or else in a state in `E`. -/
def Triple (P : σ → Prop) (x : Exec σ ε α) (Q : α → σ → Prop) (E : σ → Prop) : Prop :=
  ∀ s, P s → match x.run s with
    | (s', .ok a) => Q a s'
    | (s', _) => E s'

section Rules

variable {P P' : σ → Prop} {Q Q' : α → σ → Prop} {R : β → σ → Prop} {E E' : σ → Prop}
  {x : Exec σ ε α} {f : α → Exec σ ε β} {s s' : σ} {a : α}

/-- What holds behind a computation that returns a value. -/
theorem Triple.of_ok (h : Triple P x Q E) (hs : P s) (hrun : x.run s = (s', .ok a)) :
  Q a s'
  := by
  have hpost := h s hs
  rw [hrun] at hpost
  exact hpost

/-- A computation whose outcome is known. -/
theorem triple_of_run (h : ∀ s, P s → ∃ s' a, x.run s = (s', .ok a) ∧ Q a s') :
  Triple P x Q E
  := by
  intro s hs
  obtain ⟨s', a, hrun, hpost⟩ := h s hs
  rw [hrun]
  exact hpost

theorem Triple.conseq (h : Triple P x Q E) (hpre : ∀ s, P' s → P s)
    (hpost : ∀ a s, Q a s → Q' a s) (helse : ∀ s, E s → E' s) :
  Triple P' x Q' E'
  := by
  intro s hs
  have hend := h s (hpre s hs)
  rcases hrun : x.run s with ⟨s', a | e | _⟩ <;> rw [hrun] at hend
  · exact hpost a s' hend
  · exact helse s' hend
  · exact helse s' hend

/-- A triple for every state in the precondition. -/
theorem triple_forall (h : ∀ s₀, P s₀ → Triple (fun s => s = s₀) x Q E) :
  Triple P x Q E
  := by
  intro s hs
  exact h s hs s rfl

theorem Triple.pre (h : Triple P x Q E) (hpre : ∀ s, P' s → P s) :
  Triple P' x Q E
  := h.conseq hpre (fun _ _ h => h) (fun _ h => h)

theorem Triple.post (h : Triple P x Q E) (hpost : ∀ a s, Q a s → Q' a s) :
  Triple P x Q' E
  := h.conseq (fun _ h => h) hpost (fun _ h => h)

theorem triple_pure (h : ∀ s, P s → Q a s) :
  Triple P (pure a : Exec σ ε α) Q E
  := h

theorem triple_fail {e : ε} (h : ∀ s, P s → E s) :
  Triple P (fail e : Exec σ ε α) Q E
  := h

theorem triple_panic (h : ∀ s, P s → E s) :
  Triple P (panic : Exec σ ε α) Q E
  := h

theorem triple_get {R : σ → σ → Prop} (h : ∀ s, P s → R s s) :
  Triple P (get : Exec σ ε σ) R E
  := h

theorem triple_modify {g : σ → σ} {R : Unit → σ → Prop} (h : ∀ s, P s → R () (g s)) :
  Triple P (modify g : Exec σ ε Unit) R E
  := h

theorem triple_lift {r : Res ε α} (hok : ∀ a s, r = .ok a → P s → Q a s) (helse : ∀ s, P s → E s) :
  Triple P (lift r) Q E
  := by
  intro s hs
  cases r with
  | ok a => exact hok a s rfl hs
  | err e => exact helse s hs
  | panic => exact helse s hs

theorem triple_failIf {c : Prop} {_ : Decidable c} {e : ε} {R : Unit → σ → Prop}
    (hok : ∀ s, P s → ¬ c → R () s) (helse : ∀ s, P s → c → E s) :
  Triple P (failIf c e) R E
  := by
  intro s hs
  by_cases hc : c
  · rw [run_failIf_of hc]
    exact helse s hs hc
  · rw [run_failIf_of_not hc]
    exact hok s hs hc

/-- A sequence. -/
theorem Triple.bind (hx : Triple P x Q E) (hf : ∀ a, Triple (Q a) (f a) R E) :
  Triple P (x >>= f) R E
  := by
  intro s hs
  have hmid := hx s hs
  rcases hrun : x.run s with ⟨s', a | e | _⟩ <;> rw [hrun] at hmid
  · rw [run_bind_of_ok hrun]
    exact hf a s' hmid
  · rw [run_bind_of_err hrun]
    exact hmid
  · rw [run_bind_of_panic hrun]
    exact hmid

/-- An error that becomes a value. -/
theorem Triple.attempt (h : Triple P x Q E) :
  Triple P (attempt x : Exec σ ε' (Except ε α))
    (fun r s => match r with
      | .ok a => Q a s
      | .error _ => E s) E
  := by
  intro s hs
  have hend := h s hs
  rcases hrun : x.run s with ⟨s', a | e | _⟩ <;> rw [hrun] at hend <;>
    simp only [Exec.attempt, hrun] <;> exact hend

theorem Triple.mapErr {g : ε → ε'} (h : Triple P x Q E) :
  Triple P (mapErr g x) Q E
  := by
  intro s hs
  have hend := h s hs
  rcases hrun : x.run s with ⟨s', a | e | _⟩ <;> rw [hrun] at hend <;>
    rw [run_mapErr, hrun] <;> exact hend

/-- A computation on a part of the state. -/
theorem triple_focus {τ : Type} {part : Part σ τ} {y : Exec τ ε α}
    (h : ∀ s, P s → match y.run (part.get s) with
      | (t, .ok a) => Q a (part.set s t)
      | (t, _) => E (part.set s t)) :
  Triple P (focus part y) Q E
  := by
  intro s hs
  have hend := h s hs
  rcases hrun : y.run (part.get s) with ⟨t, a | e | _⟩ <;> rw [hrun] at hend <;>
    rw [run_focus hrun] <;> exact hend

/-- What holds whatever a computation returns. -/
theorem Triple.always {I : σ → Prop} (h : Triple P x (fun _ => I) I) (hs : P s) :
  I (x.run s).1
  := by
  have hend := h s hs
  rcases hrun : x.run s with ⟨s', a | e | _⟩ <;> rw [hrun] at hend <;> exact hend

/-- A condition that holds behind a computation whatever it returns. -/
theorem triple_of_always {I : σ → Prop} (h : ∀ s, P s → I (x.run s).1) :
  Triple P x (fun _ => I) I
  := by
  intro s hs
  have hend := h s hs
  rcases hrun : x.run s with ⟨s', a | e | _⟩ <;> rw [hrun] at hend <;> exact hend

/-- A computation that never fails, and what holds behind it. -/
theorem Triple.returns (h : Triple P x Q (fun _ => False)) (hs : P s) :
  ∃ s' a, x.run s = (s', .ok a) ∧ Q a s'
  := by
  have hend := h s hs
  rcases hrun : x.run s with ⟨s', a | e | _⟩ <;> rw [hrun] at hend
  · exact ⟨s', a, rfl, hend⟩
  · exact hend.elim
  · exact hend.elim

end Rules

/-! ### The errors of a computation -/

section Errors

variable {P : ε → Prop} {P' : ε' → Prop} {x : Exec σ ε α} {f : α → Exec σ ε β}

/-- The errors of a computation. -/
def Fails (x : Exec σ ε α) (P : ε → Prop) : Prop :=
  ∀ s s' e, x.run s = (s', .err e) → P e

theorem fails_get : Fails (get : Exec σ ε σ) P
  := by
  intro s s' e h
  cases h

theorem fails_pure (a : α) : Fails (pure a : Exec σ ε α) P
  := by
  intro s s' e h
  cases h

theorem fails_failIf {c : Prop} {_ : Decidable c} {e : ε} (h : P e) : Fails (σ := σ) (failIf c e) P
  := by
  intro s s' e' hrun
  by_cases hc : c
  · rw [run_failIf_of hc] at hrun
    cases hrun
    exact h
  · rw [run_failIf_of_not hc] at hrun
    cases hrun

theorem fails_lift {r : Res ε α} (h : ∀ e, r = .err e → P e) : Fails (σ := σ) (lift r) P
  := by
  intro s s' e hrun
  exact h e (Prod.mk.inj hrun).2

/-- Errors that are converted. -/
theorem fails_mapErr {g : ε → ε'} (h : ∀ e, P' (g e)) : Fails (mapErr g x) P'
  := by
  intro s s' e hrun
  rw [run_mapErr] at hrun
  rcases hres : (x.run s).2 with a | e' | _ <;> rw [hres] at hrun <;> cases hrun
  exact h e'

theorem fails_expect : Fails (expect x : Exec σ ε' α) P'
  := by
  intro s s' e hrun
  simp only [expect] at hrun
  split at hrun <;> cases hrun

theorem Fails.bind (hx : Fails x P) (hf : ∀ a, Fails (f a) P) : Fails (x >>= f) P
  := by
  intro s s' e hrun
  rcases hres : x.run s with ⟨t, a | e' | _⟩
  · rw [run_bind_of_ok hres] at hrun
    exact hf a t s' e hrun
  · rw [run_bind_of_err hres] at hrun
    cases hrun
    exact hx s _ _ hres
  · rw [run_bind_of_panic hres] at hrun
    cases hrun

end Errors

/-! ### Projections of the state -/

section Projections

variable {τ : Type} {p : σ → τ}

/-- The computation `y` does to the projection of a state what `x` does to the state. -/
def Projects (p : σ → τ) (x : Exec σ ε α) (y : Exec τ ε α) : Prop :=
  ∀ s, y.run (p s) = (p (x.run s).1, (x.run s).2)

theorem projects_pure (a : α) :
  Projects p (pure a : Exec σ ε α) (pure a)
  := fun _ => rfl

theorem projects_fail (e : ε) :
  Projects p (fail e : Exec σ ε α) (fail e)
  := fun _ => rfl

theorem Projects.bind {x : Exec σ ε α} {y : Exec τ ε α} {f : α → Exec σ ε β} {g : α → Exec τ ε β}
    (hx : Projects p x y) (hf : ∀ a, Projects p (f a) (g a)) :
  Projects p (x >>= f) (y >>= g)
  := by
  intro s
  have hrun := hx s
  rcases hx : x.run s with ⟨s', a | e | _⟩ <;> rw [hx] at hrun
  · rw [run_bind_of_ok hx, run_bind_of_ok hrun]
    exact hf a s'
  · rw [run_bind_of_err hx, run_bind_of_err hrun]
  · rw [run_bind_of_panic hx, run_bind_of_panic hrun]

theorem projects_ite {c : Prop} [Decidable c] {x x' : Exec σ ε α} {y y' : Exec τ ε α}
    (h : Projects p x y) (h' : Projects p x' y') :
  Projects p (if c then x else x') (if c then y else y')
  := by
  split
  · exact h
  · exact h'

end Projections

end Exec
