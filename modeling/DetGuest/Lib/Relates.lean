import DetGuest.Lib.Hoare
import Mathlib.Order.Defs.Unbundled

/-!
# Relations that computations keep to

A computation keeps to a relation when the state it leaves is related to the state before it,
whatever it returns.  A relation that is reflexive and transitive is kept to by a sequence of
computations that keep to it.
-/

namespace Exec

variable {σ τ ε ε' α β : Type} {R : σ → σ → Prop}

/-- The state behind the computation is related to the state before it. -/
def Relates (R : σ → σ → Prop) (x : Exec σ ε α) : Prop := ∀ s, R s (x.run s).1

variable {x : Exec σ ε α} {f : α → Exec σ ε β}

/-- Computations that run alike are equal. -/
theorem ext_run {y : Exec σ ε α} (h : ∀ s, x.run s = y.run s) :
  x = y
  := by
  cases x
  cases y
  congr
  funext s
  exact h s

theorem bind_assoc {γ : Type} (g : β → Exec σ ε γ) :
  (x >>= f) >>= g = x >>= fun a => f a >>= g
  := by
  apply ext_run
  intro s
  rcases hrun : x.run s with ⟨t, a | e | _⟩
  · rw [run_bind_of_ok hrun]
    simp only [run_bind, hrun]
  · rw [run_bind_of_err hrun, run_bind_of_err (run_bind_of_err hrun)]
  · rw [run_bind_of_panic hrun, run_bind_of_panic (run_bind_of_panic hrun)]

theorem pure_bind (a : α) :
  (pure a : Exec σ ε α) >>= f = f a
  := ext_run fun _ => rfl

theorem run_mapErr_of_panic {g : ε → ε'} {s s' : σ} (h : x.run s = (s', .panic)) :
  (mapErr g x).run s = (s', .panic)
  := by
  rw [run_mapErr, h]
  rfl

/-- Two lists of calls in a row. -/
theorem forM_append (xs ys : List α) (g : α → Exec σ ε PUnit) :
  (xs ++ ys).forM g = xs.forM g >>= fun _ => ys.forM g
  := by
  induction xs with
  | nil => exact (pure_bind (f := fun _ => ys.forM g) PUnit.unit).symm
  | cons x xs ih =>
      change (g x >>= fun _ => (xs ++ ys).forM g)
        = (g x >>= fun _ => xs.forM g) >>= fun _ => ys.forM g
      rw [ih, bind_assoc]

/-- The state behind a computation whose outcome is known. -/
theorem Relates.of_run {s s' : σ} {res : Res ε α} (h : Relates R x) (hrun : x.run s = (s', res)) :
  R s s'
  := by
  have hrel := h s
  rw [hrun] at hrel
  exact hrel

theorem relates_modify {g : σ → σ} (h : ∀ s, R s (g s)) :
  Relates R (modify g : Exec σ ε Unit)
  := h

theorem Relates.mapErr {g : ε → ε'} (h : Relates R x) :
  Relates R (mapErr g x)
  := h

/-- A computation on a part of the state. -/
theorem relates_focus {part : Part σ τ} {y : Exec τ ε α} {R' : τ → τ → Prop}
    (h : Relates R' y) (hpart : ∀ s t, R' (part.get s) t → R s (part.set s t)) :
  Relates R (focus part y)
  := fun s => hpart s _ (h (part.get s))

theorem Relates.mono {R' : σ → σ → Prop} (h : Relates R x) (hsub : ∀ s t, R s t → R' s t) :
  Relates R' x
  := fun s => hsub s _ (h s)

/-- A choice. -/
theorem Relates.ite {c : Prop} [Decidable c] {y : Exec σ ε α} (hx : Relates R x)
    (hy : Relates R y) :
  Relates R (if c then x else y)
  := by
  split
  · exact hx
  · exact hy

/-! ### Sequences -/

/-- A sequence whose parts keep to different relations. -/
theorem Relates.seq {A B : σ → σ → Prop} (hx : Relates A x) (hf : ∀ a, Relates B (f a))
    (hstop : ∀ s t, A s t → R s t) (hcomp : ∀ s t u, A s t → B t u → R s u) :
  Relates R (x >>= f)
  := by
  intro s
  have hfirst := hx s
  rcases hrun : x.run s with ⟨t, a | e | _⟩ <;> rw [hrun] at hfirst
  · rw [run_bind_of_ok hrun]
    exact hcomp s t _ hfirst (hf a t)
  · rw [run_bind_of_err hrun]
    exact hstop s t hfirst
  · rw [run_bind_of_panic hrun]
    exact hstop s t hfirst

section Preorder

variable [IsPreorder σ R]

theorem relates_pure (a : α) : Relates R (pure a : Exec σ ε α) := fun s => refl s

theorem relates_fail (e : ε) : Relates R (fail e : Exec σ ε α) := fun s => refl s

theorem relates_panic : Relates R (panic : Exec σ ε α) := fun s => refl s

theorem relates_get : Relates R (get : Exec σ ε σ) := fun s => refl s

theorem relates_lift (r : Res ε α) : Relates R (lift r : Exec σ ε α) := fun s => refl s

theorem relates_failIf {c : Prop} {_ : Decidable c} {e : ε} :
  Relates R (failIf c e : Exec σ ε Unit)
  := by
  by_cases hc : c
  · rw [failIf, if_pos hc]
    apply relates_fail
  · rw [failIf, if_neg hc]
    apply relates_pure

theorem Relates.bind (hx : Relates R x) (hf : ∀ a, Relates R (f a)) :
  Relates R (x >>= f)
  := hx.seq hf (fun _ _ h => h) fun _ _ _ h h' => trans_of R h h'

theorem relates_forM {xs : List α} {g : α → Exec σ ε PUnit} (h : ∀ a, Relates R (g a)) :
  Relates R (xs.forM g)
  := by
  induction xs with
  | nil => exact relates_pure _
  | cons x xs ih => exact (h x).bind fun _ => ih

end Preorder

end Exec
