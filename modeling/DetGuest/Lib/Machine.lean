import Mathlib.Data.List.Induction
import Mathlib.Tactic.Common

/-!
# Runs of a machine with outputs

A deterministic machine reads inputs one after the other and answers each of them.  A
property of a state and of the trace so far that one step preserves holds after every run.

Of a machine without outputs, a property may hold in all states of a run exactly when every step
of the run meets a condition.
-/

namespace Machine

variable {σ ι ο : Type}

/-- The state after a sequence of inputs, and the inputs with their answers. -/
def run (step : σ → ι → σ × ο) : σ → List ι → σ × List (ι × ο)
  | s, [] => (s, [])
  | s, i :: is =>
      let next := step s i
      let rest := run step next.1 is
      (rest.1, (i, next.2) :: rest.2)

/-- A property that holds at the start and is preserved by each step holds after every
run. -/
theorem run_induction {step : σ → ι → σ × ο} {P : σ → List (ι × ο) → Prop} {ok : ι → Prop}
    (hstep : ∀ s tr i, ok i → P s tr → P (step s i).1 (tr ++ [(i, (step s i).2)])) {s : σ}
    {tr : List (ι × ο)} (is : List ι) (hok : ∀ i ∈ is, ok i) (h : P s tr) :
  P (run step s is).1 (tr ++ (run step s is).2)
  := by
  induction is generalizing s tr with
  | nil => simpa [run] using h
  | cons i is ih =>
      have hnext := hstep s tr i (hok i (by simp)) h
      have hrest := ih (fun j hj => hok j (by simp [hj])) hnext
      rw [List.append_assoc] at hrest
      apply hrest

/-- A run over a sequence ends with the step of its last input. -/
theorem run_concat (step : σ → ι → σ × ο) (s : σ) (is : List ι) (i : ι) :
  run step s (is ++ [i])
    = ((step (run step s is).1 i).1,
        (run step s is).2 ++ [(i, (step (run step s is).1 i).2)])
  := by
  induction is generalizing s with
  | nil => rfl
  | cons j is ih => simp [run, ih]

/-- An invariant `J` gives `G`; a step that meets `C` keeps it, and one that does not leads to a
state that is not `G`.  Then all states of a run are `G` exactly when all its steps meet
`C`. -/
theorem always_iff {step : σ → ι → σ} {J G : σ → Prop} {C : σ → ι → Prop} {s : σ}
    (hstart : J s) (hgood : ∀ s, J s → G s)
    (hstep : ∀ s i, J s → C s i → J (step s i))
    (hbad : ∀ s i, J s → ¬ C s i → ¬ G (step s i)) (is : List ι) :
  (∀ front, front <+: is → G (front.foldl step s)) ↔
    ∀ front i, front ++ [i] <+: is → C (front.foldl step s) i
  := by
  have hconcat : ∀ front i, (front ++ [i]).foldl step s = step (front.foldl step s) i := by
    intro front i
    rw [List.foldl_append]
    rfl
  have hinv : (∀ front i, front ++ [i] <+: is → J (front.foldl step s) →
      C (front.foldl step s) i) → ∀ front, front <+: is → J (front.foldl step s) := by
    intro hok front
    induction front using List.reverseRecOn with
    | nil => exact fun _ => hstart
    | append_singleton front i ih =>
        intro hpre
        have hfront := ih ((List.prefix_append front [i]).trans hpre)
        rw [hconcat]
        exact hstep _ _ hfront (hok front i hpre hfront)
  constructor
  · intro hall
    have hok : ∀ front i, front ++ [i] <+: is → J (front.foldl step s) →
        C (front.foldl step s) i := by
      intro front i hpre hfront
      by_contra hnot
      have hend := hall _ hpre
      rw [hconcat] at hend
      exact hbad _ _ hfront hnot hend
    intro front i hpre
    exact hok front i hpre (hinv hok front ((List.prefix_append front [i]).trans hpre))
  · intro hok front hpre
    exact hgood _ (hinv (fun front i hpre _ => hok front i hpre) front hpre)

end Machine
