import DetGuest.Lib.Relates

/-!
# Removing elements by their indices

Elements that are found at ascending indices are removed from the last one on, so that the indices
before it stay valid.  What is left is what a filter leaves.
-/

namespace Removal

variable {α ε : Type}

/-- `Vec::remove`, which panics beyond the end. -/
def remove (i : Nat) : Exec (List α) ε Unit :=
  ⟨fun xs => if i < xs.length then (xs.eraseIdx i, .ok ()) else (xs, .panic)⟩

/-- Remove the elements at ascending indices, the last one first. -/
def removeAll (is : List Nat) : Exec (List α) ε Unit := is.reverse.forM remove

/-- The indices, from `i` on, of the elements with a property. -/
def indices (p : α → Bool) (i : Nat) : List α → List Nat
  | [] => []
  | x :: xs => if p x then i :: indices p (i + 1) xs else indices p (i + 1) xs

/-- The elements with the property are removed, whatever is in front of them. -/
theorem run_removeAll_append (p : α → Bool) (front xs : List α) :
  (removeAll (indices p front.length xs) : Exec (List α) ε Unit).run (front ++ xs)
    = (front ++ xs.filter fun x => !p x, .ok ())
  := by
  induction xs generalizing front with
  | nil => rfl
  | cons x xs ih =>
      have hrest := ih (front ++ [x])
      rw [List.length_append, List.length_singleton, List.append_assoc, List.singleton_append,
        List.append_assoc, List.singleton_append] at hrest
      rw [indices]
      cases hx : p x with
      | false =>
          rw [if_neg Bool.false_ne_true, hrest, List.filter_cons_of_pos (by simp [hx])]
      | true =>
          have hlen : front.length < (front ++ x :: xs.filter fun x => !p x).length := by simp
          have herase : (front ++ x :: xs.filter fun x => !p x).eraseIdx front.length
              = front ++ xs.filter fun x => !p x := by
            rw [List.eraseIdx_append_of_length_le (Nat.le_refl _), Nat.sub_self]
            rfl
          rw [if_pos rfl, removeAll, List.reverse_cons, Exec.forM_append]
          refine (Exec.run_bind_of_ok hrest).trans ?_
          change (remove front.length >>= fun _ => pure ()).run _ = _
          rw [Exec.run_bind_pure]
          change (if _ then _ else _) = _
          rw [if_pos hlen, herase, List.filter_cons_of_neg (by simp [hx])]

/-- The elements with the property are removed, and no removal panics. -/
theorem run_removeAll (p : α → Bool) (xs : List α) :
  (removeAll (indices p 0 xs) : Exec (List α) ε Unit).run xs
    = (xs.filter fun x => !p x, .ok ())
  := run_removeAll_append p [] xs

end Removal
