import Mathlib.Data.List.Induction

/-!
# Items that need an earlier one

Some items of a log need another item in front of them: a use needs an introduction.
-/

namespace Log

variable {α : Type} {needs : α → Prop} {serves : α → α → Prop} {l : List α}

/-- Each item that needs one has an item in front of it that serves it. -/
def Preceded (needs : α → Prop) (serves : α → α → Prop) (l : List α) : Prop :=
  ∀ front x back, l = front ++ x :: back → needs x → ∃ y ∈ front, serves y x

theorem preceded_nil : Preceded needs serves ([] : List α)
  := by
  intro front x back h
  exact absurd h.symm (List.append_ne_nil_of_right_ne_nil _ (List.cons_ne_nil _ _))

/-- The last item is served by the others. -/
theorem Preceded.concat (h : Preceded needs serves l) {x : α}
    (hx : needs x → ∃ y ∈ l, serves y x) :
  Preceded needs serves (l ++ [x])
  := by
  intro front z back heq hz
  rcases List.eq_nil_or_concat back with rfl | ⟨rest, last, rfl⟩
  · obtain ⟨rfl, hsingle⟩ := List.append_inj' heq rfl
    rw [List.singleton_inj] at hsingle
    subst hsingle
    exact hx hz
  · rw [List.concat_eq_append, ← List.cons_append, ← List.append_assoc] at heq
    obtain ⟨rfl, _⟩ := List.append_inj' heq rfl
    exact h front z rest rfl hz

/-- Each item that needs one is served by some item. -/
theorem Preceded.exists_of_mem (h : Preceded needs serves l) {x : α} (hmem : x ∈ l)
    (hx : needs x) :
  ∃ y ∈ l, serves y x
  := by
  obtain ⟨front, back, rfl⟩ := List.append_of_mem hmem
  obtain ⟨y, hy, hserves⟩ := h front x back rfl hx
  exact ⟨y, List.mem_append_left _ hy, hserves⟩

/-- Items of which only some are looked at, each through a part of it. -/
theorem Preceded.of_filterMap {β : Type} {f : β → Option α} {items front back : List β} {x : β}
    {a : α} (h : Preceded needs serves (items.filterMap f)) (heq : items = front ++ x :: back)
    (ha : f x = some a) (hneeds : needs a) :
  ∃ y ∈ front, ∃ b, f y = some b ∧ serves b a
  := by
  rw [heq, List.filterMap_append, List.filterMap_cons_some ha] at h
  obtain ⟨b, hb, hserves⟩ := h _ a _ rfl hneeds
  obtain ⟨y, hy, hf⟩ := List.mem_filterMap.mp hb
  exact ⟨y, hy, b, hf, hserves⟩

end Log
