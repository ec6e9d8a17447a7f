import Mathlib

/-!
# Common lemmas

Outcomes in sequence and texts split at a property, as the proofs about the lexer and the evaluator
share them.

The runs on fixed inputs that stand beside the theorems are evaluated by `cbv`, which unfolds each
function by its equation lemmas and makes those that it does not find. Mathlib has some of them
already and is imported whole here, so that no module makes them again.
-/

namespace ConfigExpr

theorem bind_eq_ok_iff {ε α β : Type} {x : Except ε α} {f : α → Except ε β} {b : β} :
    x >>= f = .ok b ↔ ∃ a, x = .ok a ∧ f a = .ok b := by
  cases x with
  | error e =>
    refine iff_of_false (fun h => ?_) (by simp)
    cases h
  | ok a => exact ⟨fun h => ⟨a, rfl, h⟩, by rintro ⟨_, ⟨⟩, h⟩; exact h⟩

/-- Characters with a property up to one without it are split off where they end. -/
theorem takeWhile_dropWhile_append {f : Char → Bool} {cs rest : List Char}
    (hcs : ∀ c ∈ cs, f c = true) (hrest : ∀ c ∈ rest.head?, f c = false) :
    (cs ++ rest).takeWhile f = cs ∧ (cs ++ rest).dropWhile f = rest := by
  rw [List.takeWhile_append_of_pos hcs, List.dropWhile_append_of_pos hcs]
  cases rest with
  | nil => simp
  | cons c rest => simp [hrest c rfl]

theorem head?_dropWhile_eq_false {p : Char → Bool} {cs : List Char} :
    ∀ c ∈ (cs.dropWhile p).head?, p c = false := by
  intro c hc
  have hhead := List.head?_dropWhile_not p cs
  rw [hc] at hhead
  simpa using hhead

theorem forall_mem_cons_takeWhile {p : Char → Bool} {c : Char} (hc : p c = true) (cs : List Char) :
    ∀ u ∈ c :: cs.takeWhile p, p u = true :=
  List.forall_mem_cons.2 ⟨hc, fun _ => List.mem_takeWhile_imp⟩

end ConfigExpr
