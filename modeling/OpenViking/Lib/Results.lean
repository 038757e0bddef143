/-
# `OpenViking.Lib.Results` — chains of steps that may fail

What a chain of `Except` steps returned tells what each step returned; these are
the lemmas proofs take such a chain apart with.
-/
import Mathlib.Data.List.Forall2

namespace OpenViking.Lib

variable {ε α β : Type}

theorem ok_bind (a : α) (f : α → Except ε β) : (Except.ok a >>= f) = f a := rfl

/-- A result comes from the results of both steps. -/
theorem bind_eq_ok {x : Except ε α} {f : α → Except ε β} {b : β} :
    (x >>= f) = .ok b ↔ ∃ a, x = .ok a ∧ f a = .ok b := by
  cases x with
  | error e =>
      refine iff_of_false ?_ ?_
      · intro h
        cases h
      · rintro ⟨a, h, -⟩
        cases h
  | ok a => simp [ok_bind]

/-- What came out stems from an element, and each element gave something. -/
theorem mem_of_mapM_eq_ok {f : α → Except ε β} {xs : List α} {ys : List β}
    (h : xs.mapM f = .ok ys) :
    (∀ y ∈ ys, ∃ x ∈ xs, f x = .ok y) ∧ ∀ x ∈ xs, ∃ y ∈ ys, f x = .ok y := by
  induction xs generalizing ys with
  | nil =>
      cases h
      simp
  | cons x xs ih =>
      rw [List.mapM_cons] at h
      obtain ⟨y, hy, h⟩ := bind_eq_ok.mp h
      obtain ⟨rest, hrest, h⟩ := bind_eq_ok.mp h
      cases h
      obtain ⟨hleft, hright⟩ := ih hrest
      constructor
      · intro z hz
        rcases List.mem_cons.mp hz with rfl | hz
        · exact ⟨x, List.mem_cons_self, hy⟩
        · obtain ⟨w, hw, hf⟩ := hleft z hz
          exact ⟨w, List.mem_cons_of_mem _ hw, hf⟩
      · intro w hw
        rcases List.mem_cons.mp hw with rfl | hw
        · exact ⟨y, List.mem_cons_self, hy⟩
        · obtain ⟨z, hz, hf⟩ := hright w hw
          exact ⟨z, List.mem_cons_of_mem _ hz, hf⟩

/-- Each value of a list of results comes from the element at its place. -/
theorem forall₂_of_mapM_eq_ok {f : α → Except ε β} {xs : List α} {ys : List β}
    (h : xs.mapM f = .ok ys) : List.Forall₂ (fun x y => f x = .ok y) xs ys := by
  induction xs generalizing ys with
  | nil =>
      obtain rfl := Except.ok.inj h
      exact .nil
  | cons x xs ih =>
      rw [List.mapM_cons] at h
      obtain ⟨y, hy, h⟩ := bind_eq_ok.mp h
      obtain ⟨rest, hrest, h⟩ := bind_eq_ok.mp h
      obtain rfl := Except.ok.inj h
      exact .cons hy (ih hrest)

end OpenViking.Lib
