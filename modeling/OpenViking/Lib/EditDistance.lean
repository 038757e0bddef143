/-
# `OpenViking.Lib.EditDistance` — the least number of edits between two lists

An edit inserts, deletes or substitutes one element anywhere in a list (`Edit`), and `Edits n`
is a chain of `n` of them.  `distance` is the recursion on first elements; `isLeast_distance`
says that it is the least length of a chain.  The lower bound rests on one fact: an edit of
the first list changes the distance to any other list by at most one (`distance_le_of_edit`).

Reading lists from the end changes nothing, so the same recursion holds for last elements
(`distance_concat`), which is the form in which tables over prefixes are filled.
-/
import Mathlib.Data.List.Basic
import Mathlib.Order.Bounds.Basic
import Mathlib.Order.MinMax

namespace OpenViking.Lib.EditDistance

variable {α : Type}

/-- One insertion, deletion or substitution -/
inductive Edit : List α → List α → Prop
  | insert (front back : List α) (x : α) : Edit (front ++ back) (front ++ x :: back)
  | delete (front back : List α) (x : α) : Edit (front ++ x :: back) (front ++ back)
  | substitute (front back : List α) (x y : α) : Edit (front ++ x :: back) (front ++ y :: back)

/-- A chain of edits -/
inductive Edits : Nat → List α → List α → Prop
  | refl (s : List α) : Edits 0 s s
  | step {n : Nat} {s t u : List α} : Edit s t → Edits n t u → Edits (n + 1) s u

theorem Edit.cons {s t : List α} (h : Edit s t) (x : α) : Edit (x :: s) (x :: t) := by
  cases h with
  | insert front back y => exact .insert (x :: front) back y
  | delete front back y => exact .delete (x :: front) back y
  | substitute front back y z => exact .substitute (x :: front) back y z

theorem Edit.symm {s t : List α} (h : Edit s t) : Edit t s := by
  cases h with
  | insert front back x => exact .delete front back x
  | delete front back x => exact .insert front back x
  | substitute front back x y => exact .substitute front back y x

theorem Edit.reverse {s t : List α} (h : Edit s t) : Edit s.reverse t.reverse := by
  cases h with
  | insert front back x =>
      rw [List.reverse_append, List.reverse_append, List.reverse_cons, List.append_assoc]
      exact .insert back.reverse front.reverse x
  | delete front back x =>
      rw [List.reverse_append, List.reverse_append, List.reverse_cons, List.append_assoc]
      exact .delete back.reverse front.reverse x
  | substitute front back x y =>
      rw [List.reverse_append, List.reverse_append, List.reverse_cons, List.reverse_cons,
        List.append_assoc, List.append_assoc]
      exact .substitute back.reverse front.reverse x y

namespace Edits

theorem cons {n : Nat} {s t : List α} (h : Edits n s t) (x : α) : Edits n (x :: s) (x :: t) := by
  induction h with
  | refl s => exact .refl _
  | step hedit _ ih => exact .step (hedit.cons x) ih

theorem concat {n : Nat} {s t u : List α} (h : Edits n s t) (hedit : Edit t u) :
    Edits (n + 1) s u := by
  induction h with
  | refl s => exact .step hedit (.refl u)
  | step hfirst _ ih => exact .step hfirst (ih hedit)

theorem symm {n : Nat} {s t : List α} (h : Edits n s t) : Edits n t s := by
  induction h with
  | refl s => exact .refl s
  | step hedit _ ih => exact ih.concat hedit.symm

theorem reverse {n : Nat} {s t : List α} (h : Edits n s t) : Edits n s.reverse t.reverse := by
  induction h with
  | refl s => exact .refl _
  | step hedit _ ih => exact .step hedit.reverse ih

end Edits

variable [DecidableEq α]

/-- By the first elements: delete one, insert the other, or keep or substitute them -/
def distance : List α → List α → Nat
  | [], t => t.length
  | x :: s, [] => s.length + 1
  | x :: s, y :: t =>
      min (min (distance s (y :: t) + 1) (distance (x :: s) t + 1))
        (distance s t + if x = y then 0 else 1)

@[simp] theorem distance_nil_left (t : List α) : distance [] t = t.length := by
  rw [distance]

@[simp] theorem distance_nil_right (s : List α) : distance s [] = s.length := by
  cases s with
  | nil => exact distance_nil_left []
  | cons x s => rw [distance, List.length_cons]

theorem distance_cons (x y : α) (s t : List α) :
    distance (x :: s) (y :: t) =
      min (min (distance s (y :: t) + 1) (distance (x :: s) t + 1))
        (distance s t + if x = y then 0 else 1) := by
  rw [distance]

/-! ## A chain of that length -/

omit [DecidableEq α] in
theorem edits_length (t : List α) : Edits t.length [] t := by
  induction t with
  | nil => exact .refl []
  | cons x t ih => exact ih.concat (.insert [] t x)

theorem edits_distance (s t : List α) : Edits (distance s t) s t := by
  induction s, t using distance.induct with
  | case1 t =>
      rw [distance_nil_left]
      exact edits_length t
  | case2 x s =>
      rw [distance_nil_right]
      exact (edits_length (x :: s)).symm
  | case3 x s y t ihDelete ihInsert ihKeep =>
      rw [distance_cons]
      rcases min_choice (min (distance s (y :: t) + 1) (distance (x :: s) t + 1))
        (distance s t + if x = y then 0 else 1) with hmin | hmin
      · rw [hmin]
        rcases min_choice (distance s (y :: t) + 1) (distance (x :: s) t + 1) with hmin | hmin
        · rw [hmin]
          exact .step (.delete [] s x) ihDelete
        · rw [hmin]
          exact ihInsert.concat (.insert [] t y)
      · rw [hmin]
        by_cases hxy : x = y
        · subst hxy
          rw [if_pos rfl]
          exact ihKeep.cons x
        · rw [if_neg hxy]
          exact .step (.substitute [] s x y) (ihKeep.cons y)

/-! ## No chain is shorter -/

theorem distance_cons_left_le (x : α) (s t : List α) : distance (x :: s) t ≤ distance s t + 1 := by
  cases t with
  | nil => simp
  | cons y t =>
      rw [distance_cons]
      exact (min_le_left _ _).trans (min_le_left _ _)

theorem distance_cons_right_le (s : List α) (y : α) (t : List α) :
    distance s (y :: t) ≤ distance s t + 1 := by
  cases s with
  | nil => simp
  | cons x s =>
      rw [distance_cons]
      exact (min_le_left _ _).trans (min_le_right _ _)

theorem distance_cons_cons_le (x y : α) (s t : List α) :
    distance (x :: s) (y :: t) ≤ distance s t + if x = y then 0 else 1 := by
  rw [distance_cons]
  exact min_le_right _ _

/-- Below all three ways is below the distance. -/
theorem le_distance_cons {n : Nat} {x y : α} {s t : List α} (hdelete : n ≤ distance s (y :: t) + 1)
    (hinsert : n ≤ distance (x :: s) t + 1)
    (hkeep : n ≤ distance s t + if x = y then 0 else 1) : n ≤ distance (x :: s) (y :: t) := by
  rw [distance_cons]
  exact le_min (le_min hdelete hinsert) hkeep

theorem distance_le_cons_left (x : α) (s t : List α) : distance s t ≤ distance (x :: s) t + 1 := by
  induction t with
  | nil =>
      rw [distance_nil_right, distance_nil_right, List.length_cons]
      omega
  | cons y t ih =>
      have hright := distance_cons_right_le s y t
      have hbelow : distance s (y :: t) - 1 ≤ distance (x :: s) (y :: t) := by
        refine le_distance_cons ?_ ?_ ?_
        · omega
        · omega
        · omega
      omega

theorem distance_substitute_le (x y : α) (s t : List α) :
    distance (x :: s) t ≤ distance (y :: s) t + 1 := by
  induction t with
  | nil => simp
  | cons z t ih =>
      have hleft := distance_cons_left_le x s (z :: t)
      have hright := distance_cons_right_le (x :: s) z t
      have hkeep := distance_cons_cons_le x z s t
      have hone : (if x = z then 0 else 1) ≤ 1 := by split <;> omega
      have hbelow : distance (x :: s) (z :: t) - 1 ≤ distance (y :: s) (z :: t) := by
        refine le_distance_cons ?_ ?_ ?_
        · omega
        · omega
        · omega
      omega

/-- What is in front of an edit does not matter. -/
theorem distance_cons_mono {s s' : List α} (h : ∀ t, distance s t ≤ distance s' t + 1) (x : α)
    (t : List α) : distance (x :: s) t ≤ distance (x :: s') t + 1 := by
  induction t with
  | nil =>
      have hnil := h []
      rw [distance_nil_right, distance_nil_right] at hnil
      rw [distance_nil_right, distance_nil_right, List.length_cons, List.length_cons]
      omega
  | cons y t ih =>
      have hdelete := h (y :: t)
      have hkeep := h t
      have hleft := distance_cons_left_le x s (y :: t)
      have hright := distance_cons_right_le (x :: s) y t
      have hboth := distance_cons_cons_le x y s t
      have hbelow : distance (x :: s) (y :: t) - 1 ≤ distance (x :: s') (y :: t) := by
        refine le_distance_cons ?_ ?_ ?_
        · omega
        · omega
        · omega
      omega

theorem distance_append_mono {s s' : List α} (h : ∀ t, distance s t ≤ distance s' t + 1)
    (front t : List α) : distance (front ++ s) t ≤ distance (front ++ s') t + 1 := by
  induction front generalizing t with
  | nil => exact h t
  | cons x front ih => exact distance_cons_mono ih x t

/-- An edit changes the distance by at most one. -/
theorem distance_le_of_edit {s s' : List α} (h : Edit s s') (t : List α) :
    distance s t ≤ distance s' t + 1 := by
  cases h with
  | insert front back x => exact distance_append_mono (distance_le_cons_left x back) front t
  | delete front back x => exact distance_append_mono (distance_cons_left_le x back) front t
  | substitute front back x y =>
      exact distance_append_mono (distance_substitute_le x y back) front t

theorem distance_self (s : List α) : distance s s = 0 := by
  induction s with
  | nil => exact distance_nil_left []
  | cons x s ih =>
      have hle := distance_cons_cons_le x x s s
      rw [ih, if_pos rfl] at hle
      omega

theorem distance_le_of_edits {n : Nat} {s t : List α} (h : Edits n s t) : distance s t ≤ n := by
  induction h with
  | refl s => rw [distance_self]
  | @step n s t u hedit _ ih =>
      have hle := distance_le_of_edit hedit u
      omega

/-- The distance is the least number of edits. -/
theorem isLeast_distance (s t : List α) : IsLeast { n | Edits n s t } (distance s t) :=
  ⟨edits_distance s t, fun _ h => distance_le_of_edits h⟩

/-! ## Symmetries -/

theorem distance_comm (s t : List α) : distance s t = distance t s :=
  le_antisymm (distance_le_of_edits (edits_distance t s).symm)
    (distance_le_of_edits (edits_distance s t).symm)

theorem distance_reverse (s t : List α) : distance s.reverse t.reverse = distance s t := by
  refine le_antisymm (distance_le_of_edits (edits_distance s t).reverse) ?_
  have hback := (edits_distance s.reverse t.reverse).reverse
  rw [List.reverse_reverse, List.reverse_reverse] at hback
  exact distance_le_of_edits hback

/-- The recursion on the last elements -/
theorem distance_concat (s t : List α) (x y : α) :
    distance (s ++ [x]) (t ++ [y]) =
      min (min (distance s (t ++ [y]) + 1) (distance (s ++ [x]) t + 1))
        (distance s t + if x = y then 0 else 1) := by
  have hx : (s ++ [x]).reverse = x :: s.reverse := List.reverse_concat
  have hy : (t ++ [y]).reverse = y :: t.reverse := List.reverse_concat
  rw [← distance_reverse (s ++ [x]) (t ++ [y]), hx, hy, distance_cons, ← hx, ← hy, distance_reverse,
    distance_reverse, distance_reverse]

end OpenViking.Lib.EditDistance
