/-
# `OpenViking.Lib.ReadAhead` — items collected up to a limit

A loop looks at one place after the other and collects what it finds until a limit is
reached.  It finds the first items there are (`collect_eq`).
-/
import Mathlib.Data.List.Basic
import Mathlib.Algebra.Order.Group.Nat

namespace OpenViking.Lib.ReadAhead

variable {ε α : Type}

section

variable (limit : Option Nat)

def full (acc : List α) : Bool := limit.any (· ≤ acc.length)

/-- How much there is still room for. -/
def room (acc : List α) : Option Nat := limit.map (· - acc.length)

def takeUpTo (room : Option Nat) (items : List α) : List α :=
  match room with
  | none => items
  | some n => items.take n

/-- The loop over the places of one source, where each has an item or none. -/
def collect {γ : Type} (item : γ → Option α) (places : List γ) (acc : List α) : List α :=
  places.foldl (fun acc place =>
    if full limit acc then acc
    else
      match item place with
      | some a => acc ++ [a]
      | none => acc) acc

end

variable {limit : Option Nat}

theorem full_iff {acc : List α} : full limit acc = true ↔ ∃ l, limit = some l ∧ l ≤ acc.length := by
  cases limit with
  | none => simp [full]
  | some l => simp [full]

theorem takeUpTo_of_full {acc : List α} (h : full limit acc = true) (items : List α) :
    takeUpTo (room limit acc) items = [] := by
  obtain ⟨l, rfl, hle⟩ := full_iff.mp h
  show items.take (l - acc.length) = []
  rw [Nat.sub_eq_zero_of_le hle, List.take_zero]

theorem takeUpTo_cons {acc : List α} (h : ¬ full limit acc = true) (a : α) (items : List α) :
    takeUpTo (room limit acc) (a :: items) = a :: takeUpTo (room limit (acc ++ [a])) items := by
  cases limit with
  | none => rfl
  | some l =>
      have hlt : acc.length < l := not_le.mp fun hle => h (full_iff.mpr ⟨l, rfl, hle⟩)
      show (a :: items).take (l - acc.length) = a :: items.take (l - (acc ++ [a]).length)
      obtain ⟨k, hk⟩ : ∃ k, l - acc.length = k + 1 := ⟨l - acc.length - 1, by omega⟩
      have hk' : l - (acc ++ [a]).length = k := by
        rw [List.length_append, List.length_singleton]
        omega
      rw [hk, hk', List.take_succ_cons]

/-- The loop finds the items there are, up to the limit. -/
theorem collect_eq {γ : Type} (item : γ → Option α) (places : List γ) (acc : List α) :
    collect limit item places acc =
      acc ++ takeUpTo (room limit acc) (places.filterMap item) := by
  induction places generalizing acc with
  | nil =>
      cases limit with
      | none => exact (List.append_nil acc).symm
      | some l => exact (congrArg (acc ++ ·) List.take_nil).trans (List.append_nil acc) |>.symm
  | cons place places ih =>
      rw [collect, List.foldl_cons, ← collect, ih]
      by_cases hfull : full limit acc = true
      · rw [if_pos hfull, takeUpTo_of_full hfull, takeUpTo_of_full hfull]
      · rw [if_neg hfull]
        cases hitem : item place with
        | none => rw [List.filterMap_cons_none hitem]
        | some a =>
            rw [List.filterMap_cons_some hitem, takeUpTo_cons hfull, List.append_assoc,
              List.singleton_append]

end OpenViking.Lib.ReadAhead
