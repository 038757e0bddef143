/-
# `OpenViking.Lib.Paging` — a list divided into pages

Pieces of one size (`slices`), and pages under two limits: a number of rows and
a budget for the sum of their weights.  A page takes rows as long as both allow
it, and always one.
-/
import Mathlib.Algebra.GroupWithZero.Nat
import Mathlib.Algebra.Order.Group.Nat
import Mathlib.Algebra.Order.BigOperators.Group.List

namespace OpenViking.Lib

/-! ## Pieces of one size -/

/-- `range(0, len(items), size)` with the slices there; `fuel` bounds their number. -/
def slices {α : Type} (size : Nat) : Nat → List α → List (List α)
  | 0, _ => []
  | _ + 1, [] => []
  | fuel + 1, items => items.take size :: slices size fuel (items.drop size)

theorem flatten_slices {α : Type} {size fuel : Nat} (hsize : 0 < size) {items : List α}
    (h : items.length ≤ fuel) : (slices size fuel items).flatten = items := by
  induction fuel generalizing items with
  | zero => rw [List.eq_nil_of_length_eq_zero (Nat.le_zero.mp h), slices, List.flatten_nil]
  | succ fuel ih =>
      cases items with
      | nil => rfl
      | cons x items =>
          have hrest : ((x :: items).drop size).length ≤ fuel := by
            rw [List.length_drop]
            simp only [List.length_cons] at h ⊢
            omega
          rw [slices, List.flatten_cons, ih hrest, List.take_append_drop]
          intro h
          cases h

/-! ## Pages under two limits -/

variable {α : Type}

def total (weight : α → Nat) (l : List α) : Nat := (l.map weight).sum

section

variable (weight : α → Nat) (limit budget : Nat)

/-- `page` is the first page of `page ++ rest`. -/
structure FirstPage (page rest : List α) : Prop where
  nonempty : page ≠ []
  rows : page.length ≤ limit
  /-- each row but the first came while there was budget left, and fitted -/
  fits : page.length = 1 ∨ (total weight page.dropLast < budget ∧ total weight page ≤ budget)
  full : ∀ r ∈ rest.head?,
    page.length = limit ∨ budget ≤ total weight page ∨ budget < total weight page + weight r

inductive Paged : List α → List (List α) → Prop
  | nil : Paged [] []
  | cons {page rest : List α} {pages : List (List α)} :
      FirstPage weight limit budget page rest → Paged rest pages →
      Paged (page ++ rest) (page :: pages)

end

variable {weight : α → Nat} {limit budget : Nat}

theorem total_append (a b : List α) : total weight (a ++ b) = total weight a + total weight b := by
  simp [total]

/-- A longer first page would have gone over a limit. -/
theorem FirstPage.not_longer {page rest rest' x : List α} {r : α}
    (h : FirstPage weight limit budget page (r :: rest)) :
    ¬FirstPage weight limit budget (page ++ r :: x) rest' := by
  intro h'
  have hrows := h'.rows
  have hlong : (page ++ r :: x).length ≠ 1 := by
    intro hone
    rw [List.length_append, List.length_cons] at hone
    exact h.nonempty (List.length_eq_zero_iff.mp (by omega))
  obtain ⟨hbefore, hall⟩ := h'.fits.resolve_left hlong
  rw [List.dropLast_append_of_ne_nil (List.cons_ne_nil r x), total_append] at hbefore
  have hr : total weight (page ++ r :: x) = total weight page + weight r + total weight x := by
    simp [total, Nat.add_assoc]
  rw [List.length_append, List.length_cons] at hrows
  rcases h.full r rfl with hlimit | hspent | hover
  · omega
  · omega
  · omega

theorem FirstPage.eq {page rest page' rest' : List α}
    (h : FirstPage weight limit budget page rest) (h' : FirstPage weight limit budget page' rest')
    (heq : page ++ rest = page' ++ rest') : page = page' ∧ rest = rest' := by
  rcases List.append_eq_append_iff.mp heq with ⟨as, rfl, rfl⟩ | ⟨as, rfl, rfl⟩
  · cases as with
    | nil => exact ⟨(List.append_nil page).symm, rfl⟩
    | cons r x => exact absurd h' h.not_longer
  · cases as with
    | nil => exact ⟨List.append_nil page', rfl⟩
    | cons r x => exact absurd h h'.not_longer

namespace Paged

theorem flatten_eq {rows : List α} {pages : List (List α)}
    (h : Paged weight limit budget rows pages) : pages.flatten = rows := by
  induction h with
  | nil => rfl
  | cons _ _ ih => rw [List.flatten_cons, ih]

/-- Every page keeps the row limit, and the budget unless it is a single row. -/
theorem bounded {rows : List α} {pages : List (List α)}
    (h : Paged weight limit budget rows pages) {page : List α} (hpage : page ∈ pages) :
    page.length ≤ limit ∧ (total weight page ≤ budget ∨ page.length = 1) := by
  induction h with
  | nil => cases hpage
  | cons hfirst _ ih =>
      rcases List.mem_cons.mp hpage with rfl | hpage
      · exact ⟨hfirst.rows, hfirst.fits.elim .inr fun h => .inl h.2⟩
      · exact ih hpage

end Paged

end OpenViking.Lib
