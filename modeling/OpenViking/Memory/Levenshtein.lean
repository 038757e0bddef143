/-
# `OpenViking.Memory.Levenshtein` — the distance of patch matching

`levenshtein_distance` of `merge_op/patch_handler.py`: two rows of a table, filled for one
character of the longer string after the other.  After a prefix `p` the row has the distances
from `p` to the prefixes of the other string (`rows_eq`), so its last entry is the edit
distance (`levenshteinDistance_eq`).
-/
import OpenViking.Lib.EditDistance
import Mathlib.Data.List.GetD
import Mathlib.Data.List.Induction

namespace OpenViking.Memory

open OpenViking.Lib.EditDistance

variable {α : Type} [DecidableEq α]

/-- The inner loop: the row for one more character `c1`, the `i`-th -/
def nextRow (s2 : List α) (previous : List Nat) (c1 : α) (i : Nat) : List Nat :=
  s2.zipIdx.foldl (fun current c2 =>
    let insertions := previous.getD (c2.2 + 1) 0 + 1
    let deletions := current.getD c2.2 0 + 1
    let substitutions := previous.getD c2.2 0 + if c1 = c2.1 then 0 else 1
    current ++ [min (min insertions deletions) substitutions]) [i + 1]

/-- The outer loop -/
def rows (s1 s2 : List α) : List Nat :=
  s1.zipIdx.foldl (fun previous c1 => nextRow s2 previous c1.1 c1.2) (List.range (s2.length + 1))

/-- `levenshtein_distance` with the longer string first -/
def distanceOfLonger (s1 s2 : List α) : Nat :=
  if s2.length = 0 then s1.length else (rows s1 s2).getLastD 0

/-- `levenshtein_distance`: a first string that is shorter is passed as the second, and the
call then does not swap again. -/
def levenshteinDistance (s1 s2 : List α) : Nat :=
  if s1.length < s2.length then distanceOfLonger s2 s1 else distanceOfLonger s1 s2

/-- The row for a prefix `p`: its distances to the prefixes of `s2` -/
def rowOf (p s2 : List α) : List Nat :=
  (List.range (s2.length + 1)).map fun j => distance p (s2.take j)

theorem getD_rowOf (p s2 : List α) {j : Nat} (hj : j ≤ s2.length) :
    (rowOf p s2).getD j 0 = distance p (s2.take j) := by
  have hlt : j < (rowOf p s2).length := by simpa [rowOf] using Nat.lt_succ_of_le hj
  rw [List.getD_eq_getElem _ _ hlt]
  simp [rowOf]

theorem rowOf_nil (s2 : List α) : rowOf [] s2 = List.range (s2.length + 1) := by
  refine List.ext_getElem (by simp [rowOf]) fun j hj hj' => ?_
  have hle : j ≤ s2.length := by simpa [Nat.lt_succ_iff] using hj'
  simp [rowOf, hle]

theorem rowOf_concat (p q : List α) (y : α) :
    rowOf p (q ++ [y]) = rowOf p q ++ [distance p (q ++ [y])] := by
  rw [rowOf, List.length_append, List.length_singleton, List.range_succ, List.map_append]
  congr 1
  · refine List.map_congr_left fun j hj => ?_
    have hle : j ≤ q.length := Nat.lt_succ_iff.mp (List.mem_range.mp hj)
    rw [List.take_append_of_le_length hle]
  · have hall : (q ++ [y]).take (q.length + 1) = q ++ [y] := List.take_of_length_le (by simp)
    rw [List.map_singleton, hall]

/-- The inner loop after a prefix of `s2` -/
theorem nextRow_prefix (p q rest : List α) (c1 : α) :
    nextRow q (rowOf p (q ++ rest)) c1 p.length = rowOf (p ++ [c1]) q := by
  induction q using List.reverseRecOn generalizing rest with
  | nil => simp [nextRow, rowOf]
  | append_singleton q c2 ih =>
      have hprevious : rowOf p (q ++ [c2] ++ rest) = rowOf p (q ++ ([c2] ++ rest)) := by
        rw [List.append_assoc]
      have hcurrent := ih ([c2] ++ rest)
      rw [← hprevious] at hcurrent
      have hlen : (q ++ [c2] ++ rest).length = q.length + 1 + rest.length := by simp; omega
      have habove : (rowOf p (q ++ [c2] ++ rest)).getD (q.length + 1) 0 =
          distance p (q ++ [c2]) := by
        have hlast : q.length + 1 = (q ++ [c2]).length := by simp
        rw [getD_rowOf _ _ (by omega), hlast, List.take_left]
      have hdiagonal : (rowOf p (q ++ [c2] ++ rest)).getD q.length 0 = distance p q := by
        rw [getD_rowOf _ _ (by omega)]
        simp
      have hleft : (rowOf (p ++ [c1]) q).getD q.length 0 = distance (p ++ [c1]) q := by
        rw [getD_rowOf _ _ le_rfl, List.take_length]
      rw [nextRow, List.zipIdx_append, List.foldl_append]
      change List.foldl _ (nextRow q _ c1 p.length) _ = _
      rw [hcurrent, rowOf_concat, distance_concat]
      simp only [List.zipIdx_cons, List.zipIdx_nil, List.foldl_cons, List.foldl_nil, Nat.zero_add,
        habove, hdiagonal, hleft]

/-- The outer loop after a prefix of `s1` -/
theorem rows_eq (p s2 : List α) : rows p s2 = rowOf p s2 := by
  induction p using List.reverseRecOn with
  | nil => rw [rowOf_nil]; rfl
  | append_singleton p c1 ih =>
      have hnext := nextRow_prefix p s2 [] c1
      rw [List.append_nil] at hnext
      rw [rows, List.zipIdx_append, List.foldl_append]
      change List.foldl _ (rows p s2) _ = _
      rw [ih]
      simpa using hnext

theorem distanceOfLonger_eq (s1 s2 : List α) : distanceOfLonger s1 s2 = distance s1 s2 := by
  rw [distanceOfLonger]
  split
  · next hnil => rw [List.eq_nil_of_length_eq_zero hnil, distance_nil_right]
  · rw [rows_eq, rowOf, List.range_succ, List.map_append]
    simp

theorem levenshteinDistance_eq (s1 s2 : List α) : levenshteinDistance s1 s2 = distance s1 s2 := by
  rw [levenshteinDistance]
  split
  · rw [distanceOfLonger_eq, distance_comm]
  · exact distanceOfLonger_eq s1 s2

/-- `levenshtein_distance` is the least number of insertions, deletions and substitutions of
single characters that turn one string into the other. -/
theorem levenshtein_is_edit_distance (s t : List α) :
    IsLeast { n | Edits n s t } (levenshteinDistance s t) := by
  rw [levenshteinDistance_eq]
  exact isLeast_distance s t

example : levenshteinDistance "kitten".toList "sitting".toList = 3 := by decide

end OpenViking.Memory
