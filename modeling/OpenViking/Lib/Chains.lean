/-
# `OpenViking.Lib.Chains` — where a chain of single steps ends

A relation in which every point has at most one successor is a set of chains.  A chain either
ends, in one point, or runs into a cycle and then has no end (`not_endsAt_of_cycle`).
-/
import Mathlib.Logic.Relation

namespace OpenViking.Lib

open Relation

variable {α : Type} {r : α → α → Prop} {a b c v w : α}

/-- The chain from `a` ends at `v`. -/
def EndsAt (r : α → α → Prop) (a v : α) : Prop := ReflTransGen r a v ∧ ∀ w, ¬ r v w

theorem endsAt_self (h : ∀ w, ¬ r a w) : EndsAt r a a := ⟨.refl, h⟩

theorem eq_of_reach (h : ReflTransGen r v w) (hv : ∀ w, ¬ r v w) : w = v := by
  rcases h.cases_head with rfl | ⟨u, hu, -⟩
  · rfl
  · exact absurd hu (hv u)

theorem EndsAt.unique (hr : Relator.RightUnique r) (hv : EndsAt r a v) (hw : EndsAt r a w) :
    v = w := by
  rcases ReflTransGen.total_of_right_unique hr hv.1 hw.1 with h | h
  · exact (eq_of_reach h hv.2).symm
  · exact eq_of_reach h hw.2

/-- On a cycle every reachable point is on the cycle. -/
theorem transGen_self_of_cycle (hr : Relator.RightUnique r) (hc : TransGen r c c)
    (hv : ReflTransGen r c v) : TransGen r v v := by
  induction hv with
  | refl => exact hc
  | tail _ hstep ih =>
      obtain ⟨u, hu, hback⟩ := TransGen.head'_iff.mp ih
      cases hr hu hstep
      exact TransGen.tail' hback hstep

theorem not_endsAt_of_cycle (hr : Relator.RightUnique r) (hac : ReflTransGen r a c)
    (hc : TransGen r c c) (v : α) : ¬ EndsAt r a v := by
  intro hv
  have hloop : TransGen r v v := by
    rcases ReflTransGen.total_of_right_unique hr hac hv.1 with h | h
    · exact transGen_self_of_cycle hr hc h
    · rwa [eq_of_reach h hv.2] at hc
  obtain ⟨u, hu, -⟩ := TransGen.head'_iff.mp hloop
  exact hv.2 u hu

end OpenViking.Lib
