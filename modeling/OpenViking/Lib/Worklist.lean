/-
# `OpenViking.Lib.Worklist` — searching a graph with a worklist and a visited set

A search takes nodes from a worklist, skips those it has seen, and puts the
successors of a new node on the list.  `Explored` is what holds between two
steps, whatever the order in which nodes are taken:

    `Explored.start`    at the beginning, the roots on the list
    `Explored.skip`     after a node that was seen before has been dropped
    `Explored.visit`    after a new node has been visited
    `Explored.all`      with the list empty, exactly the reachable nodes were visited

A node is visited once, so a bound on the number of reachable nodes bounds the
number of visits (`Explored.length_lt`).
-/
import Mathlib.Data.Set.Card

namespace OpenViking.Lib

variable {α : Type}

/-- Reachable from the roots by successors. -/
inductive Reaches (next : α → List α) (roots : List α) : α → Prop
  | root {a : α} : a ∈ roots → Reaches next roots a
  | step {a b : α} : Reaches next roots a → b ∈ next a → Reaches next roots b

/-- Between two steps of a search. -/
structure Explored (next : α → List α) (roots visited queue : List α) : Prop where
  nodup : visited.Nodup
  sound : ∀ a, a ∈ visited ∨ a ∈ queue → Reaches next roots a
  roots : ∀ a ∈ roots, a ∈ visited ∨ a ∈ queue
  closed : ∀ a ∈ visited, ∀ b ∈ next a, b ∈ visited ∨ b ∈ queue

variable {next : α → List α} {roots visited queue : List α} {a : α}

theorem Explored.start (hqueue : ∀ a, a ∈ queue ↔ a ∈ roots) : Explored next roots [] queue where
  nodup := List.nodup_nil
  sound := by
    rintro a (ha | ha)
    · cases ha
    · exact .root ((hqueue a).mp ha)
  roots a ha := Or.inr ((hqueue a).mpr ha)
  closed a ha := by cases ha

theorem Explored.skip (h : Explored next roots visited (a :: queue)) (ha : a ∈ visited) :
    Explored next roots visited queue := by
  have hdrop : ∀ b, b ∈ visited ∨ b ∈ a :: queue → b ∈ visited ∨ b ∈ queue := by
    rintro b (hb | hb)
    · exact Or.inl hb
    · rcases List.mem_cons.mp hb with rfl | hb
      · exact Or.inl ha
      · exact Or.inr hb
  exact
    { nodup := h.nodup
      sound := fun b hb => h.sound b (hb.imp_right (List.mem_cons_of_mem a))
      roots := fun b hb => hdrop b (h.roots b hb)
      closed := fun b hb c hc => hdrop c (h.closed b hb c hc) }

/-- The new list may leave out what has been visited already. -/
theorem Explored.visit {queue' : List α} (h : Explored next roots visited (a :: queue))
    (ha : a ∉ visited) (hold : ∀ b ∈ queue, b ∈ queue')
    (hnew : ∀ b ∈ next a, b ∈ a :: visited ∨ b ∈ queue')
    (hfrom : ∀ b ∈ queue', b ∈ next a ∨ b ∈ queue) :
    Explored next roots (a :: visited) queue' := by
  have hmove : ∀ b, b ∈ visited ∨ b ∈ a :: queue → b ∈ a :: visited ∨ b ∈ queue' := by
    rintro b (hb | hb)
    · exact Or.inl (List.mem_cons_of_mem a hb)
    · rcases List.mem_cons.mp hb with rfl | hb
      · exact Or.inl List.mem_cons_self
      · exact Or.inr (hold b hb)
  have hreach : Reaches next roots a := h.sound a (Or.inr List.mem_cons_self)
  refine ⟨List.nodup_cons.mpr ⟨ha, h.nodup⟩, ?_, fun b hb => hmove b (h.roots b hb), ?_⟩
  · rintro b (hb | hb)
    · rcases List.mem_cons.mp hb with rfl | hb
      · exact hreach
      · exact h.sound b (Or.inl hb)
    · rcases hfrom b hb with hb | hb
      · exact .step hreach hb
      · exact h.sound b (Or.inr (List.mem_cons_of_mem a hb))
  · intro b hb c hc
    rcases List.mem_cons.mp hb with rfl | hb
    · exact hnew c hc
    · exact hmove c (h.closed b hb c hc)

theorem Explored.all (h : Explored next roots visited []) (a : α) :
    a ∈ visited ↔ Reaches next roots a := by
  refine ⟨fun ha => h.sound a (Or.inl ha), fun ha => ?_⟩
  induction ha with
  | root ha => exact (h.roots _ ha).resolve_right (by simp)
  | step _ hb ih => exact (h.closed _ ih _ hb).resolve_right (by simp)

/-- While a node is left to visit, the bound has not been reached. -/
theorem Explored.length_lt {n : Nat} (h : Explored next roots visited (a :: queue))
    (ha : a ∉ visited) (hn : {b | Reaches next roots b}.encard ≤ n) : visited.length < n := by
  classical
  have hsub : ((a :: visited).toFinset : Set α) ⊆ {b | Reaches next roots b} := by
    intro b hb
    rcases List.mem_cons.mp (by simpa using hb) with rfl | hb
    · exact h.sound b (Or.inr List.mem_cons_self)
    · exact h.sound b (Or.inl hb)
  have hcard := (Set.encard_le_encard hsub).trans hn
  rw [Set.encard_coe_eq_coe_finsetCard, List.toFinset_card_of_nodup
    (List.nodup_cons.mpr ⟨ha, h.nodup⟩)] at hcard
  exact Nat.lt_of_succ_le (by exact_mod_cast hcard)

end OpenViking.Lib
