/-
# `OpenViking.Lib.History` — properties along a sequence of calls

A deterministic machine takes one call after another.  `Along step P s cs` says
that `P` holds in `s` and in every state the calls lead to, `Guarded step C s cs`
that every call meets a condition in the state it is made in.  An invariant that
every call under its condition keeps holds along every guarded sequence
(`along_of_guarded`).  Where the property is its own invariant and the condition is exact for
one call, it is exact for the whole sequence (`along_iff_guarded`).
-/

namespace OpenViking.Lib

variable {σ ι : Type} (step : σ → ι → σ)

/-- `P` holds before, between and after the calls. -/
def Along (P : σ → Prop) : σ → List ι → Prop
  | s, [] => P s
  | s, c :: cs => P s ∧ Along P (step s c) cs

/-- Every call meets its condition. -/
def Guarded (C : σ → ι → Prop) : σ → List ι → Prop
  | _, [] => True
  | s, c :: cs => C s c ∧ Guarded C (step s c) cs

instance Guarded.decide {C : σ → ι → Prop} [∀ s c, Decidable (C s c)] :
    ∀ (s : σ) (cs : List ι), Decidable (Guarded step C s cs)
  | _, [] => .isTrue trivial
  | s, c :: cs =>
    have := Guarded.decide (C := C) (step s c) cs
    inferInstanceAs (Decidable (C s c ∧ Guarded step C (step s c) cs))

variable {step} {I P : σ → Prop} {C : σ → ι → Prop}

theorem Along.head {s : σ} {cs : List ι} (h : Along step P s cs) : P s := by
  cases cs with
  | nil => exact h
  | cons c cs => exact h.1

theorem Along.last {s : σ} {cs : List ι} (h : Along step P s cs) : P (cs.foldl step s) := by
  induction cs generalizing s with
  | nil => exact h
  | cons c cs ih => exact ih h.2

/-- An invariant of the calls, and what follows from it. -/
theorem along_of_guarded (hstep : ∀ s c, I s → C s c → I (step s c)) (hP : ∀ s, I s → P s)
    {s : σ} (hs : I s) {cs : List ι} (h : Guarded step C s cs) : Along step P s cs := by
  induction cs generalizing s with
  | nil => exact hP s hs
  | cons c cs ih => exact ⟨hP s hs, ih (hstep s c hs h.1) h.2⟩

/-- An invariant that every call keeps. -/
theorem along_of_invariant (hstep : ∀ s c, I s → I (step s c)) (hP : ∀ s, I s → P s) {s : σ}
    (hs : I s) (cs : List ι) : Along step P s cs := by
  induction cs generalizing s with
  | nil => exact hP s hs
  | cons c cs ih => exact ⟨hP s hs, ih (hstep s c hs)⟩

theorem guarded_append {s : σ} {cs ds : List ι} :
    Guarded step C s (cs ++ ds) ↔ Guarded step C s cs ∧ Guarded step C (cs.foldl step s) ds := by
  induction cs generalizing s with
  | nil => exact (iff_of_eq (true_and _)).symm
  | cons c cs ih => exact (and_congr_right fun _ => ih).trans and_assoc.symm

/-- A condition that is exact for every call made in a good state is exact for sequences. -/
theorem along_iff_guarded (hstep : ∀ s c, P s → (P (step s c) ↔ C s c)) {s : σ} (hs : P s)
    {cs : List ι} : Along step P s cs ↔ Guarded step C s cs := by
  constructor
  · intro h
    induction cs generalizing s with
    | nil => trivial
    | cons c cs ih =>
        have hnext : P (step s c) := h.2.head
        exact ⟨(hstep s c hs).mp hnext, ih hnext h.2⟩
  · intro h
    induction cs generalizing s with
    | nil => exact hs
    | cons c cs ih => exact ⟨hs, ih ((hstep s c hs).mpr h.1) h.2⟩

end OpenViking.Lib
