/-
# `OpenViking.Lib.Program` — programs that talk to a shared store

An `async` function that talks to a shared store is, between two `await`s,
ordinary sequential code.  `Program` is the tree of what such a function can
do: it is finished (`ret`), or it stands in front of one shared call with the
rest of the function as a continuation (`call`).

`exec` answers the calls.  A program that has the store to itself is then a
function of the state, `Program.solo`, and `wp` is its weakest precondition:

    `wp exec m Q s`   from `s`, program `m` ends with a result and a state in `Q`

The rules take a program apart at its binds; `wp_only` is the rule for a
program that makes harmless calls only (`Program.Only`).
-/
import Mathlib.Logic.Basic

namespace OpenViking.Lib

/-- What a program can still do: finish with a value, or perform one shared
call and go on. -/
inductive Program (Op : Type) (Res : Op → Type) (α : Type) : Type
  | ret (a : α)
  | call (op : Op) (k : Res op → Program Op Res α)

namespace Program

variable {Op : Type} {Res : Op → Type} {α β : Type}

protected def bind : Program Op Res α → (α → Program Op Res β) → Program Op Res β
  | ret a, f => f a
  | call op k, f => call op (fun r => (k r).bind f)

instance : Monad (Program Op Res) where
  pure a := .ret a
  bind m f := m.bind f

/-- One shared call. -/
def perform (op : Op) : Program Op Res (Res op) := .call op .ret

/-! ## Programs that make calls of one kind only -/

section Only

variable {P : Op → Prop}

/-- Every call is one of `P`. -/
def Only (P : Op → Prop) : Program Op Res α → Prop
  | ret _ => True
  | call op k => P op ∧ ∀ r, (k r).Only P

theorem Only.pure (a : α) : Only P (pure a : Program Op Res α) := trivial

theorem Only.bind {m : Program Op Res α} {f : α → Program Op Res β} (h : m.Only P)
    (hf : ∀ a, (f a).Only P) : (m >>= f).Only P := by
  induction m with
  | ret a => exact hf a
  | call op k ih => exact ⟨h.1, fun r => ih r (h.2 r)⟩

theorem Only.perform {op : Op} (h : P op) : Only P (perform op : Program Op Res (Res op)) :=
  ⟨h, fun _ => trivial⟩

variable {ε : Type}

theorem Only.lift {m : Program Op Res α} (h : m.Only P) :
    Only P (ExceptT.lift m : ExceptT ε (Program Op Res) α).run := h.bind fun _ => Only.pure _

theorem Only.bindE {m : ExceptT ε (Program Op Res) α} {f : α → ExceptT ε (Program Op Res) β}
    (h : m.run.Only P) (hf : ∀ a, (f a).run.Only P) : (m >>= f).run.Only P := by
  refine h.bind fun r => ?_
  cases r with
  | ok a => exact hf a
  | error e => exact Only.pure _

theorem Only.pureE (a : α) : Only P (Pure.pure a : ExceptT ε (Program Op Res) α).run :=
  Only.pure _

theorem Only.throwE (e : ε) : Only P (throw e : ExceptT ε (Program Op Res) α).run := Only.pure _

end Only

/-! ## The run of a program that has the store to itself -/

section Solo

variable {S : Type} (exec : (op : Op) → S → Res op × S)

/-- Run to the end, answering every call by `exec`. -/
def solo : Program Op Res α → S → α × S
  | ret a, s => (a, s)
  | call op k, s => (k (exec op s).1).solo (exec op s).2

theorem solo_bind (m : Program Op Res α) (f : α → Program Op Res β) (s : S) :
    (m >>= f).solo exec s = (f (m.solo exec s).1).solo exec (m.solo exec s).2 := by
  induction m generalizing s with
  | ret a => rfl
  | call op k ih => exact ih _ _

/-- The weakest precondition. -/
def wp (m : Program Op Res α) (Q : α → S → Prop) (s : S) : Prop :=
  Q (m.solo exec s).1 (m.solo exec s).2

variable {exec} {s : S}

theorem wp_pure {Q : α → S → Prop} {a : α} (h : Q a s) :
    wp exec (pure a : Program Op Res α) Q s := h

theorem wp_bind {Q : β → S → Prop} {m : Program Op Res α} {f : α → Program Op Res β}
    (h : wp exec m (fun a => wp exec (f a) Q) s) : wp exec (m >>= f) Q s := by
  unfold wp at h ⊢
  rw [solo_bind]
  exact h

theorem wp_mono {Q Q' : α → S → Prop} {m : Program Op Res α} (h : wp exec m Q s)
    (hQ : ∀ a s, Q a s → Q' a s) : wp exec m Q' s := hQ _ _ h

theorem wp_perform {op : Op} {Q : Res op → S → Prop} (h : Q (exec op s).1 (exec op s).2) :
    wp exec (perform op) Q s := h

/-- Sequencing of fallible programs: an error skips the rest. -/
theorem wp_bindE {ε : Type} {Q : Except ε β → S → Prop} {m : ExceptT ε (Program Op Res) α}
    {f : α → ExceptT ε (Program Op Res) β}
    (h : wp exec m.run (fun r s => match r with
      | .ok a => wp exec (f a).run Q s
      | .error e => Q (.error e) s) s) :
    wp exec (m >>= f).run Q s := by
  refine wp_bind (wp_mono h ?_)
  intro r s hr
  cases r with
  | ok a => exact hr
  | error e => exact hr

theorem wp_pureE {ε : Type} {Q : Except ε α → S → Prop} {a : α} (h : Q (.ok a) s) :
    wp exec (pure a : ExceptT ε (Program Op Res) α).run Q s := h

theorem wp_throwE {ε : Type} {Q : Except ε α → S → Prop} {e : ε} (h : Q (.error e) s) :
    wp exec (throw e : ExceptT ε (Program Op Res) α).run Q s := h

/-- A program that makes only harmless calls keeps what they keep. -/
theorem wp_only {P : Op → Prop} {I : S → Prop} {m : Program Op Res α} (h : m.Only P)
    (hP : ∀ op s, P op → I s → I (exec op s).2) (hs : I s) : wp exec m (fun _ s' => I s') s := by
  induction m generalizing s with
  | ret a => exact hs
  | call op k ih => exact ih _ (h.2 _) (hP op s h.1 hs)

end Solo

end Program

end OpenViking.Lib
