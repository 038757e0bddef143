/-
# `OpenViking.Lib.Act` — computations that fail and leave a state behind

`Act ε σ α` takes a state to an outcome, a value or an error, and the state it
leaves.  What was done before the error stays done, and sequencing stops at the
first error.
-/
import OpenViking.Lib.Results

namespace OpenViking.Lib

/-- A stateful computation that may fail. -/
def Act (ε σ α : Type) : Type := σ → Except ε α × σ

namespace Act

variable {ε σ τ α β : Type}

/-- Go on with the value, or stop with the error. -/
def andThen (r : Except ε α × σ) (f : α → Act ε σ β) : Except ε β × σ :=
  match r with
  | (.ok a, s) => f a s
  | (.error e, s) => (.error e, s)

instance : Monad (Act ε σ) where
  pure a := fun s => (.ok a, s)
  bind m f := fun s => andThen (m s) f

def fail (e : ε) : Act ε σ α := fun s => (.error e, s)

@[simp] theorem pure_apply (a : α) (s : σ) : (pure a : Act ε σ α) s = (.ok a, s) := rfl

@[simp] theorem bind_apply (m : Act ε σ α) (f : α → Act ε σ β) (s : σ) :
    (m >>= f) s = andThen (m s) f := rfl

@[simp] theorem andThen_ok (a : α) (s : σ) (f : α → Act ε σ β) :
    andThen (.ok a, s) f = f a s := rfl

/-- One step of a run: the first computation returns, and the rest goes on from there. -/
theorem bind_ok {m : Act ε σ α} {s s' : σ} {a : α} (h : m s = (.ok a, s')) (f : α → Act ε σ β) :
    (m >>= f) s = f a s' := by
  rw [bind_apply, h, andThen_ok]

end Act

end OpenViking.Lib
