/-
# `OpenViking.Lock.AllOrNothing` — an attempt that fails leaves nothing behind

One run of `try_acquire_batch_once` while no other party acts.  The token map
is arbitrary, and so is what the rest of the world answers: the filesystem may
classify a path differently at every `stat`, the clock may show anything, and
any call on the token store may fail, in which case it has changed nothing.

The argument keeps a journal.  Between two recorded changes only stale tokens
of other owners disappear (`Swept`), so the tokens are at every moment what
the recorded changes made of a swept version of the first ones (`Journal`).
Undoing the newest change keeps the journal of the older ones, whatever was
swept meanwhile (`Took.undo`).
-/
import OpenViking.Lock.Manager

namespace OpenViking.Lock

open OpenViking.Lib OpenViking.Lib.Program

/-! ## The world around one attempt -/

/-- What the calls of an attempt meet, by the number of the call. -/
structure Circumstances where
  /-- The error of a failing call on the token store. -/
  fault : Nat → Option PathLockError
  clock : Nat → Nat
  stat : Nat → Str → Option NodeKind
  mkdir : Nat → Str → Except String Unit

/-- The calls made so far, and the tokens. -/
structure Progress where
  calls : Nat
  tokens : TokenMap

/-- A call on the token store, unless it fails. -/
def orFault {β : Type} (fault : Option PathLockError) (tokens : TokenMap)
    (r : Except PathLockError β × TokenMap) : Except PathLockError β × TokenMap :=
  match fault with
  | some e => (.error e, tokens)
  | none => r

/-- The answer to call number `n`. -/
def Circumstances.answerAt (c : Circumstances) (n : Nat) :
    (op : Op) → TokenMap → Res op × TokenMap
  | .readToken X, ts => orFault (c.fault n) ts (.ok (MemoryProvider.readToken ts X), ts)
  | .tryCreateToken X t, ts => orFault (c.fault n) ts (MemoryProvider.tryCreateToken ts X t)
  | .compareAndWriteToken X e r, ts =>
      orFault (c.fault n) ts ((MemoryProvider.compareAndWriteToken ts X e r).map .ok id)
  | .removeToken X o _, ts =>
      orFault (c.fault n) ts ((MemoryProvider.removeToken ts X o).map .ok id)
  | .scanDescendantLocks root, ts =>
      orFault (c.fault n) ts (.ok (MemoryProvider.scanDescendantLocks ts root), ts)
  | .stat path, ts => (c.stat n path, ts)
  | .mkdir path, ts => (c.mkdir n path, ts)
  | .nowNs, ts => (c.clock n, ts)

def Circumstances.answer (c : Circumstances) (op : Op) (p : Progress) : Res op × Progress :=
  ((c.answerAt p.calls op p.tokens).1, ⟨p.calls + 1, (c.answerAt p.calls op p.tokens).2⟩)

/-- The two passes of an attempt without the rollback: the error that ends
them, if any, and what has to be given back then. -/
def bothPasses (cfg : Config) (requests : List PathLockRequest) (owner : Str) :
    LockTask (Option (PathLockError × Bool) × Acquired) := do
  match ← acquireRequests cfg owner requests [] ∅ with
  | (.error e, acquired, _) => return (some (e, true), acquired)
  | (.ok (), acquired, res) =>
      match ← (verifyRequests cfg owner res requests).run with
      | .error e => return (some (e, false), acquired)
      | .ok () => return (none, acquired)

/-! ## Sweeping and taking -/

section

variable (cfg : Config) (c : Circumstances) (o : Str)

/-- A token of another owner that one of the first `k` calls could see
expired. -/
def StaleBy (k : Nat) (t : LockToken) : Prop :=
  t.ownerId ≠ o ∧ ∃ n < k, isStale cfg t (c.clock n) = true

/-- Only stale tokens of other owners are gone. -/
def Swept (k : Nat) (v v' : Tokens) : Prop :=
  ∀ X, v' X = v X ∨ (v' X = none ∧ ∃ t, v X = some t ∧ StaleBy cfg c o k t)

/-- What a recorded change did to the tokens. -/
def Took (X : Str) : AcquisitionChange → Tokens → Tokens → Prop
  | .created, v, v' => v X = none ∧ ∃ t, t.ownerId = o ∧ v' = Function.update v X (some t)
  | .reentrant, v, v' => v' = v
  | .upgraded previous replacement, v, v' => v X = some previous ∧ previous.ownerId = o ∧
      replacement.ownerId = o ∧ v' = Function.update v X (some replacement)

/-- How the tokens came from `v₀` to where they are, newest change first. -/
def Journal (k : Nat) (v₀ : Tokens) : Acquired → Tokens → Prop
  | [], v => Swept cfg c o k v₀ v
  | (X, change) :: rest, v =>
      ∃ v₁ v₂, Journal k v₀ rest v₁ ∧ Swept cfg c o k v₁ v₂ ∧ Took o X change v₂ v

/-- The tokens after a change has been undone. -/
def undone (X : Str) : AcquisitionChange → Tokens → Tokens
  | .created, v => Function.update v X none
  | .reentrant, v => v
  | .upgraded previous _, v => Function.update v X (some previous)

end

section

variable {cfg : Config} {c : Circumstances} {o : Str} {k : Nat}

theorem Swept.refl (v : Tokens) : Swept cfg c o k v v := fun _ => Or.inl rfl

theorem Swept.trans {v₁ v₂ v₃ : Tokens} (h : Swept cfg c o k v₁ v₂) (h' : Swept cfg c o k v₂ v₃) :
    Swept cfg c o k v₁ v₃ := by
  intro X
  rcases h' X with h₃ | ⟨h₃, t, h₂, ht⟩
  · rw [h₃]; exact h X
  · rcases h X with h₁ | ⟨h₁, -⟩
    · exact Or.inr ⟨h₃, t, h₁ ▸ h₂, ht⟩
    · rw [h₁] at h₂; cases h₂

theorem Swept.mono {v v' : Tokens} {k' : Nat} (h : Swept cfg c o k v v') (hk : k ≤ k') :
    Swept cfg c o k' v v' := by
  intro X
  rcases h X with h | ⟨h, t, ht, ho, n, hn, hs⟩
  · exact Or.inl h
  · exact Or.inr ⟨h, t, ht, ho, n, hn.trans_le hk, hs⟩

/-- The owner's own tokens are never swept. -/
theorem Swept.own {v v' : Tokens} (h : Swept cfg c o k v v') {X : Str} {t : LockToken}
    (ht : v X = some t) (ho : t.ownerId = o) : v' X = some t := by
  rcases h X with h | ⟨-, t', ht', hne, -⟩
  · rw [h, ht]
  · rw [ht] at ht'
    cases ht'
    exact absurd ho hne

theorem Swept.erase {v : Tokens} {X : Str} {t : LockToken} (ht : v X = some t)
    (hs : StaleBy cfg c o k t) : Swept cfg c o k v (Function.update v X none) := by
  intro Y
  by_cases hY : Y = X
  · subst hY
    exact Or.inr ⟨by simp, t, ht, hs⟩
  · exact Or.inl (by simp [hY])

/-- Writing the same at one path keeps the rest swept. -/
theorem Swept.update {v w v' : Tokens} {X : Str} {a : Option LockToken} (h : Swept cfg c o k v' w)
    (hX : v X = a) (hrest : ∀ Y, Y ≠ X → v' Y = v Y) :
    Swept cfg c o k v (Function.update w X a) := by
  intro Y
  by_cases hY : Y = X
  · subst hY
    exact Or.inl (by simp [hX])
  · have := h Y
    rw [hrest Y hY] at this
    simpa [hY] using this

theorem Took.undo {X : Str} {change : AcquisitionChange} {v v' w : Tokens}
    (h : Took o X change v v') (hw : Swept cfg c o k v' w) :
    Swept cfg c o k v (undone X change w) := by
  cases change with
  | created =>
      obtain ⟨hX, t, -, rfl⟩ := h
      exact hw.update hX fun Y hY => by simp [hY]
  | reentrant =>
      obtain rfl : v' = v := h
      exact hw
  | upgraded previous replacement =>
      obtain ⟨hX, -, -, rfl⟩ := h
      exact hw.update hX fun Y hY => by simp [hY]

theorem Journal.mono {v₀ : Tokens} {acquired : Acquired} {v : Tokens} {k' : Nat}
    (h : Journal cfg c o k v₀ acquired v) (hk : k ≤ k') : Journal cfg c o k' v₀ acquired v := by
  induction acquired generalizing v with
  | nil => exact Swept.mono h hk
  | cons xc rest ih =>
      obtain ⟨v₁, v₂, h₁, h₂, h₃⟩ := h
      exact ⟨v₁, v₂, ih h₁, h₂.mono hk, h₃⟩

/-! ## The calls -/

theorem lookup_insert_fun (ts : TokenMap) (X : Str) (t : LockToken) :
    (ts.insert X t).lookup = Function.update ts.lookup X (some t) := by
  funext Y
  by_cases hY : Y = X
  · subst hY; simp
  · simp [hY, AList.lookup_insert_ne hY]

theorem lookup_erase_fun (ts : TokenMap) (X : Str) :
    (ts.erase X).lookup = Function.update ts.lookup X none := by
  funext Y
  by_cases hY : Y = X
  · subst hY; simp
  · simp [hY, AList.lookup_erase_ne hY]

theorem answer_reads {op : Op} (h : op.Reads) (p : Progress) :
    (c.answer op p).2 = ⟨p.calls + 1, p.tokens⟩ := by
  cases op with
  | readToken X =>
      simp only [Circumstances.answer, Circumstances.answerAt, orFault]
      cases c.fault p.calls with
      | none => rfl
      | some e => rfl
  | scanDescendantLocks root =>
      simp only [Circumstances.answer, Circumstances.answerAt, orFault]
      cases c.fault p.calls with
      | none => rfl
      | some e => rfl
  | stat path => rfl
  | mkdir path => rfl
  | nowNs => rfl
  | tryCreateToken X t => exact h.elim
  | compareAndWriteToken X e r => exact h.elim
  | removeToken X o f => exact h.elim

theorem answer_keeps {k : Nat} {ts : TokenMap} (op : Op) (p : Progress) (h : op.Reads)
    (hp : k ≤ p.calls ∧ p.tokens = ts) :
    k ≤ (c.answer op p).2.calls ∧ (c.answer op p).2.tokens = ts := by
  rw [answer_reads h]
  exact ⟨hp.1.trans (Nat.le_succ _), hp.2⟩

abbrev wpA (c : Circumstances) {α : Type} (m : LockTask α) (Q : α → Progress → Prop)
    (p : Progress) : Prop :=
  wp c.answer m Q p

variable {p : Progress}

/-- A reading program, as the first part of a longer one. -/
theorem wp_bind_reads {α β : Type} {m : LockM α} {f : α → LockM β}
    {Q : Except PathLockError β → Progress → Prop} (hm : m.run.Only Op.Reads)
    (herr : ∀ e k, p.calls ≤ k → Q (.error e) ⟨k, p.tokens⟩)
    (hok : ∀ a k, p.calls ≤ k → wpA c (f a).run Q ⟨k, p.tokens⟩) :
    wpA c (m >>= f).run Q p := by
  have hstays : wpA c m.run
      (fun _ p' => p.calls ≤ p'.calls ∧ p'.tokens = p.tokens) p :=
    wp_only hm answer_keeps ⟨le_rfl, rfl⟩
  refine wp_bindE (wp_mono hstays ?_)
  rintro r ⟨k, ts⟩ ⟨hk, rfl⟩
  cases r with
  | ok a => exact hok a k hk
  | error e => exact herr e k hk

theorem wp_readToken_answer {X : Str}
    {Q : Except PathLockError (Option LockToken) → Progress → Prop}
    (herr : ∀ e, Q (.error e) ⟨p.calls + 1, p.tokens⟩)
    (hok : Q (.ok (p.tokens.lookup X)) ⟨p.calls + 1, p.tokens⟩) :
    wpA c (readToken X).run Q p := by
  refine wp_perform ?_
  simp only [Circumstances.answer, Circumstances.answerAt, orFault]
  cases c.fault p.calls with
  | none => exact hok
  | some e => exact herr e

theorem wp_tryCreateToken_answer {X : Str} {t : LockToken}
    {Q : Except PathLockError Unit → Progress → Prop}
    (herr : ∀ e, Q (.error e) ⟨p.calls + 1, p.tokens⟩)
    (hok : p.tokens.lookup X = none → Q (.ok ()) ⟨p.calls + 1, p.tokens.insert X t⟩) :
    wpA c (tryCreateToken X t).run Q p := by
  refine wp_perform ?_
  simp only [Circumstances.answer, Circumstances.answerAt, orFault, MemoryProvider.tryCreateToken]
  cases c.fault p.calls with
  | some e => exact herr e
  | none =>
      dsimp only
      cases hX : p.tokens.lookup X with
      | none => exact hok hX
      | some existing => exact herr _

theorem wp_compareAndWriteToken_answer {X : Str} {e r : LockToken}
    {Q : Except PathLockError Bool → Progress → Prop}
    (herr : ∀ err, c.fault p.calls = some err → Q (.error err) ⟨p.calls + 1, p.tokens⟩)
    (hok : p.tokens.lookup X = some e → Q (.ok true) ⟨p.calls + 1, p.tokens.insert X r⟩)
    (hno : p.tokens.lookup X ≠ some e → Q (.ok false) ⟨p.calls + 1, p.tokens⟩) :
    wpA c (compareAndWriteToken X e r).run Q p := by
  refine wp_perform ?_
  simp only [Circumstances.answer, Circumstances.answerAt, orFault,
    MemoryProvider.compareAndWriteToken]
  cases hf : c.fault p.calls with
  | some err => exact herr err hf
  | none =>
      dsimp only
      split
      · next hX => exact hok hX
      · next hX => exact hno hX

theorem wp_removeToken_answer {X u : Str} {force : Bool}
    {Q : Except PathLockError Bool → Progress → Prop}
    (herr : ∀ err, c.fault p.calls = some err → Q (.error err) ⟨p.calls + 1, p.tokens⟩)
    (hok : ∀ t, p.tokens.lookup X = some t → t.ownerId = u →
      Q (.ok true) ⟨p.calls + 1, p.tokens.erase X⟩)
    (hno : (∀ t, p.tokens.lookup X = some t → t.ownerId ≠ u) →
      Q (.ok false) ⟨p.calls + 1, p.tokens⟩) :
    wpA c (removeToken X u force).run Q p := by
  refine wp_perform ?_
  simp only [Circumstances.answer, Circumstances.answerAt, orFault, MemoryProvider.removeToken]
  cases hf : c.fault p.calls with
  | some err => exact herr err hf
  | none =>
      dsimp only
      cases hX : p.tokens.lookup X with
      | none => exact hno fun t ht => by rw [hX] at ht; cases ht
      | some t =>
          dsimp only
          split
          · next ho => exact hok t hX ho
          · next ho =>
              refine hno ?_
              intro t' ht'
              rw [hX] at ht'
              cases ht'
              exact ho

/-! ## The first pass -/

/-- One lock file: a recorded change after a sweep, or nothing but a sweep. -/
theorem tryAcquireOne_took (X : Str) (kind : PathLockKind) :
    wpA c (tryAcquireOne cfg X o kind).run (fun r p' => p.calls ≤ p'.calls ∧
      match r with
      | .ok change => ∃ v, Swept cfg c o p'.calls p.tokens.lookup v ∧
          Took o X change v p'.tokens.lookup
      | .error _ => Swept cfg c o p'.calls p.tokens.lookup p'.tokens.lookup) p := by
  refine wp_bindE (wp_bind (wp_perform ?_))
  refine wp_pure ?_
  show wpA c _ _ ⟨p.calls + 1, p.tokens⟩
  -- what is left once a stale token has been cleared away
  have hcreate : ∀ (ts : TokenMap) (k : Nat), p.calls ≤ k →
      Swept cfg c o k p.tokens.lookup ts.lookup →
      wpA c (do tryCreateToken X ⟨o, c.clock p.calls, kind⟩; return .created : LockM _).run
        (fun r p' => p.calls ≤ p'.calls ∧ match r with
          | .ok change => ∃ v, Swept cfg c o p'.calls p.tokens.lookup v ∧
              Took o X change v p'.tokens.lookup
          | .error _ => Swept cfg c o p'.calls p.tokens.lookup p'.tokens.lookup) ⟨k, ts⟩ := by
    intro ts k hk hs
    have hs' := hs.mono (Nat.le_succ k)
    have hk' := hk.trans (Nat.le_succ k)
    refine wp_bindE (wp_tryCreateToken_answer (fun e => ⟨hk', hs'⟩) fun hX => ?_)
    refine wp_pureE ⟨hk', ts.lookup, hs', hX, ⟨o, c.clock p.calls, kind⟩, rfl, ?_⟩
    exact lookup_insert_fun ts X _
  have hle : p.calls ≤ p.calls + 1 + 1 := by omega
  refine wp_bindE (wp_readToken_answer (fun e => ⟨hle, Swept.refl _⟩) ?_)
  cases hX : p.tokens.lookup X with
  | none => exact hcreate p.tokens _ hle (Swept.refl _)
  | some existing =>
      dsimp only
      split
      · next ho =>
          split
          · next hup =>
              refine wp_bindE (wp_compareAndWriteToken_answer
                (fun e _ => ⟨hle.trans (Nat.le_succ _), Swept.refl _⟩)
                (fun _ => ?_) fun hno => absurd hX hno)
              refine wp_pureE ⟨hle.trans (Nat.le_succ _), p.tokens.lookup, Swept.refl _, ?_⟩
              exact ⟨hX, ho, rfl, lookup_insert_fun _ _ _⟩
          · exact wp_pureE ⟨hle, p.tokens.lookup, Swept.refl _, rfl⟩
      · next ho =>
          split
          · next hstale =>
              have hst : StaleBy cfg c o (p.calls + 1 + 1 + 1) existing :=
                ⟨ho, p.calls, by omega, hstale⟩
              refine wp_bindE (wp_removeToken_answer
                (fun e _ => ⟨hle.trans (Nat.le_succ _), Swept.refl _⟩) (fun t _ _ => ?_)
                fun hno => absurd rfl (hno existing hX))
              refine hcreate _ _ (hle.trans (Nat.le_succ _)) ?_
              rw [lookup_erase_fun]
              exact Swept.erase hX hst
          · exact wp_throwE ⟨hle, Swept.refl _⟩

theorem acquireRequest_took (request : PathLockRequest) :
    wpA c (acquireRequest cfg o request).run (fun r p' => p.calls ≤ p'.calls ∧
      match r with
      | .ok (X, change, _) => ∃ v, Swept cfg c o p'.calls p.tokens.lookup v ∧
          Took o X change v p'.tokens.lookup
      | .error _ => Swept cfg c o p'.calls p.tokens.lookup p'.tokens.lookup) p := by
  have hreads : ∀ op : Op, op.Reads → op.Reads := fun _ h => h
  -- the end of both branches: take the lock file, hand the change on
  have htake : ∀ (X : Str) (kind : PathLockKind) (resolved : Option ResolvedExactPaths) (k : Nat),
      p.calls ≤ k → wpA c (do
        let change ← tryAcquireOne cfg X o kind
        return (X, change, resolved) : LockM _).run (fun r p' => p.calls ≤ p'.calls ∧
          match r with
          | .ok (X, change, _) => ∃ v, Swept cfg c o p'.calls p.tokens.lookup v ∧
              Took o X change v p'.tokens.lookup
          | .error _ => Swept cfg c o p'.calls p.tokens.lookup p'.tokens.lookup) ⟨k, p.tokens⟩ := by
    intro X kind resolved k hk
    refine wp_bindE (wp_mono (tryAcquireOne_took X kind) ?_)
    rintro r p' ⟨hk', h⟩
    cases r with
    | ok change => exact wp_pureE ⟨hk.trans hk', h⟩
    | error e => exact ⟨hk.trans hk', h⟩
  have hfail : ∀ (e : PathLockError) k, p.calls ≤ k → p.calls ≤ k ∧
      Swept cfg c o k p.tokens.lookup p.tokens.lookup :=
    fun e k hk => ⟨hk, Swept.refl _⟩
  unfold acquireRequest
  cases hkind : request.kind with
  | exact =>
      refine wp_bind_reads (checkAncestorTreeLocks_only hreads _ _) hfail fun _ k₁ h₁ => ?_
      refine wp_bind_reads (resolveExactPaths_only hreads _)
        (fun e k h => hfail e k (h₁.trans h)) fun resolved k₂ h₂ => ?_
      refine wp_bind_reads (checkLockPaths_only hreads _ _)
        (fun e k h => hfail e k ((h₁.trans h₂).trans h)) fun _ k₃ h₃ => ?_
      refine wp_bind_reads (ensureLockDirOr_only hreads _)
        (fun e k h => hfail e k (((h₁.trans h₂).trans h₃).trans h)) fun _ k₄ h₄ => ?_
      exact htake _ _ _ k₄ (((h₁.trans h₂).trans h₃).trans h₄)
  | tree =>
      refine wp_bind_reads (resolveTreeLockPath_only hreads _) hfail fun lockPath k₁ h₁ => ?_
      refine wp_bind_reads (checkAncestorTreeLocks_only hreads _ _)
        (fun e k h => hfail e k (h₁.trans h)) fun _ k₂ h₂ => ?_
      have h₁₂ : p.calls ≤ k₂ := h₁.trans h₂
      refine wp_bind_reads (resolveExactConflictPaths_only hreads _)
        (fun e k h => hfail e k (h₁₂.trans h)) fun _ k₃ h₃ => ?_
      refine wp_bind_reads (checkLockPaths_only hreads _ _)
        (fun e k h => hfail e k ((h₁₂.trans h₃).trans h)) fun _ k₄ h₄ => ?_
      have h₁₄ : p.calls ≤ k₄ := (h₁₂.trans h₃).trans h₄
      refine wp_bind_reads (checkDescendantLocks_only hreads _ _)
        (fun e k h => hfail e k (h₁₄.trans h)) fun _ k₅ h₅ => ?_
      refine wp_bind_reads (ensureLockDirOr_only hreads _)
        (fun e k h => hfail e k ((h₁₄.trans h₅).trans h)) fun _ k₆ h₆ => ?_
      exact htake _ _ _ k₆ ((h₁₄.trans h₅).trans h₆)

/-- The whole first pass extends the journal; an error sweeps at most. -/
theorem acquireRequests_journal {v₀ : Tokens} (requests : List PathLockRequest)
    (acquired : Acquired) (res : Resolutions)
    (h : Journal cfg c o p.calls v₀ acquired.reverse p.tokens.lookup) :
    wpA c (acquireRequests cfg o requests acquired res) (fun r p' =>
      ∃ v, Journal cfg c o p'.calls v₀ r.2.1.reverse v ∧
        Swept cfg c o p'.calls v p'.tokens.lookup) p := by
  induction requests generalizing acquired res p with
  | nil => exact wp_pure ⟨_, h, Swept.refl _⟩
  | cons request rest ih =>
      refine wp_bind (wp_mono (acquireRequest_took request) ?_)
      rintro r p' ⟨hk, hr⟩
      cases r with
      | error e => exact wp_pure ⟨_, h.mono hk, hr⟩
      | ok x =>
          obtain ⟨X, change, resolved⟩ := x
          obtain ⟨v, hs, ht⟩ := hr
          refine ih _ _ ?_
          rw [List.reverse_append]
          exact ⟨_, v, h.mono hk, hs, ht⟩

/-! ## Giving back -/

/-- No call from number `k` on fails. -/
def Calm (c : Circumstances) (k : Nat) : Prop := ∀ n, k ≤ n → c.fault n = none

/-- Undoing a change whose effect is still there. -/
theorem rollbackOne_undone {X : Str} {change : AcquisitionChange} {v v' : Tokens}
    (hc : Calm c p.calls) (ht : Took o X change v v') (hs : Swept cfg c o k v' p.tokens.lookup) :
    wpA c (rollbackOne o X change).run (fun r p' => r = .ok () ∧
      p.calls ≤ p'.calls ∧ p'.tokens.lookup = undone X change p.tokens.lookup) p := by
  have hcalm : ∀ err, c.fault p.calls ≠ some err := fun err h => by
    rw [hc p.calls le_rfl] at h
    cases h
  cases change with
  | created =>
      obtain ⟨hX, t, ho, rfl⟩ := ht
      have htok : p.tokens.lookup X = some t := hs.own (by simp) ho
      refine wp_bindE (wp_bindE (wp_removeToken_answer (fun err h => absurd h (hcalm err))
        (fun _ _ _ => ?_) fun hno => absurd ho (hno t htok)))
      exact wp_pureE (wp_pureE ⟨rfl, Nat.le_succ _, lookup_erase_fun _ _⟩)
  | reentrant => exact wp_pureE ⟨rfl, le_rfl, rfl⟩
  | upgraded previous replacement =>
      obtain ⟨hX, -, ho, rfl⟩ := ht
      have htok : p.tokens.lookup X = some replacement := hs.own (by simp) ho
      refine wp_bindE (wp_compareAndWriteToken_answer (fun err h => absurd h (hcalm err))
        (fun _ => ?_) fun hno => absurd htok hno)
      exact wp_pureE ⟨rfl, Nat.le_succ _, lookup_insert_fun _ _ _⟩

theorem rollbackEach_swept {v₀ v : Tokens} (acquired : Acquired) (first : Option PathLockError)
    (hc : Calm c p.calls) (hj : Journal cfg c o k v₀ acquired v)
    (hs : Swept cfg c o k v p.tokens.lookup) :
    wpA c (rollbackEach o acquired first) (fun r p' => r = first ∧
      p.calls ≤ p'.calls ∧ Swept cfg c o k v₀ p'.tokens.lookup) p := by
  induction acquired generalizing v p with
  | nil => exact wp_pure ⟨rfl, le_rfl, Swept.trans hj hs⟩
  | cons xc rest ih =>
      obtain ⟨X, change⟩ := xc
      obtain ⟨v₁, v₂, hj₁, hs₁, ht⟩ := hj
      refine wp_bind (wp_mono (rollbackOne_undone hc ht hs) ?_)
      rintro r p' ⟨rfl, hk, htok⟩
      have hc' : Calm c p'.calls := fun n hn => hc n (hk.trans hn)
      refine wp_mono (ih hc' hj₁ (hs₁.trans ?_)) ?_
      · rw [htok]; exact ht.undo hs
      · rintro r p'' ⟨rfl, hk', h⟩
        exact ⟨rfl, hk.trans hk', h⟩

theorem failWith_swept {v₀ v : Tokens} (acquired : Acquired) (e : PathLockError) (pre : Bool)
    (hc : Calm c p.calls) (hj : Journal cfg c o k v₀ acquired.reverse v)
    (hs : Swept cfg c o k v p.tokens.lookup) :
    wpA c (failWith acquired o e pre) (fun r p' => r = (e, pre) ∧
      p.calls ≤ p'.calls ∧ Swept cfg c o k v₀ p'.tokens.lookup) p := by
  refine wp_bind (wp_bind (wp_mono (rollbackEach_swept acquired.reverse none hc hj hs) ?_))
  rintro r p' ⟨rfl, hk, h⟩
  exact wp_pure (wp_pure ⟨rfl, hk, h⟩)

end

/-! ## The whole attempt -/

/-- The attempt by itself, from the given tokens. -/
def attemptAlone (cfg : Config) (c : Circumstances) (requests : List PathLockRequest) (owner : Str)
    (tokens : TokenMap) :
    Except (PathLockError × Bool) Acquired × Progress :=
  (tryAcquireBatchOnce cfg requests owner).solo c.answer ⟨0, tokens⟩

/-- The number of calls its two passes make, before anything is given back. -/
def passCalls (cfg : Config) (c : Circumstances) (requests : List PathLockRequest) (owner : Str)
    (tokens : TokenMap) : Nat :=
  ((bothPasses cfg requests owner).solo c.answer ⟨0, tokens⟩).2.calls

/-- An attempt is its two passes, and the rollback if they fail. -/
theorem tryAcquireBatchOnce_solo (cfg : Config) (c : Circumstances)
    (requests : List PathLockRequest) (owner : Str) (p : Progress) :
    (tryAcquireBatchOnce cfg requests owner).solo c.answer p =
      match (bothPasses cfg requests owner).solo c.answer p with
      | ((some (e, pre), acquired), p') =>
          (.error ((failWith acquired owner e pre).solo c.answer p').1,
            ((failWith acquired owner e pre).solo c.answer p').2)
      | ((none, acquired), p') => (.ok acquired, p') := by
  unfold tryAcquireBatchOnce bothPasses
  rw [solo_bind, solo_bind]
  generalize (acquireRequests cfg owner requests [] ∅).solo c.answer p = x
  obtain ⟨⟨r, acquired, res⟩, p₁⟩ := x
  cases r with
  | error e => exact solo_bind _ _ _ _
  | ok u =>
      dsimp only
      rw [solo_bind, solo_bind]
      generalize (verifyRequests cfg owner res requests).run.solo c.answer p₁ = y
      obtain ⟨r', p₂⟩ := y
      cases r' with
      | error e => exact solo_bind _ _ _ _
      | ok u => rfl

section

variable {cfg : Config} {c : Circumstances} {requests : List PathLockRequest} {owner : Str}
  {tokens : TokenMap}

theorem bothPasses_journal {p : Progress} :
    wpA c (bothPasses cfg requests owner) (fun r p' => ∃ v,
      Journal cfg c owner p'.calls p.tokens.lookup r.2.reverse v ∧
        Swept cfg c owner p'.calls v p'.tokens.lookup) p := by
  refine wp_bind (wp_mono (acquireRequests_journal requests [] ∅ (Swept.refl _)) ?_)
  rintro ⟨r, acquired, res⟩ p₁ ⟨v, hj, hs⟩
  cases r with
  | error e => exact wp_pure ⟨v, hj, hs⟩
  | ok u =>
      -- the second pass only reads
      have hverify : wpA c (verifyRequests cfg owner res requests).run
          (fun _ p' => p₁.calls ≤ p'.calls ∧ p'.tokens = p₁.tokens) p₁ :=
        wp_only (verifyRequests_only (fun op h => h) owner res requests) answer_keeps
          ⟨le_rfl, rfl⟩
      refine wp_bind (wp_mono hverify ?_)
      rintro r' ⟨k, ts⟩ ⟨hk, rfl⟩
      cases r' with
      | error e => exact wp_pure ⟨v, hj.mono hk, hs.mono hk⟩
      | ok u => exact wp_pure ⟨v, hj.mono hk, hs.mono hk⟩

/-- After an attempt that fails, and whose rollback meets no failing call,
the tokens are the first ones but for stale tokens of other owners. -/
theorem attemptAlone_swept {e : PathLockError × Bool}
    (hfail : (attemptAlone cfg c requests owner tokens).1 = .error e)
    (hcalm : Calm c (passCalls cfg c requests owner tokens)) :
    Swept cfg c owner (attemptAlone cfg c requests owner tokens).2.calls tokens.lookup
      (attemptAlone cfg c requests owner tokens).2.tokens.lookup := by
  have hjournal : wpA c (bothPasses cfg requests owner) _ ⟨0, tokens⟩ := bothPasses_journal
  unfold attemptAlone at hfail ⊢
  rw [tryAcquireBatchOnce_solo] at hfail ⊢
  unfold passCalls at hcalm
  unfold wpA wp at hjournal
  generalize (bothPasses cfg requests owner).solo c.answer ⟨0, tokens⟩ = x at *
  obtain ⟨⟨r, acquired⟩, p'⟩ := x
  obtain ⟨v, hj, hs⟩ := hjournal
  cases r with
  | none => cases hfail
  | some err =>
      obtain ⟨-, hk, hback⟩ := failWith_swept acquired err.1 err.2 hcalm hj hs
      exact hback.mono hk

end

/-- `try_acquire_batch_once` is all or nothing.  Whatever the tokens, the
requests, the filesystem, the clock and the failures met on the way: if the
attempt returns an error and no call of its rollback fails, every lock path
has the token it had before, except that a token of another owner, expired by
a reading of the clock during the attempt, may be gone.  In particular the
owner's tokens are what they were. -/
theorem tryAcquireBatchOnce_all_or_nothing (cfg : Config) (c : Circumstances)
    (requests : List PathLockRequest) (owner : Str) (tokens : TokenMap)
    (e : PathLockError × Bool)
    (hfail : (attemptAlone cfg c requests owner tokens).1 = .error e)
    (hcalm : ∀ n, passCalls cfg c requests owner tokens ≤ n → c.fault n = none) :
    (∀ X, (attemptAlone cfg c requests owner tokens).2.tokens.lookup X = tokens.lookup X ∨
      ((attemptAlone cfg c requests owner tokens).2.tokens.lookup X = none ∧
        ∃ t, tokens.lookup X = some t ∧ t.ownerId ≠ owner ∧
          ∃ n < (attemptAlone cfg c requests owner tokens).2.calls,
            isStale cfg t (c.clock n) = true)) ∧
      ∀ X t, tokens.lookup X = some t → t.ownerId = owner →
        (attemptAlone cfg c requests owner tokens).2.tokens.lookup X = some t := by
  have hswept := attemptAlone_swept hfail hcalm
  exact ⟨hswept, fun X t ht ho => hswept.own ht ho⟩

/-! ### `/s` is upgraded before `/z` turns out to be taken -/

namespace Blocked

/-- Every path is a directory, and the clock stands. -/
def calmDay : Circumstances :=
  ⟨fun _ => none, fun _ => 0, fun _ _ => some .dir, fun _ _ => .ok ()⟩

def requests : List PathLockRequest := [⟨['/', 's'], .tree⟩, ⟨['/', 'z'], .exact⟩]

def tokens : TokenMap :=
  ((∅ : TokenMap).insert (pathLockPath ['/', 's']) ⟨['A'], 0, .exact⟩).insert
    (pathLockPath ['/', 'z']) ⟨['B'], 0, .exact⟩

theorem fails : (attemptAlone sampleConfig calmDay requests ['A'] tokens).1 =
    .error (.conflict (pathLockPath ['/', 'z']) ['B'] .exact, true) := by decide +kernel

theorem upgrade_rolled_back :
    (attemptAlone sampleConfig calmDay requests ['A'] tokens).2.tokens.lookup
      (pathLockPath ['/', 's']) = some ⟨['A'], 0, .exact⟩ :=
  (tryAcquireBatchOnce_all_or_nothing sampleConfig calmDay requests ['A'] tokens _ fails
    fun _ _ => rfl).2 _ _ (by decide +kernel) rfl

end Blocked

end OpenViking.Lock
