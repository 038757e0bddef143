/-
# `OpenViking.Queue.CircuitBreaker` — the breaker in front of model calls

`CircuitBreaker` of `utils/circuit_breaker.py`.  Every method runs under one lock, so a run is
a list of calls with the readings of the clock; requests are told apart by a name, since a
request that was let through reports later, when the breaker may be in another state.

What is meant to hold along a run is `Waits`, `OneProbe` and `BacksOff`.  A half-open breaker
lets everybody pass, and a failure that is reported late trips an open breaker again, with the
first timeout.  `Orderly` says which calls keep clear of both; the ghost state `Watch` follows
the probes that have not reported yet.
-/
import Mathlib.Algebra.Order.Field.Rat
import Mathlib.Data.List.Induction
import Mathlib.Tactic.Linarith
import OpenViking.Lib.History

namespace OpenViking.Queue.Breaker

inductive BreakerState
  | closed
  | open
  | halfOpen
  deriving DecidableEq, Repr

/-- The classes of `classify_api_error` -/
inductive ErrorClass
  | permanent
  | auth
  | contentSafety
  | inputTooLarge
  | quotaExceeded
  | transient
  | unknown
  deriving DecidableEq, Repr

/-- Classes that trip the breaker at once -/
def ErrorClass.tripsAtOnce : ErrorClass → Bool
  | .permanent => true
  | .auth => true
  | .quotaExceeded => true
  | _ => false

/-- The arguments of the constructor, `max_reset_timeout` with its default filled in -/
structure Config where
  failureThreshold : Int
  resetTimeout : ℚ
  maxResetTimeout : ℚ

structure CircuitBreaker where
  state : BreakerState
  failureCount : Nat
  lastFailureTime : ℚ
  currentResetTimeout : ℚ
  deriving DecidableEq

variable (config : Config)

def init : CircuitBreaker := ⟨.closed, 0, 0, config.resetTimeout⟩

namespace CircuitBreaker

variable (b : CircuitBreaker)

/-- Whether `check` at this time returns; it raises `CircuitBreakerOpen` otherwise. -/
def passes (now : ℚ) : Bool :=
  match b.state with
  | .closed => true
  | .halfOpen => true
  | .open => b.currentResetTimeout ≤ now - b.lastFailureTime

def check (now : ℚ) : CircuitBreaker :=
  if b.state = .open ∧ b.passes now then { b with state := .halfOpen } else b

def recordSuccess : CircuitBreaker :=
  { b with failureCount := 0, state := .closed, currentResetTimeout := config.resetTimeout }

def recordFailure (errorClass : ErrorClass) (now : ℚ) : CircuitBreaker :=
  if errorClass = .inputTooLarge then b
  else
    let b := { b with failureCount := b.failureCount + 1, lastFailureTime := now }
    if b.state = .halfOpen then
      { b with
        state := .open
        currentResetTimeout := min (b.currentResetTimeout * 2) config.maxResetTimeout }
    else if errorClass.tripsAtOnce ∨ config.failureThreshold ≤ b.failureCount then
      { b with state := .open, currentResetTimeout := config.resetTimeout }
    else b

end CircuitBreaker

/-! ## Runs -/

/-- A call of a request, with the clock -/
inductive Step (ι : Type)
  | check (request : ι) (now : ℚ)
  | success (request : ι) (now : ℚ)
  | failure (request : ι) (errorClass : ErrorClass) (now : ℚ)

namespace Step

variable {ι : Type}

def now : Step ι → ℚ
  | check _ now => now
  | success _ now => now
  | failure _ _ now => now

def isSuccess : Step ι → Bool
  | success _ _ => true
  | _ => false

/-- A failure that counts: an input that is too large says nothing about the service. -/
def counts : Step ι → Bool
  | failure _ errorClass _ => errorClass ≠ .inputTooLarge
  | _ => false

/-- The request reports its outcome. -/
def Records (request : ι) : Step ι → Prop
  | check _ _ => False
  | success r _ => r = request
  | failure r _ _ => r = request

end Step

variable {ι : Type}

def step (b : CircuitBreaker) : Step ι → CircuitBreaker
  | .check _ now => b.check now
  | .success _ _ => b.recordSuccess config
  | .failure _ errorClass now => b.recordFailure config errorClass now

/-- The breaker after a list of calls -/
def after (steps : List (Step ι)) : CircuitBreaker := steps.foldl (step config) (init config)

theorem after_concat (steps : List (Step ι)) (s : Step ι) :
    after config (steps ++ [s]) = step config (after config steps) s := by
  rw [after, List.foldl_append]
  rfl

/-- After the breaker has tripped, the first check that passes, if no success was recorded
before it, comes when the reset timeout has elapsed. -/
def Waits (steps : List (Step ι)) : Prop :=
  ∀ front trip middle request now back,
    steps = front ++ trip :: middle ++ .check request now :: back →
    trip.counts = true → (after config (front ++ [trip])).state = .open →
    (∀ s ∈ middle, s.isSuccess = false) →
    (∀ m₁ r t m₂, middle = m₁ ++ .check r t :: m₂ →
      (after config (front ++ trip :: m₁)).passes t = false) →
    (after config (front ++ trip :: middle)).passes now = true →
    (after config (front ++ trip :: middle)).currentResetTimeout ≤ now - trip.now

/-- While the outcome of a probe, that is, of a request that passed a breaker that was not
closed, is outstanding, no other check passes. -/
def OneProbe (steps : List (Step ι)) : Prop :=
  ∀ front p t middle q now back,
    steps = front ++ .check p t :: middle ++ .check q now :: back →
    (after config front).state ≠ .closed → (after config front).passes t = true →
    (∀ s ∈ middle, ¬s.Records p) →
    (after config (front ++ .check p t :: middle)).passes now = false

/-- Between two successes the timeout does not decrease, and it never exceeds the maximum. -/
def BacksOff (steps : List (Step ι)) : Prop :=
  ∀ front middle back, steps = front ++ middle ++ back → (∀ s ∈ middle, s.isSuccess = false) →
    (after config front).currentResetTimeout ≤
      (after config (front ++ middle)).currentResetTimeout ∧
      (after config front).currentResetTimeout ≤ config.maxResetTimeout

/-! ## Orderly calls -/

/-- The breaker with the probes that have not reported, and whether a probe was let out since
the breaker was last closed by a success -/
structure Watch (ι : Type) where
  breaker : CircuitBreaker
  out : List ι
  probed : Bool

namespace Watch

def start : Watch ι := ⟨init config, [], false⟩

variable [DecidableEq ι]

def next (w : Watch ι) (s : Step ι) : Watch ι :=
  match s with
  | .check p now =>
    if w.breaker.state ≠ .closed ∧ w.breaker.passes now then
      ⟨w.breaker.check now, p :: w.out, true⟩
    else ⟨w.breaker.check now, w.out, w.probed⟩
  | .success r _ => ⟨w.breaker.recordSuccess config, w.out.filter (· ≠ r), false⟩
  | .failure r errorClass now =>
    ⟨w.breaker.recordFailure config errorClass now, w.out.filter (· ≠ r), w.probed⟩

/-- Nobody asks while a probe is out; and from the first probe until a success only the probe
that is out reports a failure. -/
def Allows (w : Watch ι) : Step ι → Prop
  | .check _ _ => w.out = []
  | .success _ _ => True
  | .failure r errorClass _ => errorClass ≠ .inputTooLarge → w.probed = true → r ∈ w.out

instance (w : Watch ι) (s : Step ι) : Decidable (w.Allows s) := by
  cases s with
  | check p now => exact inferInstanceAs (Decidable (w.out = []))
  | success r now => exact inferInstanceAs (Decidable True)
  | failure r errorClass now =>
      exact inferInstanceAs
        (Decidable (errorClass ≠ .inputTooLarge → w.probed = true → r ∈ w.out))

/-- The watch after a list of calls -/
def reached (steps : List (Step ι)) : Watch ι := steps.foldl (next config) (start config)

end Watch

/-- The timeouts are in order, and every call is allowed where it is made. -/
structure Orderly [DecidableEq ι] (steps : List (Step ι)) : Prop where
  nonneg : 0 ≤ config.resetTimeout
  le_max : config.resetTimeout ≤ config.maxResetTimeout
  allowed : Lib.Guarded (Watch.next config) Watch.Allows (Watch.start config) steps

/-! ## Waiting for the timeout -/

variable {config}

theorem recordFailure_time (b : CircuitBreaker) (errorClass : ErrorClass) (now : ℚ) :
    (b.recordFailure config errorClass now).lastFailureTime =
      if errorClass = .inputTooLarge then b.lastFailureTime else now := by
  rw [CircuitBreaker.recordFailure]
  split
  · rfl
  · simp only
    split
    · rfl
    · split
      · rfl
      · rfl

/-- An open breaker stays open as long as nobody passes or reports a success, and its last
failure is not earlier. -/
theorem open_step {b : CircuitBreaker} {s : Step ι} (hopen : b.state = .open)
    (hsuccess : s.isSuccess = false) (hcheck : ∀ r t, s = .check r t → b.passes t = false)
    {time : ℚ} (htime : time ≤ b.lastFailureTime) (hnow : time ≤ s.now) :
    (step config b s).state = .open ∧ time ≤ (step config b s).lastFailureTime := by
  cases s with
  | check r t =>
      have hsame : b.check t = b := by
        rw [CircuitBreaker.check, if_neg]
        rw [hcheck r t rfl]
        simp
      rw [step, hsame]
      exact ⟨hopen, htime⟩
  | success r t => cases hsuccess
  | failure r errorClass now =>
      rw [step, recordFailure_time]
      constructor
      · rw [CircuitBreaker.recordFailure]
        split
        · exact hopen
        · simp only [hopen]
          split
          · rfl
          · split
            · rfl
            · rfl
      · split
        · exact htime
        · exact hnow

theorem open_run {front middle : List (Step ι)} {time : ℚ}
    (hopen : (after config front).state = .open)
    (htime : time ≤ (after config front).lastFailureTime) (hclock : ∀ s ∈ middle, time ≤ s.now)
    (hsuccess : ∀ s ∈ middle, s.isSuccess = false)
    (hcheck : ∀ m₁ r t m₂, middle = m₁ ++ .check r t :: m₂ →
      (after config (front ++ m₁)).passes t = false) :
    (after config (front ++ middle)).state = .open ∧
      time ≤ (after config (front ++ middle)).lastFailureTime := by
  induction middle generalizing front with
  | nil =>
      rw [List.append_nil]
      exact ⟨hopen, htime⟩
  | cons s middle ih =>
      have hfirst : ∀ r t, s = .check r t → (after config front).passes t = false := by
        intro r t heq
        have hfirst := hcheck [] r t middle (by rw [heq]; rfl)
        rwa [List.append_nil] at hfirst
      have hstep : (step config (after config front) s).state = .open ∧
          time ≤ (step config (after config front) s).lastFailureTime :=
        open_step hopen (hsuccess s List.mem_cons_self) hfirst htime
          (hclock s List.mem_cons_self)
      rw [← after_concat] at hstep
      obtain ⟨hopen', htime'⟩ := hstep
      have hnext := ih hopen' htime' (fun x hx => hclock x (List.mem_cons_of_mem _ hx))
        (fun x hx => hsuccess x (List.mem_cons_of_mem _ hx)) (fun m₁ r t m₂ heq => by
          have hlater := hcheck (s :: m₁) r t m₂ (by rw [heq]; rfl)
          rwa [List.append_assoc])
      rwa [List.append_assoc] at hnext

/-- A failure that counts is the last one. -/
theorem time_of_counts {front : List (Step ι)} {trip : Step ι} (htrip : trip.counts = true) :
    (after config (front ++ [trip])).lastFailureTime = trip.now := by
  rw [after_concat]
  cases trip with
  | check r t => cases htrip
  | success r t => cases htrip
  | failure r errorClass t =>
      rw [step, recordFailure_time, if_neg (of_decide_eq_true htrip)]
      rfl

theorem waits {steps : List (Step ι)} (hclock : (steps.map Step.now).Pairwise (· ≤ ·)) :
    Waits config steps := by
  intro front trip middle request now back hsteps htrip hopen hsuccess hcheck hpass
  have hlater : ∀ s ∈ middle, trip.now ≤ s.now := by
    intro s hs
    rw [hsteps, List.append_assoc, List.map_append] at hclock
    have htail := (List.pairwise_append.mp hclock).2.1
    rw [List.cons_append, List.map_cons] at htail
    exact List.rel_of_pairwise_cons htail
      (List.mem_map_of_mem (List.mem_append_left _ hs))
  have hrun : (after config (front ++ [trip] ++ middle)).state = .open ∧
      trip.now ≤ (after config (front ++ [trip] ++ middle)).lastFailureTime :=
    open_run hopen (time_of_counts htrip).ge hlater hsuccess (fun m₁ r t m₂ heq => by
      rw [List.append_assoc]
      exact hcheck m₁ r t m₂ heq)
  rw [List.append_assoc, List.singleton_append] at hrun
  rw [CircuitBreaker.passes, hrun.1] at hpass
  have helapsed := of_decide_eq_true hpass
  have htime := hrun.2
  linarith

/-! ## What a call does to the state and the timeout -/

theorem check_timeout (b : CircuitBreaker) (now : ℚ) :
    (b.check now).currentResetTimeout = b.currentResetTimeout := by
  rw [CircuitBreaker.check]
  split
  · rfl
  · rfl

theorem check_closed {b : CircuitBreaker} {now : ℚ} (h : (b.check now).state = .closed) :
    b.state = .closed := by
  rw [CircuitBreaker.check] at h
  split at h
  · cases h
  · exact h

variable (config) in
/-- What a failure that counts does to the state and the timeout -/
theorem recordFailure_cases (b : CircuitBreaker) {errorClass : ErrorClass} (now : ℚ)
    (hclass : errorClass ≠ .inputTooLarge) :
    let b' := b.recordFailure config errorClass now
    (b.state = .halfOpen ∧ b'.state = .open ∧
        b'.currentResetTimeout = min (b.currentResetTimeout * 2) config.maxResetTimeout) ∨
      (b.state ≠ .halfOpen ∧ (errorClass.tripsAtOnce = true ∨
          config.failureThreshold ≤ b.failureCount + 1) ∧
        b'.state = .open ∧ b'.currentResetTimeout = config.resetTimeout) ∨
      (b.state ≠ .halfOpen ∧ ¬(errorClass.tripsAtOnce = true ∨
          config.failureThreshold ≤ b.failureCount + 1) ∧
        b'.state = b.state ∧ b'.currentResetTimeout = b.currentResetTimeout) := by
  intro b'
  have hdef : b' = b.recordFailure config errorClass now := rfl
  rw [CircuitBreaker.recordFailure, if_neg hclass] at hdef
  by_cases hhalf : b.state = .halfOpen
  · rw [if_pos hhalf] at hdef
    rw [hdef]
    exact .inl ⟨hhalf, rfl, rfl⟩
  · rw [if_neg hhalf] at hdef
    by_cases htrip : errorClass.tripsAtOnce = true ∨
        config.failureThreshold ≤ ((b.failureCount + 1 : Nat) : Int)
    · rw [if_pos htrip] at hdef
      rw [hdef]
      push_cast at htrip
      exact .inr (.inl ⟨hhalf, htrip, rfl, rfl⟩)
    · rw [if_neg htrip] at hdef
      rw [hdef]
      push_cast at htrip
      exact .inr (.inr ⟨hhalf, htrip, rfl, rfl⟩)

theorem check_halfOpen {b : CircuitBreaker} {now : ℚ} (h : (b.check now).state = .halfOpen) :
    b.state ≠ .closed ∧ b.passes now = true := by
  rw [CircuitBreaker.check] at h
  split at h
  · rename_i hopen
    rw [hopen.1]
    exact ⟨by decide, hopen.2⟩
  · rw [h, CircuitBreaker.passes, h]
    exact ⟨by decide, rfl⟩

/-- A breaker that was not closed and lets a check pass is half open. -/
theorem halfOpen_of_passes {b : CircuitBreaker} {now : ℚ} (hstate : b.state ≠ .closed)
    (hpass : b.passes now = true) : (b.check now).state = .halfOpen := by
  rw [CircuitBreaker.check]
  cases hcase : b.state with
  | closed => exact absurd hcase hstate
  | halfOpen =>
      rw [if_neg (by rintro ⟨h, _⟩; cases h)]
      exact hcase
  | «open» => rw [if_pos ⟨rfl, hpass⟩]

/-! ## Backing off

The invariant `Watch.Calm`: the timeout has grown only once a probe was out, and a probe that
is out while the breaker is not half open finds the first timeout. -/

namespace Watch

structure Calm (config : Config) (w : Watch ι) : Prop where
  nonneg : 0 ≤ w.breaker.currentResetTimeout
  le_max : w.breaker.currentResetTimeout ≤ config.maxResetTimeout
  single : w.out.length ≤ 1
  shut : w.breaker.state = .closed → w.probed = false
  half : w.breaker.state = .halfOpen → w.probed = true
  fresh : w.probed = false → w.breaker.currentResetTimeout = config.resetTimeout
  quiet : w.out ≠ [] → w.breaker.state ≠ .halfOpen →
    w.breaker.currentResetTimeout = config.resetTimeout

variable [DecidableEq ι]

theorem filter_eq_nil {out : List ι} {r : ι} (hsingle : out.length ≤ 1) (hr : r ∈ out) :
    out.filter (· ≠ r) = [] := by
  obtain ⟨p, rfl⟩ := List.length_eq_one_iff.mp
    (Nat.le_antisymm hsingle (List.length_pos_of_mem hr))
  simp [List.mem_singleton.mp hr]

theorem ne_nil_of_filter {out : List ι} {r : ι} (h : out.filter (· ≠ r) ≠ []) : out ≠ [] := by
  rintro rfl
  exact h rfl

omit [DecidableEq ι] in
/-- A failure finds the first timeout, unless the breaker is half open. -/
theorem Calm.first_timeout {w : Watch ι} (hw : Calm config w) {r : ι} {errorClass : ErrorClass}
    {now : ℚ} (hclass : errorClass ≠ .inputTooLarge)
    (hallows : w.Allows (.failure r errorClass now)) (hhalf : w.breaker.state ≠ .halfOpen) :
    w.breaker.currentResetTimeout = config.resetTimeout := by
  cases hprobed : w.probed with
  | false => exact hw.fresh hprobed
  | true => exact hw.quiet (List.ne_nil_of_mem (hallows hclass hprobed)) hhalf

theorem calm_check {w : Watch ι} (hw : Calm config w) {p : ι} {now : ℚ}
    (hallows : w.Allows (.check p now)) : Calm config (w.next config (.check p now)) := by
  have htime : (w.breaker.check now).currentResetTimeout = w.breaker.currentResetTimeout :=
    check_timeout w.breaker now
  have hout : w.out = [] := hallows
  rw [next]
  split
  · rename_i hprobe
    have hhalf := halfOpen_of_passes hprobe.1 hprobe.2
    refine ⟨htime.symm ▸ hw.nonneg, htime.symm ▸ hw.le_max, ?_, fun hclosed => ?_, fun _ => rfl,
      fun hprobed => (Bool.noConfusion hprobed), fun _ hnot => absurd hhalf hnot⟩
    · rw [hout]
      rfl
    · exact absurd (hhalf.symm.trans hclosed) (by decide)
  · rename_i hprobe
    refine ⟨htime.symm ▸ hw.nonneg, htime.symm ▸ hw.le_max, hw.single,
      fun hclosed => hw.shut (check_closed hclosed), fun hhalf => ?_,
      fun hprobed => htime.trans (hw.fresh hprobed), fun hne => absurd hout hne⟩
    exact absurd (check_halfOpen hhalf) hprobe

theorem calm_failure {w : Watch ι} (hw : Calm config w) (hpos : 0 ≤ config.resetTimeout)
    (hmax : config.resetTimeout ≤ config.maxResetTimeout) {r : ι} {errorClass : ErrorClass}
    {now : ℚ} (hallows : w.Allows (.failure r errorClass now)) :
    Calm config (w.next config (.failure r errorClass now)) ∧
      w.breaker.currentResetTimeout ≤
        (w.next config (.failure r errorClass now)).breaker.currentResetTimeout := by
  have hsingle : (w.out.filter (· ≠ r)).length ≤ 1 := (List.length_filter_le _ _).trans hw.single
  rw [next]
  by_cases hclass : errorClass = .inputTooLarge
  · rw [CircuitBreaker.recordFailure, if_pos hclass]
    exact ⟨⟨hw.nonneg, hw.le_max, hsingle, hw.shut, hw.half, hw.fresh,
      fun hne => hw.quiet (ne_nil_of_filter hne)⟩, le_refl _⟩
  rcases recordFailure_cases config w.breaker now hclass with
    ⟨hhalf, hopen, htime⟩ | ⟨hhalf, htrip, hopen, htime⟩ | ⟨hhalf, hcount, hstate, htime⟩
  · -- the probe that is out has failed, and no other probe is out
    have hprobed := hw.half hhalf
    have hnone := filter_eq_nil hw.single (hallows hclass hprobed)
    have hgrown : w.breaker.currentResetTimeout ≤
        min (w.breaker.currentResetTimeout * 2) config.maxResetTimeout :=
      le_min (by linarith [hw.nonneg]) hw.le_max
    refine ⟨⟨htime ▸ hw.nonneg.trans hgrown, htime ▸ min_le_right _ _, hsingle,
      fun hclosed => absurd (hopen.symm.trans hclosed) (by decide), fun _ => hprobed,
      fun hnot => absurd (hprobed.symm.trans hnot) (by decide), fun hne => absurd hnone hne⟩, ?_⟩
    exact htime ▸ hgrown
  · have hfirst := hw.first_timeout hclass hallows hhalf
    refine ⟨⟨htime ▸ hpos, htime ▸ hmax, hsingle,
      fun hclosed => absurd (hopen.symm.trans hclosed) (by decide),
      fun hnot => absurd (hopen.symm.trans hnot) (by decide), fun _ => htime,
      fun _ _ => htime⟩, ?_⟩
    exact (hfirst.trans htime.symm).le
  · have hfirst := hw.first_timeout hclass hallows hhalf
    refine ⟨⟨htime ▸ hw.nonneg, htime ▸ hw.le_max, hsingle,
      fun hclosed => hw.shut (hstate.symm.trans hclosed),
      fun hnot => absurd (hstate.symm.trans hnot) hhalf, fun _ => htime.trans hfirst,
      fun _ _ => htime.trans hfirst⟩, ?_⟩
    exact htime.ge

/-- A call that is allowed keeps the invariant and, unless it reports a success, does not lower
the timeout. -/
theorem calm_next {w : Watch ι} (hw : Calm config w) (hpos : 0 ≤ config.resetTimeout)
    (hmax : config.resetTimeout ≤ config.maxResetTimeout) {s : Step ι} (hallows : w.Allows s) :
    Calm config (w.next config s) ∧ (s.isSuccess = false →
      w.breaker.currentResetTimeout ≤ (w.next config s).breaker.currentResetTimeout) := by
  cases s with
  | check p now =>
      refine ⟨calm_check hw hallows, fun _ => ?_⟩
      rw [next]
      split
      · exact (check_timeout w.breaker now).ge
      · exact (check_timeout w.breaker now).ge
  | success r now =>
      refine ⟨⟨hpos, hmax, (List.length_filter_le _ _).trans hw.single, fun _ => rfl,
        fun hhalf => ?_, fun _ => rfl, fun _ _ => rfl⟩, fun hsuccess => ?_⟩
      · cases hhalf
      · cases hsuccess
  | failure r errorClass now =>
      have hfailure := calm_failure hw hpos hmax hallows
      exact ⟨hfailure.1, fun _ => hfailure.2⟩

/-! ## Runs of the watch -/

theorem next_breaker (w : Watch ι) (s : Step ι) :
    (w.next config s).breaker = step config w.breaker s := by
  cases s with
  | check p now =>
      rw [next]
      split
      · rfl
      · rfl
  | success r now => rfl
  | failure r errorClass now => rfl

theorem reached_concat (steps : List (Step ι)) (s : Step ι) :
    reached config (steps ++ [s]) = (reached config steps).next config s := by
  rw [reached, List.foldl_append]
  rfl

variable (config) in
theorem reached_breaker (steps : List (Step ι)) :
    (reached config steps).breaker = after config steps := by
  induction steps using List.reverseRecOn with
  | nil => rfl
  | append_singleton steps s ih => rw [reached_concat, next_breaker, ih, after_concat]

/-- A probe is out until it reports. -/
theorem mem_out {front middle : List (Step ι)} {p : ι} {t : ℚ}
    (hstate : (after config front).state ≠ .closed) (hpass : (after config front).passes t = true)
    (hmiddle : ∀ s ∈ middle, ¬s.Records p) :
    p ∈ (reached config (front ++ .check p t :: middle)).out := by
  induction middle using List.reverseRecOn with
  | nil =>
      rw [reached_concat, next, reached_breaker, if_pos ⟨hstate, hpass⟩]
      exact List.mem_cons_self
  | append_singleton middle s ih =>
      have hout := ih (fun x hx => hmiddle x (List.mem_append_left _ hx))
      have hrecords := hmiddle s (List.mem_append_right _ List.mem_cons_self)
      rw [← List.cons_append, ← List.append_assoc, reached_concat]
      cases s with
      | check q now =>
          rw [next]
          split
          · exact List.mem_cons_of_mem _ hout
          · exact hout
      | success r now => exact List.mem_filter.mpr ⟨hout, decide_eq_true (Ne.symm hrecords)⟩
      | failure r errorClass now =>
          exact List.mem_filter.mpr ⟨hout, decide_eq_true (Ne.symm hrecords)⟩

end Watch

section Runs

variable [DecidableEq ι]

theorem Orderly.split {front back : List (Step ι)} (h : Orderly config (front ++ back)) :
    Watch.Calm config (Watch.reached config front) ∧
      Lib.Guarded (Watch.next config) Watch.Allows (Watch.reached config front) back := by
  have hstart : Watch.Calm config (Watch.start config : Watch ι) :=
    ⟨h.nonneg, h.le_max, Nat.zero_le 1, fun _ => rfl, fun hhalf => (by cases hhalf), fun _ => rfl,
      fun _ _ => rfl⟩
  have hguard := Lib.guarded_append.mp h.allowed
  have hcalm : Lib.Along (Watch.next config) (Watch.Calm config) (Watch.start config) front :=
    Lib.along_of_guarded (I := Watch.Calm config)
      (fun w s hw hs => (Watch.calm_next hw h.nonneg h.le_max hs).1)
      (fun w hw => hw) hstart hguard.1
  exact ⟨hcalm.last, hguard.2⟩

theorem oneProbe_of_orderly {steps : List (Step ι)} (h : Orderly config steps) :
    OneProbe config steps := by
  intro front p t middle q now back hsteps hstate hpass hmiddle
  rw [hsteps] at h
  -- the second check is not allowed: the first probe is still out
  have hnone : (Watch.reached config (front ++ .check p t :: middle)).out = [] := h.split.2.1
  exact absurd hnone (List.ne_nil_of_mem (Watch.mem_out hstate hpass hmiddle))

theorem timeout_mono {front middle back : List (Step ι)}
    (h : Orderly config (front ++ middle ++ back))
    (hsuccess : ∀ s ∈ middle, s.isSuccess = false) :
    (after config front).currentResetTimeout ≤
      (after config (front ++ middle)).currentResetTimeout := by
  induction middle using List.reverseRecOn generalizing back with
  | nil => rw [List.append_nil]
  | append_singleton middle s ih =>
      have hsplit : front ++ (middle ++ [s]) ++ back = front ++ middle ++ s :: back := by
        simp only [List.append_assoc, List.singleton_append]
      rw [hsplit] at h
      have hmiddle := ih h (fun x hx => hsuccess x (List.mem_append_left _ hx))
      obtain ⟨hcalm, hallows, -⟩ := h.split
      have hstep := (Watch.calm_next hcalm h.nonneg h.le_max hallows).2
        (hsuccess s (List.mem_append_right _ List.mem_cons_self))
      rw [Watch.next_breaker, Watch.reached_breaker, ← after_concat, List.append_assoc] at hstep
      exact hmiddle.trans hstep

theorem backsOff_of_orderly {steps : List (Step ι)} (h : Orderly config steps) :
    BacksOff config steps := by
  intro front middle back hsteps hsuccess
  rw [hsteps] at h
  have hmono := timeout_mono h hsuccess
  rw [List.append_assoc] at h
  have hmax := h.split.1.le_max
  rw [Watch.reached_breaker] at hmax
  exact ⟨hmono, hmax⟩

/-- Along any run of orderly calls, with a clock that does not go back, the breaker waits for
its timeout, lets one probe out at a time and backs off monotonically. -/
theorem probes_and_backs_off (config : Config) (steps : List (Step ι))
    (hclock : (steps.map Step.now).Pairwise (· ≤ ·)) (horderly : Orderly config steps) :
    Waits config steps ∧ OneProbe config steps ∧ BacksOff config steps :=
  ⟨waits hclock, oneProbe_of_orderly horderly, backsOff_of_orderly horderly⟩

end Runs

namespace Sample

def settings : Config := ⟨1, 10, 40⟩

/-- One request trips the breaker; after the timeout two others ask. -/
def twoProbes : List (Step Nat) :=
  [.check 0 0, .failure 0 .transient 1, .check 1 11, .check 2 12]

/-- Two requests are let through; the first trips the breaker, a probe fails and doubles the
timeout, and then the second reports its failure. -/
def lateReport : List (Step Nat) :=
  [.check 0 0, .check 1 0, .failure 0 .transient 1, .check 2 11, .failure 2 .transient 12,
    .failure 1 .transient 13]

/-- Two requests fail, the second when the breaker has tripped; two probes fail one after the
other, with refused checks between them, and the third probe succeeds. -/
def outage : List (Step Nat) :=
  [.check 0 0, .check 1 0, .failure 0 .transient 1, .failure 1 .auth 2, .check 2 11, .check 3 12,
    .failure 3 .transient 13, .check 4 32, .check 5 33, .failure 5 .unknown 34, .check 6 74,
    .success 6 75, .check 7 76]

theorem outage_backs_off :
    (outage.map Step.now).Pairwise (· ≤ ·) ∧ Orderly settings outage ∧
      (List.range 14).map (fun n => (after settings (outage.take n)).currentResetTimeout) =
        [10, 10, 10, 10, 10, 10, 10, 20, 20, 20, 40, 40, 10, 10] ∧
      (Waits settings outage ∧ OneProbe settings outage ∧ BacksOff settings outage) :=
  have hclock : (outage.map Step.now).Pairwise (· ≤ ·) := by decide +kernel
  have horderly : Orderly settings outage :=
    ⟨by decide +kernel, by decide +kernel, by decide +kernel⟩
  ⟨hclock, horderly, by decide +kernel, probes_and_backs_off settings outage hclock horderly⟩

/-- The half-open breaker lets the second request pass too, and the late failure sets the
timeout from 20 back to 10. -/
theorem second_probe_and_reset :
    (twoProbes.map Step.now).Pairwise (· ≤ ·) ∧ ¬OneProbe settings twoProbes ∧
      (lateReport.map Step.now).Pairwise (· ≤ ·) ∧ ¬BacksOff settings lateReport := by
  refine ⟨by decide +kernel, fun h => ?_, by decide +kernel, fun h => ?_⟩
  · have hblocked := h [.check 0 0, .failure 0 .transient 1] 1 11 [] 2 12 [] rfl
      (by decide +kernel) (by decide +kernel) (List.forall_mem_nil _)
    revert hblocked
    decide +kernel
  · have hle := (h [.check 0 0, .check 1 0, .failure 0 .transient 1, .check 2 11,
      .failure 2 .transient 12] [.failure 1 .transient 13] [] rfl (by decide +kernel)).1
    revert hle
    decide +kernel

end Sample

end OpenViking.Queue.Breaker
