/-
# `OpenViking.Session.Retention` — what a commit archives

`planRetention` keeps the latest turns that fit the budget.  When the latest turn
alone does not, its query stays with as many of its last steps as fit, or with
the last ones at least, and goes into the archive as well if steps do.

There are only these two kinds of plans (`plan_cases`), and from them the plan
is read off as a cut through the messages that loses nothing, separates no step
and is not moved by planning again (`plan_sound`).
-/
import OpenViking.Session.Turns
import Mathlib.Data.List.Nodup

namespace OpenViking.Session

open OpenViking.Lib

/-! ## The planner -/

/-- `RetentionPlan` -/
structure RetentionPlan where
  archiveMessages : List Message
  retainedMessages : List Message
  turnAnchor : Option Message := none
  checkpointSourceMessageIds : List Str := []
  rawTailStartMessageId : Option Str := none
  estimatedActiveTokens : Nat := 0
  budgetExceeded : Bool := false
  partialTurn : Bool := false

/-- `_CHECKPOINT_TOKEN_RESERVE` -/
def checkpointTokenReserve : Nat := 1024

/-- The loop of `_partial_latest_turn_plan`: the index of the first step that is retained -/
def firstRetainedStep (steps : List (List Message)) (rawBudget : Nat) : Nat → Nat → Nat
  | 0, _ => 0
  | index + 1, retainedTokens =>
      let candidate := messageTokens (steps.getD index [])
      if rawBudget < retainedTokens + candidate then index + 1
      else firstRetainedStep steps rawBudget index (retainedTokens + candidate)

/-- The steps that are retained whatever they cost -/
def minTailSteps (steps : List (List Message)) (minRawTailSteps : Int) : Nat :=
  if steps.isEmpty then 0 else max 1 minRawTailSteps.toNat

/-- Where `_partial_latest_turn_plan` cuts the steps -/
def partialCut (turn : UserTurn Message) (tokenBudget : Nat) (minRawTailSteps : Int) : Nat :=
  let start := turn.steps.length - minTailSteps turn.steps minRawTailSteps
  let retainedTokens := messageTokens turn.anchor.toList +
    ((turn.steps.drop start).map messageTokens).sum
  let checkpointReserve := min checkpointTokenReserve (tokenBudget / 4)
  firstRetainedStep turn.steps (tokenBudget - checkpointReserve) start retainedTokens

/-- `_partial_latest_turn_plan` -/
def partialLatestTurnPlan (olderTurns : List (UserTurn Message)) (latestTurn : UserTurn Message)
    (tokenBudget : Nat) (minRawTailSteps : Int) : RetentionPlan :=
  let cut := partialCut latestTurn tokenBudget minRawTailSteps
  let retainedSteps := latestTurn.steps.drop cut
  let archivedSourceMessages := (latestTurn.steps.take cut).flatten
  let retainedMessages := latestTurn.anchor.toList ++ retainedSteps.flatten
  let activeTokens := messageTokens retainedMessages
  { archiveMessages := flattenTurns olderTurns ++
      (if archivedSourceMessages.isEmpty then []
        else latestTurn.anchor.toList ++ archivedSourceMessages)
    retainedMessages := retainedMessages
    turnAnchor := latestTurn.anchor
    checkpointSourceMessageIds := archivedSourceMessages.map (·.id)
    rawTailStartMessageId := (retainedSteps.head?.bind List.head?).map (·.id)
    estimatedActiveTokens := activeTokens
    budgetExceeded := decide (tokenBudget < activeTokens)
    partialTurn := !archivedSourceMessages.isEmpty }

/-- `sum(t.estimated_tokens for t in turns)` -/
def turnsTokens (turns : List (UserTurn Message)) : Nat :=
  (turns.map fun turn => messageTokens turn.messages).sum

/-- The loop of `plan_retention` that gives up the oldest turns, but not the last one -/
def evictTurns (tokenBudget : Nat) : List (UserTurn Message) → List (UserTurn Message)
  | turn :: next :: rest =>
      if tokenBudget < turnsTokens (turn :: next :: rest) then evictTurns tokenBudget (next :: rest)
      else turn :: next :: rest
  | turns => turns

/-- `plan_retention` -/
def planRetention (messages : List Message)
    (keepRecentTurnCount tokenBudget minRawTailSteps : Int) :
    RetentionPlan :=
  let keep := keepRecentTurnCount.toNat
  let budget := tokenBudget.toNat
  let turns := buildTurns id messages
  match turns.getLast? with
  | none => { archiveMessages := messages, retainedMessages := [] }
  | some latestTurn =>
      if keep = 0 then { archiveMessages := messages, retainedMessages := [] }
      else
        let retainedTurns := evictTurns budget (turns.drop (turns.length - keep))
        let olderTurns := turns.take (turns.length - retainedTurns.length)
        if budget < messageTokens latestTurn.messages then
          -- without a query of the user there is nothing to hang a checkpoint on
          if latestTurn.anchor.isNone then
            { archiveMessages := flattenTurns (olderTurns ++ [latestTurn])
              retainedMessages := [] }
          else partialLatestTurnPlan olderTurns latestTurn budget minRawTailSteps
        else
          { archiveMessages := flattenTurns olderTurns
            retainedMessages := flattenTurns retainedTurns
            estimatedActiveTokens := messageTokens (flattenTurns retainedTurns) }

/-! ## The two cuts -/

theorem messageTokens_flatten (steps : List (List Message)) :
    messageTokens steps.flatten = (steps.map messageTokens).sum := by
  induction steps with
  | nil => rfl
  | cons step steps ih => rw [List.flatten_cons, messageTokens_append, ih, List.map_cons,
      List.sum_cons]

theorem turnsTokens_eq (turns : List (UserTurn Message)) :
    turnsTokens turns = messageTokens (flattenTurns turns) := by
  rw [flattenTurns, List.flatMap, messageTokens_flatten, turnsTokens, List.map_map]
  rfl

/-- The loop stops where it began or with what fits. -/
theorem firstRetainedStep_spec (steps : List (List Message)) {index : Nat} (rawBudget tokens : Nat)
    (hindex : index ≤ steps.length) :
    let first := firstRetainedStep steps rawBudget index
      (tokens + messageTokens (steps.drop index).flatten)
    first ≤ index ∧
      (first = index ∨ tokens + messageTokens (steps.drop first).flatten ≤ rawBudget) := by
  induction index with
  | zero => exact ⟨le_rfl, Or.inl rfl⟩
  | succ index ih =>
      have hdrop : messageTokens (steps.drop index).flatten =
          messageTokens (steps.getD index []) + messageTokens (steps.drop (index + 1)).flatten := by
        rw [List.drop_eq_getElem_cons (by omega), List.flatten_cons, messageTokens_append,
          List.getD_eq_getElem?_getD, List.getElem?_eq_getElem (by omega), Option.getD_some]
      unfold firstRetainedStep
      dsimp only
      split
      · exact ⟨le_rfl, Or.inl rfl⟩
      · next hfits =>
          have hsum : tokens + messageTokens (steps.drop (index + 1)).flatten +
              messageTokens (steps.getD index []) =
              tokens + messageTokens (steps.drop index).flatten := by omega
          rw [hsum] at hfits ⊢
          obtain ⟨hle, hor⟩ := ih (by omega)
          refine ⟨by omega, Or.inr ?_⟩
          rcases hor with heq | hfit
          · rw [heq]
            omega
          · exact hfit

/-- Either the cut leaves the mandatory steps alone or what it keeps fits the budget. -/
theorem partialCut_spec (turn : UserTurn Message) (budget : Nat) (minRawTailSteps : Int) :
    partialCut turn budget minRawTailSteps ≤
        turn.steps.length - minTailSteps turn.steps minRawTailSteps ∧
      (partialCut turn budget minRawTailSteps =
          turn.steps.length - minTailSteps turn.steps minRawTailSteps ∨
        messageTokens (turn.anchor.toList ++
          (turn.steps.drop (partialCut turn budget minRawTailSteps)).flatten) ≤ budget) := by
  unfold partialCut
  dsimp only
  rw [← messageTokens_flatten]
  obtain ⟨hle, hor⟩ := firstRetainedStep_spec turn.steps
    (budget - min checkpointTokenReserve (budget / 4)) (messageTokens turn.anchor.toList)
    (Nat.sub_le _ (minTailSteps turn.steps minRawTailSteps))
  refine ⟨hle, hor.imp id fun h => ?_⟩
  rw [messageTokens_append]
  exact h.trans (Nat.sub_le _ _)

theorem evictTurns_spec {budget : Nat} {turns : List (UserTurn Message)} (hne : turns ≠ []) :
    ∃ n, n < turns.length ∧ evictTurns budget turns = turns.drop n ∧
      (turns.length - n = 1 ∨ messageTokens (flattenTurns (turns.drop n)) ≤ budget) ∧
      ∀ k < n, budget < messageTokens (flattenTurns (turns.drop k)) := by
  induction turns with
  | nil => exact absurd rfl hne
  | cons turn rest ih =>
      cases rest with
      | nil => exact ⟨0, by simp, rfl, Or.inl (by simp), nofun⟩
      | cons next rest =>
          unfold evictTurns
          rw [turnsTokens_eq]
          split
          · next hover =>
              obtain ⟨n, hn, heq, hor, hall⟩ := ih (List.cons_ne_nil _ _)
              refine ⟨n + 1, by simpa using hn, by rw [heq, List.drop_succ_cons], ?_, ?_⟩
              · rw [List.drop_succ_cons, List.length_cons, Nat.add_sub_add_right]
                exact hor
              · intro k hk
                cases k with
                | zero => exact hover
                | succ k =>
                    rw [List.drop_succ_cons]
                    exact hall k (by omega)
          · next hfits => exact ⟨0, by simp, rfl, Or.inr (Nat.le_of_not_lt hfits), nofun⟩

/-- Shorter ends of the turns have fewer tokens. -/
theorem messageTokens_drop_anti (turns : List (UserTurn Message)) {j k : Nat} (h : j ≤ k) :
    messageTokens (flattenTurns (turns.drop k)) ≤ messageTokens (flattenTurns (turns.drop j)) := by
  obtain ⟨d, rfl⟩ := Nat.exists_eq_add_of_le h
  conv_rhs => rw [← List.take_append_drop d (turns.drop j)]
  rw [flattenTurns_append, messageTokens_append, List.drop_drop]
  omega

/-- A cut between turns: what is kept fits, and nothing that is longer does. -/
structure CutAtTurn (messages : List Message) (keep budget : Nat) (plan : RetentionPlan)
    (n : Nat) : Prop where
  archived : plan.archiveMessages = flattenTurns ((buildTurns id messages).take n)
  retained : plan.retainedMessages = flattenTurns ((buildTurns id messages).drop n)
  few : (buildTurns id messages).length - n ≤ keep
  fits : messageTokens plan.retainedMessages ≤ budget
  longest : ∀ k < n, (buildTurns id messages).length - k ≤ keep →
    budget < messageTokens (flattenTurns ((buildTurns id messages).drop k))
  -- everything is archived only where there is no query to keep
  emptied : 0 < keep → (buildTurns id messages).length ≤ n →
    ∀ latest ∈ (buildTurns id messages).getLast?, latest.anchor = none

/-- A cut between steps of the latest turn, which does not fit. -/
structure CutAtStep (messages : List Message) (keep budget : Nat) (minRawTailSteps : Int)
    (plan : RetentionPlan) (older : List (UserTurn Message)) (latest : UserTurn Message)
    (anchor : Message) (n : Nat) : Prop where
  turns : buildTurns id messages = older ++ [latest]
  anchored : latest.anchor = some anchor
  overflow : budget < messageTokens latest.messages
  some_kept : 0 < keep
  archived : plan.archiveMessages = flattenTurns older ++
    (if (latest.steps.take n).flatten.isEmpty then []
      else anchor :: (latest.steps.take n).flatten)
  retained : plan.retainedMessages = anchor :: (latest.steps.drop n).flatten
  exceeded : plan.budgetExceeded = decide (budget < messageTokens plan.retainedMessages)
  cut_le : n ≤ latest.steps.length - minTailSteps latest.steps minRawTailSteps
  cut : n = latest.steps.length - minTailSteps latest.steps minRawTailSteps ∨
    messageTokens plan.retainedMessages ≤ budget

section

variable (messages : List Message) (keepRecentTurnCount tokenBudget minRawTailSteps : Int)

/-- To archive everything is a cut after the last turn. -/
theorem cutAtTurn_all {messages : List Message} {keep budget : Nat} {plan : RetentionPlan}
    (harchived : plan.archiveMessages = messages) (hretained : plan.retainedMessages = [])
    (hover : ∀ k < (buildTurns id messages).length, (buildTurns id messages).length - k ≤ keep →
      budget < messageTokens (flattenTurns ((buildTurns id messages).drop k)))
    (hlatest : 0 < keep → ∀ latest ∈ (buildTurns id messages).getLast?, latest.anchor = none) :
    CutAtTurn messages keep budget plan (buildTurns id messages).length where
  archived := by rw [harchived, List.take_length, flattenTurns_buildTurns]
  retained := by rw [hretained, List.drop_length]; rfl
  few := by omega
  fits := by rw [hretained]; exact Nat.zero_le _
  longest := hover
  emptied hkeep _ := hlatest hkeep

/-- The turns that are left after the count and the budget have been enforced. -/
theorem retainedTurns_spec {turns : List (UserTurn Message)} {keep : Nat} (budget : Nat)
    (hne : turns ≠ []) (hkeep : keep ≠ 0) :
    ∃ n, n < turns.length ∧ turns.length - n ≤ keep ∧
      evictTurns budget (turns.drop (turns.length - keep)) = turns.drop n ∧
      (turns.length - n = 1 ∨ messageTokens (flattenTurns (turns.drop n)) ≤ budget) ∧
      ∀ k < n, turns.length - k ≤ keep →
        budget < messageTokens (flattenTurns (turns.drop k)) := by
  have hpos := List.length_pos_of_ne_nil hne
  obtain ⟨n, hn, hevict, hor, hall⟩ := evictTurns_spec
    (show turns.drop (turns.length - keep) ≠ [] by rw [Ne, List.drop_eq_nil_iff]; omega)
  simp only [List.drop_drop, List.length_drop] at hn hevict hor hall
  refine ⟨turns.length - keep + n, by omega, by omega, hevict, ?_, fun k hk hle => ?_⟩
  · exact hor.imp (fun h => by omega) id
  · have := hall (k - (turns.length - keep)) (by omega)
    rwa [Nat.add_sub_cancel' (by omega)] at this

theorem plan_cases :
    (∃ n, CutAtTurn messages keepRecentTurnCount.toNat tokenBudget.toNat
      (planRetention messages keepRecentTurnCount tokenBudget minRawTailSteps) n) ∨
    ∃ older latest anchor n, CutAtStep messages keepRecentTurnCount.toNat tokenBudget.toNat
      minRawTailSteps (planRetention messages keepRecentTurnCount tokenBudget minRawTailSteps)
      older latest anchor n := by
  unfold planRetention
  generalize hturns : buildTurns id messages = turns
  generalize keepRecentTurnCount.toNat = keep
  generalize tokenBudget.toNat = budget
  dsimp only
  split
  · next hnone =>
      refine Or.inl ⟨_, cutAtTurn_all rfl rfl (fun k hk => ?_) fun _ latest hlatest => ?_⟩
      · rw [hturns, List.getLast?_eq_none_iff.mp hnone] at hk
        cases hk
      · rw [hturns, hnone] at hlatest
        cases hlatest
  · next latest hlatest =>
      by_cases hkeep : keep = 0
      · rw [if_pos hkeep]
        exact Or.inl ⟨_, cutAtTurn_all rfl rfl (fun k hk hle => by omega) fun hpos => by omega⟩
      · obtain ⟨front, rfl⟩ := List.getLast?_eq_some_iff.mp hlatest
        obtain ⟨n, hn, hfew, hevict, hor, hlongest⟩ :=
          retainedTurns_spec budget (show front ++ [latest] ≠ [] by simp) hkeep
        rw [if_neg hkeep, hevict, List.length_drop, Nat.sub_sub_self hn.le]
        -- the latest turn is in every end of the turns
        have hlast : ∀ k < (front ++ [latest]).length, messageTokens latest.messages ≤
            messageTokens (flattenTurns ((front ++ [latest]).drop k)) := by
          intro k hk
          rw [List.length_append, List.length_singleton] at hk
          have := messageTokens_drop_anti (front ++ [latest]) (show k ≤ front.length by omega)
          rw [List.drop_left] at this
          simpa [flattenTurns] using this
        by_cases hover : budget < messageTokens latest.messages
        · have hone : n = front.length := by
            rw [List.length_append, List.length_singleton] at hor hn
            rcases hor with hone | hfits
            · omega
            · exact absurd (hover.trans_le (hlast n (by simpa using hn))) (Nat.not_lt.mpr hfits)
          rw [if_pos hover, hone, List.take_left]
          cases hanchor : latest.anchor with
          | none =>
              rw [if_pos (by rw [Option.isNone_none])]
              refine Or.inl ⟨_, cutAtTurn_all ?_ rfl (fun k hk _ => ?_) fun _ turn hturn => ?_⟩
              · exact (congrArg flattenTurns hturns).symm.trans
                  (flattenTurns_buildTurns id messages)
              · rw [hturns] at hk ⊢
                exact hover.trans_le (hlast k hk)
              · rw [hturns, hlatest] at hturn
                rw [← Option.some.inj hturn]
                exact hanchor
          | some anchor =>
              rw [if_neg (by simp)]
              refine Or.inr ⟨front, latest, anchor,
                partialCut latest budget minRawTailSteps, hturns,
                hanchor, hover, Nat.pos_of_ne_zero hkeep, ?_, ?_, rfl,
                (partialCut_spec latest budget minRawTailSteps).1, ?_⟩
              · simp only [partialLatestTurnPlan, hanchor, Option.toList_some,
                  List.singleton_append]
              · simp only [partialLatestTurnPlan, hanchor, Option.toList_some,
                  List.singleton_append]
              · exact (partialCut_spec latest budget minRawTailSteps).2
        · rw [if_neg hover]
          refine Or.inl ⟨n, ?_, ?_, ?_, ?_, ?_, fun _ hle => ?_⟩
          · rw [hturns]
          · rw [hturns]
          · rw [hturns]
            exact hfew
          · rcases hor with hone | hfits
            · have hn' : n = front.length := by
                rw [List.length_append, List.length_singleton] at hone
                omega
              have hlatest : flattenTurns ((front ++ [latest]).drop n) = latest.messages := by
                rw [hn', List.drop_left, flattenTurns, List.flatMap_singleton]
              exact (congrArg messageTokens hlatest).trans_le (Nat.le_of_not_lt hover)
            · exact hfits
          · rw [hturns]
            exact hlongest
          · rw [hturns] at hle
            omega

end

/-! ## Planning again -/

/-- What fits is not planned away. -/
theorem archive_eq_nil_of_fits {messages : List Message} {keepRecentTurnCount tokenBudget : Int}
    (minRawTailSteps : Int)
    (hfew : (buildTurns id messages).length ≤ keepRecentTurnCount.toNat)
    (hfits : messageTokens messages ≤ tokenBudget.toNat) :
    (planRetention messages keepRecentTurnCount tokenBudget minRawTailSteps).archiveMessages =
      [] := by
  rcases plan_cases messages keepRecentTurnCount tokenBudget minRawTailSteps with
    ⟨n, hcut⟩ | ⟨older, latest, anchor, n, hcut⟩
  · obtain rfl : n = 0 := by
      by_contra hn
      have := hcut.longest 0 (by omega) (by omega)
      rw [List.drop_zero, flattenTurns_buildTurns] at this
      omega
    rw [hcut.archived, List.take_zero]
    rfl
  · have hlatest : messageTokens latest.messages ≤ messageTokens messages := by
      rw [← flattenTurns_buildTurns id messages, hcut.turns, flattenTurns_append,
        messageTokens_append, flattenTurns, flattenTurns, List.flatMap_singleton]
      omega
    have := hcut.overflow
    omega

/-- A turn of no more steps than are mandatory is not cut. -/
theorem archive_eq_nil_of_short {messages : List Message} {keepRecentTurnCount tokenBudget : Int}
    {minRawTailSteps : Int} {turn : UserTurn Message} (hkeep : 0 < keepRecentTurnCount.toNat)
    (hturns : buildTurns id messages = [turn]) (hanchor : turn.anchor ≠ none)
    (hshort : turn.steps.length ≤ minTailSteps turn.steps minRawTailSteps) :
    (planRetention messages keepRecentTurnCount tokenBudget minRawTailSteps).archiveMessages =
      [] := by
  rcases plan_cases messages keepRecentTurnCount tokenBudget minRawTailSteps with
    ⟨n, hcut⟩ | ⟨older, latest, anchor, n, hcut⟩
  · obtain rfl : n = 0 := by
      by_contra hn
      refine hanchor (hcut.emptied hkeep ?_ turn (by rw [hturns]; rfl))
      rw [hturns, List.length_singleton]
      omega
    rw [hcut.archived, List.take_zero]
    rfl
  · obtain ⟨rfl, rfl⟩ : older = [] ∧ latest = turn := by
      have h := hcut.turns.symm.trans hturns
      exact List.append_eq_singleton_iff.mp h |>.elim
        (fun h => ⟨h.1, List.singleton_inj.mp h.2⟩) fun h => absurd h.2 (List.cons_ne_nil _ _)
    have hn : n = 0 := by
      have := hcut.cut_le
      omega
    rw [hcut.archived, hn, List.take_zero]
    rfl

/-! ## Plans are sound -/

/-- What a plan for the messages should be. -/
structure SoundPlan (messages : List Message)
    (keepRecentTurnCount tokenBudget minRawTailSteps : Int)
    (plan : RetentionPlan) : Prop where
  /-- Nothing is lost, and the order is kept. -/
  lossless : stableDeduplicateMessages (plan.archiveMessages ++ plan.retainedMessages) = messages
  /-- Only the query of the latest turn can be in both parts. -/
  shared : ∀ m ∈ plan.archiveMessages, m ∈ plan.retainedMessages →
    ∃ latest, (buildTurns id messages).getLast? = some latest ∧ latest.anchor = some m
  /-- Complete turns are retained, or the latest query and the end of its steps. -/
  retained : (∃ n, plan.retainedMessages = flattenTurns ((buildTurns id messages).drop n)) ∨
    ∃ latest anchor n, (buildTurns id messages).getLast? = some latest ∧
      latest.anchor = some anchor ∧
      plan.retainedMessages = anchor :: (latest.steps.drop n).flatten
  /-- A message that is no query stays with the tool transports after it. -/
  together : ∀ pre m transports post, messages = pre ++ m :: transports ++ post →
    isUserQuery m = false → (∀ x ∈ transports, isToolTransport x = true) →
    (∀ x ∈ m :: transports, x ∈ plan.archiveMessages ∧ x ∉ plan.retainedMessages) ∨
      ∀ x ∈ m :: transports, x ∉ plan.archiveMessages ∧ x ∈ plan.retainedMessages
  /-- More than the budget is retained only with a notice. -/
  budget : tokenBudget.toNat < messageTokens plan.retainedMessages → plan.budgetExceeded = true
  /-- No more of the turns that may be kept would have fitted. -/
  longest : ∀ n, (buildTurns id messages).length - n ≤ keepRecentTurnCount.toNat →
    plan.retainedMessages.length < (flattenTurns ((buildTurns id messages).drop n)).length →
    tokenBudget.toNat < messageTokens (flattenTurns ((buildTurns id messages).drop n))
  /-- Planning again archives nothing. -/
  stable : (planRetention plan.retainedMessages keepRecentTurnCount tokenBudget
    minRawTailSteps).archiveMessages = []

section

variable {messages : List Message} {keepRecentTurnCount tokenBudget minRawTailSteps : Int}
  {plan : RetentionPlan}

/-- The steps of a turn are part of its messages. -/
theorem mem_messages_of_mem_step {turn : UserTurn Message} {step : List Message} {m : Message}
    (hstep : step ∈ turn.steps) (hm : m ∈ step) : m ∈ turn.messages :=
  List.mem_append_right _ (List.mem_flatten_of_mem hstep hm)

theorem mem_flattenTurns_of_mem {turns : List (UserTurn Message)} {turn : UserTurn Message}
    {m : Message} (hturn : turn ∈ turns) (hm : m ∈ turn.messages) : m ∈ flattenTurns turns :=
  List.mem_flatMap.mpr ⟨turn, hturn, hm⟩

/-- If steps are not divided, runs of a message and its transports are not. -/
theorem together_of_steps {P Q : Message → Prop}
    (h : ∀ turn ∈ buildTurns id messages, ∀ step ∈ turn.steps, (∀ x ∈ step, P x) ∨ ∀ x ∈ step, Q x)
    (pre : List Message) (m : Message) (transports post : List Message)
    (heq : messages = pre ++ m :: transports ++ post) (hm : isUserQuery m = false)
    (htransports : ∀ x ∈ transports, isToolTransport x = true) :
    (∀ x ∈ m :: transports, P x) ∨ ∀ x ∈ m :: transports, Q x := by
  obtain ⟨turn, hturn, step, hstep, hsub⟩ :=
    exists_step_of_run id pre post hm htransports
  rw [← heq] at hturn
  exact (h turn hturn step hstep).imp (fun h x hx => h x (hsub hx)) fun h x hx => h x (hsub hx)

/-- Planning again after a cut between turns archives nothing. -/
theorem CutAtTurn.stable {n : Nat}
    (h : CutAtTurn messages keepRecentTurnCount.toNat tokenBudget.toNat plan n) :
    (planRetention plan.retainedMessages keepRecentTurnCount tokenBudget
      minRawTailSteps).archiveMessages = [] := by
  refine archive_eq_nil_of_fits minRawTailSteps ?_ h.fits
  rw [h.retained, buildTurns_flattenTurns ((grouped_buildTurns messages).drop n),
    List.length_drop]
  exact h.few

theorem sound_of_cutAtTurn (hids : (messages.map (·.id)).Nodup) {n : Nat}
    (h : CutAtTurn messages keepRecentTurnCount.toNat tokenBudget.toNat plan n) :
    SoundPlan messages keepRecentTurnCount tokenBudget minRawTailSteps plan := by
  have hjoin : plan.archiveMessages ++ plan.retainedMessages = messages := by
    rw [h.archived, h.retained, ← flattenTurns_append, List.take_append_drop,
      flattenTurns_buildTurns]
  have hapart : ∀ m ∈ plan.archiveMessages, m ∉ plan.retainedMessages := by
    have hnodup : messages.Nodup := List.Nodup.of_map _ hids
    rw [← hjoin] at hnodup
    exact fun m hm hm' => List.disjoint_of_nodup_append hnodup hm hm'
  refine ⟨?_, fun m hm hm' => absurd hm' (hapart m hm), Or.inl ⟨n, h.retained⟩,
    together_of_steps fun turn hturn step hstep => ?_, fun hover => ?_, fun k hk hlonger => ?_, ?_⟩
  · rw [hjoin]
    exact deduplicateFrom_eq_self (by simp) hids
  · rw [← List.take_append_drop n (buildTurns id messages)] at hturn
    rcases List.mem_append.mp hturn with hturn | hturn
    · refine Or.inl fun x hx => ?_
      have hmem : x ∈ plan.archiveMessages := by
        rw [h.archived]
        exact mem_flattenTurns_of_mem hturn (mem_messages_of_mem_step hstep hx)
      exact ⟨hmem, hapart x hmem⟩
    · refine Or.inr fun x hx => ?_
      have hmem : x ∈ plan.retainedMessages := by
        rw [h.retained]
        exact mem_flattenTurns_of_mem hturn (mem_messages_of_mem_step hstep hx)
      exact ⟨fun hmem' => hapart x hmem' hmem, hmem⟩
  · exact absurd h.fits (Nat.not_le.mpr hover)
  · refine h.longest k (Nat.lt_of_not_le fun hle => ?_) hk
    -- from the cut on, the ends of the turns are no longer than what is retained
    obtain ⟨d, rfl⟩ := Nat.exists_eq_add_of_le hle
    rw [h.retained, ← List.take_append_drop d ((buildTurns id messages).drop n),
      flattenTurns_append, List.length_append, List.drop_drop] at hlonger
    omega
  · exact h.stable

/-- A query in both parts is dropped the second time. -/
theorem deduplicate_shared {front archived rest : List Message} {anchor : Message}
    (hids : ((front ++ anchor :: (archived ++ rest)).map (·.id)).Nodup) :
    stableDeduplicateMessages
        (front ++ (if archived.isEmpty then [] else anchor :: archived) ++ anchor :: rest) =
      front ++ anchor :: (archived ++ rest) := by
  unfold stableDeduplicateMessages
  cases archived with
  | nil =>
      rw [List.isEmpty_nil, if_pos rfl, List.append_nil, List.nil_append]
      exact deduplicateFrom_eq_self (by simp) hids
  | cons m archived =>
      rw [List.isEmpty_cons, if_neg (by simp), deduplicateFrom_append]
      have hsplit : front ++ anchor :: (m :: archived ++ rest) =
          (front ++ anchor :: m :: archived) ++ rest := by simp
      rw [hsplit, List.map_append, List.nodup_append] at hids
      obtain ⟨hfront, hrest, hapart⟩ := hids
      rw [hsplit, deduplicateFrom_eq_self (by simp) hfront, deduplicateFrom, if_pos (by simp),
        deduplicateFrom_eq_self (fun x hx hmem => ?_) hrest]
      rw [List.append_nil] at hmem
      exact hapart _ hmem _ (List.mem_map_of_mem hx) rfl

/-- Planning again after a cut between steps archives nothing. -/
theorem CutAtStep.stable {older : List (UserTurn Message)} {latest : UserTurn Message}
    {anchor : Message} {n : Nat}
    (h : CutAtStep messages keepRecentTurnCount.toNat tokenBudget.toNat minRawTailSteps plan older
      latest anchor n) :
    (planRetention plan.retainedMessages keepRecentTurnCount tokenBudget
      minRawTailSteps).archiveMessages = [] := by
  have hlast : (buildTurns id messages).getLast? = some latest := by
    rw [h.turns, List.getLast?_concat]
  have hgrouped : Grouped id [(⟨some anchor, latest.steps.drop n⟩ : UserTurn Message)] := by
    refine ⟨fun turn hturn => ?_, by simp⟩
    rw [List.mem_singleton.mp hturn]
    exact ((grouped_buildTurns messages).each latest (List.mem_of_getLast? hlast)).drop
      h.anchored n
  have hturns : buildTurns id plan.retainedMessages =
      [(⟨some anchor, latest.steps.drop n⟩ : UserTurn Message)] := by
    rw [← buildTurns_flattenTurns hgrouped, h.retained, flattenTurns, List.flatMap_singleton]
    rfl
  rcases h.cut with hcut | hfits
  · refine archive_eq_nil_of_short h.some_kept hturns (by simp) ?_
    show (latest.steps.drop n).length ≤ minTailSteps (latest.steps.drop n) minRawTailSteps
    unfold minTailSteps at hcut ⊢
    rw [List.length_drop]
    split
    · next hempty =>
        have hlength := congrArg List.length (List.isEmpty_iff.mp hempty)
        rw [List.length_drop] at hlength
        exact hlength.le
    · split at hcut <;> omega
  · refine archive_eq_nil_of_fits minRawTailSteps ?_ hfits
    rw [hturns, List.length_singleton]
    exact h.some_kept

theorem sound_of_cutAtStep (hids : (messages.map (·.id)).Nodup)
    {older : List (UserTurn Message)} {latest : UserTurn Message} {anchor : Message} {n : Nat}
    (h : CutAtStep messages keepRecentTurnCount.toNat tokenBudget.toNat minRawTailSteps plan older
      latest anchor n) :
    SoundPlan messages keepRecentTurnCount tokenBudget minRawTailSteps plan := by
  have hlast : (buildTurns id messages).getLast? = some latest := by
    rw [h.turns, List.getLast?_concat]
  have hlatest : latest.messages =
      anchor :: ((latest.steps.take n).flatten ++ (latest.steps.drop n).flatten) := by
    rw [UserTurn.messages, h.anchored, ← List.flatten_append, List.take_append_drop]
    rfl
  have hsplit : messages = flattenTurns older ++
      anchor :: ((latest.steps.take n).flatten ++ (latest.steps.drop n).flatten) := by
    rw [← hlatest, ← flattenTurns_buildTurns id messages, h.turns, flattenTurns_append,
      flattenTurns, flattenTurns, List.flatMap_singleton]
  have hnodup : messages.Nodup := List.Nodup.of_map _ hids
  rw [hsplit, List.nodup_append, List.nodup_cons, List.mem_append, not_or, List.nodup_append]
    at hnodup
  obtain ⟨-, ⟨⟨hanchor₁, hanchor₂⟩, -, -, hsteps⟩, holder⟩ := hnodup
  have harchived : ∀ m, m ∈ plan.archiveMessages ↔
      m ∈ flattenTurns older ∨
        (latest.steps.take n).flatten ≠ [] ∧ (m = anchor ∨ m ∈ (latest.steps.take n).flatten) := by
    intro m
    rw [h.archived, List.mem_append]
    by_cases hnil : (latest.steps.take n).flatten = [] <;> simp [hnil]
  have hretained : ∀ m, m ∈ plan.retainedMessages ↔
      m = anchor ∨ m ∈ (latest.steps.drop n).flatten := by
    intro m
    rw [h.retained, List.mem_cons]
  refine ⟨?_, fun m hm hm' => ⟨latest, hlast, ?_⟩,
    Or.inr ⟨latest, anchor, n, hlast, h.anchored, h.retained⟩,
    together_of_steps fun turn hturn step hstep => ?_, fun hover => ?_, fun k hk hlonger => ?_, ?_⟩
  · rw [h.archived, h.retained, hsplit]
    rw [hsplit] at hids
    exact deduplicate_shared hids
  · -- what is in both parts is the query
    rcases (hretained m).mp hm' with rfl | hrest
    · exact h.anchored
    · exfalso
      rcases (harchived m).mp hm with hfront | ⟨-, rfl | htake⟩
      · exact holder m hfront m (by simp [hrest]) rfl
      · exact hanchor₂ hrest
      · exact hsteps m htake m hrest rfl
  · rw [h.turns] at hturn
    rcases List.mem_append.mp hturn with hturn | hturn
    · refine Or.inl fun x hx => ?_
      have hmem : x ∈ flattenTurns older :=
        mem_flattenTurns_of_mem hturn (mem_messages_of_mem_step hstep hx)
      refine ⟨(harchived x).mpr (Or.inl hmem), fun hx' => ?_⟩
      rcases (hretained x).mp hx' with rfl | hx'
      · exact holder x hmem x List.mem_cons_self rfl
      · exact holder x hmem x (by simp [hx']) rfl
    · obtain rfl := List.mem_singleton.mp hturn
      rw [← List.take_append_drop n turn.steps] at hstep
      rcases List.mem_append.mp hstep with hstep | hstep
      · refine Or.inl fun x hx => ?_
        have hmem : x ∈ (turn.steps.take n).flatten := List.mem_flatten_of_mem hstep hx
        refine ⟨(harchived x).mpr (Or.inr ⟨List.ne_nil_of_mem hmem, Or.inr hmem⟩), fun hx' => ?_⟩
        rcases (hretained x).mp hx' with rfl | hx'
        · exact hanchor₁ hmem
        · exact hsteps x hmem x hx' rfl
      · refine Or.inr fun x hx => ?_
        have hmem : x ∈ (turn.steps.drop n).flatten := List.mem_flatten_of_mem hstep hx
        refine ⟨fun hx' => ?_, (hretained x).mpr (Or.inr hmem)⟩
        rcases (harchived x).mp hx' with hx' | ⟨-, rfl | hx'⟩
        · exact holder x hx' x (by simp [hmem]) rfl
        · exact hanchor₂ hmem
        · exact hsteps x hx' x hmem rfl
  · rw [h.exceeded, decide_eq_true hover]
  · -- an end of the turns that is not empty has the latest turn
    have hk' : k ≤ older.length := by
      by_contra hgt
      rw [h.turns, List.drop_eq_nil_of_le (by simp; omega)] at hlonger
      exact absurd hlonger (Nat.not_lt_zero _)
    rw [h.turns]
    refine h.overflow.trans_le (le_trans ?_ (messageTokens_drop_anti _ hk'))
    rw [List.drop_left, flattenTurns, List.flatMap_singleton]
  · exact h.stable

end

/-- Planning again archives nothing, whatever the messages and the settings are. -/
theorem planRetention_stable (messages : List Message)
    (keepRecentTurnCount tokenBudget minRawTailSteps : Int) :
    (planRetention (planRetention messages keepRecentTurnCount tokenBudget
      minRawTailSteps).retainedMessages keepRecentTurnCount tokenBudget
      minRawTailSteps).archiveMessages = [] := by
  rcases plan_cases messages keepRecentTurnCount tokenBudget minRawTailSteps with
    ⟨n, hcut⟩ | ⟨older, latest, anchor, n, hcut⟩
  · exact hcut.stable
  · exact hcut.stable

/-- For every list of messages with distinct ids and all settings the plan is sound. -/
theorem plan_sound (messages : List Message) (hids : (messages.map (·.id)).Nodup)
    (keepRecentTurnCount tokenBudget minRawTailSteps : Int) :
    SoundPlan messages keepRecentTurnCount tokenBudget minRawTailSteps
      (planRetention messages keepRecentTurnCount tokenBudget minRawTailSteps) := by
  rcases plan_cases messages keepRecentTurnCount tokenBudget minRawTailSteps with
    ⟨n, hcut⟩ | ⟨older, latest, anchor, n, hcut⟩
  · exact sound_of_cutAtTurn hids hcut
  · exact sound_of_cutAtStep hids hcut

namespace Sample

def said (id : String) (role : Role) : Message := ⟨id.toList, role, [.text id.toList], none⟩

/-- Two turns -/
def talk : List Message :=
  [said "q1" .user, said "a1" .assistant, said "q2" .user, said "a2" .assistant]

theorem talk_sound : SoundPlan talk 1 1 1 (planRetention talk 1 1 1) :=
  plan_sound talk (by decide) 1 1 1

end Sample

end OpenViking.Session
