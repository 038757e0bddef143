/-
# `OpenViking.Session.PendingTokens` — the counter of tokens outside the keep window

`.meta.json` stores how many tokens the next commit would archive, together with
the retention settings of the last commit.  An append adds the message that it
pushes out of the window, or counts anew in turn mode; a commit sets the counter
to zero, since it has just archived what was outside.

`pending_tokens_exact_iff`: along a run of appends and commits the counter is what
`_calculate_pending_tokens` computes exactly as long as no commit keeps more
messages than the setting it leaves in the metadata would keep.  Only a commit
that does not store its own count (`persist_keep_recent_count=False`) can.
-/
import OpenViking.Lib.OrderedTable
import OpenViking.Session.Message
import OpenViking.Session.Retention
import OpenViking.Lib.History

namespace OpenViking.Session

open OpenViking.Lib

/-! ## What a commit retains -/

/-- The retention settings of a commit -/
inductive Retention
  | recent (keepRecentCount : Int)
  | turnBudget (keepRecentTurnCount retainedMessageTokenBudget minRawTailSteps : Option Int)

def effective (given : Option Int) (default : Int) : Int := max 0 (given.getD default)

/-- Without a budget turns cannot be retained. -/
def Retention.valid : Retention → Bool
  | .recent _ => true
  | .turnBudget _ budget _ => 0 < effective budget 12000

/-- `_externalize_large_tool_output_group` for every turn -/
structure Externalizer where
  run : List Message → List Message

/-- What is archived and what is retained -/
def Retention.split (ext : Externalizer) (messages : List Message) :
    Retention → List Message × List Message
  | .recent keepRecentCount =>
      if 0 < keepRecentCount then
        let splitIdx := messages.length - keepRecentCount.toNat
        (messages.take splitIdx, messages.drop splitIdx)
      else (messages, [])
  | .turnBudget turns budget tail =>
      let plan := planRetention (ext.run messages) (effective turns 3) (effective budget 12000)
        (effective tail 1)
      (plan.archiveMessages, plan.retainedMessages)

inductive RetentionMode
  /-- The empty mode -/
  | messageCount
  | turnBudget
  deriving DecidableEq, Repr

/-- The part of `SessionMeta` that the counter depends on; `from_dict` lets no number
below zero in. -/
structure SessionMeta where
  pendingTokens : Nat := 0
  keepRecentCount : Nat := 0
  retentionMode : RetentionMode := .messageCount
  keepRecentTurnCount : Nat := 0
  retainedMessageTokenBudget : Nat := 0
  minRawTailSteps : Nat := 1
  deriving DecidableEq, Repr

/-- `_calculate_pending_tokens` -/
def calculatePendingTokens (messages : List Message) (info : SessionMeta) : Nat :=
  if info.retentionMode = .turnBudget ∧ 0 < info.keepRecentTurnCount ∧
      0 < info.retainedMessageTokenBudget then
    let plan := planRetention messages info.keepRecentTurnCount info.retainedMessageTokenBudget
      info.minRawTailSteps
    let retainedIds := plan.retainedMessages.map (·.id)
    messageTokens (plan.archiveMessages.filter fun message => message.id ∉ retainedIds)
  else
    let keep := info.keepRecentCount
    let total := messages.length
    if keep = 0 then messageTokens messages
    else if keep < total then messageTokens (messages.take (total - keep))
    else 0

/-- What is stored of a session: `messages.jsonl` and `.meta.json` -/
structure SessionRoot where
  messages : List Message := []
  info : SessionMeta := {}

namespace SessionRoot

/-- The counter is exact. -/
def Exact (r : SessionRoot) : Prop :=
  r.info.pendingTokens = calculatePendingTokens r.messages r.info

/-! ## Appending -/

/-- The loop of `_apply_appended_messages_to_state` -/
def appendMessage (r : SessionRoot) (msg : Message) : SessionRoot :=
  let messages := r.messages ++ [msg]
  if r.info.retentionMode ≠ .turnBudget then
    let keep := r.info.keepRecentCount
    if keep = 0 then
      ⟨messages, { r.info with pendingTokens := r.info.pendingTokens + msg.estimatedTokens }⟩
    else if keep < messages.length then
      -- `self._messages[-(keep + 1)]`
      let pushedOut := messages[messages.length - (keep + 1)]?
      ⟨messages, { r.info with
        pendingTokens := r.info.pendingTokens + messageTokens pushedOut.toList }⟩
    else ⟨messages, r.info⟩
  else ⟨messages, r.info⟩

/-- `_rebuild_pending_tokens` -/
def rebuildPendingTokens (r : SessionRoot) : SessionRoot :=
  { r with info := { r.info with pendingTokens := calculatePendingTokens r.messages r.info } }

/-- `_append_messages_authoritatively` -/
def append (r : SessionRoot) (batch : List Message) : SessionRoot :=
  if batch.isEmpty then r
  else
    let appended := batch.foldl appendMessage r
    if r.info.retentionMode = .turnBudget then appended.rebuildPendingTokens else appended

end SessionRoot

/-! ## Commits -/

/-- The arguments of `commit_async` -/
structure CommitCall where
  keepRecentCount : Int := 0
  turnMode : Bool := false
  keepRecentTurnCount : Option Int := none
  retainedMessageTokenBudget : Option Int := none
  minRawTailSteps : Option Int := none
  persistKeepRecentCount : Bool := true

namespace CommitCall

variable (c : CommitCall)

def retention : Retention :=
  if c.turnMode then
    .turnBudget c.keepRecentTurnCount c.retainedMessageTokenBudget c.minRawTailSteps
  else .recent c.keepRecentCount

/-- The settings of turns go with turn mode, which needs a budget. -/
def valid : Bool :=
  if c.turnMode then c.retention.valid
  else c.keepRecentTurnCount.isNone && c.retainedMessageTokenBudget.isNone &&
    c.minRawTailSteps.isNone

/-- `stored_keep_recent_count` -/
def storedKeepRecentCount (info : SessionMeta) : Nat :=
  if c.persistKeepRecentCount then c.keepRecentCount.toNat else info.keepRecentCount

/-- `_remember_retention_policy`, after the counter is set to zero -/
def remember (info : SessionMeta) : SessionMeta where
  pendingTokens := 0
  keepRecentCount := c.storedKeepRecentCount info
  retentionMode := if c.turnMode then .turnBudget else .messageCount
  keepRecentTurnCount := if c.turnMode then (effective c.keepRecentTurnCount 3).toNat else 0
  retainedMessageTokenBudget :=
    if c.turnMode then (effective c.retainedMessageTokenBudget 12000).toNat else 0
  minRawTailSteps := (effective c.minRawTailSteps 1).toNat

end CommitCall

/-- `commit_async` without a failure; with settings that do not go together it raises.
Whether there is something to archive makes no difference to the counter. -/
def SessionRoot.commit (ext : Externalizer) (r : SessionRoot) (c : CommitCall) : SessionRoot :=
  if c.valid then
    if r.messages.isEmpty then ⟨r.messages, c.remember r.info⟩
    else ⟨(c.retention.split ext r.messages).2, c.remember r.info⟩
  else r

inductive SessionCall
  | append (batch : List Message)
  | commit (c : CommitCall)

def SessionRoot.step (ext : Externalizer) (r : SessionRoot) : SessionCall → SessionRoot
  | .append batch => r.append batch
  | .commit c => r.commit ext c

/-! ## The window -/

/-- Without turns the pending messages are those before the last `keep`. -/
theorem calculatePendingTokens_count {messages : List Message} {info : SessionMeta}
    (h : ¬(info.retentionMode = .turnBudget ∧ 0 < info.keepRecentTurnCount ∧
      0 < info.retainedMessageTokenBudget)) :
    calculatePendingTokens messages info =
      messageTokens (messages.take (messages.length - info.keepRecentCount)) := by
  rw [calculatePendingTokens, if_neg h]
  dsimp only
  split
  · next hkeep => rw [hkeep, Nat.sub_zero, List.take_length]
  · split
    · rfl
    · next hfew =>
        rw [Nat.sub_eq_zero_of_le (Nat.le_of_not_lt hfew), List.take_zero, messageTokens_nil]

theorem calculatePendingTokens_congr {messages : List Message} {info : SessionMeta} (n : Nat) :
    calculatePendingTokens messages { info with pendingTokens := n } =
      calculatePendingTokens messages info := rfl

namespace SessionRoot

variable {r : SessionRoot}

/-- One more message pushes one message out of the window. -/
theorem Exact.appendMessage (h : r.Exact) (hmode : r.info.retentionMode ≠ .turnBudget)
    (msg : Message) : (r.appendMessage msg).Exact := by
  have hcount : ¬(r.info.retentionMode = .turnBudget ∧ 0 < r.info.keepRecentTurnCount ∧
      0 < r.info.retainedMessageTokenBudget) := fun h => hmode h.1
  unfold Exact at h ⊢
  rw [calculatePendingTokens_count hcount] at h
  unfold SessionRoot.appendMessage
  rw [if_pos hmode]
  dsimp only
  split
  · next hkeep =>
      dsimp only
      rw [calculatePendingTokens_congr, calculatePendingTokens_count hcount, h, hkeep, Nat.sub_zero,
        Nat.sub_zero, List.take_length, List.take_length, messageTokens_append, messageTokens_cons,
        messageTokens_nil, Nat.add_zero]
  · next hkeep =>
      rw [List.length_append, List.length_singleton]
      split
      · next hlong =>
          dsimp only
          rw [calculatePendingTokens_congr, calculatePendingTokens_count hcount, h,
            List.length_append, List.length_singleton]
          have hsub : r.messages.length + 1 - r.info.keepRecentCount =
              r.messages.length - r.info.keepRecentCount + 1 := by omega
          have hindex : r.messages.length + 1 - (r.info.keepRecentCount + 1) =
              r.messages.length - r.info.keepRecentCount := by omega
          rw [hsub, hindex, List.take_add_one, messageTokens_append,
            List.take_append_of_le_length (Nat.sub_le _ _)]
      · next hshort =>
          dsimp only
          rw [calculatePendingTokens_count hcount, h, List.length_append, List.length_singleton,
            Nat.sub_eq_zero_of_le (by omega), Nat.sub_eq_zero_of_le (by omega), List.take_zero,
            List.take_zero]

theorem appendMessage_mode (r : SessionRoot) (msg : Message) :
    (r.appendMessage msg).info.retentionMode = r.info.retentionMode := by
  unfold SessionRoot.appendMessage
  dsimp only
  split
  · split
    · rfl
    · split <;> rfl
  · rfl

theorem Exact.foldl_appendMessage (h : r.Exact) (hmode : r.info.retentionMode ≠ .turnBudget)
    (batch : List Message) : (batch.foldl SessionRoot.appendMessage r).Exact := by
  induction batch generalizing r with
  | nil => exact h
  | cons msg batch ih =>
      refine ih (h.appendMessage hmode msg) ?_
      rw [appendMessage_mode]
      exact hmode

theorem Exact.append (h : r.Exact) (batch : List Message) : (r.append batch).Exact := by
  unfold SessionRoot.append
  split
  · exact h
  · dsimp only
    split
    · rfl
    · next hmode => exact h.foldl_appendMessage hmode batch

/-! ## After a commit -/

/-- The messages a commit by count leaves -/
def kept (r : SessionRoot) (c : CommitCall) : List Message :=
  r.messages.drop (r.messages.length - c.keepRecentCount.toNat)

/-- A commit that leaves no more messages than the window that is stored holds,
but for messages without tokens -/
def Covered (r : SessionRoot) (c : CommitCall) : Prop :=
  c.valid = false ∨ c.persistKeepRecentCount = true ∨ c.turnMode = true ∨
    messageTokens ((r.kept c).take ((r.kept c).length - r.info.keepRecentCount)) = 0

theorem calculatePendingTokens_nil (info : SessionMeta) : calculatePendingTokens [] info = 0 := by
  by_cases hturns : info.retentionMode = .turnBudget ∧ 0 < info.keepRecentTurnCount ∧
      0 < info.retainedMessageTokenBudget
  · rw [calculatePendingTokens, if_pos hturns]
    rfl
  · rw [calculatePendingTokens_count hturns, List.take_nil, messageTokens_nil]

theorem toNat_effective (given : Option Int) (default : Int) :
    ((effective given default).toNat : Int) = effective given default :=
  Int.toNat_of_nonneg (le_max_left 0 _)

/-- What a commit in turn mode leaves is not pending. -/
theorem calculatePendingTokens_turns (ext : Externalizer) (messages : List Message)
    (info : SessionMeta) {c : CommitCall} (hturn : c.turnMode = true) (hvalid : c.valid = true) :
    calculatePendingTokens (c.retention.split ext messages).2 (c.remember info) = 0 := by
  have hbudget : 0 < effective c.retainedMessageTokenBudget 12000 := by
    rw [CommitCall.valid, if_pos hturn, CommitCall.retention, if_pos hturn] at hvalid
    simpa [Retention.valid] using hvalid
  rw [CommitCall.retention, if_pos hturn]
  change calculatePendingTokens (planRetention (ext.run messages) _ _ _).retainedMessages _ = 0
  by_cases hturns : effective c.keepRecentTurnCount 3 = 0
  · -- without turns to keep nothing is left
    have hnone : (planRetention (ext.run messages) (effective c.keepRecentTurnCount 3)
        (effective c.retainedMessageTokenBudget 12000)
        (effective c.minRawTailSteps 1)).retainedMessages = [] := by
      rw [planRetention, hturns]
      dsimp only
      split
      · rfl
      · rw [if_pos (by rfl)]
    rw [hnone, calculatePendingTokens_nil]
  · have hpos : 0 < effective c.keepRecentTurnCount 3 :=
      lt_of_le_of_ne (le_max_left 0 _) (Ne.symm hturns)
    have hmode : (c.remember info).retentionMode = .turnBudget ∧
        0 < (c.remember info).keepRecentTurnCount ∧
        0 < (c.remember info).retainedMessageTokenBudget := by
      simp only [CommitCall.remember, hturn, if_true, true_and]
      omega
    rw [calculatePendingTokens, if_pos hmode]
    simp only [CommitCall.remember, hturn, if_true, toNat_effective, planRetention_stable,
      List.filter_nil, messageTokens_nil]

theorem exact_commit_iff (ext : Externalizer) {r : SessionRoot} (h : r.Exact) (c : CommitCall) :
    (r.commit ext c).Exact ↔ r.Covered c := by
  unfold SessionRoot.commit Covered
  by_cases hvalid : c.valid = true
  swap
  · rw [if_neg hvalid]
    exact iff_of_true h (.inl (Bool.eq_false_iff.mpr hvalid))
  rw [if_pos hvalid]
  by_cases hturn : c.turnMode = true
  · refine iff_of_true ?_ (.inr (.inr (.inl hturn)))
    split
    · next hempty =>
        rw [List.isEmpty_iff.mp hempty]
        exact (calculatePendingTokens_nil _).symm
    · exact (calculatePendingTokens_turns ext r.messages r.info hturn hvalid).symm
  -- what a commit by count leaves
  have hleft : (if r.messages.isEmpty then (⟨r.messages, c.remember r.info⟩ : SessionRoot)
      else ⟨(c.retention.split ext r.messages).2, c.remember r.info⟩) =
        ⟨r.kept c, c.remember r.info⟩ := by
    unfold kept
    split
    · next hempty => rw [List.isEmpty_iff.mp hempty, List.drop_nil]
    · rw [CommitCall.retention, if_neg hturn, Retention.split]
      split
      · rfl
      · next hkeep =>
          rw [Int.toNat_of_nonpos (not_lt.mp hkeep), Nat.sub_zero, List.drop_length]
  have hmode : ¬((c.remember r.info).retentionMode = .turnBudget ∧
      0 < (c.remember r.info).keepRecentTurnCount ∧
      0 < (c.remember r.info).retainedMessageTokenBudget) := by
    simp [CommitCall.remember, hturn]
  rw [hleft, Exact, calculatePendingTokens_count hmode]
  change 0 = messageTokens ((r.kept c).take
    ((r.kept c).length - c.storedKeepRecentCount r.info)) ↔ _
  rw [CommitCall.storedKeepRecentCount, eq_comm]
  by_cases hpersist : c.persistKeepRecentCount = true
  · have hshort : (r.kept c).length ≤ c.keepRecentCount.toNat := by
      rw [kept, List.length_drop]
      omega
    rw [if_pos hpersist, Nat.sub_eq_zero_of_le hshort, List.take_zero]
    exact iff_of_true rfl (.inr (.inl hpersist))
  · rw [if_neg hpersist]
    simp [hvalid, hturn, hpersist]

/-- Appends keep the counter exact, and so do commits under their condition. -/
def CoveredCall (r : SessionRoot) : SessionCall → Prop
  | .append _ => True
  | .commit c => r.Covered c

theorem exact_step_iff (ext : Externalizer) {r : SessionRoot} (h : r.Exact) (call : SessionCall) :
    (r.step ext call).Exact ↔ r.CoveredCall call := by
  cases call with
  | append batch => exact iff_of_true (h.append batch) trivial
  | commit c => exact exact_commit_iff ext h c

end SessionRoot

theorem pending_tokens_exact_iff (ext : Externalizer) (r : SessionRoot) (h : r.Exact)
    (calls : List SessionCall) :
    Along (SessionRoot.step ext) SessionRoot.Exact r calls ↔
      Guarded (SessionRoot.step ext) SessionRoot.CoveredCall r calls := by
  constructor
  · intro halong
    induction calls generalizing r with
    | nil => trivial
    | cons call calls ih =>
        have hnext := halong.2.head
        exact ⟨(SessionRoot.exact_step_iff ext h call).mp hnext, ih _ hnext halong.2⟩
  · refine along_of_guarded (fun s call hs hcall => ?_) (fun s hs => hs) h
    exact (SessionRoot.exact_step_iff ext hs call).mpr hcall

namespace Sample

def noExternalizer : Externalizer := ⟨id⟩

/-- Two messages, of which a commit by count keeps one, and another one -/
def shortRun : List SessionCall :=
  [.append [said "q1" .user, said "a1" .assistant], .commit { keepRecentCount := 1 },
    .append [said "q2" .user]]

theorem short_run_exact : ({} : SessionRoot).Exact ∧
    Along (SessionRoot.step noExternalizer) SessionRoot.Exact {} shortRun :=
  ⟨rfl, (pending_tokens_exact_iff noExternalizer {} rfl shortRun).mpr
    ⟨trivial, .inr (.inl rfl), trivial, trivial⟩⟩

/-- A commit that keeps a message and does not store its count -/
def unstored : SessionRoot :=
  (({} : SessionRoot).append [said "query" .user]).commit noExternalizer
    { keepRecentCount := 1, persistKeepRecentCount := false }

/-- The message that is left is pending under the count that is stored, which is 0. -/
theorem unstored_count_not_exact : unstored.info.pendingTokens = 0 ∧
    unstored.info.keepRecentCount = 0 ∧
    calculatePendingTokens unstored.messages unstored.info = 2 := by
  decide +kernel

end Sample

end OpenViking.Session
