/-
# `OpenViking.Session.Turns` — turns and steps

A flat list of messages is grouped into turns, each begun by a query of the
user, and a turn into steps, each a message with the tool transports after it.
The groups are exactly the ones that look so (`Grouped`): every list has such a
grouping (`grouped_buildTurns`), the messages of one are grouped into it again
(`buildTurns_flattenTurns`), and so groupings can be cut at turns and steps.

Messages are looked at through `view`, as they are grouped with and without
their places in the list.
-/
import OpenViking.Session.Message
import Mathlib.Data.List.ModifyLast

namespace OpenViking.Session

/-- `UserTurn`, with the messages of each `AssistantStep` -/
structure UserTurn (α : Type) where
  anchor : Option α
  steps : List (List α)

/-- `UserTurn.messages` -/
def UserTurn.messages {α : Type} (turn : UserTurn α) : List α :=
  turn.anchor.toList ++ turn.steps.flatten

/-- `_flatten_turns` -/
def flattenTurns {α : Type} (turns : List (UserTurn α)) : List α :=
  turns.flatMap UserTurn.messages

section

variable {α : Type} (view : α → Message)

/-- `_append_to_turn`: whatever is not a transport of the last step begins a step. -/
def appendToTurn (turn : UserTurn α) (message : α) : UserTurn α :=
  if isToolTransport (view message) && !turn.steps.isEmpty then
    { turn with steps := turn.steps.modifyLast (· ++ [message]) }
  else { turn with steps := turn.steps ++ [[message]] }

/-- One turn of the loop of `build_turns`; the current turn is the last one. -/
def addMessage (turns : List (UserTurn α)) (message : α) : List (UserTurn α) :=
  if isUserQuery (view message) then turns ++ [⟨some message, []⟩]
  else if turns.isEmpty then [appendToTurn view ⟨none, []⟩ message]
  else turns.modifyLast (appendToTurn view · message)

/-- `build_turns` -/
def buildTurns (messages : List α) : List (UserTurn α) := messages.foldl (addMessage view) []

/-! ## Groupings -/

/-- A step is a message with the transports that follow it. -/
def IsStep (step : List α) : Prop :=
  ∃ m rest, step = m :: rest ∧ isUserQuery (view m) = false ∧
    ∀ x ∈ rest, isToolTransport (view x) = true

/-- What begins with no transport. -/
def Opens (step : List α) : Prop := ∀ m ∈ step.head?, isToolTransport (view m) = false

/-- Only the first step of a turn can begin with a transport. -/
structure UserTurn.Grouped (turn : UserTurn α) : Prop where
  anchor : ∀ a ∈ turn.anchor, isUserQuery (view a) = true
  steps : ∀ step ∈ turn.steps, IsStep view step
  opens : ∀ step ∈ turn.steps.tail, Opens view step
  nonempty : turn.anchor = none → turn.steps ≠ []

/-- Only the first turn can be without a query. -/
structure Grouped (turns : List (UserTurn α)) : Prop where
  each : ∀ turn ∈ turns, turn.Grouped view
  anchored : ∀ turn ∈ turns.tail, turn.anchor ≠ none

end

section

variable {α : Type} {view : α → Message}

theorem flattenTurns_append (turns turns' : List (UserTurn α)) :
    flattenTurns (turns ++ turns') = flattenTurns turns ++ flattenTurns turns' :=
  List.flatMap_append

/-! ## A message at a time -/

theorem appendToTurn_transport {anchor : Option α} {steps : List (List α)} {step : List α} {m : α}
    (h : isToolTransport (view m) = true) :
    appendToTurn view ⟨anchor, steps ++ [step]⟩ m = ⟨anchor, steps ++ [step ++ [m]]⟩ := by
  unfold appendToTurn
  rw [if_pos (by simp [h]), List.modifyLast_concat]

theorem appendToTurn_open {turn : UserTurn α} {m : α}
    (h : turn.steps ≠ [] → isToolTransport (view m) = false) :
    appendToTurn view turn m = ⟨turn.anchor, turn.steps ++ [[m]]⟩ := by
  unfold appendToTurn
  rw [if_neg]
  rw [Bool.and_eq_true, Bool.not_eq_true', List.isEmpty_eq_false_iff, not_and]
  intro ht hne
  rw [h hne] at ht
  cases ht

theorem addMessage_nil {m : α} (h : isUserQuery (view m) = false) :
    addMessage view [] m = [appendToTurn view ⟨none, []⟩ m] := by
  unfold addMessage
  rw [if_neg (by simp [h]), if_pos List.isEmpty_nil]

theorem addMessage_concat {turns : List (UserTurn α)} {turn : UserTurn α} {m : α}
    (h : isUserQuery (view m) = false) :
    addMessage view (turns ++ [turn]) m = turns ++ [appendToTurn view turn m] := by
  unfold addMessage
  rw [if_neg (by simp [h]), if_neg (by simp), List.modifyLast_concat]

theorem messages_appendToTurn (turn : UserTurn α) (m : α) :
    (appendToTurn view turn m).messages = turn.messages ++ [m] := by
  obtain ⟨anchor, steps⟩ := turn
  by_cases h : steps ≠ [] ∧ isToolTransport (view m) = true
  · obtain ⟨front, last, rfl⟩ := (List.eq_nil_or_concat' steps).resolve_left h.1
    rw [appendToTurn_transport h.2]
    simp [UserTurn.messages]
  · rw [appendToTurn_open fun hne => Bool.eq_false_iff.mpr fun ht => h ⟨hne, ht⟩]
    simp [UserTurn.messages]

theorem flattenTurns_addMessage (turns : List (UserTurn α)) (m : α) :
    flattenTurns (addMessage view turns m) = flattenTurns turns ++ [m] := by
  cases hq : isUserQuery (view m) with
  | true => simp [addMessage, hq, flattenTurns, UserTurn.messages]
  | false =>
      rcases List.eq_nil_or_concat' turns with rfl | ⟨front, last, rfl⟩
      · rw [addMessage_nil hq, flattenTurns, List.flatMap_singleton, messages_appendToTurn]
        rfl
      · rw [addMessage_concat hq, flattenTurns_append, flattenTurns_append, List.append_assoc]
        simp [flattenTurns, messages_appendToTurn]

theorem mem_tail_concat {β : Type} {l : List β} {a x : β} (h : x ∈ (l ++ [a]).tail) :
    x ∈ l.tail ∨ l ≠ [] ∧ x = a := by
  cases l with
  | nil => cases h
  | cons b l =>
      rw [List.cons_append, List.tail_cons, List.mem_append, List.mem_singleton] at h
      exact h.imp_right fun hx => ⟨List.cons_ne_nil b l, hx⟩

theorem UserTurn.Grouped.append {turn : UserTurn α} (h : turn.Grouped view ∨ turn = ⟨none, []⟩)
    {m : α} (hq : isUserQuery (view m) = false) : (appendToTurn view turn m).Grouped view := by
  obtain ⟨anchor, steps⟩ := turn
  have hanchor : ∀ a ∈ anchor, isUserQuery (view a) = true := by
    rcases h with h | h
    · exact h.anchor
    · cases h
      exact nofun
  have hsteps : ∀ step ∈ steps, IsStep view step := by
    rcases h with h | h
    · exact h.steps
    · cases h
      exact nofun
  have hopens : ∀ step ∈ steps.tail, Opens view step := by
    rcases h with h | h
    · exact h.opens
    · cases h
      exact nofun
  by_cases ht : steps ≠ [] ∧ isToolTransport (view m) = true
  · -- the message joins the last step
    obtain ⟨front, last, rfl⟩ := (List.eq_nil_or_concat' steps).resolve_left ht.1
    rw [appendToTurn_transport ht.2]
    obtain ⟨x, rest, rfl, hx, hrest⟩ := hsteps last (by simp)
    refine ⟨hanchor, fun step hstep => ?_, fun step hstep => ?_, fun _ => by simp⟩
    · rcases List.mem_append.mp hstep with hstep | hstep
      · exact hsteps step (List.mem_append_left _ hstep)
      · obtain rfl := List.mem_singleton.mp hstep
        refine ⟨x, rest ++ [m], rfl, hx, fun y hy => ?_⟩
        rcases List.mem_append.mp hy with hy | hy
        · exact hrest y hy
        · rw [List.mem_singleton.mp hy]
          exact ht.2
    · rcases mem_tail_concat hstep with hstep | ⟨hne, rfl⟩
      · exact hopens step (by
          rw [List.tail_append_of_ne_nil (List.ne_nil_of_mem (List.mem_of_mem_tail hstep))]
          exact List.mem_append_left _ hstep)
      · exact hopens (x :: rest) (by rw [List.tail_append_of_ne_nil hne]; simp)
  · have hopen : steps ≠ [] → isToolTransport (view m) = false :=
      fun hne => Bool.eq_false_iff.mpr fun htrue => ht ⟨hne, htrue⟩
    rw [appendToTurn_open hopen]
    refine ⟨hanchor, fun step hstep => ?_, fun step hstep => ?_, fun _ => by simp⟩
    · rcases List.mem_append.mp hstep with hstep | hstep
      · exact hsteps step hstep
      · exact ⟨m, [], List.mem_singleton.mp hstep, hq, nofun⟩
    · rcases mem_tail_concat hstep with hstep | ⟨hne, rfl⟩
      · exact hopens step hstep
      · intro x hx
        rw [← Option.some.inj hx]
        exact hopen hne

theorem Grouped.add {turns : List (UserTurn α)} (h : Grouped view turns) (m : α) :
    Grouped view (addMessage view turns m) := by
  cases hq : isUserQuery (view m) with
  | true =>
      rw [addMessage, if_pos hq]
      refine ⟨fun turn hturn => ?_, fun turn hturn => ?_⟩
      · rcases List.mem_append.mp hturn with hturn | hturn
        · exact h.each turn hturn
        · rw [List.mem_singleton.mp hturn]
          exact ⟨fun a ha => by rw [← Option.some.inj ha]; exact hq, nofun, nofun, nofun⟩
      · rcases mem_tail_concat hturn with hturn | ⟨-, rfl⟩
        · exact h.anchored turn hturn
        · exact nofun
  | false =>
      rcases List.eq_nil_or_concat' turns with rfl | ⟨front, last, rfl⟩
      · rw [addMessage_nil hq]
        refine ⟨fun turn hturn => ?_, nofun⟩
        rw [List.mem_singleton.mp hturn]
        exact .append (Or.inr rfl) hq
      · rw [addMessage_concat hq]
        have hlast : last.Grouped view := h.each last (by simp)
        refine ⟨fun turn hturn => ?_, fun turn hturn => ?_⟩
        · rcases List.mem_append.mp hturn with hturn | hturn
          · exact h.each turn (List.mem_append_left _ hturn)
          · rw [List.mem_singleton.mp hturn]
            exact .append (Or.inl hlast) hq
        · have hanchor : (appendToTurn view last m).anchor = last.anchor := by
            unfold appendToTurn
            split <;> rfl
          rcases mem_tail_concat hturn with hturn | ⟨hne, rfl⟩
          · exact h.anchored turn (by
              rw [List.tail_append_of_ne_nil (List.ne_nil_of_mem (List.mem_of_mem_tail hturn))]
              exact List.mem_append_left _ hturn)
          · rw [hanchor]
            exact h.anchored last (by rw [List.tail_append_of_ne_nil hne]; simp)

/-- Every list of messages has a grouping. -/
theorem grouped_buildTurns (messages : List α) : Grouped view (buildTurns view messages) := by
  have hrun : ∀ turns, Grouped view turns →
      Grouped view (messages.foldl (addMessage view) turns) := by
    induction messages with
    | nil => exact fun _ h => h
    | cons m rest ih => exact fun turns h => ih _ (h.add m)
  exact hrun [] ⟨nofun, nofun⟩

/-- Grouping keeps the messages and their order. -/
theorem flattenTurns_buildTurns (view : α → Message) (messages : List α) :
    flattenTurns (buildTurns view messages) = messages := by
  have hrun : ∀ turns, flattenTurns (messages.foldl (addMessage view) turns) =
      flattenTurns turns ++ messages := by
    induction messages with
    | nil => simp
    | cons m rest ih =>
        intro turns
        rw [List.foldl_cons, ih, flattenTurns_addMessage, List.append_assoc]
        rfl
  exact hrun []

/-! ## Grouping again -/

theorem foldl_transports {turns : List (UserTurn α)} {anchor : Option α} {steps : List (List α)}
    {rest : List α} (h : ∀ x ∈ rest, isToolTransport (view x) = true) (step : List α) :
    rest.foldl (addMessage view) (turns ++ [⟨anchor, steps ++ [step]⟩]) =
      turns ++ [⟨anchor, steps ++ [step ++ rest]⟩] := by
  induction rest generalizing step with
  | nil => simp
  | cons x rest ih =>
      have hx := h x List.mem_cons_self
      rw [List.foldl_cons, addMessage_concat (isUserQuery_of_isToolTransport hx),
        appendToTurn_transport hx, ih fun y hy => h y (List.mem_cons_of_mem _ hy)]
      simp

/-- A step that does not join the one before it is added as it is. -/
theorem foldl_step {turns : List (UserTurn α)} {turn : UserTurn α} {step : List α}
    (hstep : IsStep view step) (hopens : turn.steps ≠ [] → Opens view step) :
    step.foldl (addMessage view) (turns ++ [turn]) =
      turns ++ [⟨turn.anchor, turn.steps ++ [step]⟩] := by
  obtain ⟨m, rest, rfl, hm, hrest⟩ := hstep
  rw [List.foldl_cons, addMessage_concat hm, appendToTurn_open fun hne => hopens hne m rfl,
    foldl_transports hrest]
  rfl

theorem foldl_steps {turns : List (UserTurn α)} {anchor : Option α} {done steps : List (List α)}
    (hsteps : ∀ step ∈ steps, IsStep view step)
    (hopens : ∀ step ∈ steps.tail, Opens view step)
    (hfirst : done ≠ [] → ∀ step ∈ steps.head?, Opens view step) :
    steps.flatten.foldl (addMessage view) (turns ++ [⟨anchor, done⟩]) =
      turns ++ [⟨anchor, done ++ steps⟩] := by
  induction steps generalizing done with
  | nil => simp
  | cons step steps ih =>
      rw [List.flatten_cons, List.foldl_append,
        foldl_step (hsteps step List.mem_cons_self) fun hne => hfirst hne step rfl,
        ih (fun s hs => hsteps s (List.mem_cons_of_mem _ hs))
          (fun s hs => hopens s (List.mem_of_mem_tail hs))
          (fun _ s hs => hopens s (List.mem_of_mem_head? hs))]
      simp

/-- The messages of a turn make up that turn. -/
theorem foldl_turn {turns : List (UserTurn α)} {turn : UserTurn α} (h : turn.Grouped view)
    (hanchor : turns ≠ [] → turn.anchor ≠ none) :
    turn.messages.foldl (addMessage view) turns = turns ++ [turn] := by
  obtain ⟨anchor, steps⟩ := turn
  cases anchor with
  | some a =>
      rw [UserTurn.messages, Option.toList_some, List.singleton_append, List.foldl_cons,
        addMessage, if_pos (h.anchor a rfl), foldl_steps h.steps h.opens (by simp)]
      rfl
  | none =>
      obtain rfl : turns = [] := by_contra fun hne => hanchor hne rfl
      obtain ⟨step, rest, rfl⟩ := List.exists_cons_of_ne_nil (h.nonempty rfl)
      obtain ⟨m, transports, rfl, hm, htransports⟩ := h.steps step List.mem_cons_self
      -- the first message opens the turn, as it would after an empty one
      have hfirst : addMessage view [] m = [] ++ [⟨none, [] ++ [[m]]⟩] := by
        rw [addMessage_nil hm, appendToTurn_open (by simp)]
        rfl
      rw [UserTurn.messages, Option.toList_none, List.nil_append, List.flatten_cons,
        List.cons_append, List.foldl_cons, hfirst, List.foldl_append,
        foldl_transports htransports,
        foldl_steps (fun s hs => h.steps s (List.mem_cons_of_mem _ hs))
          (fun s hs => h.opens s (List.mem_of_mem_tail hs))
          (fun _ s hs => h.opens s (List.mem_of_mem_head? hs))]
      rfl

/-- The messages of a grouping are grouped as they were. -/
theorem buildTurns_flattenTurns {turns : List (UserTurn α)} (h : Grouped view turns) :
    buildTurns view (flattenTurns turns) = turns := by
  have hrun : ∀ (rest done : List (UserTurn α)), (∀ turn ∈ rest, turn.Grouped view) →
      (∀ turn ∈ rest.tail, turn.anchor ≠ none) →
      (done ≠ [] → ∀ turn ∈ rest.head?, turn.anchor ≠ none) →
      (flattenTurns rest).foldl (addMessage view) done = done ++ rest := by
    intro rest
    induction rest with
    | nil => simp [flattenTurns]
    | cons turn rest ih =>
        intro done heach hanchored hhead
        rw [flattenTurns, List.flatMap_cons, List.foldl_append,
          foldl_turn (heach turn List.mem_cons_self) fun hne => hhead hne turn rfl,
          ← flattenTurns,
          ih _ (fun t ht => heach t (List.mem_cons_of_mem _ ht))
            (fun t ht => hanchored t (List.mem_of_mem_tail ht))
            (fun _ t ht => hanchored t (List.mem_of_mem_head? ht))]
        simp
  exact hrun turns [] h.each h.anchored (by simp)

/-! ## Steps are kept together -/

/-- A message that begins no turn is the last one of a step. -/
theorem exists_last_step (turns : List (UserTurn α)) {m : α} (hm : isUserQuery (view m) = false) :
    ∃ front anchor steps step,
      addMessage view turns m = front ++ [⟨anchor, steps ++ [step ++ [m]]⟩] := by
  have happend : ∀ turn : UserTurn α, ∃ anchor steps step,
      appendToTurn view turn m = ⟨anchor, steps ++ [step ++ [m]]⟩ := by
    rintro ⟨anchor, steps⟩
    by_cases h : steps ≠ [] ∧ isToolTransport (view m) = true
    · obtain ⟨front, last, rfl⟩ := (List.eq_nil_or_concat' steps).resolve_left h.1
      exact ⟨anchor, front, last, appendToTurn_transport h.2⟩
    · exact ⟨anchor, steps, [],
        appendToTurn_open fun hne => Bool.eq_false_iff.mpr fun ht => h ⟨hne, ht⟩⟩
  rcases List.eq_nil_or_concat' turns with rfl | ⟨front, last, rfl⟩
  · obtain ⟨anchor, steps, step, h⟩ := happend ⟨none, []⟩
    exact ⟨[], anchor, steps, step, by rw [addMessage_nil hm, h, List.nil_append]⟩
  · obtain ⟨anchor, steps, step, h⟩ := happend last
    exact ⟨front, anchor, steps, step, by rw [addMessage_concat hm, h]⟩

/-- Steps only grow. -/
theorem exists_step_addMessage {turns : List (UserTurn α)} {run : List α}
    (h : ∃ turn ∈ turns, ∃ step ∈ turn.steps, run ⊆ step) (m : α) :
    ∃ turn ∈ addMessage view turns m, ∃ step ∈ turn.steps, run ⊆ step := by
  obtain ⟨turn, hturn, step, hstep, hrun⟩ := h
  cases hq : isUserQuery (view m) with
  | true =>
      rw [addMessage, if_pos hq]
      exact ⟨turn, List.mem_append_left _ hturn, step, hstep, hrun⟩
  | false =>
      obtain ⟨front, last, rfl⟩ :=
        (List.eq_nil_or_concat' turns).resolve_left (List.ne_nil_of_mem hturn)
      rw [addMessage_concat hq]
      rcases List.mem_append.mp hturn with hturn | hturn
      · exact ⟨turn, List.mem_append_left _ hturn, step, hstep, hrun⟩
      · obtain rfl := List.mem_singleton.mp hturn
        refine ⟨appendToTurn view turn m, by simp, ?_⟩
        obtain ⟨anchor, steps⟩ := turn
        by_cases ht : isToolTransport (view m) = true
        · obtain ⟨front', last', rfl⟩ :=
            (List.eq_nil_or_concat' steps).resolve_left (List.ne_nil_of_mem hstep)
          rw [appendToTurn_transport ht]
          rcases List.mem_append.mp hstep with hstep | hstep
          · exact ⟨step, List.mem_append_left _ hstep, hrun⟩
          · obtain rfl := List.mem_singleton.mp hstep
            exact ⟨step ++ [m], by simp, fun x hx => List.mem_append_left _ (hrun hx)⟩
        · rw [appendToTurn_open fun _ => Bool.eq_false_iff.mpr ht]
          exact ⟨step, List.mem_append_left _ hstep, hrun⟩

/-- A message that begins no turn and the transports after it are in one step. -/
theorem exists_step_of_run (view : α → Message) (pre post : List α) {m : α} {transports : List α}
    (hm : isUserQuery (view m) = false)
    (htransports : ∀ x ∈ transports, isToolTransport (view x) = true) :
    ∃ turn ∈ buildTurns view (pre ++ m :: transports ++ post), ∃ step ∈ turn.steps,
      m :: transports ⊆ step := by
  obtain ⟨front, anchor, steps, step, hlast⟩ :=
    exists_last_step (pre.foldl (addMessage view) []) hm
  have hgrown : ∀ turns : List (UserTurn α),
      (∃ turn ∈ turns, ∃ step ∈ turn.steps, m :: transports ⊆ step) →
      ∃ turn ∈ post.foldl (addMessage view) turns, ∃ step ∈ turn.steps,
        m :: transports ⊆ step := by
    induction post with
    | nil => exact fun _ h => h
    | cons x post ih => exact fun turns h => ih _ (exists_step_addMessage h x)
  rw [buildTurns, List.foldl_append, List.foldl_append, List.foldl_cons, hlast,
    foldl_transports htransports]
  refine hgrown _ ⟨_, List.mem_append_right _ List.mem_cons_self, step ++ [m] ++ transports,
    List.mem_append_right _ List.mem_cons_self, ?_⟩
  rw [List.append_assoc]
  exact List.subset_append_right _ _

theorem Grouped.drop {turns : List (UserTurn α)} (h : Grouped view turns) (n : Nat) :
    Grouped view (turns.drop n) where
  each turn hturn := h.each turn (List.mem_of_mem_drop hturn)
  anchored turn hturn := by
    refine h.anchored turn ?_
    rw [List.tail_drop] at hturn
    rw [← List.drop_one]
    rw [← Nat.add_comm, ← List.drop_drop] at hturn
    exact List.mem_of_mem_drop hturn

/-- A query with some of the last steps of its turn is a turn. -/
theorem UserTurn.Grouped.drop {turn : UserTurn α} (h : turn.Grouped view) {a : α}
    (ha : turn.anchor = some a) (n : Nat) :
    UserTurn.Grouped view ⟨some a, turn.steps.drop n⟩ where
  anchor x hx := h.anchor x (ha.trans hx)
  steps step hstep := h.steps step (List.mem_of_mem_drop hstep)
  opens step hstep := by
    refine h.opens step ?_
    rw [List.tail_drop] at hstep
    rw [← List.drop_one]
    rw [← Nat.add_comm, ← List.drop_drop] at hstep
    exact List.mem_of_mem_drop hstep
  nonempty := nofun

end

end OpenViking.Session
