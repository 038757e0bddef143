/-
# `OpenViking.Session.Message` — messages and their parts

A message has a role, an optional kind and parts.  Its tokens are estimated over
the texts of all parts together, so they are no more than those of the message
with one text taken out and of that text (`Message.estimatedTokens`).
-/
import OpenViking.Session.Tokens

namespace OpenViking.Session

open OpenViking.Lib

inductive Role
  | user
  | assistant
  deriving DecidableEq

inductive MessageKind
  | userQuery
  | assistantStep
  | toolTransport
  | checkpoint
  deriving DecidableEq

/-- `ToolPart` -/
structure ToolPart where
  toolId : Str
  toolName : Str
  /-- The input as JSON text; nothing for `None` and for an empty dictionary. -/
  toolInput : Str
  toolOutput : Str
  toolOutputTruncated : Bool
  toolOutputOriginalChars : Option Nat
  toolOutputPreviewChars : Option Nat
  deriving DecidableEq

inductive Part
  /-- `TextPart` -/
  | text (body : Str)
  /-- `ContextPart` -/
  | context (uri «abstract» : Str)
  /-- `ImagePart` -/
  | image (url : Str)
  | tool (part : ToolPart)
  deriving DecidableEq

/-- `isinstance(part, ToolPart)` -/
def Part.isTool : Part → Bool
  | .tool _ => true
  | _ => false

structure Message where
  id : Str
  role : Role
  parts : List Part
  kind : Option MessageKind
  deriving DecidableEq

/-- The texts of a part that count -/
def Part.tokenText : Part → Str
  | .text body => body
  | .context _ «abstract» => «abstract»
  | .image _ => []
  | .tool part => part.toolId ++ part.toolName ++ part.toolInput ++ part.toolOutput

/-- `Message.estimated_tokens` -/
def Message.estimatedTokens (message : Message) : Nat :=
  estimateTextTokens (message.parts.flatMap Part.tokenText)

/-- `_message_tokens` -/
def messageTokens (messages : List Message) : Nat := (messages.map Message.estimatedTokens).sum

@[simp] theorem messageTokens_nil : messageTokens [] = 0 := rfl

@[simp] theorem messageTokens_cons (m : Message) (ms : List Message) :
    messageTokens (m :: ms) = m.estimatedTokens + messageTokens ms := by
  simp [messageTokens]

@[simp] theorem messageTokens_append (ms ns : List Message) :
    messageTokens (ms ++ ns) = messageTokens ms + messageTokens ns := by
  simp [messageTokens]

/-! ## Kinds of messages -/

/-- `is_tool_transport` -/
def isToolTransport (message : Message) : Bool :=
  match message.kind with
  | some .toolTransport => true
  | some .userQuery => false
  | _ => !message.parts.isEmpty && message.role == .user && message.parts.all Part.isTool

/-- `is_user_query` -/
def isUserQuery (message : Message) : Bool :=
  match message.kind with
  | some .userQuery => true
  | some .toolTransport => false
  | _ => message.role == .user && !isToolTransport message

theorem isUserQuery_of_isToolTransport {message : Message} (h : isToolTransport message = true) :
    isUserQuery message = false := by
  unfold isUserQuery
  split
  · next hkind =>
      rw [isToolTransport, hkind] at h
      cases h
  · rfl
  · rw [h, Bool.not_true, Bool.and_false]

/-! ## Repeated ids -/

/-- The loop of `_stable_deduplicate_messages` -/
def deduplicateFrom : List Str → List Message → List Message
  | _, [] => []
  | seen, message :: rest =>
      if message.id ∈ seen then deduplicateFrom seen rest
      else message :: deduplicateFrom (message.id :: seen) rest

/-- `_stable_deduplicate_messages` -/
def stableDeduplicateMessages (messages : List Message) : List Message :=
  deduplicateFrom [] messages

theorem deduplicateFrom_congr {seen seen' : List Str} (messages : List Message)
    (h : ∀ m ∈ messages, m.id ∈ seen ↔ m.id ∈ seen') :
    deduplicateFrom seen messages = deduplicateFrom seen' messages := by
  induction messages generalizing seen seen' with
  | nil => rfl
  | cons m rest ih =>
      have hm := h m List.mem_cons_self
      have hrest : ∀ x ∈ rest, x.id ∈ seen ↔ x.id ∈ seen' :=
        fun x hx => h x (List.mem_cons_of_mem _ hx)
      unfold deduplicateFrom
      by_cases hin : m.id ∈ seen
      · rw [if_pos hin, if_pos (hm.mp hin), ih hrest]
      · rw [if_neg hin, if_neg (mt hm.mpr hin), ih fun x hx => ?_]
        rw [List.mem_cons, List.mem_cons, hrest x hx]

theorem deduplicateFrom_append (seen : List Str) (messages rest : List Message) :
    deduplicateFrom seen (messages ++ rest) =
      deduplicateFrom seen messages ++ deduplicateFrom (messages.map (·.id) ++ seen) rest := by
  induction messages generalizing seen with
  | nil => rfl
  | cons m messages ih =>
      rw [List.cons_append, deduplicateFrom, deduplicateFrom]
      split
      · next hin =>
          rw [ih]
          congr 1
          refine deduplicateFrom_congr rest fun x _ => ?_
          simp only [List.map_cons, List.cons_append, List.mem_append, List.mem_cons]
          constructor
          · exact Or.inr
          · rintro (hx | hx)
            · exact Or.inr (hx ▸ hin)
            · exact hx
      · rw [ih, List.cons_append]
        congr 2
        refine deduplicateFrom_congr rest fun x _ => ?_
        simp only [List.map_cons, List.cons_append, List.mem_append, List.mem_cons]
        tauto

/-- Nothing is dropped where no id is repeated. -/
theorem deduplicateFrom_eq_self {seen : List Str} {messages : List Message}
    (hnew : ∀ m ∈ messages, m.id ∉ seen) (hnodup : (messages.map (·.id)).Nodup) :
    deduplicateFrom seen messages = messages := by
  induction messages generalizing seen with
  | nil => rfl
  | cons m rest ih =>
      rw [List.map_cons, List.nodup_cons] at hnodup
      rw [deduplicateFrom, if_neg (hnew m List.mem_cons_self), ih (fun x hx => ?_) hnodup.2]
      rw [List.mem_cons, not_or]
      exact ⟨fun h => hnodup.1 (h ▸ List.mem_map_of_mem hx),
        hnew x (List.mem_cons_of_mem _ hx)⟩

end OpenViking.Session
