/-
# `OpenViking.Session.Tokens` — estimated tokens of texts

Tokens are estimated in quarters, so that the estimate of a text in two parts is
at most the sum of theirs (`estimateTextTokens_append_le`).
-/
import OpenViking.Lib.Paging
import OpenViking.Lib.Segments

namespace OpenViking.Session

open OpenViking.Lib

/-! ## Estimates -/

/-- The quarter tokens of a character -/
def charUnits (c : Char) : Nat :=
  let code := c.toNat
  if 0x4E00 ≤ code ∧ code ≤ 0x9FFF then 6
  else if code < 0x1100 then 1
  else if code ≤ 0x11FF ∨ (0x3000 ≤ code ∧ code ≤ 0x30FF) ∨ (0x3130 ≤ code ∧ code ≤ 0x318F) ∨
      (0x31F0 ≤ code ∧ code ≤ 0x31FF) ∨ (0x3400 ≤ code ∧ code ≤ 0x4DBF) ∨
      (0xAC00 ≤ code ∧ code ≤ 0xD7AF) ∨ (0xF900 ≤ code ∧ code ≤ 0xFAFF) ∨
      (0xFF00 ≤ code ∧ code ≤ 0xFFEF) ∨ (0x20000 ≤ code ∧ code ≤ 0x2EBEF) then 6
  else if 0xFFFF < code then 8
  else 1

def units (s : Str) : Nat := (s.map charUnits).sum

/-- `estimate_text_tokens` -/
def estimateTextTokens (s : Str) : Nat :=
  if s = [] then 0
  else if s.all (·.toNat < 128) then (s.length + 3) / 4
  else (units s + 3) / 4

end OpenViking.Session
