/-
# `OpenViking.Lib.Text` — strings as lists of characters

The string operations of the standard library that path code is made of,
each with the decomposition lemma proofs use instead of its recursion:

    `splitOnce c s = some (a, b)`    iff   `s = a ++ c :: b` and `c ∉ a`
    `rsplitOnce c s = some (a, b)`   iff   `s = a ++ c :: b` and `c ∉ b`
    `trimEnd c s`                    the longest prefix not ending in `c`
    `trim s`                         `s` without white space at its ends
-/
import Mathlib.Algebra.Order.Ring.Int
import Mathlib.Data.Char
import Mathlib.Data.List.DropRight
import Mathlib.Data.List.Lex
import Mathlib.Data.Nat.Digits.Defs

namespace OpenViking.Lib

/-- A string as its sequence of characters. -/
abbrev Str : Type := List Char

instance instLawfulBEqStr : LawfulBEq Str := inferInstance

/-- The literal text, for messages. -/
def text (s : Str) : String := String.ofList s

/-- Split at the first occurrence of `c` (`str::split_once`). -/
def splitOnce (c : Char) : Str → Option (Str × Str)
  | [] => none
  | x :: xs =>
      if x = c then some ([], xs)
      else match splitOnce c xs with
        | some (a, b) => some (x :: a, b)
        | none => none

theorem splitOnce_append_cons {c : Char} {a : Str} (h : c ∉ a) (b : Str) :
    splitOnce c (a ++ c :: b) = some (a, b) := by
  induction a with
  | nil => simp [splitOnce]
  | cons x xs ih =>
      have hx : x ≠ c := fun hx => h (by simp [hx])
      simp [splitOnce, hx, ih fun hc => h (List.mem_cons_of_mem _ hc)]

/-- Split at the last occurrence of `c` (`str::rsplit_once`). -/
def rsplitOnce (c : Char) : Str → Option (Str × Str)
  | [] => none
  | x :: xs =>
      match rsplitOnce c xs with
      | some (a, b) => some (x :: a, b)
      | none => if x = c then some ([], xs) else none

theorem rsplitOnce_eq_none {c : Char} : ∀ {s : Str}, rsplitOnce c s = none ↔ c ∉ s
  | [] => by simp [rsplitOnce]
  | x :: xs => by
      have ih := rsplitOnce_eq_none (c := c) (s := xs)
      cases h : rsplitOnce c xs with
      | none =>
          have hx : c ∉ xs := ih.mp h
          by_cases hc : x = c
          · simp [rsplitOnce, h, hc]
          · simp [rsplitOnce, h, hc, hx, Ne.symm hc]
      | some ab =>
          have hx : c ∈ xs := by
            by_contra hn
            rw [ih.mpr hn] at h
            cases h
          simp [rsplitOnce, h, hx]

theorem rsplitOnce_eq_some {c : Char} :
    ∀ {s a b : Str}, rsplitOnce c s = some (a, b) ↔ s = a ++ c :: b ∧ c ∉ b
  | [], a, b => by simp [rsplitOnce]
  | x :: xs, a, b => by
      cases h : rsplitOnce c xs with
      | none =>
          have hx : c ∉ xs := rsplitOnce_eq_none.mp h
          simp only [rsplitOnce, h]
          constructor
          · intro heq
            split at heq
            · next hc =>
                obtain ⟨rfl, rfl⟩ := Prod.mk.inj (Option.some.inj heq)
                exact ⟨by simp [hc], hx⟩
            · cases heq
          · rintro ⟨heq, hb⟩
            cases a with
            | nil =>
                obtain ⟨rfl, rfl⟩ := List.cons.inj heq
                simp
            | cons y a =>
                obtain ⟨-, rfl⟩ := List.cons.inj heq
                exact absurd (by simp) hx
      | some ab =>
          obtain ⟨a', b'⟩ := ab
          obtain ⟨rfl, hb'⟩ := rsplitOnce_eq_some.mp h
          simp only [rsplitOnce, h]
          constructor
          · intro heq
            obtain ⟨rfl, rfl⟩ := Prod.mk.inj (Option.some.inj heq)
            exact ⟨rfl, hb'⟩
          · rintro ⟨heq, hb⟩
            cases a with
            | nil =>
                obtain ⟨rfl, rfl⟩ := List.cons.inj heq
                exact absurd (by simp) hb
            | cons y a =>
                obtain ⟨rfl, htl⟩ := List.cons.inj heq
                have hs := rsplitOnce_eq_some.mpr ⟨htl, hb⟩
                rw [h] at hs
                obtain ⟨rfl, rfl⟩ := Prod.mk.inj (Option.some.inj hs)
                rfl

/-- The part after the last `c` is determined by the string. -/
theorem append_cons_inj_of_notMem {c : Char} {a b a' b' : Str} (hb : c ∉ b) (hb' : c ∉ b')
    (h : a ++ c :: b = a' ++ c :: b') : a = a' ∧ b = b' := by
  have h₁ := rsplitOnce_eq_some.mpr ⟨h, hb'⟩
  rw [rsplitOnce_eq_some.mpr ⟨rfl, hb⟩] at h₁
  exact Prod.mk.inj (Option.some.inj h₁)

/-- A string with a `c` in it has a last one. -/
theorem exists_rsplitOnce {c : Char} {s : Str} (h : c ∈ s) :
    ∃ a b, rsplitOnce c s = some (a, b) := by
  cases hs : rsplitOnce c s with
  | none => exact absurd h (rsplitOnce_eq_none.mp hs)
  | some ab => exact ⟨ab.1, ab.2, rfl⟩

/-- Drop every trailing `c` (`str::trim_end_matches`). -/
def trimEnd (c : Char) (s : Str) : Str := s.rdropWhile (· == c)

theorem trimEnd_eq_self {c : Char} {s : Str} (h : s.getLast? ≠ some c) : trimEnd c s = s := by
  refine List.rdropWhile_eq_self_iff.mpr fun hs => ?_
  intro hc
  exact h (by rw [List.getLast?_eq_some_getLast hs]; simpa using hc)

theorem trimEnd_getLast? (c : Char) (s : Str) : (trimEnd c s).getLast? ≠ some c := by
  intro h
  have hne : trimEnd c s ≠ [] := by
    intro h0
    simp [h0] at h
  have := List.rdropWhile_last_not (p := fun x => x == c) (l := s) hne
  rw [List.getLast?_eq_some_getLast hne] at h
  exact this (by simpa [trimEnd] using h)

/-- The Unicode property `White_Space` (`char::is_whitespace`). -/
def isWhitespace (c : Char) : Bool :=
  (0x09 ≤ c.toNat && c.toNat ≤ 0x0d) || c.toNat == 0x20 || c.toNat == 0x85 || c.toNat == 0xa0 ||
    c.toNat == 0x1680 || (0x2000 ≤ c.toNat && c.toNat ≤ 0x200a) || c.toNat == 0x2028 ||
    c.toNat == 0x2029 || c.toNat == 0x202f || c.toNat == 0x205f || c.toNat == 0x3000

/-- `str::trim` -/
def trim (s : Str) : Str := (s.dropWhile isWhitespace).rdropWhile isWhitespace

end OpenViking.Lib

/-! ## The lines of a text

`splitLines` cuts a text after every line boundary and keeps the boundary with
its line, so the lines joined are the text.  A line feed always ends a line
(`splitLines_append_newline`): what is before it and what is after it are cut
independently of each other. -/

namespace OpenViking.Lib

/-- The boundaries of `str.splitlines`, a carriage return and line feed apart. -/
def isLineBreak (c : Char) : Bool :=
  c == '\n' || c == '\r' || c == '\x0b' || c == '\x0c' || c == '\x1c' || c == '\x1d' ||
    c == '\x1e' || c == '\u0085' || c == '\u2028' || c == '\u2029'

/-- One more character before the first line. -/
def consLine (c : Char) : List Str → List Str
  | [] => [[c]]
  | l :: ls => (c :: l) :: ls

/-- `s.splitlines(keepends=True)`.  A carriage return before a line feed does not
end a line; the line feed does. -/
def splitLines : Str → List Str
  | [] => []
  | c :: s =>
      if isLineBreak c && !(c == '\r' && s.head? == some '\n') then [c] :: splitLines s
      else consLine c (splitLines s)

theorem flatten_consLine (c : Char) (ls : List Str) :
    (consLine c ls).flatten = c :: ls.flatten := by
  cases ls <;> rfl

theorem flatten_splitLines (s : Str) : (splitLines s).flatten = s := by
  fun_induction splitLines s with
  | case1 => rfl
  | case2 c s _ ih => simp [ih]
  | case3 c s _ ih => rw [flatten_consLine, ih]

theorem splitLines_ne_nil {s : Str} (h : s ≠ []) : splitLines s ≠ [] := by
  intro hs
  apply h
  rw [← flatten_splitLines s, hs, List.flatten_nil]

theorem consLine_append {ls : List Str} (h : ls ≠ []) (c : Char) (ks : List Str) :
    consLine c (ls ++ ks) = consLine c ls ++ ks := by
  cases ls with
  | nil => exact absurd rfl h
  | cons l ls => rfl

theorem splitLines_newline (b : Str) : splitLines ('\n' :: b) = ['\n'] :: splitLines b := by
  rw [splitLines]
  rfl

/-- A line feed ends a line, whatever stands before it. -/
theorem splitLines_append_newline (a b : Str) :
    splitLines (a ++ '\n' :: b) = splitLines (a ++ ['\n']) ++ splitLines b := by
  induction a with
  | nil =>
      rw [List.nil_append, List.nil_append, splitLines_newline, splitLines_newline]
      rfl
  | cons c a ih =>
      -- the cut after `c` looks one character ahead, which is in `a` or is the line feed
      have hhead : (a ++ '\n' :: b).head? = (a ++ ['\n']).head? := by
        cases a <;> rfl
      rw [List.cons_append, List.cons_append, splitLines, splitLines, hhead, ih]
      split
      · rfl
      · exact consLine_append (splitLines_ne_nil (by simp)) c _

end OpenViking.Lib

/-! ## Decimal forms as keys

Numbers are told apart by their decimal forms (`decimalNat_inj`), and numbers
with equally many digits are ordered as their forms are as strings
(`decimalNat_lt_iff`).  Without equally many digits they need not be: `10` comes
before `9`. -/

namespace OpenViking.Lib

/-- `str(n)` -/
def decimalNat (n : Nat) : Str := Nat.toDigits 10 n

theorem decimalNat_ne_nil (n : Nat) : decimalNat n ≠ [] := Nat.toDigits_ne_nil

theorem isDigit_of_mem_decimalNat {n : Nat} {c : Char} (h : c ∈ decimalNat n) :
    c.isDigit = true :=
  Nat.isDigit_of_mem_toDigits (by decide) (by decide) h

theorem notMem_decimalNat {c : Char} (hc : c.isDigit = false) (n : Nat) : c ∉ decimalNat n := by
  intro h
  rw [isDigit_of_mem_decimalNat h] at hc
  cases hc

theorem ofDigitChars_decimalNat (n : Nat) : Nat.ofDigitChars 10 (decimalNat n) 0 = n :=
  Nat.ofDigitChars_ten_toDigits

theorem decimalNat_inj {m n : Nat} : decimalNat m = decimalNat n ↔ m = n := by
  refine ⟨fun h => ?_, congrArg decimalNat⟩
  rw [← ofDigitChars_decimalNat m, h, ofDigitChars_decimalNat]

/-- The value of a digit -/
theorem isDigit_bounds {c : Char} (h : c.isDigit = true) : 48 ≤ c.toNat ∧ c.toNat ≤ 57 := by
  simp only [Char.isDigit, Bool.and_eq_true, decide_eq_true_eq] at h
  exact ⟨h.1, h.2⟩

theorem ofDigitChars_lt {s : Str} (h : ∀ c ∈ s, c.isDigit = true) :
    Nat.ofDigitChars 10 s 0 < 10 ^ s.length := by
  induction s with
  | nil => simp
  | cons c s ih =>
      have hc := isDigit_bounds (h c List.mem_cons_self)
      have hs := ih fun d hd => h d (List.mem_cons_of_mem _ hd)
      have hzero : '0'.toNat = 48 := rfl
      rw [Nat.ofDigitChars_cons, Nat.ofDigitChars_eq_ofDigitChars_zero, List.length_cons,
        Nat.pow_succ, hzero]
      have hd : 10 * 0 + (c.toNat - 48) ≤ 9 := by omega
      have := Nat.mul_le_mul_left (10 ^ s.length) hd
      omega

/-- Digit strings of one length are ordered by their values. -/
theorem ofDigitChars_lt_of_lt {s t : Str} (hs : ∀ c ∈ s, c.isDigit = true)
    (ht : ∀ c ∈ t, c.isDigit = true) (hlen : s.length = t.length) (h : s < t) :
    Nat.ofDigitChars 10 s 0 < Nat.ofDigitChars 10 t 0 := by
  induction s generalizing t with
  | nil =>
      cases t with
      | nil => exact absurd h (lt_irrefl _)
      | cons d t => cases hlen
  | cons c s ih =>
      cases t with
      | nil => cases hlen
      | cons d t =>
          have hlen' : s.length = t.length := Nat.succ.inj hlen
          have hs' : ∀ e ∈ s, e.isDigit = true := fun e he => hs e (List.mem_cons_of_mem _ he)
          have ht' : ∀ e ∈ t, e.isDigit = true := fun e he => ht e (List.mem_cons_of_mem _ he)
          have hzero : '0'.toNat = 48 := rfl
          rw [Nat.ofDigitChars_cons, Nat.ofDigitChars_cons, Nat.ofDigitChars_eq_ofDigitChars_zero,
            Nat.ofDigitChars_eq_ofDigitChars_zero (l := t), hlen', hzero]
          rcases List.cons_lt_cons_iff.mp h with hcd | ⟨rfl, hst⟩
          · -- the first digit decides: the rest is below a power of ten
            have hc := isDigit_bounds (hs c List.mem_cons_self)
            have hlt := ofDigitChars_lt hs'
            rw [hlen'] at hlt
            have hcd' : c.toNat < d.toNat := hcd
            have hle : 10 * 0 + (c.toNat - 48) + 1 ≤ 10 * 0 + (d.toNat - 48) := by omega
            have := Nat.mul_le_mul_left (10 ^ t.length) hle
            rw [Nat.mul_add] at this
            omega
          · exact Nat.add_lt_add_left (ih hs' ht' hlen' hst) _

theorem decimalNat_lt_iff {m n : Nat} (hlen : (decimalNat m).length = (decimalNat n).length) :
    decimalNat m < decimalNat n ↔ m < n := by
  have hmono : ∀ {a b : Nat}, (decimalNat a).length = (decimalNat b).length →
      decimalNat a < decimalNat b → a < b := by
    intro a b hab h
    have := ofDigitChars_lt_of_lt (fun c hc => isDigit_of_mem_decimalNat hc)
      (fun c hc => isDigit_of_mem_decimalNat hc) hab h
    rwa [ofDigitChars_decimalNat, ofDigitChars_decimalNat] at this
  refine ⟨hmono hlen, fun h => ?_⟩
  rcases lt_trichotomy (decimalNat m) (decimalNat n) with hlt | heq | hgt
  · exact hlt
  · exact absurd (decimalNat_inj.mp heq) h.ne
  · exact absurd (hmono hlen.symm hgt) h.asymm

example : decimalNat 10 < decimalNat 9 := by decide

end OpenViking.Lib
