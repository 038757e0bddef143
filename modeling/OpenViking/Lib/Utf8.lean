/-
# `OpenViking.Lib.Utf8` — texts as bytes

`encodeUtf8` writes a text as bytes, `fromUtf8` reads it back and refuses anything else:

    `fromUtf8 l = some s`   iff   `l = encodeUtf8 s`

Characters below 128 are single bytes, and no other character has a byte below 128
(`utf8EncodeChar_ascii`, `le_of_mem_utf8EncodeChar`), so byte scanners that look for ASCII
characters see characters.

`fromUtf8Lossy` reads any bytes: a sequence that breaks off or goes wrong is read as one
replacement character.  ASCII bytes are always read as themselves (`ascii_fromUtf8Lossy`).
-/
import OpenViking.Lib.Text

namespace OpenViking.Lib

def encodeUtf8 (s : Str) : List UInt8 := s.flatMap String.utf8EncodeChar

/-- The character a byte sequence starts with. -/
def firstChar? (l : List UInt8) : Option Char := l.toByteArray.utf8DecodeChar? 0

/-- Decode at most `n` characters. -/
def decodeFrom : Nat → List UInt8 → Option Str
  | _, [] => some []
  | 0, _ :: _ => none
  | n + 1, b :: l =>
      (firstChar? (b :: l)).bind fun c =>
        (decodeFrom n ((b :: l).drop c.utf8Size)).map (c :: ·)

/-- `String::from_utf8` -/
def fromUtf8 (l : List UInt8) : Option Str := decodeFrom l.length l

@[simp] theorem encodeUtf8_nil : encodeUtf8 [] = [] := rfl

@[simp] theorem encodeUtf8_cons (c : Char) (s : Str) :
    encodeUtf8 (c :: s) = String.utf8EncodeChar c ++ encodeUtf8 s := rfl

@[simp] theorem encodeUtf8_append (s t : Str) :
    encodeUtf8 (s ++ t) = encodeUtf8 s ++ encodeUtf8 t := List.flatMap_append

/-! ## One character -/

theorem firstChar?_append (c : Char) (l : List UInt8) :
    firstChar? (String.utf8EncodeChar c ++ l) = some c := by
  rw [firstChar?, List.toByteArray_append]
  exact ByteArray.utf8DecodeChar?_utf8EncodeChar_append

theorem eq_append_of_firstChar? {l : List UInt8} {c : Char} (h : firstChar? l = some c) :
    l = String.utf8EncodeChar c ++ l.drop c.utf8Size := by
  obtain ⟨r, hr⟩ := ByteArray.exists_of_utf8DecodeChar?_eq_some h
  have hl : l = String.utf8EncodeChar c ++ r.data.toList := by
    have hdata := congrArg (fun b => b.data.toList) hr
    simpa using hdata
  rw [hl, ← String.length_utf8EncodeChar, List.drop_left]

theorem utf8EncodeChar_ascii {c : Char} (h : c.toNat < 128) :
    String.utf8EncodeChar c = [UInt8.ofNat c.toNat] := by
  have hle : c.val.toNat ≤ 127 := Nat.lt_succ_iff.mp h
  unfold String.utf8EncodeChar
  simp only [hle, if_true]
  rfl

/-- The bytes of the other characters are not ASCII. -/
theorem le_of_mem_utf8EncodeChar {c : Char} (h : 128 ≤ c.toNat) {b : UInt8}
    (hb : b ∈ String.utf8EncodeChar c) : 128 ≤ b.toNat := by
  have hgt : ¬c.val.toNat ≤ 127 := not_le.mpr h
  unfold String.utf8EncodeChar at hb
  simp only [hgt, if_false] at hb
  split at hb
  · simp only [List.mem_cons, List.not_mem_nil, or_false] at hb
    rcases hb with rfl | rfl <;> simp only [UInt8.toNat_ofNat'] <;> omega
  · split at hb
    · simp only [List.mem_cons, List.not_mem_nil, or_false] at hb
      rcases hb with rfl | rfl | rfl <;> simp only [UInt8.toNat_ofNat'] <;> omega
    · simp only [List.mem_cons, List.not_mem_nil, or_false] at hb
      rcases hb with rfl | rfl | rfl | rfl <;> simp only [UInt8.toNat_ofNat'] <;> omega

theorem utf8EncodeChar_ne_nil (c : Char) : String.utf8EncodeChar c ≠ [] := by
  intro h
  have hlen := String.length_utf8EncodeChar c
  rw [h] at hlen
  exact absurd hlen.symm (Nat.ne_of_gt c.utf8Size_pos)

/-! ## Texts -/

theorem decodeFrom_eq_some {n : Nat} {l : List UInt8} {s : Str} (h : decodeFrom n l = some s) :
    l = encodeUtf8 s := by
  induction n generalizing l s with
  | zero =>
      cases l with
      | nil =>
          cases h
          rfl
      | cons b l => cases h
  | succ n ih =>
      cases l with
      | nil =>
          cases h
          rfl
      | cons b l =>
          obtain ⟨c, hc, hrest⟩ := Option.bind_eq_some_iff.mp h
          obtain ⟨t, ht, rfl⟩ := Option.map_eq_some_iff.mp hrest
          rw [encodeUtf8_cons, ← ih ht]
          exact eq_append_of_firstChar? hc

theorem decodeFrom_encodeUtf8 (s : Str) {n : Nat} (hn : (encodeUtf8 s).length ≤ n) :
    decodeFrom n (encodeUtf8 s) = some s := by
  induction s generalizing n with
  | nil =>
      cases n with
      | zero => rfl
      | succ n => rfl
  | cons c s ih =>
      obtain ⟨b, l, hbl⟩ := List.exists_cons_of_ne_nil
        (List.append_ne_nil_of_left_ne_nil (utf8EncodeChar_ne_nil c) (encodeUtf8 s))
      have hsize := String.length_utf8EncodeChar c
      have hpos := c.utf8Size_pos
      rw [encodeUtf8_cons] at hn ⊢
      rw [List.length_append] at hn
      cases n with
      | zero => omega
      | succ n =>
          have hfirst := firstChar?_append c (encodeUtf8 s)
          have hdrop : (String.utf8EncodeChar c ++ encodeUtf8 s).drop c.utf8Size =
              encodeUtf8 s := by
            rw [← hsize, List.drop_left]
          rw [hbl] at hfirst hdrop ⊢
          rw [decodeFrom, hfirst, Option.bind_some, hdrop, ih (by omega)]
          rfl

theorem fromUtf8_encodeUtf8 (s : Str) : fromUtf8 (encodeUtf8 s) = some s :=
  decodeFrom_encodeUtf8 s le_rfl

/-- Exactly the encoded texts are decoded. -/
theorem fromUtf8_eq_some {l : List UInt8} {s : Str} : fromUtf8 l = some s ↔ l = encodeUtf8 s :=
  ⟨decodeFrom_eq_some, fun h => h ▸ fromUtf8_encodeUtf8 s⟩

theorem encodeUtf8_injective {s t : Str} (h : encodeUtf8 s = encodeUtf8 t) : s = t := by
  have hs := fromUtf8_encodeUtf8 s
  rw [h, fromUtf8_encodeUtf8] at hs
  exact (Option.some.inj hs).symm

/-! ## Any bytes -/

def isContinuation (b : UInt8) : Bool := 128 ≤ b.toNat && b.toNat ≤ 191

/-- The second bytes that can follow the first byte of three or four. -/
def acceptsSecond (a b : UInt8) : Bool :=
  let a := a.toNat
  let b := b.toNat
  (a == 0xE0 && 0xA0 ≤ b && b ≤ 0xBF) || (0xE1 ≤ a && a ≤ 0xEC && 0x80 ≤ b && b ≤ 0xBF) ||
    (a == 0xED && 0x80 ≤ b && b ≤ 0x9F) || (0xEE ≤ a && a ≤ 0xEF && 0x80 ≤ b && b ≤ 0xBF) ||
    (a == 0xF0 && 0x90 ≤ b && b ≤ 0xBF) || (0xF1 ≤ a && a ≤ 0xF3 && 0x80 ≤ b && b ≤ 0xBF) ||
    (a == 0xF4 && 0x80 ≤ b && b ≤ 0x8F)

/-- How many bytes a broken sequence has: up to the first that cannot follow. -/
def brokenLength : List UInt8 → Nat
  | a :: b :: c :: _ =>
      if acceptsSecond a b then if 0xF0 ≤ a.toNat && isContinuation c then 3 else 2 else 1
  | [a, b] => if acceptsSecond a b then 2 else 1
  | _ => 1

def replacement : Char := '\uFFFD'

/-- Decode at most `n` characters. -/
def lossyFrom : Nat → List UInt8 → Str
  | _, [] => []
  | 0, _ :: _ => []
  | n + 1, b :: l =>
      match firstChar? (b :: l) with
      | some c => c :: lossyFrom n ((b :: l).drop c.utf8Size)
      | none => replacement :: lossyFrom n ((b :: l).drop (brokenLength (b :: l)))

/-- `String::from_utf8_lossy` -/
def fromUtf8Lossy (l : List UInt8) : Str := lossyFrom l.length l

/-- The ASCII characters of a text, and the bytes that are read as such. -/
def asciiOf (s : Str) : Str := s.filter fun c => decide (c.toNat < 128)

def asciiBytes (l : List UInt8) : Str :=
  (l.filter fun b => decide (b.toNat < 128)).map fun b => Char.ofNat b.toNat

theorem asciiOf_append (s t : Str) : asciiOf (s ++ t) = asciiOf s ++ asciiOf t :=
  List.filter_append ..

theorem asciiBytes_append (l m : List UInt8) :
    asciiBytes (l ++ m) = asciiBytes l ++ asciiBytes m := by
  rw [asciiBytes, List.filter_append, List.map_append]
  rfl

theorem asciiBytes_eq_nil {l : List UInt8} (h : ∀ b ∈ l, 128 ≤ b.toNat) : asciiBytes l = [] := by
  rw [asciiBytes, List.filter_eq_nil_iff.mpr]
  · rfl
  · intro b hb
    have := h b hb
    simp only [decide_eq_true_eq]
    omega

theorem asciiBytes_utf8EncodeChar (c : Char) :
    asciiBytes (String.utf8EncodeChar c) = asciiOf [c] := by
  by_cases hc : c.toNat < 128
  · have hbyte : (UInt8.ofNat c.toNat).toNat = c.toNat := by
      rw [UInt8.toNat_ofNat']
      omega
    rw [utf8EncodeChar_ascii hc, asciiBytes, asciiOf]
    simp [hbyte, hc]
  · rw [asciiBytes_eq_nil fun b hb => le_of_mem_utf8EncodeChar (not_lt.mp hc) hb, asciiOf,
      List.filter_cons_of_neg (by simpa using hc)]
    rfl

/-- A byte that starts no character is not ASCII. -/
theorem le_of_firstChar?_eq_none {b : UInt8} {l : List UInt8} (h : firstChar? (b :: l) = none) :
    128 ≤ b.toNat := by
  by_contra hb
  have hvalid : b.toNat.isValidChar := Or.inl (by omega)
  have hchar : (Char.ofNatAux b.toNat hvalid).toNat = b.toNat := rfl
  have hfirst := firstChar?_append (Char.ofNatAux b.toNat hvalid) l
  rw [utf8EncodeChar_ascii (by omega), hchar, UInt8.ofNat_toNat, List.singleton_append, h] at hfirst
  cases hfirst

theorem le_of_acceptsSecond {a b : UInt8} (h : acceptsSecond a b = true) : 128 ≤ b.toNat := by
  simp only [acceptsSecond, Bool.or_eq_true, Bool.and_eq_true, decide_eq_true_eq, beq_iff_eq] at h
  omega

/-- The bytes of a broken sequence are not ASCII. -/
theorem le_of_mem_broken {b : UInt8} {l : List UInt8} (h : firstChar? (b :: l) = none) {x : UInt8}
    (hx : x ∈ (b :: l).take (brokenLength (b :: l))) : 128 ≤ x.toNat := by
  have hb := le_of_firstChar?_eq_none h
  unfold brokenLength at hx
  split at hx
  · next a b' c rest heq =>
      cases heq
      split at hx
      · next hsecond =>
          have hb' := le_of_acceptsSecond hsecond
          split at hx
          · next hthird =>
              simp only [isContinuation, Bool.and_eq_true, decide_eq_true_eq] at hthird
              simp only [List.take_succ_cons, List.take_zero, List.mem_cons, List.not_mem_nil,
                or_false] at hx
              rcases hx with rfl | rfl | rfl
              · exact hb
              · exact hb'
              · exact hthird.2.1
          · simp only [List.take_succ_cons, List.take_zero, List.mem_cons, List.not_mem_nil,
              or_false] at hx
            rcases hx with rfl | rfl
            · exact hb
            · exact hb'
      · simp only [List.take_succ_cons, List.take_zero, List.mem_singleton] at hx
        exact hx ▸ hb
  · next a b' heq =>
      cases heq
      split at hx
      · next hsecond =>
          simp only [List.take_succ_cons, List.take_zero, List.mem_cons, List.not_mem_nil,
            or_false] at hx
          rcases hx with rfl | rfl
          · exact hb
          · exact le_of_acceptsSecond hsecond
      · simp only [List.take_succ_cons, List.take_zero, List.mem_singleton] at hx
        exact hx ▸ hb
  · simp only [List.take_succ_cons, List.take_zero, List.mem_singleton] at hx
    exact hx ▸ hb

theorem brokenLength_pos (l : List UInt8) : 0 < brokenLength l := by
  unfold brokenLength
  split
  · split
    · split <;> decide
    · decide
  · split <;> decide
  · decide

theorem asciiOf_lossyFrom {n : Nat} {l : List UInt8} (h : l.length ≤ n) :
    asciiOf (lossyFrom n l) = asciiBytes l := by
  induction n generalizing l with
  | zero =>
      rw [List.eq_nil_of_length_eq_zero (Nat.le_zero.mp h)]
      rfl
  | succ n ih =>
      cases l with
      | nil => rfl
      | cons b l =>
          rw [lossyFrom]
          split
          · next c hc =>
              have hl := eq_append_of_firstChar? hc
              have hpos := c.utf8Size_pos
              rw [← List.singleton_append, asciiOf_append, ih]
              · conv_rhs => rw [hl]
                rw [asciiBytes_append, asciiBytes_utf8EncodeChar]
              · simp only [List.length_drop, List.length_cons] at h ⊢
                omega
          · next hnone =>
              have hpos := brokenLength_pos (b :: l)
              rw [← List.singleton_append, asciiOf_append, ih]
              · conv_rhs => rw [← List.take_append_drop (brokenLength (b :: l)) (b :: l)]
                rw [asciiBytes_append, asciiBytes_eq_nil fun x hx => le_of_mem_broken hnone hx]
                rfl
              · simp only [List.length_drop, List.length_cons] at h ⊢
                omega

theorem ascii_fromUtf8Lossy (l : List UInt8) : asciiOf (fromUtf8Lossy l) = asciiBytes l :=
  asciiOf_lossyFrom le_rfl

end OpenViking.Lib
