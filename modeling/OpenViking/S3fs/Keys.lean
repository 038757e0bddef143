/-
# `OpenViking.S3fs.Keys` — object keys and the paths they stand for

`crates/ragfs/src/plugins/s3fs/client.rs`: `encode_path`, `decode_path`, `build_key` and
`strip_prefix`.  A path is written into a key with the configured characters as `!HH`.  The
exclamation mark is a character like all others, and it is encoded only when it is
configured too.  The way back reads every `!HH` as a byte and gives up, leaving the key as
it is, when the bytes are not UTF-8.
-/
import OpenViking.Lib.Segments
import OpenViking.Lib.Utf8

namespace OpenViking.S3fs

open OpenViking.Lib

/-! ## The codec -/

/-- `HEX_UPPER[n]` -/
def hexUpper (n : Nat) : Char :=
  ['0', '1', '2', '3', '4', '5', '6', '7', '8', '9', 'A', 'B', 'C', 'D', 'E', 'F'].getD n '0'

/-- `push_encoded_byte` -/
def pushEncodedByte (byte : UInt8) : Str :=
  ['!', hexUpper (byte.toNat / 16), hexUpper (byte.toNat % 16)]

/-- `decode_hex_nibble` -/
def decodeHexNibble (byte : UInt8) : Option Nat :=
  let n := byte.toNat
  if 48 ≤ n ∧ n ≤ 57 then some (n - 48)
  else if 65 ≤ n ∧ n ≤ 70 then some (n - 55)
  else if 97 ≤ n ∧ n ≤ 102 then some (n - 87)
  else none

/-- The characters `encode_path` replaces. -/
def encodes (chars : Str) (c : Char) : Bool :=
  c != '/' && decide (c.toNat < 128) && chars.contains c

def encodeChar (chars : Str) (c : Char) : Str :=
  if encodes chars c then pushEncodedByte (UInt8.ofNat c.toNat) else [c]

def encodePath (path chars : Str) : Str :=
  if chars.isEmpty then path
  else if !path.any (encodes chars) then path
  else path.flatMap (encodeChar chars)

/-- The byte an escape sequence at the front stands for. -/
def escapedByte (hi lo : UInt8) : Option UInt8 :=
  match decodeHexNibble hi, decodeHexNibble lo with
  | some hi, some lo => some (UInt8.ofNat (hi * 16 + lo))
  | _, _ => none

/-- The loop of `decode_segment`. -/
def decodeBytes : List UInt8 → List UInt8
  | [] => []
  | [a] => [a]
  | [a, b] => [a, b]
  | a :: hi :: lo :: rest =>
      if a = 33 then
        match escapedByte hi lo with
        | some byte => byte :: decodeBytes rest
        | none => a :: decodeBytes (hi :: lo :: rest)
      else a :: decodeBytes (hi :: lo :: rest)

def decodeSegment (segment : Str) : Str :=
  if segment.isEmpty then []
  else (fromUtf8 (decodeBytes (encodeUtf8 segment))).getD segment

def decodePath (path chars : Str) : Str :=
  if chars.isEmpty then path else decodeSegment path

/-- The configuration of a client that its keys depend on. -/
structure KeyConfig where
  keyPrefix : Str
  normalizeEncodingChars : Str

def KeyConfig.buildKey (config : KeyConfig) (path : Str) : Str :=
  let clean := encodePath (path.dropWhile (· == '/')) config.normalizeEncodingChars
  if config.keyPrefix.isEmpty then clean
  else
    let front := trimEnd '/' config.keyPrefix
    if clean.isEmpty then front ++ ['/'] else front ++ '/' :: clean

/-- `strip_prefix_with_codec` -/
def KeyConfig.stripPrefix (config : KeyConfig) (key : Str) : Str :=
  let stripped :=
    if config.keyPrefix.isEmpty then key
    else
      let front := trimEnd '/' config.keyPrefix ++ ['/']
      if front.isPrefixOf key then key.drop front.length else key
  decodePath stripped config.normalizeEncodingChars

/-! ## What decoding makes of a path -/

/-- The byte of an ASCII character. -/
def byteOf (c : Char) : UInt8 := UInt8.ofNat c.toNat

def isHex (c : Char) : Bool := decide (c.toNat < 128) && (decodeHexNibble (byteOf c)).isSome

/-- The three characters look like an escape sequence, and none of them is encoded. -/
def escapes (chars : Str) (a hi lo : Char) : Bool :=
  a == '!' && !encodes chars a && (isHex hi && !encodes chars hi) && (isHex lo && !encodes chars lo)

/-- A path that has such characters. -/
def Imitates (chars path : Str) : Prop :=
  ∃ x a hi lo y, path = x ++ a :: hi :: lo :: y ∧ escapes chars a hi lo = true

/-- The bytes of a path with these taken for escape sequences. -/
def unescape (chars : Str) : Str → List UInt8
  | [] => []
  | [a] => encodeUtf8 [a]
  | [a, b] => encodeUtf8 [a, b]
  | a :: hi :: lo :: rest =>
      if escapes chars a hi lo then
        (escapedByte (byteOf hi) (byteOf lo)).toList ++ unescape chars rest
      else String.utf8EncodeChar a ++ unescape chars (hi :: lo :: rest)

section

variable {chars : Str}

theorem byteOf_toNat {c : Char} (h : c.toNat < 128) : (byteOf c).toNat = c.toNat := by
  rw [byteOf, UInt8.toNat_ofNat']
  omega

theorem hexUpper_lt : ∀ n < 16, (hexUpper n).toNat < 128 := by decide

theorem decodeHexNibble_hexUpper : ∀ n < 16, decodeHexNibble (byteOf (hexUpper n)) = some n := by
  decide

theorem escapedByte_hexUpper (b : UInt8) :
    escapedByte (byteOf (hexUpper (b.toNat / 16))) (byteOf (hexUpper (b.toNat % 16))) =
      some b := by
  have hb := b.toNat_lt
  rw [escapedByte, decodeHexNibble_hexUpper _ (by omega), decodeHexNibble_hexUpper _ (by omega)]
  simp only [Nat.div_add_mod', UInt8.ofNat_toNat]

/-! ### The loop -/

theorem decodeBytes_cons_of_ne {b : UInt8} (h : b ≠ 33) (l : List UInt8) :
    decodeBytes (b :: l) = b :: decodeBytes l := by
  match l with
  | [] => rfl
  | [_] => rfl
  | _ :: _ :: _ => rw [decodeBytes, if_neg h]

theorem decodeBytes_append {l : List UInt8} (h : 33 ∉ l) (r : List UInt8) :
    decodeBytes (l ++ r) = l ++ decodeBytes r := by
  induction l with
  | nil => rfl
  | cons b l ih =>
      rw [List.cons_append, decodeBytes_cons_of_ne fun hb => h (hb ▸ List.mem_cons_self),
        ih fun hl => h (List.mem_cons_of_mem b hl), List.cons_append]

/-- An exclamation mark that is none of an escape sequence. -/
theorem decodeBytes_mark {l : List UInt8}
    (h : ∀ hi lo rest, l = hi :: lo :: rest → escapedByte hi lo = none) :
    decodeBytes (33 :: l) = 33 :: decodeBytes l := by
  match l with
  | [] => rfl
  | [_] => rfl
  | hi :: lo :: rest => rw [decodeBytes, if_pos rfl, h hi lo rest rfl]

theorem decodeBytes_escape {hi lo byte : UInt8} (h : escapedByte hi lo = some byte)
    (l : List UInt8) : decodeBytes (33 :: hi :: lo :: l) = byte :: decodeBytes l := by
  rw [decodeBytes, if_pos rfl, h]

theorem encodeUtf8_pushEncodedByte (b : UInt8) :
    encodeUtf8 (pushEncodedByte b) =
      [33, byteOf (hexUpper (b.toNat / 16)), byteOf (hexUpper (b.toNat % 16))] := by
  have hb := b.toNat_lt
  rw [pushEncodedByte, encodeUtf8_cons, encodeUtf8_cons, encodeUtf8_cons,
    utf8EncodeChar_ascii (hexUpper_lt _ (by omega)),
    utf8EncodeChar_ascii (hexUpper_lt _ (by omega))]
  rfl

/-! ### One character -/

theorem encodes_ascii {c : Char} (h : encodes chars c = true) : c.toNat < 128 := by
  simp only [encodes, Bool.and_eq_true, decide_eq_true_eq] at h
  exact h.1.2

/-- Only the exclamation mark has the byte of the exclamation mark. -/
theorem not_mem_utf8EncodeChar {c : Char} (h : c ≠ '!') : 33 ∉ String.utf8EncodeChar c := by
  intro hmem
  by_cases hc : c.toNat < 128
  · rw [utf8EncodeChar_ascii hc, List.mem_singleton] at hmem
    have hnat := congrArg UInt8.toNat hmem
    rw [← byteOf, byteOf_toNat hc] at hnat
    exact h (Char.toNat_inj.mp hnat.symm)
  · have := le_of_mem_utf8EncodeChar (not_lt.mp hc) hmem
    exact absurd this (by decide)

theorem decodeBytes_encodeChar {c : Char} (h : c ≠ '!' ∨ encodes chars c = true)
    (r : List UInt8) :
    decodeBytes (encodeUtf8 (encodeChar chars c) ++ r) =
      String.utf8EncodeChar c ++ decodeBytes r := by
  unfold encodeChar
  split
  · next henc =>
      rw [encodeUtf8_pushEncodedByte, utf8EncodeChar_ascii (encodes_ascii henc)]
      exact decodeBytes_escape (escapedByte_hexUpper _) r
  · next henc =>
      rw [encodeUtf8_cons, encodeUtf8_nil, List.append_nil]
      exact decodeBytes_append (not_mem_utf8EncodeChar (h.resolve_right henc)) r

/-- A hexadecimal digit at the front of an encoded path is a character of the path. -/
theorem head_of_hex {s : Str} {b : UInt8} {r : List UInt8}
    (h : encodeUtf8 (s.flatMap (encodeChar chars)) = b :: r) (hb : (decodeHexNibble b).isSome) :
    ∃ c t, s = c :: t ∧ b = byteOf c ∧ (isHex c && !encodes chars c) = true ∧
      r = encodeUtf8 (t.flatMap (encodeChar chars)) := by
  cases s with
  | nil => cases h
  | cons c t =>
      refine ⟨c, t, rfl, ?_⟩
      rw [List.flatMap_cons, encodeUtf8_append] at h
      by_cases henc : encodes chars c = true
      · rw [encodeChar, if_pos henc, encodeUtf8_pushEncodedByte] at h
        obtain rfl := (List.cons.inj h).1
        cases hb
      · rw [encodeChar, if_neg henc, encodeUtf8_cons, encodeUtf8_nil, List.append_nil] at h
        by_cases hc : c.toNat < 128
        · rw [utf8EncodeChar_ascii hc] at h
          obtain ⟨rfl, rfl⟩ := List.cons.inj h
          refine ⟨rfl, ?_, rfl⟩
          rw [Bool.eq_false_iff.mpr henc, isHex, byteOf, hb, decide_eq_true hc]
          rfl
        · -- the first byte is no digit
          obtain ⟨x, l, hxl⟩ := List.exists_cons_of_ne_nil (utf8EncodeChar_ne_nil c)
          rw [hxl] at h
          obtain rfl := (List.cons.inj h).1
          have hle := le_of_mem_utf8EncodeChar (not_lt.mp hc) (hxl ▸ List.mem_cons_self)
          rw [decodeHexNibble] at hb
          simp only [show ¬(48 ≤ x.toNat ∧ x.toNat ≤ 57) by omega,
            show ¬(65 ≤ x.toNat ∧ x.toNat ≤ 70) by omega,
            show ¬(97 ≤ x.toNat ∧ x.toNat ≤ 102) by omega, if_false] at hb
          cases hb

theorem isSome_of_escapedByte {hi lo : UInt8} (h : escapedByte hi lo ≠ none) :
    (decodeHexNibble hi).isSome ∧ (decodeHexNibble lo).isSome := by
  unfold escapedByte at h
  split at h
  · next hhi hlo => exact ⟨by rw [hhi]; rfl, by rw [hlo]; rfl⟩
  · exact absurd rfl h

/-! ### The whole path -/

/-- Decoding undoes the encoding, and takes what looks like an escape sequence for one. -/
theorem decodeBytes_encoded (s : Str) :
    decodeBytes (encodeUtf8 (s.flatMap (encodeChar chars))) = unescape chars s := by
  have tail : ∀ (c : Char) (t : Str), (∀ hi lo rest, t = hi :: lo :: rest →
      escapes chars c hi lo = false) →
      decodeBytes (encodeUtf8 (t.flatMap (encodeChar chars))) = unescape chars t →
      decodeBytes (encodeUtf8 ((c :: t).flatMap (encodeChar chars))) =
        String.utf8EncodeChar c ++ unescape chars t := by
    intro c t hno ih
    rw [List.flatMap_cons, encodeUtf8_append, ← ih]
    by_cases hc : c ≠ '!' ∨ encodes chars c = true
    · exact decodeBytes_encodeChar hc _
    · -- an exclamation mark that is not encoded
      obtain ⟨hmark, henc⟩ := not_or.mp hc
      obtain rfl := not_not.mp hmark
      rw [encodeChar, if_neg henc, encodeUtf8_cons, encodeUtf8_nil, List.append_nil]
      refine decodeBytes_mark fun hi lo rest hl => ?_
      by_contra hbyte
      obtain ⟨hhi, hlo⟩ := isSome_of_escapedByte hbyte
      obtain ⟨h, t₁, rfl, -, hh, hr⟩ := head_of_hex hl hhi
      obtain ⟨l, t₂, rfl, -, hl', -⟩ := head_of_hex hr.symm hlo
      have hno' := hno h l t₂ rfl
      rw [escapes, hh, hl', Bool.eq_false_iff.mpr henc] at hno'
      cases hno'
  fun_induction unescape chars s with
  | case1 => rfl
  | case2 a => exact tail a [] (fun _ _ _ h => by cases h) rfl
  | case3 a b =>
      refine tail a [b] (fun _ _ _ h => by cases h) ?_
      exact tail b [] (fun _ _ _ h => by cases h) rfl
  | case4 a hi lo rest hesc ih =>
      simp only [escapes, Bool.and_eq_true, beq_iff_eq, Bool.not_eq_true'] at hesc
      obtain ⟨⟨⟨rfl, hmark⟩, hhi, hhienc⟩, hlo, hloenc⟩ := hesc
      simp only [isHex, Bool.and_eq_true, decide_eq_true_eq, Option.isSome_iff_exists] at hhi hlo
      obtain ⟨hhilt, x, hx⟩ := hhi
      obtain ⟨hlolt, y, hy⟩ := hlo
      have hbyte : escapedByte (byteOf hi) (byteOf lo) = some (UInt8.ofNat (x * 16 + y)) := by
        rw [escapedByte, hx, hy]
      rw [hbyte, ← ih]
      simp only [List.flatMap_cons, encodeChar, hmark, hhienc, hloenc, Bool.false_eq_true,
        if_false, List.cons_append, List.nil_append, encodeUtf8_cons, utf8EncodeChar_ascii hhilt,
        utf8EncodeChar_ascii hlolt]
      exact decodeBytes_escape hbyte _
  | case5 a hi lo rest hesc ih =>
      refine tail a (hi :: lo :: rest) ?_ ih
      rintro _ _ _ ⟨⟩
      exact Bool.eq_false_iff.mpr hesc

theorem Imitates.cons {path : Str} (c : Char) (h : Imitates chars path) :
    Imitates chars (c :: path) := by
  obtain ⟨x, a, hi, lo, y, rfl, hesc⟩ := h
  exact ⟨c :: x, a, hi, lo, y, rfl, hesc⟩

theorem unescape_of_not_imitates {s : Str} (h : ¬Imitates chars s) :
    unescape chars s = encodeUtf8 s := by
  fun_induction unescape chars s with
  | case1 => rfl
  | case2 a => rfl
  | case3 a b => rfl
  | case4 a hi lo rest hesc ih => exact absurd ⟨[], a, hi, lo, rest, rfl, hesc⟩ h
  | case5 a hi lo rest hesc ih => rw [ih fun ht => h (ht.cons a), encodeUtf8_cons a]

theorem length_utf8EncodeChar_pos (c : Char) : 0 < (String.utf8EncodeChar c).length := by
  rw [String.length_utf8EncodeChar]
  exact c.utf8Size_pos

/-- An escape sequence is longer than what it stands for. -/
theorem length_escapedByte_lt (a hi lo : Char) :
    (escapedByte (byteOf hi) (byteOf lo)).toList.length < (encodeUtf8 [a, hi, lo]).length := by
  have ha := length_utf8EncodeChar_pos a
  have hhi := length_utf8EncodeChar_pos hi
  have hopt : (escapedByte (byteOf hi) (byteOf lo)).toList.length ≤ 1 := by
    cases escapedByte (byteOf hi) (byteOf lo) with
    | none => exact Nat.zero_le 1
    | some b => exact le_rfl
  simp only [encodeUtf8_cons, List.length_append]
  omega

theorem length_unescape_le (s : Str) : (unescape chars s).length ≤ (encodeUtf8 s).length := by
  fun_induction unescape chars s with
  | case1 => exact le_rfl
  | case2 a => exact le_rfl
  | case3 a b => exact le_rfl
  | case4 a hi lo rest hesc ih =>
      have hlt := length_escapedByte_lt a hi lo
      have hsplit : encodeUtf8 (a :: hi :: lo :: rest) =
        encodeUtf8 [a, hi, lo] ++ encodeUtf8 rest :=
        encodeUtf8_append [a, hi, lo] rest
      rw [hsplit, List.length_append, List.length_append]
      omega
  | case5 a hi lo rest hesc ih =>
      rw [List.length_append, encodeUtf8_cons a, List.length_append]
      omega

theorem length_unescape_lt {s : Str} (h : Imitates chars s) :
    (unescape chars s).length < (encodeUtf8 s).length := by
  fun_induction unescape chars s with
  | case4 a hi lo rest hesc ih =>
      have hlt := length_escapedByte_lt a hi lo
      have hle : (unescape chars rest).length ≤ (encodeUtf8 rest).length :=
        length_unescape_le rest
      have hsplit : encodeUtf8 (a :: hi :: lo :: rest) =
        encodeUtf8 [a, hi, lo] ++ encodeUtf8 rest :=
        encodeUtf8_append [a, hi, lo] rest
      rw [hsplit, List.length_append, List.length_append]
      omega
  | case5 a hi lo rest hesc ih =>
      have htail : Imitates chars (hi :: lo :: rest) := by
        obtain ⟨x, a', hi', lo', y, heq, hesc'⟩ := h
        cases x with
        | nil =>
            cases heq
            exact absurd hesc' hesc
        | cons c x => exact ⟨x, a', hi', lo', y, (List.cons.inj heq).2, hesc'⟩
      have hlt := ih htail
      rw [List.length_append, encodeUtf8_cons a, List.length_append]
      omega
  | case1 | case2 | case3 =>
      obtain ⟨x, a', hi', lo', y, heq, -⟩ := h
      have hlen := congrArg List.length heq
      simp only [List.length_append, List.length_cons, List.length_nil] at hlen
      omega

/-! ## The round trip -/

theorem flatMap_encodeChar_of_plain {path : Str} (h : path.any (encodes chars) = false) :
    path.flatMap (encodeChar chars) = path := by
  induction path with
  | nil => rfl
  | cons c path ih =>
      rw [List.any_cons, Bool.or_eq_false_iff] at h
      rw [List.flatMap_cons, ih h.2, encodeChar, h.1]
      rfl

theorem encodePath_eq (path : Str) : encodePath path chars = path.flatMap (encodeChar chars) := by
  unfold encodePath
  split
  · next hchars =>
      refine (flatMap_encodeChar_of_plain (List.any_eq_false.mpr fun c _ => ?_)).symm
      rw [encodes, List.isEmpty_iff.mp hchars]
      simp
  · split
    · next hany => exact (flatMap_encodeChar_of_plain (by simpa using hany)).symm
    · rfl

theorem length_encodeChar (c : Char) :
    (encodeChar chars c).length = if encodes chars c then 3 else 1 := by
  unfold encodeChar
  split
  · rfl
  · rfl

theorem length_le_encoded (path : Str) :
    path.length ≤ (path.flatMap (encodeChar chars)).length := by
  induction path with
  | nil => exact le_rfl
  | cons c path ih =>
      rw [List.flatMap_cons, List.length_append, List.length_cons, length_encodeChar]
      split <;> omega

theorem length_lt_encoded {path : Str} (h : path.any (encodes chars) = true) :
    path.length < (path.flatMap (encodeChar chars)).length := by
  induction path with
  | nil => cases h
  | cons c path ih =>
      have hle : path.length ≤ (path.flatMap (encodeChar chars)).length := length_le_encoded path
      rw [List.flatMap_cons, List.length_append, List.length_cons, length_encodeChar]
      rw [List.any_cons, Bool.or_eq_true] at h
      by_cases hc : encodes chars c = true
      · rw [if_pos hc]
        omega
      · have hlt := ih (h.resolve_left hc)
        rw [if_neg hc]
        omega

/-- A path keeps its text exactly when none of its characters is encoded. -/
theorem encoded_eq_self_iff (path : Str) :
    path.flatMap (encodeChar chars) = path ↔ path.any (encodes chars) = false := by
  refine ⟨fun h => ?_, flatMap_encodeChar_of_plain⟩
  by_contra hany
  have hlt := length_lt_encoded (Bool.eq_true_of_not_eq_false hany)
  rw [h] at hlt
  exact absurd hlt (lt_irrefl _)

/-- The paths that are read back: no characters are configured; or nothing in the path looks
like an escape sequence; or nothing in it is encoded, and what looks like escape sequences
stands for bytes that are not UTF-8. -/
def Faithful (chars path : Str) : Prop :=
  chars = [] ∨ ¬Imitates chars path ∨
    path.any (encodes chars) = false ∧ ∀ s, unescape chars path ≠ encodeUtf8 s

theorem not_imitates_nil : ¬Imitates chars [] := by
  rintro ⟨x, a, hi, lo, y, heq, -⟩
  cases x with
  | nil => cases heq
  | cons c x => cases heq

theorem decodeSegment_encoded_iff (path : Str) :
    decodeSegment (path.flatMap (encodeChar chars)) = path ↔
      ¬Imitates chars path ∨
        path.any (encodes chars) = false ∧ ∀ s, unescape chars path ≠ encodeUtf8 s := by
  by_cases hempty : path = []
  · subst hempty
    exact iff_of_true rfl (.inl not_imitates_nil)
  · have hne : (path.flatMap (encodeChar chars)).isEmpty = false := by
      rw [List.isEmpty_eq_false_iff, ← List.length_pos_iff]
      exact (List.length_pos_iff.mpr hempty).trans_le (length_le_encoded path)
    rw [decodeSegment, hne, decodeBytes_encoded]
    simp only [Bool.false_eq_true, if_false]
    cases hdecode : fromUtf8 (unescape chars path) with
    | none =>
        have hno : ∀ s, unescape chars path ≠ encodeUtf8 s := by
          intro s hs
          rw [fromUtf8_eq_some.mpr hs] at hdecode
          cases hdecode
        have himitates : Imitates chars path := by
          by_contra himitates
          exact hno path (unescape_of_not_imitates himitates)
        rw [Option.getD_none, encoded_eq_self_iff]
        exact ⟨fun h => .inr ⟨h, hno⟩, fun h => (h.resolve_left (not_not.mpr himitates)).1⟩
    | some s =>
        have hs := fromUtf8_eq_some.mp hdecode
        rw [Option.getD_some]
        constructor
        · rintro rfl
          refine .inl fun himitates => ?_
          have hlt := length_unescape_lt himitates
          rw [hs] at hlt
          exact absurd hlt (lt_irrefl _)
        · rintro (h | h)
          · exact encodeUtf8_injective (hs.symm.trans (unescape_of_not_imitates h))
          · exact absurd hs (h.2 s)

theorem decodePath_encodePath_iff (path : Str) :
    decodePath (encodePath path chars) chars = path ↔ Faithful chars path := by
  rw [encodePath_eq, decodePath]
  by_cases hchars : chars = []
  · subst hchars
    refine iff_of_true (flatMap_encodeChar_of_plain ?_) (.inl rfl)
    exact List.any_eq_false.mpr fun c _ => by simp [encodes]
  · rw [if_neg (by simpa using hchars), decodeSegment_encoded_iff, Faithful]
    exact ⟨.inr, fun h => h.resolve_left hchars⟩

/-- The path of a list of names, and the form without the leading slash. -/
def relativePath (names : List Str) : Str := ['/'].intercalate names

def absolutePath (names : List Str) : Str := '/' :: relativePath names

theorem head?_relativePath {names : List Str} (h : ∀ name ∈ names, name ≠ [] ∧ '/' ∉ name) :
    (relativePath names).head? ≠ some '/' := by
  cases names with
  | nil => exact fun h => by cases h
  | cons name names =>
      obtain ⟨hne, hslash⟩ := h name List.mem_cons_self
      obtain ⟨c, rest, rfl⟩ := List.exists_cons_of_ne_nil hne
      have hhead : (relativePath ((c :: rest) :: names)).head? = some c := by
        cases names with
        | nil => simp [relativePath]
        | cons name' names => simp [relativePath, List.intercalate]
      rw [hhead]
      rintro ⟨⟩
      exact hslash List.mem_cons_self

/-- The prefix goes on and off. -/
theorem stripPrefix_buildKey (config : KeyConfig) {names : List Str}
    (h : ∀ name ∈ names, name ≠ [] ∧ '/' ∉ name) :
    config.stripPrefix (config.buildKey (absolutePath names)) =
      decodePath (encodePath (relativePath names) config.normalizeEncodingChars)
        config.normalizeEncodingChars := by
  have htrim : (absolutePath names).dropWhile (· == '/') = relativePath names := by
    rw [absolutePath, List.dropWhile_cons_of_pos (by simp)]
    have hhead := head?_relativePath h
    cases hrel : relativePath names with
    | nil => rfl
    | cons c rest =>
        rw [hrel] at hhead
        refine List.dropWhile_cons_of_neg ?_
        simpa using hhead
  unfold KeyConfig.stripPrefix KeyConfig.buildKey
  simp only [htrim]
  by_cases hinitial : config.keyPrefix.isEmpty = true
  · simp only [hinitial, if_true]
  · simp only [Bool.eq_false_iff.mpr hinitial, Bool.false_eq_true, if_false]
    congr 1
    by_cases hclean : (encodePath (relativePath names) config.normalizeEncodingChars).isEmpty = true
    · simp [List.isEmpty_iff.mp hclean]
    · generalize encodePath (relativePath names) config.normalizeEncodingChars = clean at hclean
      have hfront : trimEnd '/' config.keyPrefix ++ '/' :: clean =
          (trimEnd '/' config.keyPrefix ++ ['/']) ++ clean := by simp
      rw [if_neg hclean, hfront, if_pos, List.drop_left]
      exact List.isPrefixOf_iff_prefix.mpr (List.prefix_append _ _)

theorem relativePath_injective {names names' : List Str}
    (h : ∀ name ∈ names, name ≠ [] ∧ '/' ∉ name)
    (h' : ∀ name ∈ names', name ≠ [] ∧ '/' ∉ name)
    (heq : relativePath names = relativePath names') : names = names' := by
  rw [← segments_intercalate h, ← segments_intercalate h']
  exact congrArg (segments '/') heq

end

/-- A path is read back from its key exactly when it is faithful to the configured
characters, and faithful paths have different keys. -/
theorem key_round_trip (config : KeyConfig) :
    (∀ names : List Str, (∀ name ∈ names, name ≠ [] ∧ '/' ∉ name) →
      (config.stripPrefix (config.buildKey (absolutePath names)) = relativePath names ↔
        Faithful config.normalizeEncodingChars (relativePath names))) ∧
    ∀ names names' : List Str, (∀ name ∈ names, name ≠ [] ∧ '/' ∉ name) →
      (∀ name ∈ names', name ≠ [] ∧ '/' ∉ name) →
      Faithful config.normalizeEncodingChars (relativePath names) →
      Faithful config.normalizeEncodingChars (relativePath names') →
      config.buildKey (absolutePath names) = config.buildKey (absolutePath names') →
      names = names' := by
  have hiff : ∀ names : List Str, (∀ name ∈ names, name ≠ [] ∧ '/' ∉ name) →
      (config.stripPrefix (config.buildKey (absolutePath names)) = relativePath names ↔
        Faithful config.normalizeEncodingChars (relativePath names)) := by
    intro names hnames
    rw [stripPrefix_buildKey config hnames]
    exact decodePath_encodePath_iff (relativePath names)
  refine ⟨hiff, ?_⟩
  intro names names' hnames hnames' hfaithful hfaithful' hkey
  refine relativePath_injective hnames hnames' ?_
  rw [← (hiff names hnames).mpr hfaithful, ← (hiff names' hnames').mpr hfaithful', hkey]

namespace Sample

/-- The default characters. -/
def config : KeyConfig := ⟨['p', '/'], ['?', '#', '%', '+', '@']⟩

def plain : List Str := [['a', ' ', 'b'], ['c', '?', 'd'], ['!', '4']]

theorem plain_path_read_back :
    (∀ name ∈ plain, name ≠ [] ∧ '/' ∉ name) ∧
      config.stripPrefix (config.buildKey (absolutePath plain)) = relativePath plain := by
  have hnames : ∀ name ∈ plain, name ≠ [] ∧ '/' ∉ name := by decide
  refine ⟨hnames, ((key_round_trip config).1 plain hnames).mpr ?_⟩
  exact .inr (.inl fun h => absurd (length_unescape_lt h) (by decide +kernel))

/-- The key of `/!3F` is that of `/?`, and is read back as `?`. -/
theorem literal_escape_collides :
    config.buildKey (absolutePath [['!', '3', 'F']]) = config.buildKey (absolutePath [['?']]) ∧
      config.stripPrefix (config.buildKey (absolutePath [['!', '3', 'F']])) = ['?'] := by
  decide +kernel

end Sample

end OpenViking.S3fs
