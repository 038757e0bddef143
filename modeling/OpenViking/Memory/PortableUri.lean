/-
# `OpenViking.Memory.PortableUri` — URIs of memories, made from field data

`session/memory/utils/uri.py`: a template is cut at its slashes, each part is
rendered, and each rendered part becomes one segment of the URI, except for the
part `{{ user_space }}`, which is a path.  A segment that Windows would refuse,
or that has the marker `~ov~` in it, is cleaned and gets the marker and the head
of its digest before its extension.

Whatever the fields are, the segments are as many as the template says and
safe, and texts that the digests tell apart stay apart (`portable_uri`).  The
digest is cut to sixteen digits, so it cannot tell all texts apart; the last
part is about any set of texts that it does tell apart.

Strings are those of Python: lists of code points, surrogates among them.
-/
import Mathlib.Data.Fin.Basic
import Mathlib.Data.List.DropRight
import Mathlib.Data.List.Forall2
import Mathlib.Data.List.Infix
import Mathlib.Data.Set.Function
import OpenViking.Lib.Results

namespace OpenViking.Memory

open OpenViking.Lib

abbrev CodePoint : Type := Fin 0x110000

abbrev PyStr : Type := List CodePoint

/-- A literal of the source. -/
def py (s : List Char) : PyStr := s.map fun c => Fin.ofNat _ c.toNat

def dot : CodePoint := 46

def space : CodePoint := 32

def slash : CodePoint := 47

def underscore : CodePoint := 95

def tilde : CodePoint := 126

/-- `_PORTABLE_SEGMENT_MARKER` -/
def portableSegmentMarker : PyStr := py ['~', 'o', 'v', '~']

/-- `_WINDOWS_INVALID_CHARS` -/
def windowsInvalidChars : PyStr := py ['<', '>', ':', '"', '\\', '|', '?', '*']

/-- `_WINDOWS_RESERVED_STEMS` -/
def windowsReservedStems : List PyStr :=
  [py ['C', 'O', 'N'], py ['P', 'R', 'N'], py ['A', 'U', 'X'], py ['N', 'U', 'L']] ++
    (py ['1', '2', '3', '4', '5', '6', '7', '8', '9']).map (fun i => py ['C', 'O', 'M'] ++ [i]) ++
    (py ['1', '2', '3', '4', '5', '6', '7', '8', '9']).map (fun i => py ['L', 'P', 'T'] ++ [i])

/-- The tables of the Unicode database that are looked into. -/
structure Unicode where
  /-- `str.upper` of a character that is not ASCII -/
  upper : CodePoint → PyStr
  /-- `\s` of a regular expression -/
  isSpace : CodePoint → Bool

def hexDigits : PyStr :=
  py ['0', '1', '2', '3', '4', '5', '6', '7', '8', '9', 'a', 'b', 'c', 'd', 'e', 'f']

/-- The head of the SHA-256 digest in hexadecimal. -/
structure Digest where
  head : PyStr → PyStr
  /-- `_PORTABLE_SEGMENT_HASH_LENGTH` -/
  length_head : ∀ s, (head s).length = 16
  isHex : ∀ s, ∀ c ∈ head s, c ∈ hexDigits

section

variable (u : Unicode)

def upperChar (c : CodePoint) : PyStr :=
  if 97 ≤ c ∧ c ≤ 122 then [c - 32] else if c < 128 then [c] else u.upper c

/-- `str.upper` -/
def upper (s : PyStr) : PyStr := s.flatMap (upperChar u)

def isSpaceOrDot (c : CodePoint) : Bool := c == space || c == dot

/-- `_windows_reserved_stem` -/
def windowsReservedStem (segment : PyStr) : PyStr :=
  upper u ((segment.takeWhile (· != dot)).rdropWhile isSpaceOrDot)

/-- A character that no segment may have: one that Windows refuses, a control character or a
surrogate. -/
def isRefused (c : CodePoint) : Bool :=
  windowsInvalidChars.contains c || c < 32 || c == 127 || (0xD800 ≤ c && c ≤ 0xDFFF)

/-- `_is_portable_uri_segment` -/
def isPortableUriSegment (segment : PyStr) : Bool :=
  if segment = [] ∨ segment = [dot] ∨ segment = [dot, dot] then false
  else if segment.getLast?.any isSpaceOrDot then false
  else if portableSegmentMarker <:+: segment then false
  else if segment.any isRefused then false
  else !windowsReservedStems.contains (windowsReservedStem u segment)

/-- `str.rpartition(".")`: what is before and after the last dot -/
def rpartitionDot (segment : PyStr) : Option (PyStr × PyStr) :=
  let before := segment.rdropWhile (· != dot)
  if before = [] then none else some (before.dropLast, segment.rtakeWhile (· != dot))

/-- `_split_safe_extension` -/
def splitSafeExtension (segment : PyStr) : PyStr × PyStr :=
  match rpartitionDot segment with
  | none => (segment, [])
  | some (stem, extension) =>
      if stem = [] ∨ extension = [] then (segment, [])
      else if extension.any isRefused then (segment, [])
      else (stem, dot :: extension)

/-- What is refused is replaced, and the end trimmed. -/
def scrub (segment : PyStr) : PyStr :=
  (segment.map fun c => if isRefused c then underscore else c).rdropWhile isSpaceOrDot

def orUnderscore (s : PyStr) : PyStr :=
  if s = [] ∨ s = [dot] ∨ s = [dot, dot] then [underscore] else s

def hideDevice (s : PyStr) : PyStr :=
  if windowsReservedStems.contains (windowsReservedStem u s) then underscore :: s else s

def cleaned (segment : PyStr) : PyStr := hideDevice u (orUnderscore (scrub segment))

/-- `_portable_uri_segment` -/
def portableUriSegment (d : Digest) (segment : PyStr) : PyStr :=
  if isPortableUriSegment u segment then segment
  else
    let (stem, extension) := splitSafeExtension (cleaned u segment)
    let stem := stem.rdropWhile isSpaceOrDot
    (if stem = [] then [underscore] else stem) ++ portableSegmentMarker ++
      d.head segment ++ extension

/-- `str.partition` -/
def partitionAt (separator : PyStr) : PyStr → Option (PyStr × PyStr)
  | [] => if separator = [] then some ([], []) else none
  | c :: s =>
      if separator <+: c :: s then some ([], (c :: s).drop separator.length)
      else (partitionAt separator s).map fun (a, b) => (c :: a, b)

def schemeSeparator : PyStr := py [':', '/', '/']

/-- The scheme of a template with its separator, and the rest. -/
def splitScheme (template : PyStr) : PyStr × PyStr :=
  match partitionAt schemeSeparator template with
  | some (scheme, path) => (scheme ++ schemeSeparator, path)
  | none => ([], template)

/-- A match of `_TRUSTED_PATH_SEGMENT_TEMPLATE`, which is `user_space` in double braces -/
def isTrusted (segmentTemplate : PyStr) : Bool :=
  let inner := ((segmentTemplate.drop 2).take (segmentTemplate.length - 4)).dropWhile u.isSpace
  decide (py ['\x7b', '\x7b'] <+: segmentTemplate) &&
    decide (py ['\x7d', '\x7d'] <:+ segmentTemplate) &&
    decide (inner.rdropWhile u.isSpace = py ['u', 's', 'e', 'r', '_', 's', 'p', 'a', 'c', 'e'])

variable {ε : Type} (render : PyStr → Except ε PyStr)

/-- `str.replace("/", "_")` -/
def replaceSlash (s : PyStr) : PyStr := s.map fun c => if c = slash then underscore else c

/-- The rendered segments of one part of the template. -/
def renderSegment (segmentTemplate : PyStr) : Except ε (List PyStr) := do
  let rendered ← render segmentTemplate
  if isTrusted u segmentTemplate then return rendered.splitOn slash
  else return [replaceSlash rendered]

/-- `_render_portable_uri_template`, for the fields that `render` puts in -/
def renderPortableUriTemplate (d : Digest) (template : PyStr) : Except ε PyStr :=
  let (scheme, pathTemplate) := splitScheme template
  if pathTemplate = [] then .ok scheme
  else do
    let segments ← (pathTemplate.splitOn slash).mapM (renderSegment u render)
    return scheme ++ [slash].intercalate (segments.flatten.map (portableUriSegment u d))

end

/-! ## Cutting at the last dot -/

theorem rpartitionDot_eq_some {s stem extension : PyStr}
    (h : rpartitionDot s = some (stem, extension)) :
    s = stem ++ dot :: extension ∧ dot ∉ extension := by
  unfold rpartitionDot at h
  dsimp only at h
  split at h
  · cases h
  · next hne =>
      obtain ⟨rfl, rfl⟩ := Prod.mk.inj (Option.some.inj h)
      have hlast : (s.rdropWhile (· != dot)).getLast hne = dot := by
        have hnot := List.rdropWhile_last_not (fun c : CodePoint => c != dot) s hne
        simpa using hnot
      have hsplit := List.dropLast_append_getLast hne
      rw [hlast] at hsplit
      constructor
      · rw [← List.singleton_append, ← List.append_assoc, hsplit]
        exact List.rdropWhile_append_rtakeWhile.symm
      · intro hmem
        simpa using List.mem_rtakeWhile_imp hmem

theorem rpartitionDot_eq_none {s : PyStr} (h : rpartitionDot s = none) : dot ∉ s := by
  unfold rpartitionDot at h
  dsimp only at h
  split at h
  · next hnil =>
      intro hmem
      simpa using (List.rdropWhile_eq_nil_iff.mp hnil) dot hmem
  · cases h

/-- The last dot of a text is where it is. -/
theorem append_dot_inj {a a' b b' : PyStr} (hb : dot ∉ b) (hb' : dot ∉ b')
    (h : a ++ dot :: b = a' ++ dot :: b') : a = a' ∧ b = b' := by
  have hend : ∀ {c x y : PyStr}, dot ∉ x → dot :: x = c ++ dot :: y → c = [] := by
    intro c x y hx hc
    cases c with
    | nil => rfl
    | cons first c =>
        rw [List.cons_append] at hc
        have hin : dot ∈ x := (List.cons.inj hc).2 ▸ List.mem_append_right c List.mem_cons_self
        exact absurd hin hx
  rcases List.append_eq_append_iff.mp h with ⟨c, rfl, hc⟩ | ⟨c, rfl, hc⟩
  · obtain rfl := hend hb hc
    exact ⟨(List.append_nil a).symm, (List.cons.inj hc).2⟩
  · obtain rfl := hend hb' hc
    exact ⟨List.append_nil a', (List.cons.inj hc).2.symm⟩

/-! ## What the rewriting makes -/

section

variable {u : Unicode} {d : Digest} {segment : PyStr}

/-- A character that is neither refused nor cut nor a separator. -/
def isPlain (c : CodePoint) : Bool := !isRefused c && !isSpaceOrDot c && c != dot && c != slash

theorem isPlain_iff {c : CodePoint} : isPlain c = true ↔
    isRefused c = false ∧ isSpaceOrDot c = false ∧ c ≠ dot ∧ c ≠ slash := by
  simp [isPlain, and_assoc]

theorem isPlain_hexDigits {c : CodePoint} (h : c ∈ hexDigits) : isPlain c = true := by
  have hall : hexDigits.all isPlain = true := by decide +kernel
  exact List.all_eq_true.mp hall c h

theorem isPlain_marker {c : CodePoint} (h : c ∈ portableSegmentMarker) : isPlain c = true := by
  have hall : portableSegmentMarker.all isPlain = true := by decide +kernel
  exact List.all_eq_true.mp hall c h

theorem reservedStems_spec : ∀ stem ∈ windowsReservedStems,
    stem.head? ≠ some underscore ∧ tilde ∉ stem := by
  decide

/-- What has a tilde or begins with an underscore is no device name. -/
theorem upper_notMem_of_tilde {s : PyStr} (h : tilde ∈ s) : upper u s ∉ windowsReservedStems := by
  intro hmem
  have hup : upperChar u tilde = [tilde] := by
    unfold upperChar
    rw [if_neg (by decide), if_pos (by decide)]
  refine (reservedStems_spec _ hmem).2 (List.mem_flatMap.mpr ⟨tilde, h, ?_⟩)
  rw [hup]
  exact List.mem_singleton_self tilde

theorem not_isRefused_underscore : isRefused underscore = false := by decide +kernel

theorem upper_notMem_of_underscore (s : PyStr) :
    upper u (underscore :: s) ∉ windowsReservedStems := by
  intro hmem
  have hup : upperChar u underscore = [underscore] := by
    unfold upperChar
    rw [if_neg (by decide), if_pos (by decide)]
  refine (reservedStems_spec _ hmem).1 ?_
  rw [upper, List.flatMap_cons, hup]
  rfl

/-- Trimming the end stops at the latest at the first character that is not trimmed. -/
theorem rdropWhile_cons_of_neg {p : CodePoint → Bool} {c : CodePoint}
    (h : p c = false) (s : PyStr) :
    ∃ rest, (c :: s).rdropWhile p = c :: rest := by
  induction s using List.reverseRecOn with
  | nil => exact ⟨[], by rw [List.rdropWhile_singleton, if_neg (Bool.eq_false_iff.mp h)]⟩
  | append_singleton s x ih =>
      rw [← List.cons_append, List.rdropWhile_concat]
      split
      · exact ih
      · exact ⟨s ++ [x], rfl⟩

/-- A text without refused characters that does not end in a space or a dot. -/
structure Tidy (segment c : PyStr) : Prop where
  ne_nil : c ≠ []
  last : c.getLast?.any isSpaceOrDot = false
  chars : ∀ x ∈ c, isRefused x = false
  slash : slash ∉ segment → slash ∉ c

theorem getLast?_rdropWhile (s : PyStr) :
    (s.rdropWhile isSpaceOrDot).getLast?.any isSpaceOrDot = false := by
  cases hlast : (s.rdropWhile isSpaceOrDot).getLast? with
  | none => rfl
  | some c =>
      have hne : s.rdropWhile isSpaceOrDot ≠ [] := by
        intro hnil
        rw [hnil] at hlast
        cases hlast
      have hnot := List.rdropWhile_last_not isSpaceOrDot s hne
      rw [List.getLast?_eq_some_getLast hne] at hlast
      rw [Option.some.inj hlast] at hnot
      exact Bool.eq_false_iff.mpr hnot

theorem mem_scrub {c : CodePoint} (h : c ∈ scrub segment) :
    isRefused c = false ∧ (c = underscore ∨ c ∈ segment) := by
  have hmem := (List.rdropWhile_prefix isSpaceOrDot _).subset h
  obtain ⟨x, hx, rfl⟩ := List.mem_map.mp hmem
  by_cases hrefused : isRefused x = true
  · rw [if_pos hrefused]
    exact ⟨not_isRefused_underscore, Or.inl rfl⟩
  · rw [if_neg hrefused]
    exact ⟨Bool.eq_false_iff.mpr hrefused, Or.inr hx⟩

theorem tidy_orUnderscore (segment : PyStr) : Tidy segment (orUnderscore (scrub segment)) := by
  unfold orUnderscore
  split
  · refine ⟨List.cons_ne_nil _ _, by decide, fun x hx => ?_, fun _ => by decide⟩
    rw [List.mem_singleton.mp hx]
    exact not_isRefused_underscore
  · next h =>
      rw [not_or] at h
      refine ⟨h.1, getLast?_rdropWhile _, fun x hx => (mem_scrub hx).1, fun hslash hx => ?_⟩
      rcases (mem_scrub hx).2 with heq | hin
      · exact absurd heq (by decide)
      · exact hslash hin

/-- The cleaned text is tidy and no device name. -/
theorem tidy_cleaned (segment : PyStr) : Tidy segment (cleaned u segment) := by
  have h := tidy_orUnderscore segment
  unfold cleaned hideDevice
  split
  · refine ⟨List.cons_ne_nil _ _, ?_, ?_, ?_⟩
    · rw [List.getLast?_cons_of_ne_nil h.ne_nil]
      exact h.last
    · intro x hx
      rcases List.mem_cons.mp hx with rfl | hx
      · exact not_isRefused_underscore
      · exact h.chars x hx
    · intro hslash hx
      rcases List.mem_cons.mp hx with heq | hx
      · exact absurd heq (by decide)
      · exact h.slash hslash hx
  · exact h

theorem device_cleaned (segment : PyStr) :
    windowsReservedStem u (cleaned u segment) ∉ windowsReservedStems := by
  unfold cleaned hideDevice
  split
  · have hhead : ∃ rest, ((underscore :: orUnderscore (scrub segment)).takeWhile
        (· != dot)).rdropWhile isSpaceOrDot = underscore :: rest := by
      rw [List.takeWhile_cons_of_pos (by decide)]
      exact rdropWhile_cons_of_neg (by decide) _
    obtain ⟨rest, hrest⟩ := hhead
    rw [windowsReservedStem, hrest]
    exact upper_notMem_of_underscore rest
  · next h => exact fun hmem => h (List.contains_iff_mem.mpr hmem)

/-- A tidy text is cut at its last dot, unless there is none but at its start. -/
theorem splitSafeExtension_eq {c : PyStr} (h : Tidy segment c) :
    (splitSafeExtension c = (c, []) ∧ dot ∉ c.tail) ∨
    ∃ stem extension, splitSafeExtension c = (stem, dot :: extension) ∧
      c = stem ++ dot :: extension ∧ extension ≠ [] ∧ dot ∉ extension := by
  unfold splitSafeExtension
  cases hcut : rpartitionDot c with
  | none => exact Or.inl ⟨rfl, fun hmem => rpartitionDot_eq_none hcut (List.mem_of_mem_tail hmem)⟩
  | some pair =>
      obtain ⟨stem, extension⟩ := pair
      obtain ⟨hc, hdot⟩ := rpartitionDot_eq_some hcut
      have hext : extension ≠ [] := by
        rintro rfl
        have hlast := h.last
        have hdot : c.getLast? = some dot := by rw [hc, List.getLast?_concat]
        rw [hdot] at hlast
        exact absurd hlast (by decide)
      have hchars : extension.any isRefused = false := by
        rw [List.any_eq_false]
        intro x hx
        rw [h.chars x (hc ▸ List.mem_append_right _ (List.mem_cons_of_mem _ hx))]
        exact Bool.false_ne_true
      dsimp only
      by_cases hstem : stem = []
      · rw [if_pos (Or.inl hstem)]
        refine Or.inl ⟨rfl, ?_⟩
        rw [hc, hstem]
        exact hdot
      · rw [if_neg (not_or.mpr ⟨hstem, hext⟩), hchars, if_neg Bool.false_ne_true]
        exact Or.inr ⟨stem, extension, rfl, hc, hext, hdot⟩

theorem Tidy.rdropWhile_eq {c : PyStr} (h : Tidy segment c) : c.rdropWhile isSpaceOrDot = c := by
  rw [List.rdropWhile_eq_self_iff]
  intro hne hlast
  have hnot := h.last
  rw [List.getLast?_eq_some_getLast hne] at hnot
  exact absurd hlast (Bool.eq_false_iff.mp hnot)

/-- How a rewritten segment is put together. -/
structure Rewritten (u : Unicode) (d : Digest) (segment stem extension : PyStr) : Prop where
  eq : portableUriSegment u d segment =
    stem ++ portableSegmentMarker ++ d.head segment ++ extension
  ofStem : stem = [underscore] ∨ stem <+: cleaned u segment
  /-- with no extension, the only dot there may be is the first character -/
  ofExtension : (extension = [] ∧ dot ∉ stem.tail) ∨
    ∃ front rest, extension = dot :: rest ∧ rest ≠ [] ∧ dot ∉ rest ∧
      cleaned u segment = front ++ dot :: rest

theorem rewritten (h : isPortableUriSegment u segment = false) :
    ∃ stem extension, Rewritten u d segment stem extension := by
  have htidy : Tidy segment (cleaned u segment) := tidy_cleaned segment
  have hpart : portableUriSegment u d segment =
      (if (splitSafeExtension (cleaned u segment)).1.rdropWhile isSpaceOrDot = [] then [underscore]
        else (splitSafeExtension (cleaned u segment)).1.rdropWhile isSpaceOrDot) ++
      portableSegmentMarker ++ d.head segment ++ (splitSafeExtension (cleaned u segment)).2 := by
    unfold portableUriSegment
    rw [if_neg (Bool.eq_false_iff.mp h)]
  obtain ⟨hsplit, hdot⟩ | ⟨stem, extension, hsplit, hc, hne, hdot⟩ := splitSafeExtension_eq htidy
  · rw [hsplit, htidy.rdropWhile_eq, if_neg htidy.ne_nil] at hpart
    exact ⟨cleaned u segment, [], hpart, Or.inr (List.prefix_refl _), Or.inl ⟨rfl, hdot⟩⟩
  · rw [hsplit] at hpart
    refine ⟨_, dot :: extension, hpart, ?_, Or.inr ⟨stem, extension, rfl, hne, hdot, hc⟩⟩
    split
    · exact Or.inl rfl
    · right
      rw [hc]
      exact (List.rdropWhile_prefix isSpaceOrDot _).trans (List.prefix_append _ _)

/-! ## Safe names -/

/-- What no segment may be or have. -/
structure SafeName (u : Unicode) (name : PyStr) : Prop where
  ne_nil : name ≠ []
  ne_dot : name ≠ [dot]
  ne_dots : name ≠ [dot, dot]
  last : ∀ c, name.getLast? = some c → c ≠ space ∧ c ≠ dot
  chars : ∀ c ∈ name, c ∉ windowsInvalidChars ∧ ¬ c < 32 ∧ c ≠ 127 ∧ ¬ (0xD800 ≤ c ∧ c ≤ 0xDFFF)
  device : windowsReservedStem u name ∉ windowsReservedStems

theorem isRefused_eq_false {c : CodePoint} (h : isRefused c = false) :
    c ∉ windowsInvalidChars ∧ ¬ c < 32 ∧ c ≠ 127 ∧ ¬ (0xD800 ≤ c ∧ c ≤ 0xDFFF) := by
  unfold isRefused at h
  simp only [Bool.or_eq_false_iff, Bool.and_eq_false_iff, decide_eq_false_iff_not,
    beq_eq_false_iff_ne,
    List.contains_eq_mem] at h
  exact ⟨h.1.1.1, h.1.1.2, h.1.2, not_and_or.mpr h.2⟩

theorem isSpaceOrDot_eq_false {c : CodePoint} (h : isSpaceOrDot c = false) :
    c ≠ space ∧ c ≠ dot := by
  simpa [isSpaceOrDot] using h

theorem safeName_of_portable (h : isPortableUriSegment u segment = true) : SafeName u segment := by
  unfold isPortableUriSegment at h
  split at h
  · cases h
  · next hname =>
      simp only [not_or] at hname
      split at h
      · cases h
      · next hlast =>
          split at h
          · cases h
          · split at h
            · cases h
            · next hchars =>
                refine ⟨hname.1, hname.2.1, hname.2.2, ?_, ?_, ?_⟩
                · intro c hc
                  rw [hc] at hlast
                  exact isSpaceOrDot_eq_false (Bool.eq_false_iff.mpr hlast)
                · intro c hc
                  rw [Bool.not_eq_true, List.any_eq_false] at hchars
                  exact isRefused_eq_false (Bool.eq_false_iff.mpr (hchars c hc))
                · intro hmem
                  rw [List.contains_iff_mem.mpr hmem] at h
                  cases h

/-- The marker is not in a segment that stays as it is. -/
theorem marker_of_portable (h : isPortableUriSegment u segment = true) :
    ¬ portableSegmentMarker <:+: segment := by
  intro hmarker
  unfold isPortableUriSegment at h
  rw [if_pos hmarker] at h
  split at h
  · cases h
  · split at h <;> cases h

variable {stem extension : PyStr}

theorem Rewritten.chars (h : Rewritten u d segment stem extension) :
    ∀ c ∈ portableUriSegment u d segment, isRefused c = false ∧ (slash ∉ segment → c ≠ slash) := by
  have htidy : Tidy segment (cleaned u segment) := tidy_cleaned segment
  have hclean : ∀ c ∈ cleaned u segment, isRefused c = false ∧ (slash ∉ segment → c ≠ slash) := by
    intro c hc
    refine ⟨htidy.chars c hc, fun hslash heq => htidy.slash hslash (heq ▸ hc)⟩
  have hplain : ∀ c, isPlain c = true → isRefused c = false ∧ (slash ∉ segment → c ≠ slash) := by
    intro c hc
    obtain ⟨hrefused, -, -, hslash⟩ := isPlain_iff.mp hc
    exact ⟨hrefused, fun _ => hslash⟩
  intro c hc
  rw [h.eq] at hc
  simp only [List.mem_append] at hc
  rcases hc with ((hc | hc) | hc) | hc
  · rcases h.ofStem with rfl | hstem
    · rw [List.mem_singleton.mp hc]
      exact ⟨not_isRefused_underscore, fun _ => by decide⟩
    · exact hclean c (hstem.subset hc)
  · exact hplain c (isPlain_marker hc)
  · exact hplain c (isPlain_hexDigits (d.isHex segment c hc))
  · rcases h.ofExtension with ⟨rfl, -⟩ | ⟨front, rest, rfl, -, -, hc'⟩
    · cases hc
    · exact hclean c (hc' ▸ List.mem_append_right front hc)

theorem head_ne_nil (d : Digest) (segment : PyStr) : d.head segment ≠ [] := by
  intro hnil
  have hlen := d.length_head segment
  rw [hnil] at hlen
  cases hlen

theorem Rewritten.last (h : Rewritten u d segment stem extension) (c : CodePoint)
    (hc : (portableUriSegment u d segment).getLast? = some c) : isSpaceOrDot c = false := by
  rw [h.eq] at hc
  rcases h.ofExtension with ⟨rfl, -⟩ | ⟨front, rest, rfl, hne, -, hclean⟩
  · rw [List.append_nil, List.getLast?_append_of_ne_nil _ (head_ne_nil d segment)] at hc
    exact (isPlain_iff.mp (isPlain_hexDigits (d.isHex segment c (List.mem_of_getLast? hc)))).2.1
  · have hlast : (cleaned u segment).getLast? = some c := by
      rw [hclean, List.getLast?_append_of_ne_nil _ (List.cons_ne_nil _ _)]
      rwa [List.getLast?_append_of_ne_nil _ (List.cons_ne_nil _ _)] at hc
    have htidy : Tidy segment (cleaned u segment) := tidy_cleaned segment
    have hany := htidy.last
    rwa [hlast] at hany

theorem Rewritten.tilde_mem (h : Rewritten u d segment stem extension) :
    tilde ∈ portableUriSegment u d segment := by
  have hmarker : tilde ∈ portableSegmentMarker := by decide
  rw [h.eq]
  simp [hmarker]

theorem takeWhile_append_of_mem {a : PyStr} (h : dot ∈ a) (b : PyStr) :
    (a ++ b).takeWhile (· != dot) = a.takeWhile (· != dot) := by
  induction a with
  | nil => cases h
  | cons x a ih =>
      rw [List.cons_append, List.takeWhile_cons, List.takeWhile_cons]
      by_cases hx : x = dot
      · rw [if_neg (by simp [hx]), if_neg (by simp [hx])]
      · rw [ih ((List.mem_cons.mp h).resolve_left (Ne.symm hx))]

theorem mem_rdropWhile {p : CodePoint → Bool} {c : CodePoint} {s : PyStr} (h : c ∈ s)
    (hp : p c = false) : c ∈ s.rdropWhile p := by
  rw [← List.rdropWhile_append_rtakeWhile (p := p) (l := s)] at h
  rcases List.mem_append.mp h with h | h
  · exact h
  · exact absurd (List.mem_rtakeWhile_imp h) (Bool.eq_false_iff.mp hp)

/-- The name of a device is hidden by the marker, or was hidden by the cleaning. -/
theorem Rewritten.device (h : Rewritten u d segment stem extension) :
    windowsReservedStem u (portableUriSegment u d segment) ∉ windowsReservedStems := by
  rw [h.eq, List.append_assoc, List.append_assoc]
  by_cases hdot : dot ∈ stem
  · obtain ⟨rest, hrest⟩ : stem <+: cleaned u segment := by
      rcases h.ofStem with rfl | hstem
      · exact absurd hdot (by decide)
      · exact hstem
    have hsame : windowsReservedStem u (cleaned u segment) ∉ windowsReservedStems :=
      device_cleaned segment
    rw [windowsReservedStem, ← hrest, takeWhile_append_of_mem hdot] at hsame
    rwa [windowsReservedStem, takeWhile_append_of_mem hdot]
  · refine upper_notMem_of_tilde (mem_rdropWhile ?_ (by decide))
    have hstem : ∀ c ∈ stem, (c != dot) = true := by
      intro c hc
      have hne : c ≠ dot := fun heq => hdot (heq ▸ hc)
      simpa using hne
    rw [List.takeWhile_append_of_pos hstem]
    refine List.mem_append_right stem ?_
    show tilde ∈ (tilde :: _).takeWhile (· != dot)
    rw [List.takeWhile_cons_of_pos (by decide)]
    exact List.mem_cons_self

theorem safeName_portableUriSegment (segment : PyStr) :
    SafeName u (portableUriSegment u d segment) := by
  by_cases hport : isPortableUriSegment u segment = true
  · rw [portableUriSegment, if_pos hport]
    exact safeName_of_portable hport
  · obtain ⟨stem, extension, h⟩ : ∃ stem extension, Rewritten u d segment stem extension :=
      rewritten (Bool.eq_false_iff.mpr hport)
    have htilde := h.tilde_mem
    refine ⟨?_, ?_, ?_, fun c hc => isSpaceOrDot_eq_false (h.last c hc),
      fun c hc => isRefused_eq_false (h.chars c hc).1, h.device⟩
    · intro heq
      rw [heq] at htilde
      cases htilde
    · intro heq
      rw [heq] at htilde
      exact absurd htilde (by decide)
    · intro heq
      rw [heq] at htilde
      exact absurd htilde (by decide)

theorem slash_notMem_portableUriSegment (h : slash ∉ segment) :
    slash ∉ portableUriSegment u d segment := by
  by_cases hport : isPortableUriSegment u segment = true
  · rwa [portableUriSegment, if_pos hport]
  · obtain ⟨stem, extension, hform⟩ : ∃ stem extension, Rewritten u d segment stem extension :=
      rewritten (Bool.eq_false_iff.mpr hport)
    intro hmem
    exact (hform.chars slash hmem).2 h rfl

/-! ## Distinct texts -/

/-- Without an extension there is no dot but at the start, and with one there is. -/
theorem append_marker_ne {stem' head head' rest : PyStr} (hdot : dot ∉ stem.tail)
    (hhead : dot ∉ head) :
    stem ++ portableSegmentMarker ++ head ≠ stem' ++ portableSegmentMarker ++ head' ++
      dot :: rest := by
  intro heq
  have hmarker : dot ∉ portableSegmentMarker := by decide
  have hout : dot ∉ (stem ++ portableSegmentMarker ++ head).tail := by
    cases stem with
    | nil =>
        intro hmem
        rcases List.mem_append.mp (List.mem_of_mem_tail hmem) with hmem | hmem
        · exact hmarker hmem
        · exact hhead hmem
    | cons c stem =>
        intro hmem
        rcases List.mem_append.mp hmem with hmem | hmem
        · rcases List.mem_append.mp hmem with hmem | hmem
          · exact hdot hmem
          · exact hmarker hmem
        · exact hhead hmem
  refine hout ?_
  rw [heq]
  cases stem' with
  | nil => exact List.mem_append_right _ List.mem_cons_self
  | cons c stem' => exact List.mem_append_right _ List.mem_cons_self

/-- Two rewritten segments that are the same have the same digest. -/
theorem Rewritten.head_eq {segment' stem' extension' : PyStr}
    (h : Rewritten u d segment stem extension) (h' : Rewritten u d segment' stem' extension')
    (heq : portableUriSegment u d segment = portableUriSegment u d segment') :
    d.head segment = d.head segment' := by
  have hlen : (d.head segment).length = (d.head segment').length := by
    rw [d.length_head, d.length_head]
  have hhead : ∀ s, dot ∉ d.head s := by
    intro s hmem
    exact (isPlain_iff.mp (isPlain_hexDigits (d.isHex s dot hmem))).2.2.1 rfl
  rw [h.eq, h'.eq] at heq
  rcases h.ofExtension with ⟨rfl, hdot⟩ | ⟨front, rest, rfl, -, hdot, -⟩
  · rcases h'.ofExtension with ⟨rfl, -⟩ | ⟨front', rest', rfl, -, -, -⟩
    · rw [List.append_nil, List.append_nil] at heq
      exact (List.append_inj' heq hlen).2
    · rw [List.append_nil] at heq
      exact absurd heq (append_marker_ne hdot (hhead segment))
  · rcases h'.ofExtension with ⟨rfl, hdot'⟩ | ⟨front', rest', rfl, -, hdot', -⟩
    · rw [List.append_nil] at heq
      exact absurd heq.symm (append_marker_ne hdot' (hhead segment'))
    · exact (List.append_inj' (append_dot_inj hdot hdot' heq).1 hlen).2

theorem Rewritten.marker (h : Rewritten u d segment stem extension) :
    portableSegmentMarker <:+: portableUriSegment u d segment := by
  rw [h.eq, List.append_assoc]
  exact ⟨stem, d.head segment ++ extension, rfl⟩

/-- Texts that the digest tells apart stay apart. -/
theorem injOn_portableUriSegment {texts : Set PyStr} (h : Set.InjOn d.head texts) :
    Set.InjOn (portableUriSegment u d) texts := by
  intro a ha b hb heq
  by_cases hpa : isPortableUriSegment u a = true <;> by_cases hpb : isPortableUriSegment u b = true
  · rwa [portableUriSegment, if_pos hpa, portableUriSegment, if_pos hpb] at heq
  · obtain ⟨stem, extension, hform⟩ : ∃ stem extension, Rewritten u d b stem extension :=
      rewritten (Bool.eq_false_iff.mpr hpb)
    have hmarker := hform.marker
    rw [← heq, portableUriSegment, if_pos hpa] at hmarker
    exact absurd hmarker (marker_of_portable hpa)
  · obtain ⟨stem, extension, hform⟩ : ∃ stem extension, Rewritten u d a stem extension :=
      rewritten (Bool.eq_false_iff.mpr hpa)
    have hmarker := hform.marker
    rw [heq, portableUriSegment, if_pos hpb] at hmarker
    exact absurd hmarker (marker_of_portable hpb)
  · obtain ⟨stem, extension, hform⟩ : ∃ stem extension, Rewritten u d a stem extension :=
      rewritten (Bool.eq_false_iff.mpr hpa)
    obtain ⟨stem', extension', hform'⟩ : ∃ stem extension, Rewritten u d b stem extension :=
      rewritten (Bool.eq_false_iff.mpr hpb)
    exact h ha hb (hform.head_eq hform' heq)

end

/-! ## Rendering -/

section

variable (u : Unicode) (d : Digest) {ε : Type} (render : PyStr → Except ε PyStr)

/-- The segments of a path; an empty path has none. -/
def pathSegments (path : PyStr) : List PyStr := if path = [] then [] else path.splitOn slash

/-- The segments that a part of the template becomes: those of the user space, or one. -/
def PartOf (userSpace segmentTemplate : PyStr) (names : List PyStr) : Prop :=
  if isTrusted u segmentTemplate then
    names = (userSpace.splitOn slash).map (portableUriSegment u d)
  else ∃ rendered, render segmentTemplate = .ok rendered ∧
    names = [portableUriSegment u d (replaceSlash rendered)]

variable {u d render}

theorem slash_notMem_replaceSlash (s : PyStr) : slash ∉ replaceSlash s := by
  intro hmem
  obtain ⟨c, -, hc⟩ := List.mem_map.mp hmem
  by_cases hslash : c = slash
  · rw [if_pos hslash] at hc
    exact absurd hc (by decide)
  · rw [if_neg hslash] at hc
    exact hslash hc

theorem slash_notMem_of_mem_splitOn {s part : PyStr} (h : part ∈ s.splitOn slash) :
    slash ∉ part := by
  induction hn : s.length using Nat.strong_induction_on generalizing s with
  | _ n ih =>
      by_cases hslash : slash ∈ s
      · obtain ⟨a, b, rfl, ha⟩ := List.eq_append_cons_of_mem hslash
        have hsplit : (a ++ slash :: b).splitOn slash = a.splitOn slash ++ b.splitOn slash :=
          List.splitOnP_append_cons a b (by simp)
        rw [hsplit, List.splitOn_eq_singleton ha, List.singleton_append] at h
        rcases List.mem_cons.mp h with rfl | h
        · exact ha
        · refine ih b.length ?_ h rfl
          rw [← hn, List.length_append, List.length_cons]
          omega
      · rw [List.splitOn_eq_singleton hslash] at h
        rwa [List.mem_singleton.mp h]

/-- What one part of the template is rendered to. -/
theorem renderSegment_eq_ok {userSpace segmentTemplate : PyStr} {texts : List PyStr}
    (hrender : ∀ t, isTrusted u t = true → render t = .ok userSpace)
    (h : renderSegment u render segmentTemplate = .ok texts) :
    PartOf u d render userSpace segmentTemplate (texts.map (portableUriSegment u d)) ∧
      texts ≠ [] ∧ ∀ text ∈ texts, slash ∉ text := by
  unfold renderSegment at h
  obtain ⟨rendered, hrendered, h⟩ := bind_eq_ok.mp h
  unfold PartOf
  by_cases htrusted : isTrusted u segmentTemplate = true
  · rw [if_pos htrusted] at h ⊢
    obtain rfl := Except.ok.inj h
    obtain rfl := Except.ok.inj (hrendered.symm.trans (hrender _ htrusted))
    exact ⟨rfl, List.splitOn_ne_nil slash _, fun text htext => slash_notMem_of_mem_splitOn htext⟩
  · rw [if_neg htrusted] at h ⊢
    obtain rfl := Except.ok.inj h
    refine ⟨⟨rendered, hrendered, rfl⟩, List.cons_ne_nil _ _, fun text htext => ?_⟩
    rw [List.mem_singleton.mp htext]
    exact slash_notMem_replaceSlash rendered

end

/-- The segments of a rendered URI are those that the template and the user space say, they are
safe, and distinct texts stay distinct where the digest tells them apart. -/
theorem portable_uri (u : Unicode) (d : Digest) {ε : Type} (render : PyStr → Except ε PyStr)
    (userSpace : PyStr) (hrender : ∀ t, isTrusted u t = true → render t = .ok userSpace) :
    (∀ template uri, renderPortableUriTemplate u render d template = .ok uri →
      ∃ path parts, uri = (splitScheme template).1 ++ path ∧
        List.Forall₂ (PartOf u d render userSpace) (pathSegments (splitScheme template).2) parts ∧
        pathSegments path = parts.flatten ∧ ∀ name ∈ parts.flatten, SafeName u name) ∧
    ∀ texts, Set.InjOn d.head texts → Set.InjOn (portableUriSegment u d) texts := by
  refine ⟨fun template uri h => ?_, fun texts htexts => injOn_portableUriSegment htexts⟩
  unfold renderPortableUriTemplate at h
  dsimp only at h
  split at h
  · next hempty =>
      obtain rfl := Except.ok.inj h
      refine ⟨[], [], (List.append_nil _).symm, ?_, rfl, fun name hname => by cases hname⟩
      rw [pathSegments, if_pos hempty]
      exact .nil
  · next hpath =>
      obtain ⟨texts, htexts, h⟩ := bind_eq_ok.mp h
      obtain rfl := Except.ok.inj h
      have hparts := (forall₂_of_mapM_eq_ok htexts).imp fun t ts ht =>
        renderSegment_eq_ok (d := d) hrender ht
      obtain ⟨hfrom, hto⟩ := mem_of_mapM_eq_ok htexts
      have hslash : ∀ ts ∈ texts, ∀ text ∈ ts, slash ∉ text := by
        intro ts hts
        obtain ⟨t, -, ht⟩ := hfrom ts hts
        exact (renderSegment_eq_ok (d := d) hrender ht).2.2
      have hsome : texts.flatten ≠ [] := by
        obtain ⟨t, ht⟩ := List.exists_mem_of_ne_nil _ (List.splitOn_ne_nil slash _)
        obtain ⟨ts, hts, hrendered⟩ := hto t ht
        obtain ⟨text, htext⟩ := List.exists_mem_of_ne_nil _
          (renderSegment_eq_ok (d := d) hrender hrendered).2.1
        exact List.ne_nil_of_mem (List.mem_flatten.mpr ⟨ts, hts, htext⟩)
      have hsafe : ∀ name ∈ texts.flatten.map (portableUriSegment u d), SafeName u name := by
        intro name hname
        obtain ⟨text, -, rfl⟩ := List.mem_map.mp hname
        exact safeName_portableUriSegment text
      have hsplit : ([slash].intercalate
        (texts.flatten.map (portableUriSegment u d))).splitOn slash =
          texts.flatten.map (portableUriSegment u d) := by
        refine List.splitOn_intercalate slash ?_ ?_
        · intro name hname
          obtain ⟨text, htext, rfl⟩ := List.mem_map.mp hname
          obtain ⟨ts, hts, htext⟩ := List.mem_flatten.mp htext
          exact slash_notMem_portableUriSegment (hslash ts hts text htext)
        · exact fun hnil => hsome (List.map_eq_nil_iff.mp hnil)
      refine ⟨_, texts.map (List.map (portableUriSegment u d)), rfl, ?_, ?_, ?_⟩
      · rw [pathSegments, if_neg hpath, List.forall₂_map_right_iff]
        exact hparts.imp fun t ts h => h.1
      · rw [← List.map_flatten, pathSegments, if_neg, hsplit]
        intro hnil
        rw [hnil, List.splitOn_nil] at hsplit
        exact (hsafe [] (hsplit ▸ List.mem_singleton_self [])).ne_nil rfl
      · rw [← List.map_flatten]
        exact hsafe

namespace Sample

/-- Case mapping of ASCII only, and the space as the only white space. -/
def ascii : Unicode := ⟨fun c => [c], fun c => c == space⟩

def conDot : PyStr := py "CON_.".toList

def conDots : PyStr := py "CON_..".toList

/-- The heads of the SHA-256 digests of two names; other names are not looked at. -/
def headOf (name : PyStr) : PyStr :=
  if name = conDot then py "37d67749273ecb75".toList
  else if name = conDots then py "df8d036d4b0cc8ef".toList
  else List.replicate 16 48

theorem headOf_cases (name : PyStr) : headOf name ∈
    [py "37d67749273ecb75".toList, py "df8d036d4b0cc8ef".toList, List.replicate 16 48] := by
  rw [headOf]
  split
  · exact List.mem_cons_self
  split
  · exact List.mem_cons_of_mem _ List.mem_cons_self
  · exact List.mem_cons_of_mem _ (List.mem_cons_of_mem _ List.mem_cons_self)

def heads : Digest where
  head := headOf
  length_head name := by
    have hall : ∀ head ∈ [py "37d67749273ecb75".toList, py "df8d036d4b0cc8ef".toList,
        List.replicate 16 48], head.length = 16 := by decide +kernel
    exact hall _ (headOf_cases name)
  isHex name := by
    have hall : ∀ head ∈ [py "37d67749273ecb75".toList, py "df8d036d4b0cc8ef".toList,
        List.replicate 16 48], head.all hexDigits.contains = true := by decide +kernel
    intro c hc
    exact List.contains_iff_mem.mp (List.all_eq_true.mp (hall _ (headOf_cases name)) c hc)

/-- The user space is `u`, and the field `x` is given; a part without an expression stays. -/
def renderField (x part : PyStr) : Except String PyStr :=
  if isTrusted ascii part then .ok (py ['u'])
  else if part = py "\x7b\x7b x \x7d\x7d".toList then .ok x
  else .ok part

/-- A template with the user space, a name and the field `x` -/
def template : PyStr := py "v://\x7b\x7buser_space\x7d\x7d/notes/\x7b\x7b x \x7d\x7d".toList

/-- `CON/.` and `CON/..` are one segment each; both are cut to `CON_` and marked, and the digests
keep them apart. -/
theorem con_segment_rewritten :
    renderPortableUriTemplate ascii (renderField (py "CON/.".toList)) heads template =
        .ok (py "v://u/notes/CON_~ov~37d67749273ecb75".toList) ∧
      (∃ path parts, py "v://u/notes/CON_~ov~37d67749273ecb75".toList =
          (splitScheme template).1 ++ path ∧
        List.Forall₂ (PartOf ascii heads (renderField (py "CON/.".toList)) (py ['u']))
          (pathSegments (splitScheme template).2) parts ∧
        pathSegments path = parts.flatten ∧ ∀ name ∈ parts.flatten, SafeName ascii name) ∧
      renderPortableUriTemplate ascii (renderField (py "CON/..".toList)) heads template =
        .ok (py "v://u/notes/CON_~ov~df8d036d4b0cc8ef".toList) ∧
      portableUriSegment ascii heads conDot ≠ portableUriSegment ascii heads conDots := by
  have hrender : ∀ x t, isTrusted ascii t = true → renderField x t = .ok (py ['u']) :=
    fun x t ht => if_pos ht
  have hdot : renderPortableUriTemplate ascii (renderField (py "CON/.".toList)) heads template =
      .ok (py "v://u/notes/CON_~ov~37d67749273ecb75".toList) := by decide +kernel
  have hheads : Set.InjOn heads.head {conDot, conDots} := by
    have hne : headOf conDot ≠ headOf conDots := by decide +kernel
    rintro a (rfl | rfl) b (rfl | rfl) h
    · rfl
    · exact absurd h hne
    · exact absurd h hne.symm
    · rfl
  have hportable := portable_uri ascii heads (renderField (py "CON/.".toList)) (py ['u'])
    (hrender _)
  refine ⟨hdot, hportable.1 _ _ hdot, by decide +kernel, fun heq => ?_⟩
  have hsame := hportable.2 _ hheads (.inl rfl) (.inr rfl) heq
  revert hsame
  decide +kernel

end Sample

end OpenViking.Memory
