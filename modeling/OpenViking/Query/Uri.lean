/-
# `OpenViking.Query.Uri` — URIs as texts and as components

A URI `viking://a/b` is kept in the vector store as the path `/a/b`
(`encodeUri`).  Its components are those of the stored path, without the white
space at its ends (`components`).  The request layer cuts URIs differently
(`uriParts`): it stops at a `?` and keeps white space.  The two views of one
text are related by `prefix_components`: the parts of a URI without `?` begin
with a given list of names only if the components do, as long as the last of
these names does not end in white space.
-/
import OpenViking.Lib.Segments

namespace OpenViking.Query

open OpenViking.Lib

/-- `"viking://"` -/
def scheme : Str := ['v', 'i', 'k', 'i', 'n', 'g', ':', '/', '/']

/-! ## The stored form -/

/-- `_encode_uri_field_value`, on strings -/
def encodeUri (value : Str) : Str :=
  let stripped := strip value
  if scheme <+: stripped then
    let suffix := stripBy (· == '/') (stripped.drop scheme.length)
    if suffix = [] then ['/'] else '/' :: suffix
  else value

/-- `_decode_uri_field_value`, on strings -/
def decodeUri (value : Str) : Str :=
  let stripped := strip value
  if scheme <+: stripped then stripped
  else if ['/'] <+: stripped then
    let suffix := stripBy (· == '/') stripped
    if suffix = [] then scheme else scheme ++ suffix
  else value

/-- The components of a URI: those of its stored form. -/
def components (uri : Str) : List Str := segments '/' (strip (encodeUri uri))

/-! ## The request layer's view -/

/-- The message of the `ValueError` of `uri_parts`. -/
def notAUri : String := "URI must start with 'viking://'"

/-- `uri_parts` -/
def uriParts (uri : Str) : Except String (List Str) :=
  let normalized := uri.takeWhile (· ≠ '?')
  if scheme <+: normalized then
    if normalized = scheme then .ok []
    else .ok (segments '/' ((trimEnd '/' normalized).drop scheme.length))
  else .error notAUri

theorem trimEnd_scheme_append (rest : Str) :
    segments '/' ((trimEnd '/' (scheme ++ rest)).drop scheme.length) = segments '/' rest := by
  obtain ⟨w, hw, hall⟩ := rdropWhile_append_eq (· == '/') (scheme ++ rest)
  have hcut := congrArg (List.drop scheme.length) hw
  rw [List.drop_left, List.drop_append] at hcut
  conv_rhs => rw [hcut]
  refine (segments_append_of_all ?_ _).symm
  intro x hx
  simpa using hall x (List.mem_of_mem_drop hx)

/-- The parts of a URI are the segments of what stands between the scheme and a `?`. -/
theorem uriParts_eq_ok {uri : Str} {parts : List Str} (h : uriParts uri = .ok parts) :
    ∃ rest query, uri = scheme ++ rest ++ query ∧ parts = segments '/' rest ∧
      (query ≠ [] → '?' ∈ query) := by
  unfold uriParts at h
  extract_lets normalized at h
  have hparts : uri = normalized ++ uri.dropWhile (· ≠ '?') :=
    List.takeWhile_append_dropWhile.symm
  split at h
  · next hs =>
      obtain ⟨rest, hrest⟩ := hs
      refine ⟨rest, uri.dropWhile (· ≠ '?'), by rwa [hrest], ?_, ?_⟩
      · rw [← hrest] at h
        split at h
        · next hnil =>
            have : rest = [] := by simpa using hnil
            simpa [this] using (Except.ok.inj h).symm
        · rw [trimEnd_scheme_append] at h
          exact (Except.ok.inj h).symm
      · intro hne
        have hhead := List.head_dropWhile_not (fun x : Char => decide (x ≠ '?')) hne
        have hmem := List.head_mem hne
        rwa [of_not_not (of_decide_eq_false hhead)] at hmem
  · cases h

theorem forall_ne_query {rest : Str} (h : '?' ∉ rest) :
    ∀ x ∈ scheme ++ rest, decide (x ≠ '?') = true := by
  intro x hx
  rcases List.mem_append.mp hx with hx | hx
  · exact List.all_eq_true.mp (by decide : scheme.all (fun x => decide (x ≠ '?')) = true) x hx
  · exact decide_eq_true fun he => h (he ▸ hx)

theorem takeWhile_query {rest : Str} (h : '?' ∉ rest) :
    (scheme ++ rest).takeWhile (· ≠ '?') = scheme ++ rest :=
  List.takeWhile_eq_self_iff.mpr (forall_ne_query h)

theorem uriParts_scheme_append {rest : Str} (h : '?' ∉ rest) :
    uriParts (scheme ++ rest) = .ok (segments '/' rest) := by
  unfold uriParts
  rw [takeWhile_query h]
  simp only [List.prefix_append, if_true]
  split
  · next hnil =>
      have : rest = [] := by simpa using hnil
      simp [this]
  · rw [trimEnd_scheme_append]

/-! ## Both views of one text -/

theorem strip_scheme_append (rest : Str) :
    ∃ kept w, strip (scheme ++ rest) = scheme ++ kept ∧ rest = kept ++ w ∧
      ∀ x ∈ w, isSpace x = true := by
  obtain ⟨w, hw, hall⟩ := stripBy_of_head (p := isSpace) (s := scheme ++ rest)
    (fun x hx => Option.some.inj hx ▸ by decide)
  rcases List.append_eq_append_iff.mp hw with ⟨kept, hs, hrest⟩ | ⟨lost, hs, hlost⟩
  · exact ⟨kept, w, hs, hrest, hall⟩
  · -- the scheme ends in a slash, so nothing of it is stripped
    cases lost using List.reverseRecOn with
    | nil => exact ⟨[], w, by simpa [strip] using hs.symm, by simpa using hlost.symm, hall⟩
    | append_singleton lost x =>
        have hx : '/' = x := by
          have := congrArg List.getLast? hs
          simpa [scheme] using this
        have hspace := hall x (by simp [hlost])
        rw [← hx] at hspace
        exact absurd hspace (by decide)

theorem encodeUri_of_strip {value kept : Str} (h : strip value = scheme ++ kept) :
    encodeUri value = '/' :: stripBy (· == '/') kept := by
  unfold encodeUri
  rw [h]
  simp only [List.prefix_append, if_true, List.drop_left]
  split
  · next hnil => rw [hnil]
  · rfl

/-- The names a URI begins with, by its parts, are the first of its components. -/
theorem prefix_components {rest : Str} {names : List Str}
    (hlast : ∀ name x, names.getLast? = some name → name.getLast? = some x → isSpace x = false)
    (h : names <+: segments '/' rest) : names <+: components (scheme ++ rest) := by
  have hkeep : ∀ name x, names.getLast? = some name → name.getLast? = some x →
      x ≠ '/' ∧ isSpace x = false := by
    intro name x hname hx
    have hmem : name ∈ segments '/' rest := h.subset (List.mem_of_getLast? hname)
    refine ⟨?_, hlast name x hname hx⟩
    rintro rfl
    exact (ne_nil_and_notMem_of_mem_segments hmem).2 (List.mem_of_getLast? hx)
  obtain ⟨kept, w, hstrip, rfl, hw⟩ := strip_scheme_append rest
  have hkept := prefix_segments_of_append (fun x hx => Or.inr (hw x hx)) hkeep h
  rw [← segments_stripBy, ← segments_cons_self] at hkept
  obtain ⟨w', hw', hall⟩ := stripBy_of_head (p := isSpace)
    (s := '/' :: stripBy (· == '/') kept) (fun x hx => Option.some.inj hx ▸ by decide)
  rw [hw'] at hkept
  rw [components, encodeUri_of_strip hstrip]
  exact prefix_segments_of_append (fun x hx => Or.inr (hall x hx)) hkeep hkept

/-- A path without a slash or white space at its end, nor a slash at its beginning, is kept as
it is. -/
theorem components_eq_segments {rest : Str} (hhead : ∀ x, rest.head? = some x → x ≠ '/')
    (hlast : ∃ x, rest.getLast? = some x ∧ x ≠ '/' ∧ isSpace x = false) :
    components (scheme ++ rest) = segments '/' rest := by
  obtain ⟨z, hz, hslash, hspace⟩ := hlast
  have hlast' : ∀ front : Str, ∀ x, (front ++ rest).getLast? = some x → x = z := by
    intro front x hx
    rw [List.getLast?_append, hz] at hx
    exact (Option.some.inj hx).symm
  have hstrip : strip (scheme ++ rest) = scheme ++ rest :=
    stripBy_eq_self (fun x hx => Option.some.inj hx ▸ by decide)
      fun x hx => hlast' scheme x hx ▸ hspace
  have hslashes : stripBy (· == '/') rest = rest :=
    stripBy_eq_self (fun x hx => by simpa using hhead x hx)
      fun x hx => by simpa [hlast' [] x hx] using hslash
  have hstored : strip ('/' :: rest) = '/' :: rest :=
    stripBy_eq_self (fun x hx => Option.some.inj hx ▸ by decide)
      fun x hx => hlast' ['/'] x hx ▸ hspace
  rw [components, encodeUri_of_strip hstrip, hslashes, hstored, segments_cons_self]

/-- White space at the end does not count. -/
theorem components_append_space {rest : Str} {x : Char} (hx : isSpace x = true) :
    components (scheme ++ rest ++ [x]) = components (scheme ++ rest) := by
  have hstrip : strip (scheme ++ rest ++ [x]) = strip (scheme ++ rest) :=
    stripBy_append_singleton hx ⟨'v', rfl, by decide⟩
  obtain ⟨kept, w, hkept, -, -⟩ := strip_scheme_append rest
  rw [components, components, encodeUri_of_strip hkept, encodeUri_of_strip (hstrip.trans hkept)]

/-- A character of a URI that is neither white space nor a slash is in a component. -/
theorem exists_mem_components {rest : Str} {x : Char} (hx : x ∈ rest) (hspace : isSpace x = false)
    (hslash : x ≠ '/') : ∃ name ∈ components (scheme ++ rest), x ∈ name := by
  obtain ⟨kept, w, hstrip, rfl, hw⟩ := strip_scheme_append rest
  have hkept : x ∈ kept := by
    refine (List.mem_append.mp hx).resolve_right fun hxw => ?_
    rw [hw x hxw] at hspace
    cases hspace
  rw [components, encodeUri_of_strip hstrip]
  refine exists_mem_segments (mem_stripBy (List.mem_cons_of_mem _ ?_) hspace) hslash
  exact mem_stripBy hkept (by simpa using hslash)

end OpenViking.Query
