/-
# `OpenViking.Lib.Segments` — the non-empty parts of a path

`segments c s` are the parts of `s` between the separators, the empty ones
left out.  A separator joins segment lists (`segments_append_cons`), so leading,
trailing and doubled separators do not show.  What does show is white space: a
path that loses blanks at its end loses them from its last segment, and
`prefix_segments_of_append` says which prefixes survive.

`stripBy p` is the removal of the characters `p` from both ends.
-/
import OpenViking.Lib.Text

namespace OpenViking.Lib

/-! ## Stripping -/

/-- `s.strip(chars)` -/
def stripBy (p : Char → Bool) (s : Str) : Str := (s.dropWhile p).rdropWhile p

/-- `str.isspace`: what `s.strip()` removes. -/
def isSpace (c : Char) : Bool := isWhitespace c || (0x1c ≤ c.toNat && c.toNat ≤ 0x1f)

/-- Visible ASCII characters are no white space. -/
theorem isSpace_eq_false {c : Char} (hl : 32 < c.toNat) (hr : c.toNat < 127) :
    isSpace c = false := by
  simp only [isSpace, isWhitespace, Bool.or_eq_false_iff, Bool.and_eq_false_iff,
    decide_eq_false_iff_not, beq_eq_false_iff_ne]
  omega

/-- `s.strip()` -/
def strip (s : Str) : Str := stripBy isSpace s

theorem rdropWhile_append_eq (p : Char → Bool) (s : Str) :
    ∃ w, s = s.rdropWhile p ++ w ∧ ∀ x ∈ w, p x = true := by
  refine ⟨s.rtakeWhile p, ?_, ?_⟩
  · rw [List.rdropWhile, List.rtakeWhile, ← List.reverse_append, List.takeWhile_append_dropWhile,
      List.reverse_reverse]
  · intro x hx
    exact List.mem_takeWhile_imp (List.mem_reverse.mp hx)

/-- Stripping leaves the middle of the string. -/
theorem stripBy_spec (p : Char → Bool) (s : Str) :
    ∃ v w, s = v ++ stripBy p s ++ w ∧ (∀ x ∈ v, p x = true) ∧ ∀ x ∈ w, p x = true := by
  obtain ⟨w, hw, hp⟩ := rdropWhile_append_eq p (s.dropWhile p)
  refine ⟨s.takeWhile p, w, ?_, fun x => List.mem_takeWhile_imp, hp⟩
  rw [List.append_assoc, stripBy, ← hw, List.takeWhile_append_dropWhile]

theorem stripBy_eq_self {p : Char → Bool} {s : Str} (hh : ∀ c, s.head? = some c → p c = false)
    (hl : ∀ c, s.getLast? = some c → p c = false) : stripBy p s = s := by
  have hd : s.dropWhile p = s := by
    cases s with
    | nil => rfl
    | cons c s => simp [hh c rfl]
  rw [stripBy, hd]
  refine List.rdropWhile_eq_self_iff.mpr fun hs => ?_
  simp [hl _ (List.getLast?_eq_some_getLast hs)]

theorem mem_stripBy {p : Char → Bool} {s : Str} {x : Char} (hx : x ∈ s) (hp : p x = false) :
    x ∈ stripBy p s := by
  obtain ⟨v, w, hs, hv, hw⟩ := stripBy_spec p s
  rw [hs, List.mem_append, List.mem_append] at hx
  rcases hx with (hx | hx) | hx
  · exact absurd (hv x hx) (by simp [hp])
  · exact hx
  · exact absurd (hw x hx) (by simp [hp])

/-- With nothing to strip at the front, only the end is lost. -/
theorem stripBy_of_head {p : Char → Bool} {s : Str} (hh : ∀ c, s.head? = some c → p c = false) :
    ∃ w, s = stripBy p s ++ w ∧ ∀ x ∈ w, p x = true := by
  have hd : s.dropWhile p = s := by
    cases s with
    | nil => rfl
    | cons c s => simp [hh c rfl]
  rw [stripBy, hd]
  exact rdropWhile_append_eq p s

theorem getLast?_stripBy {p : Char → Bool} {s : Str} {x : Char}
    (h : (stripBy p s).getLast? = some x) : p x = false := by
  have hne : stripBy p s ≠ [] := by
    intro hnil
    rw [hnil] at h
    cases h
  have hlast := List.rdropWhile_last_not p (s.dropWhile p) hne
  rw [List.getLast?_eq_some_getLast hne, Option.some.injEq] at h
  rw [← h]
  exact Bool.not_eq_true _ ▸ hlast

theorem head?_stripBy {p : Char → Bool} {s : Str} {c : Char}
    (h : (stripBy p s).head? = some c) : p c = false := by
  obtain ⟨w, hw⟩ := List.rdropWhile_prefix p (s.dropWhile p)
  have hhead : (s.dropWhile p).head? = some c := by
    rw [← hw, List.head?_append]
    change (stripBy p s).head?.or _ = _
    rw [h]
    rfl
  have hnot := List.head?_dropWhile_not p s
  rwa [hhead] at hnot

/-- What is stripped has nothing to strip. -/
theorem stripBy_stripBy (p : Char → Bool) (s : Str) : stripBy p (stripBy p s) = stripBy p s :=
  stripBy_eq_self (fun _ hc => head?_stripBy hc) fun _ hc => getLast?_stripBy hc

theorem strip_strip (s : Str) : strip (strip s) = strip s := stripBy_stripBy isSpace s

theorem stripBy_append_singleton {p : Char → Bool} {s : Str} {x : Char} (hp : p x = true)
    (hh : ∃ c, s.head? = some c ∧ p c = false) : stripBy p (s ++ [x]) = stripBy p s := by
  cases s with
  | nil => obtain ⟨c, hc, -⟩ := hh; cases hc
  | cons c s =>
      obtain ⟨d, hd, hpd⟩ := hh
      obtain rfl := Option.some.inj hd
      simp only [stripBy, List.cons_append, List.dropWhile_cons, hpd, Bool.false_eq_true, if_false]
      exact List.rdropWhile_concat_pos p (c :: s) x hp

/-! ## Segments -/

/-- `[part for part in s.split(c) if part]` -/
def segments (c : Char) (s : Str) : List Str := (s.splitOn c).filter (· ≠ [])

section

variable {c : Char}

theorem segments_append_cons (a b : Str) :
    segments c (a ++ c :: b) = segments c a ++ segments c b := by
  unfold segments List.splitOn
  rw [List.splitOnP_append_cons a b (by simp), List.filter_append]

theorem segments_of_notMem {s : Str} (h : c ∉ s) : segments c s = if s = [] then [] else [s] := by
  unfold segments
  rw [List.splitOn_eq_singleton h]
  split
  · next hs => simp [hs]
  · next hs => simp [hs]

@[simp] theorem segments_nil : segments c [] = [] := by simp [segments_of_notMem]

@[simp] theorem segments_cons_self (s : Str) : segments c (c :: s) = segments c s :=
  (segments_append_cons [] s).trans (by simp)

theorem segments_append_self (s : Str) : segments c (s ++ [c]) = segments c s :=
  (segments_append_cons s []).trans (by simp)

theorem segments_append_of_all {w : Str} (h : ∀ x ∈ w, x = c) (s : Str) :
    segments c (s ++ w) = segments c s := by
  induction w generalizing s with
  | nil => simp
  | cons x w ih =>
      rw [h x List.mem_cons_self, segments_append_cons]
      have := ih (fun y hy => h y (List.mem_cons_of_mem _ hy)) []
      simp only [List.nil_append] at this
      rw [this, segments_nil, List.append_nil]

theorem segments_of_all_append {v : Str} (h : ∀ x ∈ v, x = c) (s : Str) :
    segments c (v ++ s) = segments c s := by
  induction v with
  | nil => rfl
  | cons x v ih =>
      rw [h x List.mem_cons_self, List.cons_append, segments_cons_self]
      exact ih fun y hy => h y (List.mem_cons_of_mem _ hy)

theorem segments_stripBy (s : Str) : segments c (stripBy (· == c) s) = segments c s := by
  obtain ⟨v, w, hs, hv, hw⟩ := stripBy_spec (· == c) s
  conv_rhs => rw [hs]
  rw [segments_append_of_all fun x hx => by simpa using hw x hx,
    segments_of_all_append fun x hx => by simpa using hv x hx]

theorem segments_trimEnd (s : Str) : segments c (trimEnd c s) = segments c s := by
  obtain ⟨w, hs, hw⟩ := rdropWhile_append_eq (· == c) s
  conv_rhs => rw [hs]
  rw [segments_append_of_all fun x hx => by simpa using hw x hx, trimEnd]

/-- Every string is a last part, alone or after a separator. -/
theorem last_part_cases (c : Char) (s : Str) :
    c ∉ s ∨ ∃ a b, s = a ++ c :: b ∧ c ∉ b := by
  by_cases h : c ∈ s
  · obtain ⟨a, b, hab⟩ := exists_rsplitOnce h
    exact Or.inr ⟨a, b, rsplitOnce_eq_some.mp hab⟩
  · exact Or.inl h

/-- Induction that takes the last part off. -/
theorem last_part_induction (c : Char) {P : Str → Prop} (part : ∀ s, c ∉ s → P s)
    (append : ∀ a b, c ∉ b → P a → P (a ++ c :: b)) : ∀ s, P s := by
  intro s
  induction hn : s.length using Nat.strong_induction_on generalizing s with
  | _ n ih =>
      rcases last_part_cases c s with h | ⟨a, b, rfl, hb⟩
      · exact part s h
      · refine append a b hb (ih a.length ?_ a rfl)
        rw [← hn, List.length_append, List.length_cons]
        omega

theorem segments_append_part {a b : Str} (hb : c ∉ b) :
    segments c (a ++ c :: b) = segments c a ++ if b = [] then [] else [b] := by
  rw [segments_append_cons, segments_of_notMem hb]

theorem ne_nil_and_notMem_of_mem_segments {s seg : Str} (h : seg ∈ segments c s) :
    seg ≠ [] ∧ c ∉ seg := by
  have hpart : ∀ b : Str, c ∉ b → seg ∈ (if b = [] then [] else [b]) → seg ≠ [] ∧ c ∉ seg := by
    intro b hb hm
    split at hm
    · cases hm
    · next hne => exact List.mem_singleton.mp hm ▸ ⟨hne, hb⟩
  induction s using last_part_induction c with
  | part s hs => exact hpart s hs (segments_of_notMem hs ▸ h)
  | append a b hb ih =>
      rw [segments_append_part hb] at h
      exact (List.mem_append.mp h).elim ih (hpart b hb)

/-- A character of the string other than the separator is in some segment. -/
theorem exists_mem_segments {s : Str} {x : Char} (hx : x ∈ s) (hc : x ≠ c) :
    ∃ seg ∈ segments c s, x ∈ seg := by
  have hpart : ∀ b : Str, c ∉ b → x ∈ b → ∃ seg ∈ segments c b, x ∈ seg := by
    intro b hb hxb
    rw [segments_of_notMem hb, if_neg (List.ne_nil_of_mem hxb)]
    exact ⟨b, List.mem_singleton_self b, hxb⟩
  induction s using last_part_induction c with
  | part s hs => exact hpart s hs hx
  | append a b hb ih =>
      simp only [segments_append_cons, List.mem_append, List.mem_cons] at hx ⊢
      rcases hx with hx | hx | hx
      · obtain ⟨seg, hseg, hmem⟩ := ih hx
        exact ⟨seg, Or.inl hseg, hmem⟩
      · exact absurd hx hc
      · obtain ⟨seg, hseg, hmem⟩ := hpart b hb hx
        exact ⟨seg, Or.inr hseg, hmem⟩

/-- What is joined is cut again. -/
theorem segments_intercalate {names : List Str} (h : ∀ name ∈ names, name ≠ [] ∧ c ∉ name) :
    segments c (List.intercalate [c] names) = names := by
  induction names with
  | nil => exact segments_nil
  | cons name rest ih =>
      have hone : segments c name = [name] := by
        rw [segments_of_notMem (h name (by simp)).2, if_neg (h name (by simp)).1]
      cases rest with
      | nil => rw [List.intercalate_singleton, hone]
      | cons next more =>
          have hcut := segments_append_cons (c := c) name (List.intercalate [c] (next :: more))
          rw [hone, ih fun n hn => h n (List.mem_cons_of_mem _ hn)] at hcut
          rw [List.intercalate_cons_cons, List.append_assoc]
          exact hcut

/-- The string loses a character at its end, and with it at most a character of its
last segment: a list of segments before that one is still there. -/
theorem prefix_segments_of_append_singleton {u : Str} {x : Char} {r : List Str}
    (hlast : ∀ seg, r.getLast? = some seg → seg.getLast? ≠ some x)
    (h : r <+: segments c (u ++ [x])) : r <+: segments c u := by
  by_cases hx : x = c
  · rw [hx, segments_append_self] at h
    exact h
  · -- `a` are the segments before the last one, `b ++ [x]` the last one
    have hgrown : ∀ (a : List Str) (b : Str), r <+: a ++ [b ++ [x]] → r <+: a := by
      intro a b hr
      rcases List.prefix_concat_iff.mp hr with heq | hr
      · exact absurd (by simp) (hlast (b ++ [x]) (by simp [heq]))
      · exact hr
    rcases last_part_cases c u with hu | ⟨a, b, rfl, hb⟩
    · rw [segments_of_notMem (by simp [hu, Ne.symm hx]), if_neg (by simp)] at h
      exact (hgrown [] u h).trans List.nil_prefix
    · rw [List.append_assoc, List.cons_append,
        segments_append_part (by simp [hb, Ne.symm hx]), if_neg (by simp)] at h
      rw [segments_append_part hb]
      exact (hgrown _ b h).trans (List.prefix_append _ _)

/-- The segments kept when separators and characters `p` are lost at the end. -/
theorem prefix_segments_of_append {p : Char → Bool} {u w : Str} {r : List Str}
    (hw : ∀ x ∈ w, x = c ∨ p x = true)
    (hlast : ∀ seg x, r.getLast? = some seg → seg.getLast? = some x → x ≠ c ∧ p x = false)
    (h : r <+: segments c (u ++ w)) : r <+: segments c u := by
  induction w using List.reverseRecOn with
  | nil => rwa [List.append_nil] at h
  | append_singleton w x ih =>
      rw [← List.append_assoc] at h
      refine ih (fun y hy => hw y (List.mem_append_left _ hy))
        (prefix_segments_of_append_singleton ?_ h)
      intro seg hseg hx
      obtain ⟨hne, hp⟩ := hlast seg x hseg hx
      rcases hw x (by simp) with rfl | hpx
      · exact hne rfl
      · rw [hp] at hpx
        cases hpx

end

end OpenViking.Lib
