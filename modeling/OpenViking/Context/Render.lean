/-
# `OpenViking.Context.Render` — the envelope around assembled memories

`retrieve/context_assembler/render.py`.  An entry is rendered as

    <memory uri="…" type="…" score="0.42" detail="overview">
    body
    </memory>

or as an empty element if it has no text.  Attribute values are escaped; in the
body only what looks like a tag of the envelope is rewritten, `<memory ` to
`<\memory `.  The guard sees the body alone.  What it takes for a tag ends in
white space, `/` or `>`, and a body may end right before it: the line break that
the envelope puts after the body then completes the tag.

    the tags of the rendering are those of the envelope
      iff  no body ends in `<memory` or `</memory`

(`envelope_tags_exact`), and then the attributes read back from the tags are
those of the entries.
-/
import OpenViking.Lib.Text
import OpenViking.Lib.Segments

namespace OpenViking.Context

open OpenViking.Lib

/-! ## Entries and their rendering -/

/-- `Tier` -/
inductive Tier
  | uri
  | abstract
  | overview
  | full
  deriving DecidableEq, Repr

def Tier.text : Tier → Str
  | .uri => "uri".toList
  | .abstract => "abstract".toList
  | .overview => "overview".toList
  | .full => "full".toList

/-- A score, as far as `f"{score:.2f}"` shows it. -/
inductive Score
  | finite (negative : Bool) (hundredths : Nat)
  | infinite (negative : Bool)
  | nan
  deriving DecidableEq, Repr

def Score.text : Score → Str
  | .finite negative n =>
      (if negative then ['-'] else []) ++ decimalNat (n / 100) ++
        '.' :: decimalNat (n % 100 / 10) ++
        decimalNat (n % 10)
  | .infinite negative => if negative then "-inf".toList else "inf".toList
  | .nan => "nan".toList

/-- `AssembledEntry`, without its origin, which no one renders. -/
structure AssembledEntry where
  uri : Str
  category : Str
  score : Score
  detail : Tier
  text : Str
  tokens : Nat
  deriving DecidableEq, Repr

/-- `value.replace(c, by)` for one character -/
def replaceChar (c : Char) (by' : Str) (value : Str) : Str :=
  value.flatMap fun d => if d = c then by' else [d]

/-- `_attr` -/
def attr (value : Str) : Str :=
  replaceChar '<' "&lt;".toList (replaceChar '"' "&quot;".toList
    (replaceChar '&' "&amp;".toList value))

/-- `[\s/>]` -/
def stops (c : Char) : Bool := isSpace c || c == '/' || c == '>'

/-- `memory(?=[\s/>])`, in any case -/
def tagName (s : Str) : Bool :=
  (s.take 6).map Char.toLower == "memory".toList && (s.drop 6).head?.any stops

/-- `_ENVELOPE_TAG` at the start of a text; the value tells whether it closes. -/
def tagAt : Str → Option Bool
  | '<' :: s =>
      if tagName s then some false
      else match s with
        | '/' :: s => if tagName s then some true else none
        | _ => none
  | _ => none

/-- The substitution of `_body`.  `skip` characters belong to a tag that has been
replaced already. -/
def bodyFrom : (skip : Nat) → Str → Str
  | _, [] => []
  | skip + 1, _ :: s => bodyFrom skip s
  | 0, c :: s =>
      match tagAt (c :: s) with
      | some false => "<\\memory".toList ++ bodyFrom 6 s
      | some true => "<\\/memory".toList ++ bodyFrom 7 s
      | none => c :: bodyFrom 0 s

/-- `_body` -/
def body (text : Str) : Str := bodyFrom 0 text

/-- The head of an element, after its first character -/
def headRest (e : AssembledEntry) : Str :=
  "memory".toList ++ (" uri=\"".toList ++ (attr e.uri ++ ("\" type=\"".toList ++ (attr e.category ++
    ("\" score=\"".toList ++ (e.score.text ++
      ("\" detail=\"".toList ++ (e.detail.text ++ ['"']))))))))

def renderHead (e : AssembledEntry) : Str := '<' :: headRest e

def renderEntry (e : AssembledEntry) : Str :=
  if e.text = [] then renderHead e ++ " />".toList
  else renderHead e ++ ">\n".toList ++ body e.text ++ "\n</memory>".toList

def renderContext (entries : List AssembledEntry) : Str :=
  List.intercalate ['\n'] (entries.map renderEntry)

/-- The token count is not rendered. -/
theorem renderEntry_tokens (e : AssembledEntry) (n : Nat) :
    renderEntry { e with tokens := n } = renderEntry e := by
  have hhead : renderHead { e with tokens := n } = renderHead e := rfl
  unfold renderEntry
  rw [hhead]

/-! ## Tags of a text -/

/-- Where in a text a tag of the envelope begins. -/
def places : Str → List Nat
  | [] => []
  | c :: s => (if (tagAt (c :: s)).isSome then [0] else []) ++ (places s).map (· + 1)

/-- Where the rendering of an entry has its own tags. -/
def emittedIn (e : AssembledEntry) : List Nat :=
  if e.text = [] then [0]
  else [0, (renderHead e ++ ">\n".toList ++ body e.text ++ ['\n']).length]

/-- Where the rendering of a context has the tags of its entries. -/
def emitted : List AssembledEntry → List Nat
  | [] => []
  | e :: entries => emittedIn e ++ (emitted entries).map (· + ((renderEntry e).length + 1))

/-- The value of an attribute as a reader of the envelope takes it. -/
def unescape : Str → Str
  | '&' :: 'a' :: 'm' :: 'p' :: ';' :: s => '&' :: unescape s
  | '&' :: 'q' :: 'u' :: 'o' :: 't' :: ';' :: s => '"' :: unescape s
  | '&' :: 'l' :: 't' :: ';' :: s => '<' :: unescape s
  | c :: s => c :: unescape s
  | [] => []

/-- An attribute with the given beginning, up to the closing quote. -/
def readAttr (start s : Str) : Option (Str × Str) :=
  if start.isPrefixOf s then
    (splitOnce '"' (s.drop start.length)).map fun r => (unescape r.1, r.2)
  else none

/-- The attributes `uri` and `type` of an opening tag. -/
def readTag (s : Str) : Option (Str × Str) :=
  match readAttr "<memory uri=\"".toList s with
  | none => none
  | some (uri, rest) => (readAttr " type=\"".toList rest).map fun r => (uri, r.1)

def attributes (s : Str) : List (Str × Str) := (places s).filterMap fun i => readTag (s.drop i)

/-- A body that stops where the lookahead of the guard would begin. -/
def EndsInTag (text : Str) : Prop :=
  "<memory".toList <:+ text.map Char.toLower ∨ "</memory".toList <:+ text.map Char.toLower

instance (text : Str) : Decidable (EndsInTag text) :=
  inferInstanceAs (Decidable (_ ∨ _))

/-! ## Recognising a tag -/

/-- Only letters go to small letters. -/
theorem eq_of_toLower_eq {c d : Char} (hd : d.val < 97) (h : c.toLower = d) : c = d := by
  unfold Char.toLower at h
  split at h
  · next hc =>
      have hlo : (65 : UInt32) ≤ c.val := hc.1
      have hhi : c.val ≤ 90 := hc.2
      have hv : c.val + (97 - 65) = d.val := congrArg Char.val h
      have hn := congrArg UInt32.toNat hv
      rw [UInt32.le_iff_toNat_le] at hlo hhi
      rw [UInt32.lt_iff_toNat_lt] at hd
      rw [UInt32.toNat_add] at hn
      simp at hlo hhi hn hd
      omega
  · exact h

/-- The letters of `memory`, in any case -/
def IsName (n : Str) : Prop := n.map Char.toLower = "memory".toList

theorem isName_memory : IsName "memory".toList := by
  unfold IsName
  decide

theorem IsName.notMem {n : Str} (h : IsName n) {c : Char} (hc : c.toLower ∉ "memory".toList) :
    c ∉ n := by
  intro hmem
  rw [← h] at hc
  exact hc (List.mem_map_of_mem hmem)

theorem IsName.length {n : Str} (h : IsName n) : n.length = 6 := by
  have := congrArg List.length h
  rw [List.length_map] at this
  exact this

theorem notMem_name {n : Str} {c : Char} (hname : IsName n) (hstop : stops c = true) :
    '<' ∉ n ++ [c] := by
  rw [List.mem_append, List.mem_singleton, not_or]
  refine ⟨hname.notMem (by decide), ?_⟩
  rintro rfl
  exact absurd hstop (by decide)

theorem tagName_iff {s : Str} :
    tagName s = true ↔ ∃ n c r, s = n ++ c :: r ∧ IsName n ∧ stops c = true := by
  unfold tagName
  rw [Bool.and_eq_true, beq_iff_eq, Option.any_eq_true]
  constructor
  · rintro ⟨hname, c, hc, hstop⟩
    obtain ⟨r, hr⟩ : ∃ r, s.drop 6 = c :: r := by
      exact ⟨(s.drop 6).tail, List.eq_cons_of_mem_head? hc⟩
    refine ⟨s.take 6, c, r, ?_, hname, hstop⟩
    rw [← hr, List.take_append_drop]
  · rintro ⟨n, c, r, rfl, hname, hstop⟩
    have hlen := hname.length
    rw [List.take_left' hlen, List.drop_left' hlen]
    exact ⟨hname, c, rfl, hstop⟩

theorem tagAt_cons_ne {c : Char} (hc : c ≠ '<') (s : Str) : tagAt (c :: s) = none := by
  simp [tagAt, hc]

theorem tagAt_open {s : Str} (h : tagName s = true) : tagAt ('<' :: s) = some false := by
  simp [tagAt, h]

theorem tagAt_close {s : Str} (h : tagName s = true) : tagAt ('<' :: '/' :: s) = some true := by
  have hslash : tagName ('/' :: s) = false := by
    rw [Bool.eq_false_iff]
    intro h
    obtain ⟨n, c, r, heq, hname, -⟩ := tagName_iff.mp h
    cases n with
    | nil => cases hname
    | cons d n =>
        cases heq
        exact hname.notMem (by decide) List.mem_cons_self
  simp [tagAt, hslash, h]

theorem tagAt_isSome {s : Str} :
    (tagAt s).isSome = true ↔
      ∃ t, s = '<' :: t ∧ (tagName t = true ∨ ∃ u, t = '/' :: u ∧ tagName u = true) := by
  constructor
  · intro h
    unfold tagAt at h
    split at h
    · next t =>
        refine ⟨t, rfl, ?_⟩
        split at h
        · next hname => exact .inl hname
        split at h
        · split at h
          · next hname => exact .inr ⟨_, rfl, hname⟩
          · cases h
        · cases h
    · cases h
  · rintro ⟨t, rfl, hname | ⟨u, rfl, hname⟩⟩
    · rw [tagAt_open hname]
      rfl
    · rw [tagAt_close hname]
      rfl

/-! ## Places in the first part of a text -/

/-- The places in `a`, where `b` follows. -/
def placesIn : Str → Str → List Nat
  | [], _ => []
  | c :: a, b => (if (tagAt (c :: (a ++ b))).isSome then [0] else []) ++ (placesIn a b).map (· + 1)

theorem places_append (a b : Str) :
    places (a ++ b) = placesIn a b ++ (places b).map (· + a.length) := by
  induction a with
  | nil => simp [placesIn]
  | cons c a ih =>
      simp only [List.cons_append, places, placesIn, ih, List.map_append, List.map_map,
        List.append_assoc, List.length_cons]
      congr 2

theorem places_eq_placesIn (a : Str) : places a = placesIn a [] := by
  have h := places_append a []
  rw [List.append_nil] at h
  rw [h, places, List.map_nil, List.append_nil]

theorem placesIn_append (a b c : Str) :
    placesIn (a ++ b) c = placesIn a (b ++ c) ++ (placesIn b c).map (· + a.length) := by
  induction a with
  | nil => simp [placesIn]
  | cons d a ih =>
      simp only [List.cons_append, placesIn, ih, List.map_append, List.map_map, List.append_assoc,
        List.length_cons]
      congr 2

theorem placesIn_of_notMem {a : Str} (h : '<' ∉ a) (b : Str) : placesIn a b = [] := by
  induction a with
  | nil => rfl
  | cons c a ih =>
      rw [List.mem_cons, not_or] at h
      rw [placesIn, tagAt_cons_ne (Ne.symm h.1), ih h.2]
      rfl

/-- A tag, and text without `<` after its first character. -/
theorem placesIn_tag {a b : Str} (h : '<' ∉ a) (htag : (tagAt ('<' :: (a ++ b))).isSome = true) :
    placesIn ('<' :: a) b = [0] := by
  rw [placesIn, if_pos htag, placesIn_of_notMem h]
  rfl

/-! ## The guarded body -/

theorem bodyFrom_skip (n : Nat) (s : Str) : bodyFrom n s = body (s.drop n) := by
  induction n generalizing s with
  | zero => rfl
  | succ n ih =>
      cases s with
      | nil => rfl
      | cons c s =>
          rw [bodyFrom, ih]
          rfl

theorem body_cons_of_none {c : Char} {s : Str} (h : tagAt (c :: s) = none) :
    body (c :: s) = c :: body s := by
  rw [body, bodyFrom, h]
  rfl

theorem body_open {n s : Str} (hname : IsName n) (h : tagName (n ++ s) = true) :
    body ('<' :: (n ++ s)) = "<\\memory".toList ++ body s := by
  rw [body, bodyFrom, tagAt_open h]
  dsimp only
  rw [bodyFrom_skip, List.drop_left' hname.length]

theorem body_close {n s : Str} (hname : IsName n) (h : tagName (n ++ s) = true) :
    body ('<' :: '/' :: (n ++ s)) = "<\\/memory".toList ++ body s := by
  rw [body, bodyFrom, tagAt_close h]
  dsimp only
  rw [bodyFrom_skip]
  congr 2
  rw [List.drop_succ_cons, List.drop_left' hname.length]

/-- A text is read character by character, or a tag at a time. -/
theorem body_induction {P : Str → Prop} (nil : P [])
    (plain : ∀ c s, tagAt (c :: s) = none → P s → P (c :: s))
    (opening : ∀ n s, IsName n → tagName (n ++ s) = true → P s → P ('<' :: (n ++ s)))
    (closing : ∀ n s, IsName n → tagName (n ++ s) = true → P s → P ('<' :: '/' :: (n ++ s)))
    (s : Str) : P s := by
  induction hlen : s.length using Nat.strong_induction_on generalizing s with
  | _ len ih =>
      cases s with
      | nil => exact nil
      | cons c s =>
          rw [List.length_cons] at hlen
          cases htag : tagAt (c :: s) with
          | none => exact plain c s htag (ih s.length (by omega) s rfl)
          | some closes =>
              have hsome : (tagAt (c :: s)).isSome = true := by rw [htag]; rfl
              obtain ⟨t, heq, h⟩ := tagAt_isSome.mp hsome
              obtain ⟨rfl, rfl⟩ := List.cons.inj heq
              rcases h with h | ⟨u, rfl, h⟩
              · obtain ⟨n, d, r, rfl, hname, -⟩ := tagName_iff.mp h
                rw [List.length_append] at hlen
                exact opening n (d :: r) hname h (ih (d :: r).length (by omega) _ rfl)
              · obtain ⟨n, d, r, rfl, hname, -⟩ := tagName_iff.mp h
                rw [List.length_cons, List.length_append] at hlen
                exact closing n (d :: r) hname h (ih (d :: r).length (by omega) _ rfl)

/-- Up to the next `<` the body is the text itself. -/
theorem body_append_eq {p : Str} (hp : '<' ∉ p) {s y z : Str} (h : body s ++ y = p ++ z) :
    (∃ t, s = p ++ t) ∨ ∃ q, p = s ++ q ∧ y = q ++ z := by
  induction p generalizing s with
  | nil => exact .inl ⟨s, rfl⟩
  | cons d p ih =>
      rw [List.mem_cons, not_or] at hp
      cases s with
      | nil => exact .inr ⟨d :: p, rfl, h⟩
      | cons c s =>
          rw [body, bodyFrom] at h
          split at h
          · exact absurd (List.cons.inj h).1 hp.1
          · exact absurd (List.cons.inj h).1 hp.1
          · obtain ⟨rfl, hrest⟩ := List.cons.inj h
            rcases ih hp.2 (s := s) hrest with ⟨t, rfl⟩ | ⟨q, rfl, hy⟩
            · exact .inl ⟨t, rfl⟩
            · exact .inr ⟨q, rfl, hy⟩

theorem body_append_of_notMem {p : Str} (hp : '<' ∉ p) (s : Str) : body (p ++ s) = p ++ body s := by
  induction p with
  | nil => rfl
  | cons c p ih =>
      rw [List.mem_cons, not_or] at hp
      rw [List.cons_append, body_cons_of_none (tagAt_cons_ne (Ne.symm hp.1) _), ih hp.2]
      rfl

/-- A name before the line break comes from the text: with what follows it there, or
because the text stops after it. -/
theorem tagName_body {s y : Str} :
    tagName (body s ++ '\n' :: y) = true ↔ tagName s = true ∨ IsName s := by
  constructor
  · intro h
    obtain ⟨n, c, r, heq, hname, hstop⟩ := tagName_iff.mp h
    have hlt : '<' ∉ n ++ [c] := notMem_name hname hstop
    have heq' : body s ++ '\n' :: y = (n ++ [c]) ++ r := by rw [heq, List.append_assoc]; rfl
    rcases body_append_eq hlt heq' with ⟨t, rfl⟩ | ⟨q, hq, hy⟩
    · exact .inl (tagName_iff.mpr ⟨n, c, t, by rw [List.append_assoc]; rfl, hname, hstop⟩)
    · cases q with
      | nil =>
          rw [List.append_nil] at hq
          exact .inl (tagName_iff.mpr ⟨n, c, [], hq.symm, hname, hstop⟩)
      | cons d q =>
          obtain ⟨rfl, -⟩ := List.cons.inj hy
          -- the line break is not part of the name, so it comes right after it
          rcases List.append_eq_append_iff.mp hq with ⟨m, rfl, hm⟩ | ⟨m, hs, hm⟩
          · cases m with
            | nil => exact .inr (by rw [List.append_nil]; exact hname)
            | cons x m =>
                obtain ⟨rfl, hm⟩ := List.cons.inj hm
                simp at hm
          · cases m with
            | nil => exact .inr (by rw [List.append_nil] at hs; rw [← hs]; exact hname)
            | cons x m =>
                obtain ⟨rfl, -⟩ := List.cons.inj hm
                exact absurd (by rw [hs]; simp)
                  (hname.notMem (show Char.toLower '\n' ∉ _ by decide))
  · rintro (h | h)
    · obtain ⟨n, c, r, rfl, hname, hstop⟩ := tagName_iff.mp h
      have hlt : '<' ∉ n ++ [c] := notMem_name hname hstop
      have hbody : body (n ++ c :: r) = n ++ [c] ++ body r := by
        rw [← body_append_of_notMem hlt, List.append_assoc]
        rfl
      refine tagName_iff.mpr ⟨n, c, body r ++ '\n' :: y, ?_, hname, hstop⟩
      rw [hbody]
      simp
    · have hbody : body s = s := by
        have hs := body_append_of_notMem (h.notMem (show Char.toLower '<' ∉ _ by decide)) []
        rwa [List.append_nil, show body [] = [] from rfl, List.append_nil] at hs
      rw [hbody]
      exact tagName_iff.mpr ⟨s, '\n', y, rfl, h, by decide⟩

/-! ## Bodies that end in a tag -/

theorem not_endsInTag_nil : ¬EndsInTag [] := by decide

theorem endsInTag_cons {c : Char} {s : Str} :
    EndsInTag (c :: s) ↔
      EndsInTag s ∨ c = '<' ∧ (IsName s ∨ ∃ u, s = '/' :: u ∧ IsName u) := by
  have hlt : ∀ w : Str, '<' :: w = c.toLower :: s.map Char.toLower ↔
      c = '<' ∧ s.map Char.toLower = w := by
    intro w
    rw [List.cons.injEq]
    refine ⟨fun h => ⟨eq_of_toLower_eq (by decide) h.1.symm, h.2.symm⟩, ?_⟩
    rintro ⟨rfl, h⟩
    exact ⟨rfl, h.symm⟩
  have hslash : s.map Char.toLower = '/' :: "memory".toList ↔ ∃ u, s = '/' :: u ∧ IsName u := by
    constructor
    · intro h
      cases s with
      | nil => cases h
      | cons d u =>
          rw [List.map_cons, List.cons.injEq] at h
          exact ⟨u, by rw [eq_of_toLower_eq (by decide) h.1], h.2⟩
    · rintro ⟨u, rfl, h⟩
      rw [List.map_cons, h]
      rfl
  unfold EndsInTag
  rw [List.map_cons, show "<memory".toList = '<' :: "memory".toList from rfl,
    show "</memory".toList = '<' :: '/' :: "memory".toList from rfl, List.suffix_cons_iff,
    List.suffix_cons_iff, hlt, hlt, hslash]
  have hprop : ∀ lt name open' slash close : Prop,
      ((lt ∧ name ∨ open') ∨ lt ∧ slash ∨ close ↔ (open' ∨ close) ∨ lt ∧ (name ∨ slash)) := by
    tauto
  exact hprop ..

theorem endsInTag_append_of_notMem {p : Str} (hp : '<' ∉ p) {s : Str} :
    EndsInTag (p ++ s) ↔ EndsInTag s := by
  induction p with
  | nil => rfl
  | cons c p ih =>
      rw [List.mem_cons, not_or] at hp
      rw [List.cons_append, endsInTag_cons, ih hp.2]
      refine ⟨fun h => h.resolve_right fun hc => hp.1 hc.1.symm, .inl⟩

/-- After the name of a tag there is more text. -/
theorem endsInTag_tag {n s : Str} (hname : IsName n) (h : tagName (n ++ s) = true) :
    (EndsInTag ('<' :: (n ++ s)) ↔ EndsInTag s) ∧
      (EndsInTag ('<' :: '/' :: (n ++ s)) ↔ EndsInTag s) := by
  have hn : '<' ∉ n := hname.notMem (by decide)
  have hlong : 6 < (n ++ s).length := by
    obtain ⟨n', c, r, heq, hname', -⟩ := tagName_iff.mp h
    rw [heq, List.length_append, hname'.length, List.length_cons]
    omega
  have hnot : ∀ u, (n ++ s = u ∨ '/' :: (n ++ s) = u) → ¬IsName u := by
    intro u hu hname'
    have := hname'.length
    rcases hu with rfl | rfl
    · omega
    · rw [List.length_cons] at this
      omega
  have hslash : ¬∃ u, n ++ s = '/' :: u ∧ IsName u := by
    rintro ⟨u, hu, -⟩
    cases n with
    | nil => cases hname
    | cons d n =>
        obtain ⟨rfl, -⟩ := List.cons.inj hu
        exact hname.notMem (by decide) List.mem_cons_self
  constructor
  · rw [endsInTag_cons, endsInTag_append_of_notMem hn]
    refine ⟨fun h => h.resolve_right fun hc => ?_, .inl⟩
    exact hc.2.elim (hnot _ (.inl rfl)) hslash
  · rw [endsInTag_cons, endsInTag_cons, endsInTag_append_of_notMem hn]
    constructor
    · rintro ((h | ⟨h, -⟩) | ⟨-, h | ⟨u, hu, h⟩⟩)
      · exact h
      · exact absurd h (by decide)
      · exact absurd h (hnot _ (.inr rfl))
      · exact absurd h (hnot u (.inl (List.cons.inj hu).2))
    · exact fun h => .inl (.inl h)

/-- A character that was copied begins a tag only if the body ends in it. -/
theorem tagAt_copied {c : Char} {s y : Str} (htag : tagAt (c :: s) = none) :
    (tagAt (c :: (body s ++ '\n' :: y))).isSome = true ↔
      c = '<' ∧ (IsName s ∨ ∃ u, s = '/' :: u ∧ IsName u) := by
  have hnone : ¬(tagAt (c :: s)).isSome = true := by rw [htag]; simp
  rw [tagAt_isSome] at hnone ⊢
  constructor
  · rintro ⟨t, heq, h⟩
    obtain ⟨rfl, rfl⟩ := List.cons.inj heq
    refine ⟨rfl, ?_⟩
    rcases h with h | ⟨u, hu, h⟩
    · exact (tagName_body.mp h).elim (fun h => absurd ⟨s, rfl, .inl h⟩ hnone) .inl
    · obtain ⟨t, rfl⟩ : ∃ t, s = '/' :: t := by
        rcases body_append_eq (p := ['/']) (by decide) hu with ⟨t, rfl⟩ | ⟨q, hq, hy⟩
        · exact ⟨t, rfl⟩
        · cases q with
          | nil => exact ⟨[], by rw [List.append_nil] at hq; exact hq.symm⟩
          | cons d q =>
              obtain ⟨rfl, -⟩ := List.cons.inj hy
              exact absurd (show '\n' ∈ ['/'] by rw [hq]; simp) (by decide)
      rw [body_cons_of_none (tagAt_cons_ne (by decide) t)] at hu
      obtain ⟨-, rfl⟩ := List.cons.inj hu
      refine .inr ⟨t, rfl, ?_⟩
      exact (tagName_body.mp h).elim (fun h => absurd ⟨_, rfl, .inr ⟨t, rfl, h⟩⟩ hnone) id
  · rintro ⟨rfl, h | ⟨u, rfl, h⟩⟩
    · exact ⟨_, rfl, .inl (tagName_body.mpr (.inr h))⟩
    · rw [body_cons_of_none (tagAt_cons_ne (by decide) u)]
      exact ⟨_, rfl, .inr ⟨_, rfl, tagName_body.mpr (.inr h)⟩⟩

theorem placesIn_replaced {a b : Str} (h : '<' ∉ a) : placesIn ('<' :: '\\' :: a) b = [] := by
  have hback : '<' ∉ '\\' :: a := by
    rw [List.mem_cons, not_or]
    exact ⟨by decide, h⟩
  have htag : ¬(tagAt ('<' :: ('\\' :: a ++ b))).isSome = true := by
    rw [tagAt_isSome]
    rintro ⟨t, heq, h⟩
    obtain ⟨-, rfl⟩ := List.cons.inj heq
    rcases h with h | ⟨u, hu, -⟩
    · obtain ⟨n, c, r, heq, hname, -⟩ := tagName_iff.mp h
      cases n with
      | nil => cases hname
      | cons d n =>
          obtain ⟨rfl, -⟩ := List.cons.inj heq
          exact hname.notMem (by decide) List.mem_cons_self
    · exact absurd (List.cons.inj hu).1 (by decide)
  rw [placesIn, if_neg htag, placesIn_of_notMem hback]
  rfl

/-- In front of the line break the guarded body has no tag, unless it ends in one. -/
theorem placesIn_body {s y : Str} : placesIn (body s) ('\n' :: y) = [] ↔ ¬EndsInTag s := by
  induction s using body_induction with
  | nil => exact iff_of_true rfl not_endsInTag_nil
  | plain c s htag ih =>
      rw [body_cons_of_none htag, placesIn, List.append_eq_nil_iff, List.map_eq_nil_iff, ih,
        endsInTag_cons, not_or, and_comm]
      refine and_congr_right fun _ => ?_
      rw [← tagAt_copied (y := y) htag, ite_eq_right_iff]
      simp
  | opening n s hname h ih =>
      have hnew : placesIn "<\\memory".toList (body s ++ '\n' :: y) = [] :=
        placesIn_replaced (a := "memory".toList) (by decide)
      rw [body_open hname h, placesIn_append, (endsInTag_tag hname h).1, ← ih, hnew,
        List.nil_append, List.map_eq_nil_iff]
  | closing n s hname h ih =>
      have hnew : placesIn "<\\/memory".toList (body s ++ '\n' :: y) = [] :=
        placesIn_replaced (a := "/memory".toList) (by decide)
      rw [body_close hname h, placesIn_append, (endsInTag_tag hname h).2, ← ih, hnew,
        List.nil_append, List.map_eq_nil_iff]

/-! ## The rendering -/

theorem mem_replaceChar {c d : Char} {by' value : Str} (h : d ∈ replaceChar c by' value) :
    d ∈ by' ∨ d ≠ c ∧ d ∈ value := by
  obtain ⟨x, hx, hd⟩ := List.mem_flatMap.mp h
  split at hd
  · exact .inl hd
  · next hxc =>
      rw [List.mem_singleton] at hd
      subst hd
      exact .inr ⟨hxc, hx⟩

theorem notMem_attr (value : Str) : '<' ∉ attr value ∧ '"' ∉ attr value := by
  constructor
  · intro h
    rcases mem_replaceChar h with h | ⟨h, -⟩
    · exact absurd h (by decide)
    · exact h rfl
  · intro h
    rcases mem_replaceChar h with h | ⟨-, h⟩
    · exact absurd h (by decide)
    rcases mem_replaceChar h with h | ⟨h, -⟩
    · exact absurd h (by decide)
    · exact h rfl

theorem notMem_score (score : Score) : '<' ∉ score.text := by
  cases score with
  | finite negative n =>
      have hd : ∀ k, '<' ∉ decimalNat k := fun k => notMem_decimalNat (by decide) k
      cases negative <;> simp [Score.text, hd]
  | infinite negative => cases negative <;> decide
  | nan => decide

theorem notMem_tier (tier : Tier) : '<' ∉ tier.text := by cases tier <;> decide

theorem headRest_eq (e : AssembledEntry) :
    headRest e = "memory".toList ++ (" uri=\"".toList ++ (attr e.uri ++ ("\" type=\"".toList ++
      (attr e.category ++ ("\" score=\"".toList ++ (e.score.text ++ ("\" detail=\"".toList ++
        (e.detail.text ++ ['"'])))))))) := rfl

theorem notMem_headRest (e : AssembledEntry) : '<' ∉ headRest e := by
  have hlit : '<' ∉ "memory".toList ∧ '<' ∉ " uri=\"".toList ∧ '<' ∉ "\" type=\"".toList ∧
      '<' ∉ "\" score=\"".toList ∧ '<' ∉ "\" detail=\"".toList ∧ '<' ∉ ['"'] := by decide
  obtain ⟨h₁, h₂, h₃, h₄, h₅, h₆⟩ := hlit
  have happ : ∀ {a b : Str}, '<' ∉ a → '<' ∉ b → '<' ∉ a ++ b :=
    fun ha hb h => (List.mem_append.mp h).elim ha hb
  rw [headRest_eq]
  exact happ h₁ (happ h₂ (happ (notMem_attr e.uri).1 (happ h₃ (happ (notMem_attr e.category).1
    (happ h₄ (happ (notMem_score e.score) (happ h₅ (happ (notMem_tier e.detail) h₆))))))))

theorem placesIn_renderHead (e : AssembledEntry) (y : Str) : placesIn (renderHead e) y = [0] := by
  refine placesIn_tag (notMem_headRest e) ?_
  obtain ⟨r, hr⟩ : ∃ r, headRest e = "memory".toList ++ ' ' :: r := by
    have hspace : " uri=\"".toList = ' ' :: "uri=\"".toList := by decide
    rw [headRest_eq, hspace]
    exact ⟨_, rfl⟩
  have hname : tagName (headRest e ++ y) = true := by
    refine tagName_iff.mpr ⟨"memory".toList, ' ', r ++ y, ?_, isName_memory, by decide⟩
    rw [hr, List.append_assoc, List.cons_append]
  rw [tagAt_open hname]
  rfl

theorem placesIn_close (y : Str) : placesIn "</memory>".toList y = [0] := by
  have hlit : "</memory>".toList = '<' :: '/' :: ("memory".toList ++ ['>']) := by decide
  rw [hlit]
  refine placesIn_tag (by decide) ?_
  have hname : tagName ("memory".toList ++ '>' :: y) = true :=
    tagName_iff.mpr ⟨_, '>', y, rfl, isName_memory, by decide⟩
  rw [List.cons_append, List.append_assoc, List.singleton_append, tagAt_close hname]
  rfl

/-- The tags of an entry are its own and those its body ends in. -/
theorem placesIn_renderEntry {e : AssembledEntry} (h : e.text ≠ []) (y : Str) :
    placesIn (renderEntry e) y =
      0 :: (placesIn (body e.text) ('\n' :: ("</memory>".toList ++ y))).map
          (· + (renderHead e ++ ">\n".toList).length) ++
        [(renderHead e ++ ">\n".toList ++ body e.text ++ ['\n']).length] := by
  have hlit : "\n</memory>".toList = ['\n'] ++ "</memory>".toList := by decide
  rw [renderEntry, if_neg h, hlit, ← List.append_assoc, placesIn_append, placesIn_append,
    placesIn_append, placesIn_append, placesIn_renderHead, placesIn_close,
    placesIn_of_notMem (a := ">\n".toList) (by decide),
    placesIn_of_notMem (a := ['\n']) (by decide)]
  simp

theorem placesIn_renderEntry_nil {e : AssembledEntry} (h : e.text = []) (y : Str) :
    placesIn (renderEntry e) y = [0] := by
  rw [renderEntry, if_pos h, placesIn_append, placesIn_renderHead,
    placesIn_of_notMem (a := " />".toList) (by decide)]
  rfl

theorem placesIn_renderEntry_eq {e : AssembledEntry} (h : ¬EndsInTag e.text) (y : Str) :
    placesIn (renderEntry e) y = emittedIn e := by
  unfold emittedIn
  split
  · next htext => exact placesIn_renderEntry_nil htext y
  · next htext =>
      rw [placesIn_renderEntry htext, placesIn_body.mpr h]
      rfl

/-- No tag of the envelope is missing, and a body that ends in a tag adds one. -/
theorem length_emittedIn (e : AssembledEntry) (y : Str) :
    (emittedIn e).length ≤ (placesIn (renderEntry e) y).length ∧
      (EndsInTag e.text → (emittedIn e).length < (placesIn (renderEntry e) y).length) := by
  by_cases h : EndsInTag e.text
  · have htext : e.text ≠ [] := by
      intro h0
      rw [h0] at h
      exact not_endsInTag_nil h
    have hmore := List.length_pos_of_ne_nil
      (mt placesIn_body.mp (not_not.mpr h) :
        placesIn (body e.text) ('\n' :: ("</memory>".toList ++ y)) ≠ [])
    rw [placesIn_renderEntry htext, emittedIn, if_neg htext]
    simp only [List.length_cons, List.length_nil, List.length_append, List.length_map]
    exact ⟨by omega, fun _ => by omega⟩
  · rw [placesIn_renderEntry_eq h]
    exact ⟨le_rfl, fun h' => absurd h' h⟩

theorem renderContext_cons_cons (e e' : AssembledEntry) (entries : List AssembledEntry) :
    renderContext (e :: e' :: entries) =
      renderEntry e ++ '\n' :: renderContext (e' :: entries) := by
  simp [renderContext, List.intercalate]

theorem places_renderContext_cons (e e' : AssembledEntry) (entries : List AssembledEntry) :
    places (renderContext (e :: e' :: entries)) =
      placesIn (renderEntry e) ('\n' :: renderContext (e' :: entries)) ++
        (places (renderContext (e' :: entries))).map (· + ((renderEntry e).length + 1)) := by
  rw [renderContext_cons_cons, places_append, places, tagAt_cons_ne (by decide)]
  simp only [Option.isSome_none, Bool.false_eq_true, if_false, List.nil_append, List.map_map]
  congr 2
  funext i
  simp only [Function.comp_apply]
  omega

theorem renderContext_singleton (e : AssembledEntry) : renderContext [e] = renderEntry e := by
  simp [renderContext, List.intercalate]

theorem places_renderContext_eq {entries : List AssembledEntry}
    (h : ∀ e ∈ entries, ¬EndsInTag e.text) : places (renderContext entries) = emitted entries := by
  induction entries with
  | nil => rfl
  | cons e entries ih =>
      have he := h e List.mem_cons_self
      cases entries with
      | nil =>
          rw [renderContext_singleton, places_eq_placesIn, placesIn_renderEntry_eq he]
          simp [emitted]
      | cons e' entries =>
          rw [places_renderContext_cons, placesIn_renderEntry_eq he,
            ih fun e he => h e (List.mem_cons_of_mem _ he)]
          rfl

theorem length_emitted (entries : List AssembledEntry) :
    (emitted entries).length ≤ (places (renderContext entries)).length ∧
      ((∃ e ∈ entries, EndsInTag e.text) →
        (emitted entries).length < (places (renderContext entries)).length) := by
  induction entries with
  | nil => exact ⟨le_rfl, by simp⟩
  | cons e entries ih =>
      cases entries with
      | nil =>
          rw [renderContext_singleton, places_eq_placesIn]
          simpa [emitted] using length_emittedIn e []
      | cons e' entries =>
          obtain ⟨hle, hlt⟩ := length_emittedIn e ('\n' :: renderContext (e' :: entries))
          rw [places_renderContext_cons, emitted]
          simp only [List.length_append, List.length_map]
          refine ⟨Nat.add_le_add hle ih.1, ?_⟩
          rintro ⟨x, hx, hends⟩
          rcases List.mem_cons.mp hx with rfl | hx
          · exact Nat.add_lt_add_of_lt_of_le (hlt hends) ih.1
          · exact Nat.add_lt_add_of_le_of_lt hle (ih.2 ⟨x, hx, hends⟩)

/-! ## Reading the attributes back -/

/-- The three replacements at once -/
def escapeChar (c : Char) : Str :=
  if c = '&' then "&amp;".toList else if c = '"' then "&quot;".toList
  else if c = '<' then "&lt;".toList else [c]

theorem replaceChar_of_ne {c d : Char} {r : Str} (h : d ≠ c) : replaceChar c r [d] = [d] := by
  rw [replaceChar, List.flatMap_singleton, if_neg h]

theorem attr_cons (c : Char) (value : Str) : attr (c :: value) = escapeChar c ++ attr value := by
  have happ : ∀ d (r u v : Str), replaceChar d r (u ++ v) =
    replaceChar d r u ++ replaceChar d r v :=
    fun d r u v => List.flatMap_append
  have hone : attr [c] = escapeChar c := by
    unfold escapeChar
    split
    · next h =>
        subst h
        decide
    split
    · next h =>
        subst h
        decide
    split
    · next h =>
        subst h
        decide
    · next h₁ h₂ h₃ =>
        rw [attr, replaceChar_of_ne h₁, replaceChar_of_ne h₂, replaceChar_of_ne h₃]
  rw [← hone]
  show attr ([c] ++ value) = _
  unfold attr
  rw [happ, happ, happ]

theorem unescape_escapeChar (c : Char) (s : Str) :
    unescape (escapeChar c ++ s) = c :: unescape s := by
  unfold escapeChar
  split
  · next h =>
      subst h
      rfl
  split
  · next h =>
      subst h
      rfl
  split
  · next h =>
      subst h
      rfl
  · next h _ _ =>
      rw [List.singleton_append, unescape]
      all_goals exact fun rest heq => absurd heq h

theorem unescape_attr (value : Str) : unescape (attr value) = value := by
  induction value with
  | nil => rfl
  | cons c value ih => rw [attr_cons, unescape_escapeChar, ih]

theorem readAttr_attr (start value rest : Str) :
    readAttr start (start ++ (attr value ++ '"' :: rest)) = some (value, rest) := by
  have hpre : start.isPrefixOf (start ++ (attr value ++ '"' :: rest)) = true :=
    List.isPrefixOf_iff_prefix.mpr ⟨_, rfl⟩
  rw [readAttr, if_pos hpre, List.drop_left, splitOnce_append_cons (notMem_attr value).2]
  simp only [Option.map_some, unescape_attr]

theorem readTag_renderHead (e : AssembledEntry) (y : Str) :
    readTag (renderHead e ++ y) = some (e.uri, e.category) := by
  obtain ⟨rest, hrest⟩ : ∃ rest, renderHead e ++ y =
      "<memory uri=\"".toList ++ (attr e.uri ++ '"' :: (" type=\"".toList ++
        (attr e.category ++ '"' :: rest))) := by
    have h₁ : '<' :: "memory".toList ++ " uri=\"".toList = "<memory uri=\"".toList := by decide
    have h₂ : "\" type=\"".toList = '"' :: " type=\"".toList := by decide
    have h₃ : "\" score=\"".toList = '"' :: " score=\"".toList := by decide
    refine ⟨" score=\"".toList ++ (e.score.text ++ ("\" detail=\"".toList ++
      (e.detail.text ++ '"' :: y))), ?_⟩
    rw [renderHead, headRest_eq, ← h₁, h₂, h₃]
    simp only [List.append_assoc, List.cons_append, List.nil_append]
  rw [hrest, readTag, readAttr_attr]
  simp only [readAttr_attr, Option.map_some]

theorem readTag_close (y : Str) : readTag ("</memory>".toList ++ y) = none := by
  have hpre : "<memory uri=\"".toList.isPrefixOf ("</memory>".toList ++ y) = false := by
    rfl
  rw [readTag, readAttr, if_neg (by rw [hpre]; simp)]

theorem filterMap_emittedIn (e : AssembledEntry) (y : Str) :
    (emittedIn e).filterMap (fun i => readTag ((renderEntry e ++ y).drop i)) =
      [(e.uri, e.category)] := by
  have hlit : "\n</memory>".toList = ['\n'] ++ "</memory>".toList := by decide
  unfold emittedIn renderEntry
  split
  · rw [List.append_assoc]
    simp [readTag_renderHead]
  · rw [hlit, ← List.append_assoc]
    obtain ⟨a, ha⟩ : ∃ a, a = renderHead e ++ ">\n".toList ++ body e.text ++ ['\n'] := ⟨_, rfl⟩
    have hopen : readTag (a ++ "</memory>".toList ++ y) = some (e.uri, e.category) := by
      rw [ha]
      simp only [List.append_assoc]
      exact readTag_renderHead e _
    have hclose : readTag ((a ++ "</memory>".toList ++ y).drop a.length) = none := by
      rw [List.append_assoc, List.drop_left]
      exact readTag_close y
    rw [← ha]
    simp only [List.filterMap_cons, List.drop_zero, hopen, hclose, List.filterMap_nil]

theorem attributes_renderContext {entries : List AssembledEntry}
    (h : ∀ e ∈ entries, ¬EndsInTag e.text) :
    attributes (renderContext entries) = entries.map fun e => (e.uri, e.category) := by
  unfold attributes
  rw [places_renderContext_eq h]
  clear h
  induction entries with
  | nil => rfl
  | cons e entries ih =>
      rw [emitted, List.filterMap_append, List.map_cons]
      cases entries with
      | nil =>
          have hfirst := filterMap_emittedIn e []
          rw [List.append_nil] at hfirst
          rw [renderContext_singleton, hfirst]
          rfl
      | cons e' entries =>
          rw [renderContext_cons_cons, filterMap_emittedIn, List.filterMap_map, ← ih,
            List.singleton_append]
          congr 2
          funext i
          have hshift : (renderEntry e ++ '\n' :: renderContext (e' :: entries)).drop
              (i + ((renderEntry e).length + 1)) = (renderContext (e' :: entries)).drop i := by
            rw [Nat.add_comm, List.append_cons, ← List.drop_drop]
            congr 1
            exact List.drop_left' (by simp)
          simp only [Function.comp_apply, hshift]

/-- The tags of a rendered context are those of its entries, with their attributes, just
when no body ends in a tag that the envelope would complete. -/
theorem envelope_tags_exact (entries : List AssembledEntry) :
    (places (renderContext entries) = emitted entries ∧
        attributes (renderContext entries) = entries.map fun e => (e.uri, e.category)) ↔
      ∀ e ∈ entries, ¬EndsInTag e.text := by
  constructor
  · rintro ⟨hplaces, -⟩ e he hends
    have hlt := (length_emitted entries).2 ⟨e, he, hends⟩
    rw [hplaces] at hlt
    exact Nat.lt_irrefl _ hlt
  · intro h
    exact ⟨places_renderContext_eq h, attributes_renderContext h⟩

/-- The body `<memory` gets its line break from the envelope. -/
theorem body_completed_by_envelope :
    let entry : AssembledEntry := ⟨"viking://a".toList, "events".toList, .finite false 42, .full,
      "<memory".toList, 0⟩
    places (renderContext [entry]) ≠ emitted [entry] := by
  decide +kernel

end OpenViking.Context
