/-
# `OpenViking.Index.Routing` — routing agrees with the full projection

`evaluate_filter` scans the layout and sets a bit for every row that passes.
`evaluate_filter_for_routing` has two shorter ways: for a bitmap with few members and a
layout with an inverse it looks the members up in the inverse, and otherwise it scans,
but keeps row numbers until they are too many and only then starts a bitset.

The inverse of a layout has exactly the offsets of the layout, each once
(`invertible_setFilterLayout`), so looking up counts rows (`countInverse_eq`).  The scan has the
rows seen so far, in one form or the other (`Scanned`).  Both give `routed`, the result
as the full projection would give it.
-/
import OpenViking.Index.Manager

namespace OpenViking.Index

open OpenViking.Lib

namespace IndexManager

/-! ## The inverse layout -/

section Inverse

variable {base : Nat}

/-- An inverse that is found files the offsets of the layout, each once, in places
that were free. -/
theorem invertLayout_nodup (rest : List (Option Nat)) (row : Nat)
    (rows inverse : List (Option Nat)) (hfit : ∀ o, some o ∈ rest → o - base < rows.length)
    (h : invertLayout base rest row rows = some inverse) (hbase : ∀ o, some o ∈ rest → base ≤ o) :
    rest.reduceOption.Nodup ∧
      (∀ o ∈ rest.reduceOption, rows.getD (o - base) none = none) ∧
      ∀ i, (inverse.getD i none).isSome ↔
        (rows.getD i none).isSome ∨ base + i ∈ rest.reduceOption := by
  induction rest generalizing row rows with
  | nil =>
      cases h
      exact ⟨List.nodup_nil, fun _ ho => (by cases ho), fun i => by simp⟩
  | cons x rest ih =>
      have hfit' : ∀ o, some o ∈ rest → o - base < rows.length :=
        fun o ho => hfit o (List.mem_cons_of_mem _ ho)
      have hbase' : ∀ o, some o ∈ rest → base ≤ o := fun o ho => hbase o (List.mem_cons_of_mem _ ho)
      cases x with
      | none =>
          rw [List.reduceOption_cons_of_none]
          exact ih (row + 1) rows hfit' h hbase'
      | some offset =>
          have hlt : offset - base < rows.length := hfit offset List.mem_cons_self
          have hle : base ≤ offset := hbase offset List.mem_cons_self
          rw [invertLayout] at h
          split at h
          · cases h
          · next hfree =>
              -- the place of `offset` is taken from here on
              have hget : ∀ i, (rows.set (offset - base) (some row)).getD i none =
                  if i = offset - base then some row else rows.getD i none := by
                intro i
                rw [List.getD_eq_getElem?_getD, List.getElem?_set, List.getD_eq_getElem?_getD]
                by_cases hi : offset - base = i
                · rw [if_pos hi, if_pos hlt, if_pos hi.symm]
                  rfl
                · rw [if_neg hi, if_neg (Ne.symm hi)]
              obtain ⟨hnodup, hfreeRest, hmem⟩ :=
                ih (row + 1) (rows.set (offset - base) (some row))
                  (fun o ho => by rw [List.length_set]; exact hfit' o ho) h hbase'
              have hnot : offset ∉ rest.reduceOption := by
                intro ho
                have := hfreeRest offset ho
                rw [hget, if_pos rfl] at this
                cases this
              rw [List.reduceOption_cons_of_some]
              refine ⟨List.nodup_cons.mpr ⟨hnot, hnodup⟩, ?_, ?_⟩
              · intro o ho
                rcases List.mem_cons.mp ho with rfl | ho
                · exact hfree
                · have := hfreeRest o ho
                  rw [hget] at this
                  split at this
                  · cases this
                  · exact this
              · intro i
                rw [hmem i, hget i, List.mem_cons]
                by_cases hi : i = offset - base
                · rw [if_pos hi]
                  have : base + i = offset := by omega
                  simp [this]
                · rw [if_neg hi]
                  have : base + i ≠ offset := by omega
                  simp [this]

end Inverse

variable {D V Q : Type} [LinearOrder D]

/-- The inverse, where there is one, files exactly the offsets of the layout, and no
two rows have the same offset. -/
structure Invertible (M : IndexManager D V) : Prop where
  nodup : M.layoutInverseReady = true → M.layoutOffsets.reduceOption.Nodup
  filed : M.layoutInverseReady = true → ∀ o, o ∈ M.layoutOffsets.reduceOption ↔
    M.layoutInverseBase ≤ o ∧
      (M.layoutRowsByOffset.getD (o - M.layoutInverseBase) none).isSome

theorem invertible_withLayout (M : IndexManager D V) (offsets : List (Option Nat)) :
    (M.withLayout offsets).Invertible :=
  ⟨fun h => (by cases h), fun h => (by cases h)⟩

theorem invertible_withInverse (M : IndexManager D V) (offsets : List (Option Nat))
    (base span : Nat) (hbase : ∀ o, some o ∈ offsets → base ≤ o)
    (hspan : ∀ o, some o ∈ offsets → o - base < span) :
    (M.withInverse offsets base span hbase).Invertible := by
  unfold withInverse
  split
  · exact M.invertible_withLayout offsets
  · next rows h =>
      obtain ⟨hnodup, -, hmem⟩ := invertLayout_nodup offsets 0 (List.replicate span none) rows
        (fun o ho => by rw [List.length_replicate]; exact hspan o ho) h hbase
      refine ⟨fun _ => hnodup, fun _ o => ?_⟩
      show o ∈ offsets.reduceOption ↔ base ≤ o ∧ (rows.getD (o - base) none).isSome
      have hnone : ∀ i, ((List.replicate span (none : Option Nat)).getD i none).isSome = false := by
        intro i
        rw [List.getD_eq_getElem?_getD, List.getElem?_replicate]
        split <;> rfl
      rw [hmem, hnone]
      constructor
      · intro ho
        have hle := hbase o (List.reduceOption_mem_iff.mp ho)
        refine ⟨hle, .inr ?_⟩
        rwa [Nat.add_sub_cancel' hle]
      · rintro ⟨hle, hno | ho⟩
        · cases hno
        · rwa [Nat.add_sub_cancel' hle] at ho

/-- `set_filter_layout` leaves the inverse of the layout, or none. -/
theorem invertible_setFilterLayout (M : IndexManager D V) (orderedLabels : List Nat) :
    (M.setFilterLayout orderedLabels).Invertible := by
  unfold setFilterLayout
  dsimp only
  split
  · exact M.invertible_withLayout _
  · next base hmin =>
      split
      · exact M.invertible_withLayout _
      · refine M.invertible_withInverse _ base _ _ ?_
        intro o ho
        have hmem := List.reduceOption_mem_iff.mpr ho
        have hle : o ≤
            (orderedLabels.map M.vectors.getOffsetByLabel).reduceOption.max?.getD base := by
          cases hmax : (orderedLabels.map M.vectors.getOffsetByLabel).reduceOption.max? with
          | none =>
              rw [List.max?_eq_none_iff.mp hmax] at hmem
              cases hmem
          | some m => exact (List.max?_eq_some_iff.mp hmax).2 o hmem
        omega

/-! ## The two ways of counting -/

variable {M : IndexManager D V} {bitmap : BitmapPtr}

/-- The rows that pass -/
def eligibleRows (M : IndexManager D V) (bitmap : BitmapPtr) : List Nat :=
  (M.layoutRows.filter fun r => eligible bitmap r.1).map Prod.snd

theorem length_eligibleRows (b : Bitmap) :
    (M.eligibleRows (some b)).length =
      (M.layoutOffsets.reduceOption.filter fun o => b.isset o).length := by
  have hcount : ∀ (l : List (Option Nat)) (n : Nat),
      ((l.zipIdx n).filter fun r => eligible (some b) r.1).length =
        (l.reduceOption.filter fun o => b.isset o).length := by
    intro l
    induction l with
    | nil => exact fun n => rfl
    | cons x l ih =>
        intro n
        rw [List.zipIdx_cons]
        cases x with
        | none =>
            rw [List.filter_cons_of_neg (by simp [eligible]), List.reduceOption_cons_of_none]
            exact ih (n + 1)
        | some o =>
            rw [List.reduceOption_cons_of_some]
            cases ho : b.isset o with
            | true =>
                rw [List.filter_cons_of_pos (by simpa [eligible] using ho),
                  List.filter_cons_of_pos (by exact ho), List.length_cons, List.length_cons,
                  ih (n + 1)]
            | false =>
                have hno : ¬ b.isset o = true := by
                  rw [ho]
                  exact Bool.false_ne_true
                rw [List.filter_cons_of_neg (by exact hno), List.filter_cons_of_neg (by exact hno)]
                exact ih (n + 1)
  rw [eligibleRows, List.length_map]
  exact hcount M.layoutOffsets 0

/-- Looking the members of the bitmap up in the inverse counts the rows that pass. -/
theorem countInverse_eq (h : M.Invertible) (hready : M.layoutInverseReady = true) (b : Bitmap) :
    M.countInverse b = (M.eligibleRows (some b)).length := by
  rw [length_eligibleRows]
  refine List.Perm.length_eq ?_
  refine (List.perm_ext_iff_of_nodup ((Finset.sort_nodup _ _).filter _)
    ((h.nodup hready).filter _)).mpr ?_
  intro o
  rw [List.mem_filter, List.mem_filter, h.filed hready o, Finset.mem_sort, Bool.and_eq_true,
    decide_eq_true_eq, Bitmap.isset_eq_true]
  exact and_comm

/-- The scan after some rows, of which `rows` pass. -/
structure Scanned (M : IndexManager D V) (threshold : Nat) (rows : List Nat) (st : Projection) :
    Prop where
  count : st.eligibleCount = rows.length
  narrow : threshold < M.layoutOffsets.length → rows.length ≤ threshold → st.narrowRows = rows
  words : st.bitsetWords = if threshold < M.layoutOffsets.length ∧ threshold < rows.length then
    rows.foldl setRow M.emptyWords else []

omit [LinearOrder D] in
theorem length_foldl_setRow (rows words : List Nat) :
    (rows.foldl setRow words).length = words.length := by
  induction rows generalizing words with
  | nil => rfl
  | cons r rows ih =>
      rw [List.foldl_cons, ih, setRow, List.length_modify]

theorem foldl_setRow_ne_nil (rows : List Nat) (h : 0 < M.layoutOffsets.length) :
    rows.foldl setRow M.emptyWords ≠ [] := by
  intro hnil
  have hlen := congrArg List.length hnil
  rw [length_foldl_setRow, emptyWords, List.length_replicate, List.length_nil] at hlen
  omega

theorem Scanned.row {threshold : Nat} {rows : List Nat} {st : Projection}
    (h : Scanned M threshold rows st) {r : Option Nat × Nat}
    (helig : eligible bitmap r.1 = true) :
    Scanned M threshold (rows ++ [r.2]) (M.projectRow threshold bitmap st r) := by
  have hlen : (rows ++ [r.2]).length = rows.length + 1 := by simp
  simp only [projectRow, helig, if_true, h.count]
  split
  · -- the layout has at most `threshold` rows
    next hall =>
      have hno : ¬ threshold < M.layoutOffsets.length := Nat.not_lt.mpr hall
      refine ⟨hlen.symm, fun hlt => absurd hlt hno, ?_⟩
      rw [if_neg fun hc => hno hc.1]
      exact h.words.trans (if_neg fun hc => hno hc.1)
  · next hall =>
      have hlt : threshold < M.layoutOffsets.length := Nat.lt_of_not_le hall
      split
      · next hnil =>
          -- no bitset yet, so the rows are still kept
          have hfew : rows.length ≤ threshold := by
            by_contra hmany
            have hmany' := Nat.lt_of_not_le hmany
            have hwords := h.words
            rw [if_pos ⟨hlt, hmany'⟩] at hwords
            exact foldl_setRow_ne_nil rows (Nat.zero_lt_of_lt hlt) (hwords.symm.trans hnil)
          rw [h.narrow hlt hfew]
          split
          · next hcount =>
              refine ⟨hlen.symm, fun _ _ => rfl, ?_⟩
              rw [hlen, if_neg fun hc => Nat.not_lt.mpr hcount hc.2]
          · next hcount =>
              refine ⟨hlen.symm, fun _ hle => absurd (hlen ▸ hle) hcount, ?_⟩
              rw [hlen, if_pos ⟨hlt, Nat.lt_of_not_le hcount⟩]
      · next hwords =>
          have hmany : threshold < rows.length := by
            by_contra hfew
            exact hwords (h.words.trans (if_neg fun hc => hfew hc.2))
          refine ⟨hlen.symm, fun _ hle => ?_, ?_⟩
          · rw [hlen] at hle
            omega
          · have hwords' := h.words
            rw [if_pos ⟨hlt, hmany⟩] at hwords'
            rw [hlen, if_pos ⟨hlt, by omega⟩, List.foldl_append, hwords']
            rfl

/-- The scan at its end -/
theorem scanned_all (threshold : Nat) (bitmap : BitmapPtr) :
    Scanned M threshold (M.eligibleRows bitmap)
      (M.layoutRows.foldl (M.projectRow threshold bitmap) ⟨0, [], []⟩) := by
  have hfold : ∀ (l : List (Option Nat × Nat)) (rows : List Nat) (st : Projection),
      Scanned M threshold rows st →
        Scanned M threshold
          (rows ++ (l.filter fun r => eligible bitmap r.1).map Prod.snd)
          (l.foldl (M.projectRow threshold bitmap) st) := by
    intro l
    induction l with
    | nil =>
        intro rows st h
        rw [List.filter_nil, List.map_nil, List.append_nil]
        exact h
    | cons r l ih =>
        intro rows st h
        rw [List.foldl_cons]
        cases helig : eligible bitmap r.1 with
        | false =>
            have hstep : M.projectRow threshold bitmap st r = st := by simp [projectRow, helig]
            rw [hstep, List.filter_cons_of_neg (by simp [helig])]
            exact ih rows st h
        | true =>
            rw [List.filter_cons_of_pos (by exact helig), List.map_cons, List.append_cons]
            exact ih _ _ (h.row helig)
  have hstart : Scanned M threshold [] ⟨0, [], []⟩ := by
    refine ⟨rfl, fun _ _ => rfl, ?_⟩
    rw [if_neg fun hc => Nat.not_lt_zero _ hc.2]
  have hend := hfold M.layoutRows [] _ hstart
  rwa [List.nil_append] at hend

theorem length_eligibleRows_le : (M.eligibleRows bitmap).length ≤ M.layoutOffsets.length := by
  rw [eligibleRows, List.length_map]
  refine (List.length_filter_le _ _).trans ?_
  rw [layoutRows, List.length_zipIdx]

/-! ## The result of routing -/

/-- The full projection, cut down: bits only above the threshold, a token only up to it. -/
def routed (M : IndexManager D V) (bitmap : BitmapPtr) (threshold : Nat) :
    FilterResult × IndexManager D V :=
  let rows := M.eligibleRows bitmap
  let issued := M.issueToken bitmap rows.length threshold
  (⟨rows.length, if threshold < rows.length then rows.foldl setRow M.emptyWords else [], issued.1⟩,
    issued.2)

/-- What the scan ends with -/
theorem scan_eq_routed (threshold : Nat) (bitmap : BitmapPtr) :
    (let st := M.layoutRows.foldl (M.projectRow threshold bitmap) ⟨0, [], []⟩
      let issued := M.issueToken bitmap st.eligibleCount threshold
      ((⟨st.eligibleCount, st.bitsetWords, issued.1⟩ : FilterResult), issued.2)) =
      M.routed bitmap threshold := by
  obtain ⟨hcount, -, hwords⟩ := scanned_all (M := M) threshold bitmap
  simp only [routed, hcount, hwords]
  have hiff : (threshold < M.layoutOffsets.length ∧ threshold < (M.eligibleRows bitmap).length) ↔
      threshold < (M.eligibleRows bitmap).length := by
    constructor
    · exact fun hc => hc.2
    · exact fun hc => ⟨hc.trans_le length_eligibleRows_le, hc⟩
  simp only [hiff]

variable [DoubleArith D] (P : Platform D V Q)

/-- The shortcut and the scan give the same. -/
theorem evaluateFilterForRouting_eq (h : M.Invertible) (dsl : DslText D) {threshold : Nat}
    (ht : 0 < threshold) :
    M.evaluateFilterForRouting P dsl threshold = (do
      let ctx ← parseDslQuery P dsl
      let bitmap ← M.filterBitmap P ctx
      return M.routed bitmap threshold) := by
  unfold evaluateFilterForRouting
  rw [if_neg (Nat.ne_of_gt ht)]
  refine congrArg (parseDslQuery P dsl >>= ·) (funext fun ctx => ?_)
  refine congrArg (M.filterBitmap P ctx >>= ·) (funext fun bitmap => ?_)
  cases bitmap with
  | none => exact congrArg Except.ok (scan_eq_routed threshold none)
  | some b =>
      simp only
      split
      · next hshort =>
          -- at most as many rows pass as the bitmap has members
          have hcount := countInverse_eq h hshort.1 b
          have hfew : M.countInverse b ≤ threshold := by
            refine le_trans ?_ hshort.2
            rw [countInverse]
            refine (List.length_filter_le _ _).trans ?_
            rw [Finset.length_sort]
          have hno : ¬ threshold < (M.eligibleRows (some b)).length := by
            rw [← hcount]
            exact Nat.not_lt.mpr hfew
          have hrouted : M.routed (some b) threshold =
              (⟨M.countInverse b, [], (M.issueToken (some b) (M.countInverse b) threshold).1⟩,
                (M.issueToken (some b) (M.countInverse b) threshold).2) := by
            simp only [routed, if_neg hno, hcount]
          rw [hrouted]
          split
          · next hpos => simp only [issueToken, if_pos (And.intro hpos hfew)]
          · next hpos => simp only [issueToken, if_neg fun hc : _ ∧ _ => hpos hc.1]
      · exact congrArg Except.ok (scan_eq_routed threshold (some b))

/-- The two results on one state -/
structure Agrees (M : IndexManager D V) (filterGiven : Bool) (threshold : Nat)
    (full : FilterResult) (route : FilterResult × IndexManager D V) : Prop where
  count : route.1.eligibleCount = full.eligibleCount
  carries : route.1.bitsetWords ≠ [] ↔ threshold < full.eligibleCount
  words : threshold < full.eligibleCount → route.1.bitsetWords = full.bitsetWords
  token : route.1.nativeFilterToken ≠ 0 ↔
    filterGiven = true ∧ 0 < full.eligibleCount ∧ full.eligibleCount ≤ threshold
  cached : route.1.nativeFilterToken ≠ 0 →
    route.1.nativeFilterToken ∈ route.2.tokenCache.map Prod.fst
  uncached : route.1.nativeFilterToken = 0 → route.2 = M

omit [DoubleArith D] in
theorem cacheFilterBitmap_ne_zero (b : Bitmap) : (M.cacheFilterBitmap b).1 ≠ 0 := by
  show (if M.nextFilterToken = 0 then 1 else M.nextFilterToken) ≠ 0
  split
  · exact Nat.one_ne_zero
  · next hne => exact hne

omit [DoubleArith D] in
theorem issueToken_ne_zero {count limit : Nat} :
    (M.issueToken bitmap count limit).1 ≠ 0 ↔
      bitmap.isSome = true ∧ 0 < count ∧ count ≤ limit := by
  cases bitmap with
  | none => exact iff_of_false (fun h => h rfl) fun h => by cases h.1
  | some b =>
      simp only [issueToken]
      split
      · next hc => exact iff_of_true (cacheFilterBitmap_ne_zero b) ⟨rfl, hc⟩
      · next hc => exact iff_of_false (fun h => h rfl) fun h => hc h.2

omit [DoubleArith D] in
theorem issueToken_eq_zero {count limit : Nat} (h : (M.issueToken bitmap count limit).1 = 0) :
    (M.issueToken bitmap count limit).2 = M := by
  cases bitmap with
  | none => rfl
  | some b =>
      simp only [issueToken] at h ⊢
      split at h
      · exact absurd h (cacheFilterBitmap_ne_zero b)
      · next hc => rw [if_neg hc]

omit [DoubleArith D] in
theorem routed_agrees (bitmap : BitmapPtr) (threshold token : Nat) :
    Agrees M bitmap.isSome threshold
      ⟨(M.eligibleRows bitmap).length, (M.eligibleRows bitmap).foldl setRow M.emptyWords, token⟩
      (M.routed bitmap threshold) where
  count := rfl
  carries := by
    show (if _ then _ else _) ≠ [] ↔ _
    split
    · next hlt =>
        have hpos := (Nat.zero_lt_of_lt hlt).trans_le length_eligibleRows_le
        exact iff_of_true (foldl_setRow_ne_nil _ hpos) hlt
    · next hlt => exact iff_of_false (fun h => h rfl) hlt
  words := fun hlt => if_pos hlt
  token := issueToken_ne_zero
  cached := by
    intro hne
    cases bitmap with
    | none => exact absurd rfl hne
    | some b => exact List.mem_map_of_mem (mem_tokenCache_issueToken hne)
  uncached := issueToken_eq_zero

/-- Both calls fail alike, or both answer and the answers agree.  A filter is given if
there is an operator: one that does not parse counts as none, in both calls. -/
def RoutingAgrees (M : IndexManager D V) (dsl : DslText D) (maxCachedCandidates threshold : Nat) :
    Prop :=
  (∃ e, M.evaluateFilter P dsl maxCachedCandidates = .error e ∧
    M.evaluateFilterForRouting P dsl threshold = .error e) ∨
  ∃ ctx full M' route, parseDslQuery P dsl = .ok ctx ∧
    M.evaluateFilter P dsl maxCachedCandidates = .ok (full, M') ∧
    M.evaluateFilterForRouting P dsl threshold = .ok route ∧
    Agrees M ctx.filterOp.isSome threshold full route

/-- Whatever the index has and the layout is, routing agrees with the full projection.
`set_filter_layout` is the only call that makes a layout, and every change of the index
clears it. -/
theorem routing_agrees (M₀ : IndexManager D V) (orderedLabels : List Nat) (dsl : DslText D)
    (maxCachedCandidates threshold : Nat) (ht : 0 < threshold) :
    RoutingAgrees P (M₀.setFilterLayout orderedLabels) dsl maxCachedCandidates threshold := by
  unfold RoutingAgrees
  rw [evaluateFilterForRouting_eq P (M₀.invertible_setFilterLayout orderedLabels) dsl ht]
  generalize M₀.setFilterLayout orderedLabels = M
  unfold evaluateFilter
  cases hctx : parseDslQuery P dsl with
  | error e => exact .inl ⟨e, rfl, rfl⟩
  | ok ctx =>
      cases hbitmap : M.filterBitmap P ctx with
      | error e =>
          refine .inl ⟨e, ?_, ?_⟩
          · simp only [bind, Except.bind, hbitmap]
          · simp only [bind, Except.bind, hbitmap]
      | ok bitmap =>
          have hgiven : ctx.filterOp.isSome = bitmap.isSome := by
            unfold filterBitmap at hbitmap
            split at hbitmap
            · next hno =>
                cases hbitmap
                rw [hno]
                rfl
            · next op hop =>
                split at hbitmap
                · cases hbitmap
                · cases hbitmap
                  rw [hop]
                  rfl
          have hagrees := routed_agrees (M := M) bitmap threshold
            (M.issueToken bitmap (M.eligibleRows bitmap).length maxCachedCandidates).1
          refine .inr ⟨ctx, _,
            (M.issueToken bitmap (M.eligibleRows bitmap).length maxCachedCandidates).2, _, rfl,
            ?_, ?_, hgiven ▸ hagrees⟩
          · simp only [bind, Except.bind, hbitmap]
            rfl
          · simp only [bind, Except.bind, hbitmap]
            rfl

/-- The blue record under a layout with a missing label and its own twice. -/
def blueTwice : IndexManager Int Unit := Sample.blue.setFilterLayout [7, 8, 7]

/-- `{"filter": {"op": "must", "field": "color", "conds": ["blue"]}}` -/
def isBlueDsl : DslText Int :=
  .json (.obj (Sample.filterDoc (Sample.fieldJson "must" "color" ["blue"])))

/-- Rows 0 and 2 count.  They exceed a threshold of 1, and the words are carried; under
a threshold of 2 there is a token instead. -/
theorem routing_agrees_blue :
    (0 < 1 ∧ 0 < 2) ∧
    ((blueTwice.evaluateFilter Sample.platform isBlueDsl 0).toOption.map (·.1) =
        some ⟨2, [5], 0⟩ ∧
      (blueTwice.evaluateFilterForRouting Sample.platform isBlueDsl 1).toOption.map (·.1) =
        some ⟨2, [5], 0⟩ ∧
      (blueTwice.evaluateFilterForRouting Sample.platform isBlueDsl 2).toOption.map (·.1) =
        some ⟨2, [], 1⟩) ∧
    RoutingAgrees Sample.platform blueTwice isBlueDsl 0 1 ∧
      RoutingAgrees Sample.platform blueTwice isBlueDsl 0 2 :=
  ⟨⟨Nat.one_pos, Nat.two_pos⟩, ⟨by decide +kernel, by decide +kernel, by decide +kernel⟩,
    routing_agrees Sample.platform Sample.blue [7, 8, 7] isBlueDsl 0 1 Nat.one_pos,
    routing_agrees Sample.platform Sample.blue [7, 8, 7] isBlueDsl 0 2 Nat.two_pos⟩

end IndexManager

end OpenViking.Index
