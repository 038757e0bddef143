/-
# `OpenViking.Index.Knn` — the search finds the best rows

`search_knn` offers the rows one after another to a queue of at most `k`.  What has
been offered is at any time split into the queue and a rest no member of which is
better than a member of the queue (`Best`).  At the end the queue is the answer, and
the rows under a bitmap are the rows of the buffer whose offset it has
(`candidates_perm`).
-/
import OpenViking.Index.Bruteforce

namespace OpenViking.Index

open OpenViking.Lib

namespace BruteforceSearch

variable {V D : Type} [LinearOrder D]

/-- The queue, and what was offered and is not in it -/
structure Best (k : Nat) (offered pq rest : List (D ×ₗ Nat)) : Prop where
  split : (pq ++ rest).Perm offered
  sorted : pq.Pairwise (· ≤ ·)
  le : pq.length ≤ k
  full : rest ≠ [] → pq.length = k
  best : ∀ x ∈ rest, ∀ y ∈ pq, (ofLex x).1 ≤ (ofLex y).1

namespace Best

variable {k : Nat} {offered pq rest : List (D ×ₗ Nat)}

theorem nil : Best k ([] : List (D ×ₗ Nat)) [] [] :=
  ⟨List.Perm.refl _, List.Pairwise.nil, Nat.zero_le _, fun h => absurd rfl h,
    fun _ h => by cases h⟩

/-- There is room. -/
theorem push (h : Best k offered pq rest) (hroom : pq.length < k) (e : D ×ₗ Nat) :
    Best k (offered ++ [e]) (pq.orderedInsert (· ≤ ·) e) rest := by
  have hrest : rest = [] := by
    by_contra hne
    exact absurd (h.full hne) hroom.ne
  subst hrest
  refine ⟨?_, h.sorted.orderedInsert e pq, ?_, fun hne => absurd rfl hne, fun _ hx => by cases hx⟩
  · calc pq.orderedInsert (· ≤ ·) e ++ []
        = pq.orderedInsert (· ≤ ·) e := List.append_nil _
      _ |>.Perm (e :: pq) := List.perm_orderedInsert _ e pq
      _ |>.Perm (offered ++ [e]) := by
          have hsplit := h.split
          rw [List.append_nil] at hsplit
          exact (hsplit.cons e).trans (List.perm_append_singleton e offered).symm
  · rw [List.orderedInsert_length]
    exact hroom

/-- The worst of the queue makes room. -/
theorem replace {worst : D ×ₗ Nat} (h : Best k offered (worst :: pq) rest)
    (hfull : (worst :: pq).length = k) {e : D ×ₗ Nat}
    (hbetter : (ofLex worst).1 < (ofLex e).1) :
    Best k (offered ++ [e]) (pq.orderedInsert (· ≤ ·) e) (worst :: rest) := by
  obtain ⟨hworst, hsorted⟩ := List.pairwise_cons.mp h.sorted
  have hmem : ∀ {y}, y ∈ pq.orderedInsert (· ≤ ·) e → y = e ∨ y ∈ pq :=
    fun hy => (List.mem_orderedInsert _).mp hy
  refine ⟨?_, hsorted.orderedInsert e pq, ?_, ?_, ?_⟩
  · have hinsert := (List.perm_orderedInsert (· ≤ ·) e pq).append_right (worst :: rest)
    refine hinsert.trans ?_
    have hmid : (e :: pq ++ worst :: rest).Perm (e :: (worst :: pq ++ rest)) :=
      (List.perm_middle).cons e
    exact hmid.trans ((h.split.cons e).trans (List.perm_append_singleton e offered).symm)
  · rw [List.orderedInsert_length]
    exact h.le
  · intro _
    rw [List.orderedInsert_length]
    exact hfull
  · intro x hx y hy
    rcases List.mem_cons.mp hx with rfl | hx
    · rcases hmem hy with rfl | hy
      · exact hbetter.le
      · exact Prod.Lex.monotone_fst _ _ (hworst y hy)
    · have hxw := h.best x hx worst List.mem_cons_self
      rcases hmem hy with rfl | hy
      · exact hxw.trans hbetter.le
      · exact h.best x hx y (List.mem_cons_of_mem _ hy)

/-- The queue stays. -/
theorem refuse (h : Best k offered pq rest) (hfull : pq.length = k) {e : D ×ₗ Nat}
    (hworse : ∀ y ∈ pq, (ofLex e).1 ≤ (ofLex y).1) :
    Best k (offered ++ [e]) pq (e :: rest) := by
  refine ⟨?_, h.sorted, h.le, fun _ => hfull, ?_⟩
  · refine List.perm_middle.trans ?_
    exact (h.split.cons e).trans (List.perm_append_singleton e offered).symm
  · intro x hx y hy
    rcases List.mem_cons.mp hx with rfl | hx
    · exact hworse y hy
    · exact h.best x hx y hy

theorem offer (h : Best k offered pq rest) (score : D) (label : Nat) :
    ∃ rest', Best k (offered ++ [toLex (score, label)])
      (BruteforceSearch.offer k pq score label) rest' := by
  unfold BruteforceSearch.offer
  split
  · next hroom => exact ⟨rest, h.push hroom _⟩
  · next hroom =>
      have hfull : pq.length = k := le_antisymm h.le (Nat.le_of_not_lt hroom)
      split
      · exact ⟨_, h.refuse hfull fun y hy => by cases hy⟩
      · next worst pq' =>
          split
          · next hbetter => exact ⟨_, h.replace hfull hbetter⟩
          · next hworse =>
              refine ⟨_, h.refuse hfull fun y hy => ?_⟩
              have hworst : (ofLex worst).1 ≤ (ofLex y).1 := by
                rcases List.mem_cons.mp hy with rfl | hy
                · exact le_rfl
                · exact Prod.Lex.monotone_fst _ _ ((List.pairwise_cons.mp h.sorted).1 y hy)
              exact (not_lt.mp hworse).trans hworst

/-- The queue after all rows -/
theorem foldl (score : VectorRow V → D) (k : Nat) (rows : List (VectorRow V)) :
    ∃ rest, Best k (rows.map fun r => toLex (score r, r.label))
      (rows.foldl (fun pq r => BruteforceSearch.offer k pq (score r) r.label) []) rest := by
  have hfold : ∀ (rows : List (VectorRow V)) (offered pq rest : List (D ×ₗ Nat)),
      Best k offered pq rest →
        ∃ rest', Best k (offered ++ rows.map fun r => toLex (score r, r.label))
          (rows.foldl (fun pq r => BruteforceSearch.offer k pq (score r) r.label) pq) rest' := by
    intro rows
    induction rows with
    | nil =>
        intro offered pq rest h
        rw [List.map_nil, List.append_nil]
        exact ⟨rest, h⟩
    | cons r rows ih =>
        intro offered pq rest h
        obtain ⟨rest', h'⟩ := h.offer (score r) r.label
        rw [List.map_cons, List.append_cons]
        exact ih _ _ _ h'
  exact hfold rows [] [] [] nil

end Best

/-! ## What a search answers -/

/-- `found` are the labels and scores of `k` best of the rows, best first. -/
structure IsKnn (score : VectorRow V → D) (k : Nat) (rows : List (VectorRow V))
    (found : List (Nat × D)) : Prop where
  length : found.length = min k rows.length
  sorted : found.Pairwise fun a b => b.2 ≤ a.2
  distinct : (found.map Prod.fst).Nodup
  real : ∀ f ∈ found, ∃ r ∈ rows, f = (r.label, score r)
  best : ∀ r ∈ rows, r.label ∉ found.map Prod.fst → ∀ f ∈ found, score r ≤ f.2

/-- The order of the rows does not matter. -/
theorem IsKnn.perm {score : VectorRow V → D} {k : Nat} {rows rows' : List (VectorRow V)}
    {found : List (Nat × D)} (h : IsKnn score k rows found) (hperm : rows.Perm rows') :
    IsKnn score k rows' found := by
  refine ⟨by rw [h.length, hperm.length_eq], h.sorted, h.distinct, ?_, ?_⟩
  · intro f hf
    obtain ⟨r, hr, he⟩ := h.real f hf
    exact ⟨r, hperm.mem_iff.mp hr, he⟩
  · exact fun r hr => h.best r (hperm.mem_iff.mpr hr)

variable {s : BruteforceSearch V}

/-- Rows with distinct labels: the queue at the end is the answer. -/
theorem isKnn_searchKnn (score : VectorRow V → D) (k : Nat) (filter : BitmapPtr)
    (hlabels : ((s.candidates filter).map (·.label)).Nodup) :
    IsKnn score k (s.candidates filter) (s.searchKnn score k filter) := by
  obtain ⟨rest, h⟩ := Best.foldl score k (s.candidates filter)
  unfold searchKnn
  generalize (s.candidates filter).foldl (fun pq r => offer k pq (score r) r.label) [] = pq at h ⊢
  generalize s.candidates filter = rows at h hlabels ⊢
  have hlen : pq.length + rest.length = rows.length := by
    rw [← List.length_append, h.split.length_eq, List.length_map]
  have hfst : ((pq.map fun e => ((ofLex e).2, (ofLex e).1)).reverse).map Prod.fst =
      (pq.map fun e => (ofLex e).2).reverse := by
    rw [List.map_reverse, List.map_map]
    rfl
  -- the labels of the queue and of the rest together are the labels of the rows
  have hall : ((pq ++ rest).map fun e => (ofLex e).2).Nodup := by
    refine (h.split.map _).nodup_iff.mpr ?_
    rw [List.map_map]
    exact hlabels
  refine ⟨?_, ?_, ?_, ?_, ?_⟩
  · rw [List.length_reverse, List.length_map]
    by_cases hrest : rest = []
    · rw [hrest, List.length_nil] at hlen
      have := h.le
      omega
    · have := h.full hrest
      omega
  · rw [List.pairwise_reverse, List.pairwise_map]
    exact h.sorted.imp fun hle => Prod.Lex.monotone_fst _ _ hle
  · rw [hfst, List.nodup_reverse]
    rw [List.map_append] at hall
    exact hall.of_append_left
  · intro f hf
    obtain ⟨e, he, rfl⟩ := List.mem_map.mp (List.mem_reverse.mp hf)
    have hoffered := h.split.mem_iff.mp (List.mem_append_left rest he)
    obtain ⟨r, hr, rfl⟩ := List.mem_map.mp hoffered
    exact ⟨r, hr, rfl⟩
  · intro r hr hnot f hf
    obtain ⟨e, he, rfl⟩ := List.mem_map.mp (List.mem_reverse.mp hf)
    rw [hfst, List.mem_reverse] at hnot
    have hoffered := h.split.mem_iff.mpr (List.mem_map_of_mem hr)
    rcases List.mem_append.mp hoffered with hin | hin
    · exact absurd (List.mem_map_of_mem (f := fun e : D ×ₗ Nat => (ofLex e).2) hin) hnot
    · exact h.best _ hin e he

/-- The rows a search looks at -/
def matching (s : BruteforceSearch V) : BitmapPtr → List (VectorRow V)
  | none => s.rows
  | some b => s.rows.filter fun r => r.offset ∈ b.elems

omit [LinearOrder D] in
theorem Consistent.rows_nodup (h : s.Consistent) : s.rows.Nodup := by
  refine List.nodup_iff_getElem?_ne_getElem?.mpr ?_
  intro i j hij hj heq
  have hget : s.rows[j]? = some s.rows[j] := List.getElem?_eq_getElem hj
  have hi := (h.label s.rows[j].label i).mpr ⟨_, heq.trans hget, rfl⟩
  have hj' := (h.label s.rows[j].label j).mpr ⟨_, hget, rfl⟩
  exact hij.ne (Option.some.inj (hi.symm.trans hj'))

omit [LinearOrder D] in
/-- The offsets of a bitmap lead to the rows that have them. -/
theorem candidates_perm (h : s.Consistent) (filter : BitmapPtr) :
    (s.candidates filter).Perm (s.matching filter) := by
  cases filter with
  | none => exact List.Perm.refl _
  | some b =>
      refine (List.perm_ext_iff_of_nodup ?_ (h.rows_nodup.filter _)).mpr ?_
      · refine List.Nodup.filterMap ?_ (Finset.sort_nodup b.elems (· ≤ ·))
        intro o o' r hr hr'
        have ho := (h.offset.find_eq_some.mp hr).2
        have ho' := (h.offset.find_eq_some.mp hr').2
        exact ho.symm.trans ho'
      · intro r
        simp only [candidates, List.mem_filterMap, List.mem_filter, decide_eq_true_eq,
          Finset.mem_sort]
        constructor
        · rintro ⟨o, ho, hr⟩
          obtain ⟨hmem, rfl⟩ := h.offset.find_eq_some.mp hr
          exact ⟨hmem, ho⟩
        · rintro ⟨hr, ho⟩
          exact ⟨r.offset, ho, h.offset.find_eq_some.mpr ⟨hr, rfl⟩⟩

omit [LinearOrder D] in
theorem Consistent.labels_nodup (h : s.Consistent) : (s.rows.map (·.label)).Nodup :=
  List.Nodup.map_on (fun _ hr _ hr' he => h.label.key_inj hr hr' he) h.rows_nodup

omit [LinearOrder D] in
theorem Consistent.offsets_nodup (h : s.Consistent) : (s.rows.map (·.offset)).Nodup :=
  List.Nodup.map_on (fun _ hr _ hr' he => h.offset.key_inj hr hr' he) h.rows_nodup

/-- A search of a consistent index finds the best of the rows under its bitmap. -/
theorem Consistent.searchKnn_isKnn (h : s.Consistent) (score : VectorRow V → D) (k : Nat)
    (filter : BitmapPtr) : IsKnn score k (s.matching filter) (s.searchKnn score k filter) := by
  have hperm := candidates_perm h filter
  refine (isKnn_searchKnn score k filter ?_).perm hperm
  refine (hperm.map _).nodup_iff.mpr ?_
  cases filter with
  | none => exact h.labels_nodup
  | some b => exact h.labels_nodup.sublist ((List.filter_sublist).map _)

end BruteforceSearch

end OpenViking.Index
