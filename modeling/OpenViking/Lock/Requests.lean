/-
# `OpenViking.Lock.Requests` — the order in which a batch is locked

`normalize_requests` (`lock/manager.rs`) decides which paths a batch locks, how, and in which
order.  The result is one request for each path that is asked for, a `Tree` if any asks for that
(`Merges`), sorted by one order of all paths (`pathLt`).  So two batches go through the paths they
share in the same order, however their requests were listed.
-/
import OpenViking.Lock.Types

namespace OpenViking.Lock

open OpenViking.Lib

/-- Shorter paths first, and paths of one length in the order of their texts -/
def pathLt (p q : Str) : Prop := byteLen p < byteLen q ∨ (byteLen p = byteLen q ∧ p < q)

theorem pathLt_irrefl (p : Str) : ¬ pathLt p p := by
  rintro (h | ⟨-, h⟩)
  · exact lt_irrefl _ h
  · exact lt_irrefl _ h

theorem pathLt_trans {p q r : Str} (hpq : pathLt p q) (hqr : pathLt q r) : pathLt p r := by
  rcases hpq with h | ⟨h, hlt⟩ <;> rcases hqr with h' | ⟨h', hlt'⟩
  · exact .inl (h.trans h')
  · exact .inl (h.trans_eq h')
  · exact .inl (h.trans_lt h')
  · exact .inr ⟨h.trans h', hlt.trans hlt'⟩

instance stdIrreflPathLt : Std.Irrefl pathLt := ⟨pathLt_irrefl⟩

instance isTransPathLt : IsTrans Str pathLt := ⟨fun _ _ _ => pathLt_trans⟩

theorem requestLe_iff {a b : PathLockRequest} :
    requestLe a b ↔ pathLt a.path b.path ∨ a.path = b.path := by
  unfold requestLe pathLt
  constructor
  · rintro (h | ⟨h, hle⟩)
    · exact .inl (.inl h)
    · rcases hle.lt_or_eq with hlt | heq
      · exact .inl (.inr ⟨h, hlt⟩)
      · exact .inr heq
  · rintro ((h | ⟨h, hlt⟩) | heq)
    · exact .inl h
    · exact .inr ⟨h, hlt.le⟩
    · exact .inr ⟨by rw [heq], heq.le⟩

instance stdTotalRequestLe : Std.Total requestLe where
  total a b := by
    unfold requestLe
    rcases lt_trichotomy (byteLen a.path) (byteLen b.path) with h | h | h
    · exact .inl (.inl h)
    · exact (le_total a.path b.path).imp (fun hle => .inr ⟨h, hle⟩) fun hle => .inr ⟨h.symm, hle⟩
    · exact .inr (.inl h)

instance isTransRequestLe : IsTrans PathLockRequest requestLe where
  trans a b c hab hbc := by
    rw [requestLe_iff] at hab hbc ⊢
    rcases hab with hab | hab
    · rcases hbc with hbc | hbc
      · exact .inl (pathLt_trans hab hbc)
      · exact .inl (hbc ▸ hab)
    · rw [hab]
      exact hbc

/-! ## What the map holds -/

/-- A request of the batch asks for a lock of this kind. -/
def Asks (requests : List PathLockRequest) (path : Str) (kind : PathLockKind) : Prop :=
  ∃ r ∈ requests, normalizePath r.path = path ∧ r.kind = kind

/-- The requests for a path become one, of the stronger kind. -/
structure Merges (requests merged : List PathLockRequest) : Prop where
  nodup : (merged.map (·.path)).Nodup
  tree : ∀ p, ⟨p, .tree⟩ ∈ merged ↔ Asks requests p .tree
  exact : ∀ p, ⟨p, .exact⟩ ∈ merged ↔ Asks requests p .exact ∧ ¬ Asks requests p .tree

theorem asks_append {requests : List PathLockRequest} {r : PathLockRequest} {p : Str}
    {kind : PathLockKind} : Asks (requests ++ [r]) p kind ↔
      Asks requests p kind ∨ (p = normalizePath r.path ∧ r.kind = kind) := by
  simp [Asks, or_and_right, exists_or, eq_comm]

variable {requests acc : List PathLockRequest} {path : Str}

theorem Merges.mem_paths (h : Merges requests acc) (p : Str) :
    p ∈ acc.map (·.path) ↔ Asks requests p .tree ∨ Asks requests p .exact := by
  have hkind : p ∈ acc.map (·.path) ↔ ⟨p, .tree⟩ ∈ acc ∨ ⟨p, .exact⟩ ∈ acc := by
    rw [List.mem_map]
    constructor
    · rintro ⟨⟨p, kind⟩, hmem, rfl⟩
      cases kind
      · exact .inr hmem
      · exact .inl hmem
    · rintro (hmem | hmem)
      · exact ⟨_, hmem, rfl⟩
      · exact ⟨_, hmem, rfl⟩
  rw [hkind, h.tree, h.exact]
  tauto

/-- An exact request for a path that is known changes nothing. -/
theorem Merges.append_exact (h : Merges requests acc)
    (hmem : normalizePath path ∈ acc.map (·.path)) :
    Merges (requests ++ [⟨path, .exact⟩]) acc := by
  have hasked := (h.mem_paths _).mp hmem
  refine ⟨h.nodup, ?_, ?_⟩
  · intro p
    rw [asks_append, h.tree]
    simp
  · intro p
    rw [asks_append, asks_append, h.exact]
    by_cases hp : p = normalizePath path
    · subst hp
      tauto
    · tauto

/-- A tree request makes the request for its path one. -/
theorem Merges.append_tree (h : Merges requests acc)
    (hmem : normalizePath path ∈ acc.map (·.path)) :
    Merges (requests ++ [⟨path, .tree⟩]) (acc.map fun r =>
      if r.path = normalizePath path ∧ PathLockKind.tree = .tree then { r with kind := .tree }
      else r) := by
  refine ⟨?_, ?_, ?_⟩
  · rw [List.map_map]
    refine (List.map_congr_left fun r _ => ?_).symm ▸ h.nodup
    dsimp only [Function.comp_apply]
    split <;> rfl
  · intro p
    rw [asks_append, ← h.tree, List.mem_map]
    constructor
    · rintro ⟨r, hr, heq⟩
      split at heq
      · next hcond => exact .inr ⟨(congrArg (·.path) heq).symm.trans hcond.1, rfl⟩
      · exact .inl (heq ▸ hr)
    · rintro (hr | ⟨rfl, -⟩)
      · refine ⟨_, hr, ?_⟩
        split <;> rfl
      · obtain ⟨r, hr, hrp⟩ := List.mem_map.mp hmem
        refine ⟨r, hr, ?_⟩
        rw [if_pos ⟨hrp, rfl⟩, ← hrp]
  · intro p
    rw [asks_append, asks_append, List.mem_map]
    have hexact := h.exact p
    constructor
    · rintro ⟨r, hr, heq⟩
      split at heq
      · cases heq
      · next hcond =>
          subst heq
          simp only [and_true] at hcond
          tauto
    · intro hasks
      have hne : p ≠ normalizePath path := fun heq => hasks.2 (.inr ⟨heq, rfl⟩)
      exact ⟨⟨p, .exact⟩, by tauto, if_neg fun hcond => hne hcond.1⟩

theorem Merges.append_new (h : Merges requests acc) (hmem : normalizePath path ∉ acc.map (·.path))
    (kind : PathLockKind) :
    Merges (requests ++ [⟨path, kind⟩]) (acc ++ [⟨normalizePath path, kind⟩]) := by
  have hasked := (h.mem_paths _).not.mp hmem
  refine ⟨?_, ?_, ?_⟩
  · rw [List.map_append, List.nodup_append]
    refine ⟨h.nodup, by simp, ?_⟩
    intro p hp q hq heq
    rw [List.map_singleton, List.mem_singleton] at hq
    rw [heq, hq] at hp
    exact hmem hp
  · intro p
    rw [asks_append, List.mem_append, h.tree]
    simp [eq_comm]
  · intro p
    rw [asks_append, asks_append, List.mem_append, h.exact]
    simp only [List.mem_singleton, PathLockRequest.mk.injEq]
    by_cases hp : p = normalizePath path
    · subst hp
      cases kind <;> tauto
    · tauto

theorem Merges.mergeRequest (h : Merges requests acc) (r : PathLockRequest) :
    Merges (requests ++ [r]) (mergeRequest acc r) := by
  obtain ⟨path, kind⟩ := r
  unfold Lock.mergeRequest
  dsimp only
  split
  · next hmem =>
      cases kind with
      | exact => simpa using h.append_exact hmem
      | tree => exact h.append_tree hmem
  · next hmem => exact h.append_new hmem kind

theorem merges_foldl (requests : List PathLockRequest) :
    Merges requests (requests.foldl mergeRequest []) := by
  induction requests using List.reverseRecOn with
  | nil => exact ⟨.nil, by simp [Asks], by simp [Asks]⟩
  | append_singleton requests r ih =>
      rw [List.foldl_append]
      exact ih.mergeRequest r

/-! ## The order -/

def lockOrder (requests : List PathLockRequest) : List Str :=
  (normalizeRequests requests).map (·.path)

theorem lockOrder_pairwise (requests : List PathLockRequest) :
    (lockOrder requests).Pairwise pathLt := by
  have hsorted := List.pairwise_insertionSort requestLe (requests.foldl mergeRequest [])
  have hnodup : (lockOrder requests).Nodup :=
    (((List.perm_insertionSort requestLe _).map _).nodup_iff).mpr (merges_foldl requests).nodup
  rw [lockOrder, List.Nodup, List.pairwise_map] at hnodup
  rw [lockOrder, List.pairwise_map]
  refine (hsorted.and hnodup).imp ?_
  rintro a b ⟨hle, hne⟩
  exact (requestLe_iff.mp hle).resolve_right hne

/-- What a batch locks, each path once and shorter ones first, does not depend on the order or the
number of its requests, and two batches lock the paths that both ask for in the same order. -/
theorem normalizeRequests_order (a b : List PathLockRequest) :
    (∀ p kind, ⟨p, kind⟩ ∈ normalizeRequests a ↔
      Asks a p kind ∧ (kind = .exact → ¬ Asks a p .tree)) ∧
    (lockOrder a).Pairwise pathLt ∧ (lockOrder a).Nodup ∧
    (lockOrder a).filter (· ∈ lockOrder b) = (lockOrder b).filter (· ∈ lockOrder a) ∧
    ((∀ r, r ∈ a ↔ r ∈ b) → normalizeRequests a = normalizeRequests b) := by
  have hmem : ∀ requests p kind, ⟨p, kind⟩ ∈ normalizeRequests requests ↔
      Asks requests p kind ∧ (kind = .exact → ¬ Asks requests p .tree) := by
    intro requests p kind
    rw [normalizeRequests, List.mem_insertionSort]
    cases kind with
    | exact => simp [(merges_foldl requests).exact p]
    | tree => simp [(merges_foldl requests).tree p]
  have hnodup : (lockOrder a).Nodup := by
    refine (lockOrder_pairwise a).imp ?_
    rintro p q hlt rfl
    exact pathLt_irrefl p hlt
  refine ⟨hmem a, lockOrder_pairwise a, hnodup, ?_, ?_⟩
  · refine List.Pairwise.eq_of_mem_iff ((lockOrder_pairwise a).filter _)
      ((lockOrder_pairwise b).filter _) ?_
    intro p
    simp [and_comm]
  · intro hsame
    have hasks : ∀ p kind, Asks a p kind ↔ Asks b p kind := by
      intro p kind
      unfold Asks
      exact exists_congr fun r => and_congr_left fun _ => hsame r
    have hpairs : ∀ requests, (normalizeRequests requests).Pairwise fun r s =>
      pathLt r.path s.path :=
      fun requests => List.pairwise_map.mp (lockOrder_pairwise requests)
    have : Std.Irrefl fun r s : PathLockRequest => pathLt r.path s.path :=
      ⟨fun r => pathLt_irrefl r.path⟩
    have : IsTrans PathLockRequest fun r s => pathLt r.path s.path := ⟨fun _ _ _ => pathLt_trans⟩
    refine List.Pairwise.eq_of_mem_iff (hpairs a) (hpairs b) ?_
    rintro ⟨p, kind⟩
    rw [hmem, hmem, hasks, hasks]

end OpenViking.Lock
