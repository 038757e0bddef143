/-
# `OpenViking.Lib.OrderedTable` — a key-value table in key order

A finite map that is read by key and by ranges of keys: `std::map`, or a table
of an embedded store.  The entries are kept in the order of the keys, so a range
comes out in that order.  A batch is a list of `put`s or `erase`s, one after the
other.
-/
import Mathlib.Order.Basic
import Mathlib.Data.List.Nodup
import Mathlib.Data.List.Pairwise
import Mathlib.Data.List.Sort

namespace OpenViking.Lib

/-- A finite map with its entries in increasing order of the keys. -/
structure Table (K α : Type) [LinearOrder K] where
  entries : List (K × α)
  sorted : entries.Pairwise fun a b => a.1 < b.1

namespace Table

variable {K α : Type} [LinearOrder K]

def empty : Table K α := ⟨[], .nil⟩

def find (t : Table K α) (k : K) : Option α := (t.entries.find? (·.1 = k)).map Prod.snd

/-- The entries before a key -/
def below (t : Table K α) (k : K) : List (K × α) := t.entries.filter (·.1 < k)

/-- The entries from a key on -/
def since (t : Table K α) (k : K) : List (K × α) := t.entries.filter (k ≤ ·.1)

/-- The entries after a key, or all of them -/
def after (t : Table K α) : Option K → List (K × α)
  | none => t.entries
  | some k => t.entries.filter (k < ·.1)

def put (t : Table K α) (k : K) (a : α) : Table K α where
  entries := t.below k ++ (k, a) :: t.entries.filter (k < ·.1)
  sorted := by
    rw [List.pairwise_append]
    refine ⟨t.sorted.filter _, List.pairwise_cons.mpr ⟨fun e he => ?_, t.sorted.filter _⟩, ?_⟩
    · exact of_decide_eq_true (List.mem_filter.mp he).2
    · intro e he e' he'
      have hlt : e.1 < k := of_decide_eq_true (List.mem_filter.mp he).2
      rcases List.mem_cons.mp he' with rfl | he'
      · exact hlt
      · exact hlt.trans (of_decide_eq_true (List.mem_filter.mp he').2)

def erase (t : Table K α) (k : K) : Table K α :=
  ⟨t.entries.filter (·.1 ≠ k), t.sorted.filter _⟩

def putAll (t : Table K α) (es : List (K × α)) : Table K α := es.foldl (fun t e => t.put e.1 e.2) t

def eraseAll (t : Table K α) (ks : List K) : Table K α := ks.foldl erase t

variable {t : Table K α} {k k' : K} {a : α}

theorem key_of_find? {es : List (K × α)} {e : K × α} (h : es.find? (·.1 = k) = some e) :
    e.1 = k := by
  simpa using List.find?_some h

theorem nodup_keys (t : Table K α) : (t.entries.map Prod.fst).Nodup :=
  List.pairwise_map.mpr (t.sorted.imp fun h => h.ne)

theorem find_eq_some : t.find k = some a ↔ (k, a) ∈ t.entries := by
  unfold find
  rw [Option.map_eq_some_iff]
  constructor
  · rintro ⟨⟨k', a'⟩, he, rfl⟩
    have hk : k' = k := key_of_find? he
    exact hk ▸ List.mem_of_find?_eq_some he
  · intro hmem
    obtain ⟨e, he⟩ : ∃ e, t.entries.find? (·.1 = k) = some e :=
      Option.isSome_iff_exists.mp (List.find?_isSome.mpr ⟨(k, a), hmem, by simp⟩)
    have hk : e.1 = k := key_of_find? he
    have heq : e = (k, a) :=
      List.inj_on_of_nodup_map t.nodup_keys (List.mem_of_find?_eq_some he) hmem hk
    exact ⟨e, he, congrArg Prod.snd heq⟩

/-- An entry is found under its key. -/
theorem find_of_mem {e : K × α} (h : e ∈ t.entries) : t.find e.1 = some e.2 := find_eq_some.mpr h

theorem mem_put {e : K × α} : e ∈ (t.put k a).entries ↔ e = (k, a) ∨ e ∈ t.entries ∧ e.1 ≠ k := by
  simp only [put, below, List.mem_append, List.mem_cons, List.mem_filter, decide_eq_true_eq]
  constructor
  · rintro (⟨he, hlt⟩ | rfl | ⟨he, hlt⟩)
    · exact .inr ⟨he, hlt.ne⟩
    · exact .inl rfl
    · exact .inr ⟨he, hlt.ne'⟩
  · rintro (rfl | ⟨he, hne⟩)
    · exact .inr (.inl rfl)
    · rcases lt_or_gt_of_ne hne with hlt | hgt
      · exact .inl ⟨he, hlt⟩
      · exact .inr (.inr ⟨he, hgt⟩)

theorem find_put : (t.put k a).find k' = if k' = k then some a else t.find k' := by
  refine Option.ext fun b => ?_
  rw [find_eq_some, mem_put]
  split
  · next h => simp [h, eq_comm]
  · next h => simp [h, find_eq_some]

theorem find_erase : (t.erase k).find k' = if k' = k then none else t.find k' := by
  refine Option.ext fun b => ?_
  rw [find_eq_some, erase, List.mem_filter]
  split
  · next h => simp [h]
  · next h => simp [h, find_eq_some]

theorem find_eraseAll {ks : List K} :
    (t.eraseAll ks).find k = if k ∈ ks then none else t.find k := by
  unfold eraseAll
  induction ks generalizing t with
  | nil => simp
  | cons k' ks ih =>
      rw [List.foldl_cons, ih, find_erase]
      by_cases hk : k = k'
      · simp [hk]
      · simp [hk]

/-- What a batch leaves under a key comes from its last entry for the key, if it
has one. -/
theorem find_putAll {es : List (K × α)} :
    (t.putAll es).find k = ((es.reverse.find? (·.1 = k)).map Prod.snd).or (t.find k) := by
  unfold putAll
  induction es generalizing t with
  | nil => simp
  | cons e es ih =>
      rw [List.foldl_cons, ih, find_put, List.reverse_cons, List.find?_append]
      cases es.reverse.find? (·.1 = k) with
      | some found => simp
      | none =>
          by_cases hk : k = e.1
          · simp [hk]
          · simp [hk, Ne.symm hk]

theorem find_putAll_of_notMem {es : List (K × α)} (h : ∀ e ∈ es, e.1 ≠ k) :
    (t.putAll es).find k = t.find k := by
  have hnone : es.reverse.find? (·.1 = k) = none :=
    List.find?_eq_none.mpr fun e he => by simpa using h e (List.mem_reverse.mp he)
  rw [find_putAll, hnone]
  rfl

/-- Rows of a batch that agree on the value of a key leave that value. -/
theorem find_putAll_of_mem {es : List (K × α)} (h : (k, a) ∈ es)
    (hagree : ∀ e ∈ es, e.1 = k → e.2 = a) : (t.putAll es).find k = some a := by
  obtain ⟨e, he⟩ : ∃ e, es.reverse.find? (·.1 = k) = some e :=
    Option.isSome_iff_exists.mp
      (List.find?_isSome.mpr ⟨(k, a), List.mem_reverse.mpr h, decide_eq_true rfl⟩)
  have hval := hagree e (List.mem_reverse.mp (List.mem_of_find?_eq_some he)) (key_of_find? he)
  rw [find_putAll, he, ← hval]
  rfl

theorem find_putAll_eq_some {es : List (K × α)} (h : (t.putAll es).find k = some a) :
    (k, a) ∈ es ∨ t.find k = some a := by
  rw [find_putAll] at h
  cases hf : es.reverse.find? (·.1 = k) with
  | none =>
      rw [hf] at h
      exact .inr h
  | some e =>
      rw [hf] at h
      have hk : e.1 = k := key_of_find? hf
      have ha : e.2 = a := Option.some.inj h
      exact .inl (hk ▸ ha ▸ List.mem_reverse.mp (List.mem_of_find?_eq_some hf))

theorem mem_below {e : K × α} : e ∈ t.below k ↔ e ∈ t.entries ∧ e.1 < k := by
  simp [below]

theorem mem_since {e : K × α} : e ∈ t.since k ↔ e ∈ t.entries ∧ k ≤ e.1 := by
  simp [since]

end Table

end OpenViking.Lib
