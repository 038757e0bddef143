/-
# `OpenViking.Lib.Dict` — a dictionary that remembers the order of its keys

Setting a key that is there changes its value in place; a new key goes to the end.

    `get_upserts`    a loop of updates, seen at one key, is a loop over the items with
                     that key
    `keys_upserts`   the keys come in the order in which they are first met
    `ext_get`        two dictionaries with the same keys in the same order and the same
                     values are equal
-/
import Mathlib.Data.List.Nodup
import Mathlib.Data.List.Basic

namespace OpenViking.Lib

structure Dict (K V : Type) where
  items : List (K × V)
  nodup : (items.map Prod.fst).Nodup

namespace Dict

variable {K V α : Type} [DecidableEq K]

def empty : Dict K V := ⟨[], List.nodup_nil⟩

def keys (d : Dict K V) : List K := d.items.map Prod.fst

def values (d : Dict K V) : List V := d.items.map Prod.snd

/-- The value of a key in a list of items -/
def lookup (k : K) : List (K × V) → Option V
  | [] => none
  | (k', v) :: items => if k' = k then some v else lookup k items

def get (d : Dict K V) (k : K) : Option V := lookup k d.items

/-- Change the value of a key in place, or add the key at the end. -/
def put (k : K) (v : V) : List (K × V) → List (K × V)
  | [] => [(k, v)]
  | (k', v') :: items => if k' = k then (k, v) :: items else (k', v') :: put k v items

theorem keys_put (k : K) (v : V) (items : List (K × V)) :
    (put k v items).map Prod.fst =
      if k ∈ items.map Prod.fst then items.map Prod.fst else items.map Prod.fst ++ [k] := by
  induction items with
  | nil => rfl
  | cons item items ih =>
      obtain ⟨k', v'⟩ := item
      unfold put
      by_cases hk : k' = k
      · rw [if_pos hk, if_pos (by rw [← hk]; exact List.mem_cons_self), List.map_cons,
          List.map_cons,
          hk]
      · rw [if_neg hk, List.map_cons, List.map_cons, ih]
        by_cases hmem : k ∈ items.map Prod.fst
        · rw [if_pos hmem, if_pos (List.mem_cons_of_mem _ hmem)]
        · rw [if_neg hmem, if_neg fun h => (List.mem_cons.mp h).elim (fun h => hk h.symm) hmem]
          rfl

def set (d : Dict K V) (k : K) (v : V) : Dict K V where
  items := put k v d.items
  nodup := by
    rw [keys_put]
    split
    · exact d.nodup
    · next h => exact List.nodup_append.mpr ⟨d.nodup, List.nodup_singleton k,
        fun a ha b hb hab => h (by rw [← List.mem_singleton.mp hb, ← hab]; exact ha)⟩

/-- Set the value of a key to one that depends on the old value. -/
def upsert (d : Dict K V) (k : K) (f : Option V → V) : Dict K V := d.set k (f (d.get k))

theorem lookup_put (k k' : K) (v : V) (items : List (K × V)) :
    lookup k' (put k v items) = if k = k' then some v else lookup k' items := by
  induction items with
  | nil => rfl
  | cons item items ih =>
      obtain ⟨j, w⟩ := item
      unfold put
      by_cases hj : j = k
      · subst hj
        rw [if_pos rfl]
        unfold lookup
        split <;> rfl
      · rw [if_neg hj]
        unfold lookup
        rw [ih]
        by_cases hj' : j = k'
        · rw [if_pos hj', if_pos hj', if_neg fun h => hj (hj'.trans h.symm)]
        · rw [if_neg hj', if_neg hj']

theorem get_set (d : Dict K V) (k k' : K) (v : V) :
    (d.set k v).get k' = if k = k' then some v else d.get k' :=
  lookup_put k k' v d.items

theorem keys_set (d : Dict K V) (k : K) (v : V) :
    (d.set k v).keys = if k ∈ d.keys then d.keys else d.keys ++ [k] :=
  keys_put k v d.items

theorem lookup_eq_none {k : K} {items : List (K × V)} :
    lookup k items = none ↔ k ∉ items.map Prod.fst := by
  induction items with
  | nil => exact iff_of_true rfl List.not_mem_nil
  | cons item items ih =>
      unfold lookup
      rw [List.map_cons, List.mem_cons, not_or, ← ih]
      split
      · next h => exact iff_of_false (Option.some_ne_none _) fun h' => h'.1 h.symm
      · next h => exact ⟨fun h' => ⟨fun heq => h heq.symm, h'⟩, And.right⟩

theorem get_eq_none {d : Dict K V} {k : K} : d.get k = none ↔ k ∉ d.keys := lookup_eq_none

theorem lookup_eq_some {k : K} {v : V} {items : List (K × V)}
    (hnodup : (items.map Prod.fst).Nodup) :
    lookup k items = some v ↔ (k, v) ∈ items := by
  induction items with
  | nil => exact iff_of_false (Option.some_ne_none v).symm List.not_mem_nil
  | cons item items ih =>
      obtain ⟨j, w⟩ := item
      rw [List.map_cons, List.nodup_cons] at hnodup
      unfold lookup
      rw [List.mem_cons, Prod.mk.injEq]
      by_cases hj : j = k
      · subst hj
        rw [if_pos rfl, Option.some.injEq]
        refine ⟨fun h => .inl ⟨rfl, h.symm⟩, ?_⟩
        rintro (⟨-, rfl⟩ | h)
        · rfl
        · exact absurd (List.mem_map.mpr ⟨_, h, rfl⟩) hnodup.1
      · rw [if_neg hj, ih hnodup.2]
        exact ⟨.inr, fun h => h.resolve_left fun h => hj h.1.symm⟩

theorem get_eq_some {d : Dict K V} {k : K} {v : V} : d.get k = some v ↔ (k, v) ∈ d.items :=
  lookup_eq_some d.nodup

/-- Remove a key. -/
def erase (d : Dict K V) (k : K) : Dict K V where
  items := d.items.filter (·.1 ≠ k)
  nodup := d.nodup.sublist (List.filter_sublist.map _)

theorem get_erase (d : Dict K V) (k k' : K) :
    (d.erase k).get k' = if k = k' then none else d.get k' := by
  refine Option.ext fun v => ?_
  rw [get_eq_some]
  change (k', v) ∈ d.items.filter _ ↔ _
  rw [List.mem_filter, decide_eq_true_eq, ← get_eq_some]
  split
  · next h => exact iff_of_false (fun h' => h'.2 h.symm) (Option.some_ne_none v).symm
  · next h => exact ⟨And.left, fun h' => ⟨h', fun heq => h heq.symm⟩⟩

theorem mem_values {d : Dict K V} {v : V} : v ∈ d.values ↔ ∃ k, d.get k = some v := by
  unfold values
  rw [List.mem_map]
  constructor
  · rintro ⟨⟨k, w⟩, h, rfl⟩
    exact ⟨k, get_eq_some.mpr h⟩
  · rintro ⟨k, h⟩
    exact ⟨(k, v), get_eq_some.mp h, rfl⟩

/-- The keys and the values determine the items. -/
theorem ext_get {d e : Dict K V} (hkeys : d.keys = e.keys)
    (hget : ∀ k, d.get k = e.get k) : d = e := by
  obtain ⟨items, hd⟩ := d
  obtain ⟨items', he⟩ := e
  congr 1
  change items.map Prod.fst = items'.map Prod.fst at hkeys
  refine List.ext_getElem (by simpa using congrArg List.length hkeys) fun i hi hi' => ?_
  have hk : items[i].1 = items'[i].1 := by
    have := congrArg (·[i]?) hkeys
    simpa [hi, hi'] using this
  have hv : lookup items[i].1 items = some items[i].2 :=
    (lookup_eq_some hd).mpr (List.getElem_mem hi)
  have hv' : lookup items'[i].1 items' = some items'[i].2 :=
    (lookup_eq_some he).mpr (List.getElem_mem hi')
  have hsame : lookup items[i].1 items = lookup items[i].1 items' := hget _
  rw [hv, hk, hv'] at hsame
  exact Prod.ext hk (Option.some.inj hsame)

/-! ## Loops of updates -/

/-- Update the key of every item of a list, one after the other. -/
def upserts (key : α → K) (f : α → Option V → V) (d : Dict K V) (l : List α) : Dict K V :=
  l.foldl (fun d a => d.upsert (key a) (f a)) d

variable {key : α → K} {f : α → Option V → V}

theorem get_upsert (d : Dict K V) (k k' : K) (g : Option V → V) :
    (d.upsert k g).get k' = if k = k' then some (g (d.get k')) else d.get k' := by
  unfold upsert
  rw [get_set]
  split
  · next h => rw [h]
  · rfl

theorem get_upserts (d : Dict K V) (l : List α) (k : K) :
    (d.upserts key f l).get k =
      (l.filter (key · = k)).foldl (fun o a => some (f a o)) (d.get k) := by
  unfold upserts
  induction l generalizing d with
  | nil => rfl
  | cons a l ih =>
      rw [List.foldl_cons, ih, get_upsert]
      by_cases hk : key a = k
      · rw [if_pos hk, List.filter_cons_of_pos (by exact decide_eq_true hk)]
        rfl
      · rw [if_neg hk, List.filter_cons_of_neg (by rw [decide_eq_true_eq]; exact hk)]

/-- Keys that are there already stay where they are. -/
theorem keys_upserts_of_subset (d : Dict K V) (l : List α) (h : ∀ a ∈ l, key a ∈ d.keys) :
    (d.upserts key f l).keys = d.keys := by
  unfold upserts
  induction l generalizing d with
  | nil => rfl
  | cons a l ih =>
      have hkeys : (d.upsert (key a) (f a)).keys = d.keys := by
        unfold upsert
        rw [keys_set, if_pos (h a List.mem_cons_self)]
      rw [List.foldl_cons, ih, hkeys]
      intro b hb
      rw [hkeys]
      exact h b (List.mem_cons_of_mem _ hb)

theorem mem_keys_upserts (d : Dict K V) (l : List α) (k : K) :
    k ∈ (d.upserts key f l).keys ↔ k ∈ d.keys ∨ ∃ a ∈ l, key a = k := by
  unfold upserts
  induction l generalizing d with
  | nil => simp
  | cons a l ih =>
      have hkeys : k ∈ (d.upsert (key a) (f a)).keys ↔ k ∈ d.keys ∨ key a = k := by
        unfold upsert
        rw [keys_set]
        split
        · next h => exact ⟨.inl, fun h' => h'.elim id fun heq => heq ▸ h⟩
        · rw [List.mem_append, List.mem_singleton, eq_comm]
      rw [List.foldl_cons, ih, hkeys, List.exists_mem_cons_iff]
      tauto

/-- New keys are added in the order of the list. -/
theorem keys_upserts_of_new (d : Dict K V) (l : List α) (hl : (l.map key).Nodup)
    (h : ∀ a ∈ l, key a ∉ d.keys) : (d.upserts key f l).keys = d.keys ++ l.map key := by
  unfold upserts
  induction l generalizing d with
  | nil => rw [List.map_nil, List.append_nil]; rfl
  | cons a l ih =>
      rw [List.map_cons, List.nodup_cons] at hl
      have hkeys : (d.upsert (key a) (f a)).keys = d.keys ++ [key a] := by
        unfold upsert
        rw [keys_set, if_neg (h a List.mem_cons_self)]
      rw [List.foldl_cons, ih _ hl.2, hkeys, List.map_cons, List.append_assoc]
      · rfl
      · intro b hb
        rw [hkeys, List.mem_append, List.mem_singleton, not_or]
        refine ⟨h b (List.mem_cons_of_mem _ hb), fun heq => hl.1 ?_⟩
        rw [← heq]
        exact List.mem_map_of_mem hb

theorem put_of_notMem {k : K} {v : V} {items : List (K × V)} (h : k ∉ items.map Prod.fst) :
    put k v items = items ++ [(k, v)] := by
  induction items with
  | nil => rfl
  | cons item items ih =>
      rw [List.map_cons, List.mem_cons, not_or] at h
      rw [put, if_neg (Ne.symm h.1), ih h.2]
      rfl

/-- New keys with their values, in the order of the list -/
theorem items_upserts_of_new {g : α → V} (d : Dict K V) (l : List α) (hl : (l.map key).Nodup)
    (h : ∀ a ∈ l, key a ∉ d.keys) :
    (d.upserts key (fun a _ => g a) l).items = d.items ++ l.map fun a => (key a, g a) := by
  rw [upserts]
  induction l generalizing d with
  | nil => rw [List.map_nil, List.append_nil]; rfl
  | cons a l ih =>
      rw [List.map_cons, List.nodup_cons] at hl
      have hitems : (d.upsert (key a) fun _ => g a).items = d.items ++ [(key a, g a)] :=
        put_of_notMem (h a List.mem_cons_self)
      have hkeys : (d.upsert (key a) fun _ => g a).keys = d.keys ++ [key a] := by
        rw [keys, hitems, List.map_append]
        rfl
      rw [List.foldl_cons, ih _ hl.2, hitems, List.map_cons, List.append_assoc]
      · rfl
      · intro b hb
        rw [hkeys, List.mem_append, List.mem_singleton, not_or]
        refine ⟨h b (List.mem_cons_of_mem _ hb), fun heq => hl.1 ?_⟩
        rw [← heq]
        exact List.mem_map_of_mem hb

theorem get_upserts_of_notMem (d : Dict K V) {l : List α} {k : K} (h : ∀ a ∈ l, key a ≠ k) :
    (d.upserts key f l).get k = d.get k := by
  rw [get_upserts, List.filter_eq_nil_iff.mpr fun a ha => by simpa using h a ha]
  rfl

/-- The value of a key on which all items of the list agree -/
theorem get_upserts_of_mem {g : α → V} (d : Dict K V) {l : List α} {a : α} (ha : a ∈ l)
    (hall : ∀ b ∈ l, key b = key a → g b = g a) :
    (d.upserts key (fun a _ => g a) l).get (key a) = some (g a) := by
  rw [upserts]
  induction l generalizing d a with
  | nil => exact absurd ha List.not_mem_nil
  | cons b l ih =>
      rw [List.foldl_cons]
      by_cases hlater : ∃ c ∈ l, key c = key a
      · obtain ⟨c, hc, hkey⟩ := hlater
        have hvalue := hall c (List.mem_cons_of_mem _ hc) hkey
        have hsame := ih (d.upsert (key b) fun _ => g b) hc (fun e he heq => by
          rw [hvalue]
          exact hall e (List.mem_cons_of_mem _ he) (heq.trans hkey))
        rwa [hkey, hvalue] at hsame
      · have hb : b = a := by
          rcases List.mem_cons.mp ha with h | h
          · exact h.symm
          · exact absurd ⟨a, h, rfl⟩ hlater
        have hrest : ∀ c ∈ l, key c ≠ key a := fun c hc heq => hlater ⟨c, hc, heq⟩
        have hget : ((d.upsert (key b) fun _ => g b).upserts key (fun a _ => g a) l).get (key a) =
            (d.upsert (key b) fun _ => g b).get (key a) := get_upserts_of_notMem _ hrest
        rw [upserts] at hget
        rw [hget, get_upsert, hb, if_pos rfl]

end Dict

end OpenViking.Lib
