/-
# `OpenViking.Lib.Inverted` — an inverted index kept up to date

Documents under labels, each with a slot and some keys; the index has a set of
slots for every key, or a value for every slot.  Storing a document clears the
keys of the one it replaces and enters its own; removing one clears its keys.
-/
import Mathlib.Data.Finset.Basic
import Mathlib.Logic.Function.Basic

namespace OpenViking.Lib

variable {Label Slot Key Doc : Type}

/-- The keys of a document that may not be there -/
def keysAt (keys : Doc → List Key) (doc : Option Doc) : List Key := doc.elim [] keys

@[simp] theorem keysAt_none {keys : Doc → List Key} : keysAt keys none = [] := rfl

@[simp] theorem keysAt_some {keys : Doc → List Key} {doc : Doc} :
    keysAt keys (some doc) = keys doc := rfl

section

variable [DecidableEq Slot] [DecidableEq Key]

/-- Clear a slot under some keys. -/
def clear (bits : Key → Finset Slot) (keys : List Key) (slot : Slot) (key : Key) : Finset Slot :=
  if key ∈ keys then (bits key).erase slot else bits key

/-- Enter a slot under some keys. -/
def enter (bits : Key → Finset Slot) (keys : List Key) (slot : Slot) (key : Key) : Finset Slot :=
  if key ∈ keys then insert slot (bits key) else bits key

theorem mem_clear {bits : Key → Finset Slot} {keys : List Key} {slot other : Slot} {key : Key} :
    other ∈ clear bits keys slot key ↔ other ∈ bits key ∧ (other = slot → key ∉ keys) := by
  unfold clear
  split
  · next h => simp [h, and_comm]
  · next h => simp [h]

theorem mem_enter {bits : Key → Finset Slot} {keys : List Key} {slot other : Slot} {key : Key} :
    other ∈ enter bits keys slot key ↔ other ∈ bits key ∨ (other = slot ∧ key ∈ keys) := by
  unfold enter
  split
  · next h => simp [h, or_comm]
  · next h => simp [h]

theorem clear_nil {bits : Key → Finset Slot} {slot : Slot} : clear bits [] slot = bits := by
  funext key
  simp [clear]

theorem clear_cons {bits : Key → Finset Slot} {slot : Slot} {first : Key} {rest : List Key} :
    clear (clear bits [first] slot) rest slot = clear bits (first :: rest) slot := by
  funext key
  ext other
  simp only [mem_clear, List.mem_cons, List.not_mem_nil, or_false, not_or, and_assoc,
    ← forall_and]

theorem enter_nil {bits : Key → Finset Slot} {slot : Slot} : enter bits [] slot = bits := by
  funext key
  simp [enter]

theorem enter_cons {bits : Key → Finset Slot} {slot : Slot} {first : Key} {rest : List Key} :
    enter (enter bits [first] slot) rest slot = enter bits (first :: rest) slot := by
  funext key
  ext other
  simp only [mem_enter, List.mem_cons, List.not_mem_nil, or_false, or_assoc, ← and_or_left]

end

/-! ## Who has what -/

/-- A relation of keys and slots is that of the documents at the slots. -/
def Registers (has : Doc → Key → Prop) (docs : Label → Option Doc) (place : Label → Option Slot)
    (at' : Key → Slot → Prop) : Prop :=
  ∀ key slot, at' key slot ↔
    ∃ label doc, docs label = some doc ∧ place label = some slot ∧ has doc key

namespace Registers

variable {has : Doc → Key → Prop} {docs : Label → Option Doc} {place place' : Label → Option Slot}
  {at' after : Key → Slot → Prop} {label : Label} {slot : Slot} [DecidableEq Label]

/-- A document is stored, new or in place of another: the slot has what it has. -/
theorem put (h : Registers has docs place at') (hslot : place' label = some slot)
    (honly : ∀ l, place' l = some slot → l = label)
    (hother : ∀ l, l ≠ label → place' l = place l) {doc : Doc}
    (hplaced : docs label = none ∨ place label = some slot)
    (hself : ∀ key, after key slot ↔ has doc key)
    (hrest : ∀ key s, s ≠ slot → (after key s ↔ at' key s)) :
    Registers has (Function.update docs label (some doc)) place' after := by
  intro key other
  by_cases hs : other = slot
  · subst hs
    rw [hself]
    constructor
    · exact fun hkey => ⟨label, doc, Function.update_self .., hslot, hkey⟩
    · rintro ⟨l, d, hd, hl, hkey⟩
      rw [honly l hl, Function.update_self] at hd
      cases hd
      exact hkey
  · rw [hrest key other hs, h]
    constructor
    · rintro ⟨l, d, hd, hl, hkey⟩
      have hne : l ≠ label := by
        rintro rfl
        rcases hplaced with hnone | hsome
        · rw [hnone] at hd
          cases hd
        · exact hs (Option.some.inj (hl.symm.trans hsome))
      exact ⟨l, d, by rwa [Function.update_of_ne hne], (hother l hne).trans hl, hkey⟩
    · rintro ⟨l, d, hd, hl, hkey⟩
      have hne : l ≠ label := by
        rintro rfl
        exact hs (Option.some.inj (hl.symm.trans hslot))
      rw [Function.update_of_ne hne] at hd
      exact ⟨l, d, hd, (hother l hne).symm.trans hl, hkey⟩

/-- A document is removed: the slot has nothing. -/
theorem drop (h : Registers has docs place at') (hslot : place label = some slot)
    (honly : ∀ l, place l = some slot → l = label)
    (hother : ∀ l, l ≠ label → place' l = place l) (hself : ∀ key, ¬ after key slot)
    (hrest : ∀ key s, s ≠ slot → (after key s ↔ at' key s)) :
    Registers has (Function.update docs label none) place' after := by
  intro key other
  constructor
  · intro hmem
    have hs : other ≠ slot := by
      rintro rfl
      exact hself key hmem
    obtain ⟨l, d, hd, hl, hkey⟩ := (h key other).mp ((hrest key other hs).mp hmem)
    have hne : l ≠ label := by
      rintro rfl
      exact hs (Option.some.inj (hl.symm.trans hslot))
    exact ⟨l, d, by rwa [Function.update_of_ne hne], (hother l hne).trans hl, hkey⟩
  · rintro ⟨l, d, hd, hl, hkey⟩
    have hne : l ≠ label := by
      rintro rfl
      rw [Function.update_self] at hd
      cases hd
    rw [Function.update_of_ne hne] at hd
    have hl' := (hother l hne).symm.trans hl
    have hs : other ≠ slot := by
      rintro rfl
      exact hne (honly l hl')
    exact (hrest key other hs).mpr ((h key other).mpr ⟨l, d, hd, hl', hkey⟩)

end Registers

/-! ## Sets of slots, and values -/

/-- A key holds exactly the slots of the documents that have it. -/
def Inverts (keys : Doc → List Key) (docs : Label → Option Doc) (place : Label → Option Slot)
    (bits : Key → Finset Slot) : Prop :=
  Registers (fun doc key => key ∈ keys doc) docs place fun key slot => slot ∈ bits key

/-- A slot has exactly the value of the document at it. -/
def Reflects {Val : Type} (value : Doc → Option Val) (docs : Label → Option Doc)
    (place : Label → Option Slot) (vals : Slot → Option Val) : Prop :=
  Registers (fun doc v => value doc = some v) docs place fun v slot => vals slot = some v

section

variable {docs : Label → Option Doc} {place place' : Label → Option Slot} {label : Label}
  {slot : Slot}

namespace Inverts

variable {keys : Doc → List Key} {bits : Key → Finset Slot}

theorem empty : Inverts keys (fun _ : Label => none) place (fun _ => (∅ : Finset Slot)) := by
  intro key slot
  simp

variable [DecidableEq Slot] [DecidableEq Key]

/-- Once its keys are cleared, no key holds the slot of a document. -/
theorem notMem_clear (h : Inverts keys docs place bits)
    (honly : ∀ l, place l = some slot → l = label) (key : Key) :
    slot ∉ clear bits (keysAt keys (docs label)) slot key := by
  rw [mem_clear]
  rintro ⟨hmem, hclear⟩
  obtain ⟨l, doc, hdoc, hl, hkey⟩ := (h key slot).mp hmem
  refine hclear rfl ?_
  rw [← honly l hl, hdoc]
  exact hkey

variable [DecidableEq Label]

theorem put (h : Inverts keys docs place bits) (hslot : place' label = some slot)
    (honly : ∀ l, place' l = some slot → l = label)
    (hother : ∀ l, l ≠ label → place' l = place l) (doc : Doc)
    (hold : ∀ l, place l = some slot → l = label)
    (hplaced : docs label = none ∨ place label = some slot) :
    Inverts keys (Function.update docs label (some doc)) place'
      (enter (clear bits (keysAt keys (docs label)) slot) (keys doc) slot) := by
  refine Registers.put h hslot honly hother hplaced (fun key => ?_) fun key s hs => ?_
  · simp [mem_enter, h.notMem_clear hold key]
  · simp [mem_enter, mem_clear, hs]

theorem drop (h : Inverts keys docs place bits) (hslot : place label = some slot)
    (honly : ∀ l, place l = some slot → l = label)
    (hother : ∀ l, l ≠ label → place' l = place l) :
    Inverts keys (Function.update docs label none) place'
      (clear bits (keysAt keys (docs label)) slot) := by
  refine Registers.drop h hslot honly hother (h.notMem_clear honly) fun key s hs => ?_
  simp [mem_clear, hs]

end Inverts

namespace Reflects

variable {Val : Type} {value : Doc → Option Val} {vals : Slot → Option Val}

theorem empty : Reflects value (fun _ : Label => none) place (fun _ : Slot => none) := by
  intro v slot
  simp

/-- The value at the slot of a document, or of none. -/
theorem at_slot (h : Reflects value docs place vals) (honly : ∀ l, place l = some slot → l = label)
    (hplaced : docs label = none ∨ place label = some slot) :
    vals slot = (docs label).bind value := by
  refine Option.ext fun v => (h v slot).trans ?_
  constructor
  · rintro ⟨l, doc, hdoc, hl, hv⟩
    rw [← honly l hl, hdoc]
    exact hv
  · intro hv
    obtain ⟨doc, hdoc, hv⟩ := Option.bind_eq_some_iff.mp hv
    refine ⟨label, doc, hdoc, hplaced.resolve_left fun hnone => ?_, hv⟩
    rw [hnone] at hdoc
    cases hdoc

variable [DecidableEq Slot] [DecidableEq Label]

theorem put (h : Reflects value docs place vals) (hslot : place' label = some slot)
    (honly : ∀ l, place' l = some slot → l = label)
    (hother : ∀ l, l ≠ label → place' l = place l) (doc : Doc)
    (hplaced : docs label = none ∨ place label = some slot) :
    Reflects value (Function.update docs label (some doc)) place'
      (Function.update vals slot (value doc)) := by
  refine Registers.put h hslot honly hother hplaced (fun v => ?_) fun v s hs => ?_
  · rw [Function.update_self]
  · rw [Function.update_of_ne hs]

theorem drop (h : Reflects value docs place vals) (hslot : place label = some slot)
    (honly : ∀ l, place l = some slot → l = label)
    (hother : ∀ l, l ≠ label → place' l = place l) :
    Reflects value (Function.update docs label none) place' (Function.update vals slot none) := by
  refine Registers.drop h hslot honly hother (fun v => ?_) fun v s hs => ?_
  · rw [Function.update_self]
    exact nofun
  · rw [Function.update_of_ne hs]

end Reflects

end

end OpenViking.Lib
