/-
# `OpenViking.Ragfs.Mounts` — which filesystem a path belongs to

`MountableFS` (`core/mountable.rs`): filesystems are mounted at paths, and `find_mount` walks from
a path up to the first one that has a filesystem.  That is the deepest mounted path above it
(`Deepest`), whatever else is mounted.

`find_mount` rejects a path with a `..` in it and then trims the path.  So a `..` with white space
before or after it passes, and the mounted filesystem is asked for it.
-/
import OpenViking.Lib.Dict
import OpenViking.Lib.Segments

namespace OpenViking.Ragfs.Mounts

open OpenViking.Lib

inductive Error
  | mountPointNotFound (path : Str)
  | invalidPath (path : Str)
  deriving DecidableEq

/-- A path that starts with a slash -/
def absolute (path : Str) : Str := if path.head? = some '/' then path else '/' :: path

def normalizePath (path : Str) : Str :=
  let normalized := absolute (trim path)
  if 1 < normalized.length ∧ normalized.getLast? = some '/' then normalized.dropLast else normalized

def validateVirtualPath (path : Str) : Except Error Unit :=
  if ['.', '.'] ∈ segments '/' path then .error (.invalidPath path) else .ok ()

/-- The path without its last component, by `rfind('/')` -/
def parent (current : Str) : Option Str :=
  if current = ['/'] then none
  else (rsplitOnce '/' current).map fun ab => if ab.1 = [] then ['/'] else ab.1

theorem parent_eq_some {current up : Str} (h : parent current = some up) :
    ∃ a b, current = a ++ '/' :: b ∧ '/' ∉ b ∧
      (a = [] ∧ up = ['/'] ∧ b ≠ [] ∨ a ≠ [] ∧ up = a) := by
  unfold parent at h
  split at h
  · cases h
  next hroot =>
  obtain ⟨⟨a, b⟩, hab, rfl⟩ := Option.map_eq_some_iff.mp h
  obtain ⟨rfl, hb⟩ := rsplitOnce_eq_some.mp hab
  refine ⟨a, b, rfl, hb, ?_⟩
  dsimp only
  split
  · next ha =>
      refine .inl ⟨ha, rfl, ?_⟩
      rintro rfl
      exact hroot (by rw [ha]; rfl)
  · next ha => exact .inr ⟨ha, rfl⟩

theorem length_parent {current up : Str} (h : parent current = some up) :
    up.length < current.length := by
  obtain ⟨a, b, rfl, -, ⟨rfl, rfl, hb⟩ | ⟨-, rfl⟩⟩ := parent_eq_some h
  · simpa using List.length_pos_iff.mpr hb
  · simp

variable {M : Type}

/-- The loop of `find_mount`: the first mounted path, from `current` upwards -/
def walk (mounts : Dict Str M) (current : Str) : Option (Str × M) :=
  match mounts.get current with
  | some info => some (current, info)
  | none =>
      match _h : parent current with
      | none => none
      | some up => walk mounts up
termination_by current.length
decreasing_by exact length_parent _h

/-- The path as the filesystem mounted at `m` sees it -/
def relative (normalized m : Str) : Str :=
  if m = normalized then ['/'] else if m = ['/'] then normalized else normalized.drop m.length

def findMount (mounts : Dict Str M) (path : Str) : Except Error (M × Str) := do
  validateVirtualPath path
  match walk mounts (normalizePath path) with
  | some (m, info) => return (info, relative (normalizePath path) m)
  | none => throw (.mountPointNotFound (normalizePath path))

/-! ## The deepest mount -/

/-- `m` is the path `p` or one above it. -/
def Above (m p : Str) : Prop := m = p ∨ m = ['/'] ∨ m ≠ [] ∧ ∃ b, p = m ++ '/' :: b

structure Deepest (mounts : Dict Str M) (p m : Str) : Prop where
  above : Above m p
  mounted : m ∈ mounts.keys
  longest : ∀ m' ∈ mounts.keys, Above m' p → m'.length ≤ m.length

variable {mounts : Dict Str M} {p m m' q path rel : Str} {info : M}

theorem head?_of_parent {up : Str} (hp : p.head? = some '/') (h : parent p = some up) :
    up.head? = some '/' := by
  obtain ⟨a, b, rfl, -, ⟨-, rfl, -⟩ | ⟨ha, rfl⟩⟩ := parent_eq_some h
  · rfl
  · rwa [List.head?_append_of_ne_nil _ ha] at hp

theorem above_iff (hp : p.head? = some '/') :
    Above m p ↔ m = p ∨ ∃ up, parent p = some up ∧ Above m up := by
  constructor
  · intro h
    by_cases heq : m = p
    · exact .inl heq
    refine .inr ?_
    have hroot : p ≠ ['/'] := by
      rintro rfl
      rcases h with h | h | ⟨hne, b, hb⟩
      · exact heq h
      · exact heq h
      · cases m with
        | nil => exact hne rfl
        | cons c m => simp at hb
    obtain ⟨a, b, hab⟩ := exists_rsplitOnce (List.mem_of_mem_head? hp)
    have hparent : parent p = some (if a = [] then ['/'] else a) := by
      rw [parent, if_neg hroot, hab]
      rfl
    obtain ⟨rfl, hb⟩ := rsplitOnce_eq_some.mp hab
    refine ⟨_, hparent, ?_⟩
    rcases h with h | h | ⟨hne, b', hb'⟩
    · exact absurd h heq
    · exact .inr (.inl h)
    · -- the last slash is the one after `m`, or a later one
      by_cases hslash : '/' ∈ b'
      · obtain ⟨x, y, hxy⟩ := exists_rsplitOnce hslash
        obtain ⟨rfl, hy⟩ := rsplitOnce_eq_some.mp hxy
        have hcut : a = m ++ '/' :: x :=
          (append_cons_inj_of_notMem hb hy (by rw [hb']; simp)).1
        rw [if_neg (by rw [hcut]; simp)]
        exact .inr (.inr ⟨hne, x, hcut⟩)
      · obtain ⟨rfl, -⟩ := append_cons_inj_of_notMem hb hslash hb'
        rw [if_neg hne]
        exact .inl rfl
  · rintro (rfl | ⟨up, hup, h⟩)
    · exact .inl rfl
    obtain ⟨a, b, rfl, -, ⟨-, rfl, -⟩ | ⟨ha, rfl⟩⟩ := parent_eq_some hup
    · rcases h with h | h | ⟨hne, b', hb'⟩
      · exact .inr (.inl h)
      · exact .inr (.inl h)
      · cases m with
        | nil => exact absurd rfl hne
        | cons c m => simp at hb'
    · rcases h with rfl | h | ⟨hne, b', rfl⟩
      · exact .inr (.inr ⟨ha, b, rfl⟩)
      · exact .inr (.inl h)
      · exact .inr (.inr ⟨hne, b' ++ '/' :: b, by simp⟩)

theorem Above.isPrefix (h : Above m p) (hp : p.head? = some '/') : m <+: p := by
  rcases h with rfl | rfl | ⟨-, b, rfl⟩
  · exact List.prefix_rfl
  · cases p with
    | nil => cases hp
    | cons c p =>
        cases hp
        exact ⟨p, rfl⟩
  · exact List.prefix_append _ _

theorem Deepest.unique (hp : p.head? = some '/') (h : Deepest mounts p m)
    (h' : Deepest mounts p m') : m = m' := by
  have hlength : m.length = m'.length :=
    le_antisymm (h'.longest m h.mounted h.above) (h.longest m' h'.mounted h'.above)
  exact (List.prefix_of_prefix_length_le (h.above.isPrefix hp) (h'.above.isPrefix hp)
    hlength.le).eq_of_length hlength

/-- The walk ends at the deepest mount, or above everything that is mounted. -/
theorem walk_spec (mounts : Dict Str M) (p : Str) (hp : p.head? = some '/') :
    match walk mounts p with
    | some (m, info) => Deepest mounts p m ∧ mounts.get m = some info
    | none => ∀ m ∈ mounts.keys, ¬ Above m p := by
  fun_induction walk mounts p with
  | case1 p info hget =>
      have hmem : p ∈ mounts.keys := by
        by_contra hnot
        cases hget.symm.trans (Dict.get_eq_none.mpr hnot)
      exact ⟨⟨.inl rfl, hmem, fun m' _ h' => (h'.isPrefix hp).length_le⟩, hget⟩
  | case2 p hget hparent =>
      intro m hm habove
      rcases (above_iff hp).mp habove with rfl | ⟨up, hup, -⟩
      · exact Dict.get_eq_none.mp hget hm
      · cases hparent.symm.trans hup
  | case3 p hget up hup ih =>
      have hstep : ∀ m ∈ mounts.keys, (Above m p ↔ Above m up) := by
        intro m hm
        rw [above_iff hp]
        constructor
        · rintro (rfl | ⟨up', hup', h⟩)
          · exact absurd hm (Dict.get_eq_none.mp hget)
          · cases hup.symm.trans hup'
            exact h
        · intro h
          exact .inr ⟨up, hup, h⟩
      have ih := ih (head?_of_parent hp hup)
      split at ih
      · next m info hwalk =>
          obtain ⟨hdeep, hinfo⟩ := ih
          refine ⟨⟨(hstep m hdeep.mounted).mpr hdeep.above, hdeep.mounted, ?_⟩, hinfo⟩
          intro m' hm' h'
          exact hdeep.longest m' hm' ((hstep m' hm').mp h')
      · intro m hm h
        exact ih m hm ((hstep m hm).mp h)

theorem walk_eq_some (hp : p.head? = some '/') :
    walk mounts p = some (m, info) ↔ Deepest mounts p m ∧ mounts.get m = some info := by
  have hspec := walk_spec mounts p hp
  constructor
  · intro h
    rwa [h] at hspec
  · rintro ⟨hdeep, hget⟩
    split at hspec
    · next m' info' hwalk =>
        cases hdeep.unique hp hspec.1
        cases hget.symm.trans hspec.2
        exact hwalk
    · exact absurd hdeep.above (hspec m hdeep.mounted)

/-! ## Paths as a filesystem gets them -/

theorem absolute_head? (path : Str) : (absolute path).head? = some '/' := by
  unfold absolute
  split
  · assumption
  · rfl

theorem segments_absolute (path : Str) : segments '/' (absolute path) = segments '/' path := by
  unfold absolute
  split
  · rfl
  · exact segments_cons_self path

theorem normalizePath_head? (path : Str) : (normalizePath path).head? = some '/' := by
  have hhead := absolute_head? (trim path)
  unfold normalizePath
  dsimp only
  split
  · next hlong =>
      match habs : absolute (trim path), hlong.1 with
      | c :: d :: t, _ =>
          rw [habs] at hhead
          exact hhead
  · exact hhead

theorem segments_normalizePath (path : Str) :
    segments '/' (normalizePath path) = segments '/' (trim path) := by
  have habs := segments_absolute (trim path)
  unfold normalizePath
  dsimp only
  split
  · next hlong => rw [← habs, ← List.dropLast_append_getLast? '/' hlong.2, segments_append_self,
      List.dropLast_concat]
  · exact habs

/-- A filesystem gets an absolute path, with segments of the path only. -/
theorem relative_spec (hp : p.head? = some '/') (h : Above m p) :
    (relative p m).head? = some '/' ∧ segments '/' (relative p m) ⊆ segments '/' p := by
  unfold relative
  split
  · exact ⟨rfl, by simp [segments_cons_self]⟩
  split
  · exact ⟨hp, fun _ h => h⟩
  next hne hroot =>
  obtain ⟨-, b, rfl⟩ := (h.resolve_left hne).resolve_left hroot
  rw [List.drop_left, segments_append_cons, segments_cons_self]
  exact ⟨rfl, List.subset_append_right _ _⟩

theorem findMount_eq_ok : findMount mounts path = .ok (info, rel) ↔
    ['.', '.'] ∉ segments '/' path ∧ ∃ m, Deepest mounts (normalizePath path) m ∧
      mounts.get m = some info ∧ rel = relative (normalizePath path) m := by
  have hwalk : ∀ m info, walk mounts (normalizePath path) = some (m, info) ↔ _ :=
    fun m info => walk_eq_some (normalizePath_head? path)
  unfold findMount validateVirtualPath
  split
  · next hdots => simp [hdots, bind, Except.bind]
  next hdots =>
  simp only [bind, Except.bind, hdots, not_false_eq_true, true_and]
  split
  · next m info' hsome =>
      obtain ⟨hdeep, hget⟩ := (hwalk m info').mp hsome
      constructor
      · intro h
        cases h
        exact ⟨m, hdeep, hget, rfl⟩
      · rintro ⟨m', hdeep', hget', rfl⟩
        cases hdeep.unique (normalizePath_head? path) hdeep'
        cases hget.symm.trans hget'
        rfl
  · next hnone =>
      constructor
      · intro h
        cases h
      · rintro ⟨m, hdeep, hget, -⟩
        cases hnone.symm.trans ((hwalk m info).mpr ⟨hdeep, hget⟩)

/-- A path is served by the deepest mount above it, under an absolute path; a `..` gets through
only with white space at an end of the path. -/
theorem findMount_deepest (mounts : Dict Str M) (path : Str) :
    (∀ info rel, findMount mounts path = .ok (info, rel) →
      ∃ m, Deepest mounts (normalizePath path) m ∧ mounts.get m = some info ∧
        rel = relative (normalizePath path) m ∧ rel.head? = some '/' ∧
        (['.', '.'] ∈ segments '/' rel → trim path ≠ path)) ∧
    ((∃ r, findMount mounts path = .ok r) ↔
      ['.', '.'] ∉ segments '/' path ∧ ∃ m ∈ mounts.keys, Above m (normalizePath path)) := by
  have hhead := normalizePath_head? path
  constructor
  · intro info rel h
    obtain ⟨hdots, m, hdeep, hget, rfl⟩ := findMount_eq_ok.mp h
    obtain ⟨habs, hsub⟩ := relative_spec hhead hdeep.above
    refine ⟨m, hdeep, hget, rfl, habs, ?_⟩
    intro hmem htrim
    have hmem' := hsub hmem
    rw [segments_normalizePath, htrim] at hmem'
    exact hdots hmem'
  · constructor
    · rintro ⟨⟨info, rel⟩, h⟩
      obtain ⟨hdots, m, hdeep, -⟩ := findMount_eq_ok.mp h
      exact ⟨hdots, m, hdeep.mounted, hdeep.above⟩
    · rintro ⟨hdots, m, hm, habove⟩
      have hspec := walk_spec mounts _ hhead
      split at hspec
      · next m' info _ => exact ⟨_, findMount_eq_ok.mpr ⟨hdots, m', hspec.1, hspec.2, rfl⟩⟩
      · exact absurd habove (hspec m hm)

/-- `" .."` is passed on as `"/.."`. -/
example : findMount (⟨[(['/'], ())], by simp⟩ : Dict Str Unit) [' ', '.', '.'] =
    .ok ((), ['/', '.', '.']) := by
  refine findMount_eq_ok.mpr ⟨by decide, ['/'],
    ⟨.inr (.inl rfl), by simp [Dict.keys], ?_⟩, rfl, rfl⟩
  intro m hm _
  simp_all [Dict.keys]

end OpenViking.Ragfs.Mounts
