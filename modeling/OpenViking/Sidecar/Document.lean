/-
# `OpenViking.Sidecar.Document` — the generated sidecars of a directory

A directory has two generated documents, `.abstract.md` and `.overview.md`: a
front matter between two lines `---` and a Markdown body.  The front matter is
checked on every way in and out (`normalizeMetadata`), so a parsed document
carries `Metadata`, whose fields are bounded strings and counters that add up.

The YAML library is a parameter (`YamlLib`).  `YamlLib.Faithful` is what the
documents rely on: a dumped metadata mapping is loaded back, and no line of the
dump is the delimiter.
-/
import Mathlib.Logic.Encodable.Basic
import Mathlib.Logic.Equiv.List
import OpenViking.Lib.Text
import OpenViking.Lib.Results
import OpenViking.Lib.Segments

namespace OpenViking.Sidecar

open Lib

/-- A value of the front matter as the YAML loader gives it.  Keys that are not
strings are never looked up; booleans, floats, dates and sequences pass no check
and are one case. -/
inductive Yaml where
  | null
  | int (z : Int)
  | str (s : Str)
  | map (fields : List (Str × Yaml))
  | other

abbrev Fields : Type := List (Str × Yaml)

/-- `fields[key] = value`: the entry in front is the one that is looked up. -/
def Fields.set (key : Str) (value : Yaml) (fields : Fields) : Fields := (key, value) :: fields

inductive Error where
  /-- `AbstractOverviewFormatError` -/
  | format (message : String)
  deriving DecidableEq, Repr

/-- What is used of PyYAML. -/
structure YamlLib where
  safeDump : Fields → Str
  /-- `none` is a `YAMLError`. -/
  safeLoad : Str → Option Yaml

/-! ## Metadata -/

/-- A stripped, non-empty string of at most `limit` characters. -/
structure Bounded (limit : Nat) where
  text : Str
  stripped : strip text = text
  nonempty : text ≠ []
  short : text.length ≤ limit
  deriving DecidableEq

/-- `_MAX_LABEL_CHARS` -/
abbrev Label : Type := Bounded 128

structure Source where
  kind : Label
  /-- at most `_MAX_SOURCE_URI_CHARS` -/
  uri : Bounded 4096
  deriving DecidableEq

structure GeneratedBy where
  component : Label
  trigger : Label
  deriving DecidableEq

structure Freshness where
  totalEntries : Nat
  sampledEntries : Nat
  unsampledEntries : Nat
  pendingChildChanges : Nat
  missingSummaryEntries : Option Nat
  covers : sampledEntries + unsampledEntries = totalEntries
  deriving DecidableEq

/-- Metadata after `_normalize_metadata`. -/
structure Metadata where
  directory : Option Str
  source : Option Source
  generatedBy : Option GeneratedBy
  freshness : Option Freshness
  deriving DecidableEq

def normalizeDirectoryUri (dirUri : Str) : Except Error Str :=
  let value := strip dirUri
  if value = [] then .error (.format "abstract overview directory must not be empty")
  else if !("viking://".toList.isPrefixOf value) then
    .error (.format "abstract overview directory must be a viking:// URI")
  else .ok (trimEnd '/' value ++ "/".toList)

/-- `str(metadata["directory"])` of a value that is no string never begins with
`viking://`. -/
def directoryText : Yaml → Str
  | .str s => s
  | .null => "None".toList
  | .int z => (toString z).toList
  | .map _ => "{…}".toList
  | .other => "…".toList

def boundedString (value : Option Yaml) (field : String) (limit : Nat) :
    Except Error (Bounded limit) :=
  match value with
  | some (.str s) =>
      if hne : strip s = [] then
        .error (.format ("abstract overview " ++ field ++ " must be a non-empty string"))
      else if hlen : (strip s).length ≤ limit then
        .ok ⟨strip s, strip_strip s, hne, hlen⟩
      else
        .error (.format ("abstract overview " ++ field ++ " exceeds the " ++ toString limit ++
          "-character policy limit"))
  | _ => .error (.format ("abstract overview " ++ field ++ " must be a non-empty string"))

def counter (fields : Fields) (field : String) : Except Error Nat :=
  match fields.lookup field.toList with
  | some (.int z) =>
      if 0 ≤ z then .ok z.toNat
      else .error (.format ("abstract overview freshness." ++ field ++
        " must be a non-negative integer"))
  | _ => .error (.format ("abstract overview freshness." ++ field ++
      " must be a non-negative integer"))

/-- A counter that may be left out. -/
def optionalCounter (fields : Fields) (field : String) : Except Error (Option Nat) :=
  if (fields.lookup field.toList).isSome then some <$> counter fields field else .ok none

def normalizeSource : Yaml → Except Error Source
  | .map fields =>
      if (fields.lookup "kind".toList).isSome && (fields.lookup "uri".toList).isSome then do
        let kind ← boundedString (fields.lookup "kind".toList) "source.kind" 128
        let uri ← boundedString (fields.lookup "uri".toList) "source.uri" 4096
        return { kind, uri }
      else .error (.format "abstract overview source must contain kind and uri")
  | _ => .error (.format "abstract overview source must contain kind and uri")

def normalizeGeneratedBy : Yaml → Except Error GeneratedBy
  | .map fields =>
      if (fields.lookup "component".toList).isSome &&
        (fields.lookup "trigger".toList).isSome then do
        let component ← boundedString
          (fields.lookup "component".toList) "generated_by.component" 128
        let trigger ← boundedString (fields.lookup "trigger".toList) "generated_by.trigger" 128
        return { component, trigger }
      else .error (.format "abstract overview generated_by must contain component and trigger")
  | _ => .error (.format "abstract overview generated_by must contain component and trigger")

/-- The counters every freshness has. -/
def requiredCounters : List String :=
  ["total_entries", "sampled_entries", "unsampled_entries", "pending_child_changes"]

def normalizeFreshness : Yaml → Except Error Freshness
  | .map fields =>
      if requiredCounters.all fun field => (fields.lookup field.toList).isSome then do
        let totalEntries ← counter fields "total_entries"
        let sampledEntries ← counter fields "sampled_entries"
        let unsampledEntries ← counter fields "unsampled_entries"
        let pendingChildChanges ← counter fields "pending_child_changes"
        let missingSummaryEntries ← optionalCounter fields "missing_summary_entries"
        if covers : sampledEntries + unsampledEntries = totalEntries then
          return { totalEntries, sampledEntries, unsampledEntries, pendingChildChanges,
                   missingSummaryEntries, covers }
        else .error (.format "abstract overview freshness sampled + unsampled must equal total")
      else .error (.format "abstract overview freshness has an invalid field set")
  | _ => .error (.format "abstract overview freshness has an invalid field set")

/-- `metadata.get(key)`, where `None` counts as absent. -/
def optional {α : Type} (check : Yaml → Except Error α) : Option Yaml → Except Error (Option α)
  | none | some .null => .ok none
  | some value => some <$> check value

/-- `metadata["directory"]` if it is there, `None` included. -/
def normalizeDirectory : Option Yaml → Except Error (Option Str)
  | none => .ok none
  | some value => some <$> normalizeDirectoryUri (directoryText value)

/-- `_normalize_metadata` -/
def normalizeMetadata (metadata : Fields) : Except Error Metadata := do
  let directory ← normalizeDirectory (metadata.lookup "directory".toList)
  let source ← optional normalizeSource (metadata.lookup "source".toList)
  let generatedBy ← optional normalizeGeneratedBy (metadata.lookup "generated_by".toList)
  let freshness ← optional normalizeFreshness (metadata.lookup "freshness".toList)
  return { directory, source, generatedBy, freshness }

/-! ### The mapping of normalised metadata -/

def Source.toYaml (s : Source) : Yaml :=
  .map [("kind".toList, .str s.kind.text), ("uri".toList, .str s.uri.text)]

def GeneratedBy.toYaml (g : GeneratedBy) : Yaml :=
  .map [("component".toList, .str g.component.text), ("trigger".toList, .str g.trigger.text)]

def Freshness.toFields (f : Freshness) : Fields :=
  [("total_entries".toList, .int f.totalEntries), ("sampled_entries".toList, .int f.sampledEntries),
    ("unsampled_entries".toList, .int f.unsampledEntries),
    ("pending_child_changes".toList, .int f.pendingChildChanges)] ++
  (f.missingSummaryEntries.map fun n => ("missing_summary_entries".toList, Yaml.int n)).toList

/-- The keys in the order of `_METADATA_ORDER`. -/
def Metadata.toFields (m : Metadata) : Fields :=
  (m.directory.map fun d => ("directory".toList, Yaml.str d)).toList ++
  (m.source.map fun s => ("source".toList, s.toYaml)).toList ++
  (m.generatedBy.map fun g => ("generated_by".toList, g.toYaml)).toList ++
  (m.freshness.map fun f => ("freshness".toList, Yaml.map f.toFields)).toList

/-! ## Documents -/

structure Document where
  metadata : Metadata
  body : Str
  legacy : Bool
  deriving DecidableEq

/-- `s.rstrip("\r\n")` -/
def chomp (s : Str) : Str := s.rdropWhile fun c => c == '\r' || c == '\n'

def delimiter : Str := "---".toList

/-- The lines of the front matter and those of the body, at the first closing
delimiter. -/
def closing : List Str → Option (List Str × List Str)
  | [] => none
  | line :: lines =>
      if chomp line = delimiter then some ([], lines)
      else (closing lines).map fun (front, body) => (line :: front, body)

/-- The blank line after the front matter. -/
def dropBlankLine : Str → Str
  | '\r' :: '\n' :: body => body
  | '\n' :: body => body
  | body => body

/-- The front matter as a mapping. -/
def loadFields (lib : YamlLib) (front : Str) : Except Error Fields :=
  match lib.safeLoad front with
  | none => .error (.format "invalid abstract overview YAML")
  | some .null => .ok []
  | some (.map fields) => .ok fields
  | some _ => .error (.format "abstract overview frontmatter must be a YAML object")

/-- `parse_abstract_overview` of a string -/
def parseAbstractOverview (lib : YamlLib) (raw : Str) : Except Error Document :=
  match splitLines raw with
  | [] => .ok { metadata := ⟨none, none, none, none⟩, body := raw, legacy := true }
  | first :: lines =>
      if chomp first = delimiter then
        match closing lines with
        | none => .error (.format "abstract overview frontmatter is not closed")
        | some (front, body) => do
            let loaded ← loadFields lib front.flatten
            if (loaded.lookup "directory".toList).isNone then
              .error (.format "abstract overview frontmatter must contain directory")
            else
              let metadata ← normalizeMetadata loaded
              return { metadata, body := dropBlankLine body.flatten, legacy := false }
      else .ok { metadata := ⟨none, none, none, none⟩, body := raw, legacy := true }

/-- `ContextLevel` -/
inductive ContextLevel where
  | abstract
  | overview
  | detail
  deriving DecidableEq, Repr

/-- `text.rstrip()` -/
def rstrip (s : Str) : Str := s.rdropWhile isSpace

/-- The text of a front matter and a body. -/
def envelope (front body : Str) : Str :=
  "---\n".toList ++ front ++ "\n---\n\n".toList ++ strip body ++ "\n".toList

/-- `render_abstract_overview`.  The directory is normalised before it is put into
the mapping and, with the mapping, once more. -/
def renderAbstractOverview (lib : YamlLib) (level : ContextLevel) (dirUri body : Str)
    (metadata : Fields) : Except Error Str := do
  if level = .detail then
    .error (.format "abstract overviews only support L0 and L1")
  else
    let directory ← normalizeDirectoryUri dirUri
    let normalized ← normalizeMetadata (metadata.set "directory".toList (.str directory))
    return envelope (rstrip (lib.safeDump normalized.toFields)) body

/-! ## Normalising what is normalised -/

theorem Fields.lookup_set (key k : Str) (value : Yaml) (fields : Fields) :
    (fields.set key value).lookup k = if k = key then some value else fields.lookup k := by
  by_cases h : k = key
  · simp [Fields.set, h]
  · have hb : (k == key) = false := beq_false_of_ne h
    simp [Fields.set, List.lookup_cons, hb, h]

/-- The shape of a normalised directory. -/
theorem normalizeDirectoryUri_eq_ok {x d : Str} (h : normalizeDirectoryUri x = .ok d) :
    "viking://".toList <+: strip x ∧ d = trimEnd '/' (strip x) ++ "/".toList := by
  unfold normalizeDirectoryUri at h
  dsimp only at h
  split at h
  · cases h
  · split at h
    · cases h
    · next hp =>
        refine ⟨List.isPrefixOf_iff_prefix.mp (by simpa using hp), ?_⟩
        exact (Except.ok.inj h).symm

theorem trimEnd_append_slash (s : Str) : trimEnd '/' (s ++ "/".toList) = trimEnd '/' s := by
  show List.rdropWhile _ (s ++ ['/']) = _
  rw [List.rdropWhile_concat_pos]
  · rfl
  · rfl

/-- Normalising a directory once more changes nothing, unless it fails: of
`viking://` only `viking:/` is left. -/
theorem normalizeDirectoryUri_again {x d d' : Str} (h : normalizeDirectoryUri x = .ok d)
    (h' : normalizeDirectoryUri d = .ok d') : d' = d := by
  obtain ⟨⟨rest, hrest⟩, hd⟩ := normalizeDirectoryUri_eq_ok h
  have hhead : ∀ c, d.head? = some c → isSpace c = false := by
    obtain ⟨w, hw, hall⟩ := rdropWhile_append_eq (· == '/') (strip x)
    have hw : strip x = trimEnd '/' (strip x) ++ w := hw
    intro c hc
    cases ht : trimEnd '/' (strip x) with
    | nil =>
        rw [ht, ← hrest] at hw
        have := hall 'v' (by rw [← List.nil_append w, ← hw]; simp)
        exact absurd this (by decide)
    | cons t ts =>
        rw [ht, ← hrest] at hw
        have : t = 'v' := (List.cons.inj hw).1.symm
        rw [hd, ht, this] at hc
        cases hc
        decide
  have hlast : ∀ c, d.getLast? = some c → isSpace c = false := by
    intro c hc
    rw [hd, List.getLast?_append] at hc
    cases hc
    decide
  have hstrip : strip d = d := stripBy_eq_self hhead hlast
  have := (normalizeDirectoryUri_eq_ok h').2
  rw [hstrip] at this
  rw [this, hd, trimEnd_append_slash, trimEnd_eq_self (trimEnd_getLast? _ _)]

theorem boundedString_text {limit : Nat} (b : Bounded limit) (field : String) :
    boundedString (some (.str b.text)) field limit = .ok b := by
  obtain ⟨text, hs, hne, hlen⟩ := b
  simp only [boundedString, hs]
  rw [dif_neg hne, dif_pos hlen]

theorem counter_of_lookup {fields : Fields} {field : String} {n : Nat}
    (h : fields.lookup field.toList = some (.int n)) : counter fields field = .ok n := by
  simp [counter, h]

theorem normalizeSource_toYaml (s : Source) : normalizeSource s.toYaml = .ok s := by
  have hkind : ([("kind".toList, Yaml.str s.kind.text), ("uri".toList, .str s.uri.text)] :
      Fields).lookup "kind".toList = some (.str s.kind.text) := rfl
  have huri : ([("kind".toList, Yaml.str s.kind.text), ("uri".toList, .str s.uri.text)] :
      Fields).lookup "uri".toList = some (.str s.uri.text) := rfl
  simp only [normalizeSource, Source.toYaml, hkind, huri, boundedString_text]
  rfl

theorem normalizeGeneratedBy_toYaml (g : GeneratedBy) : normalizeGeneratedBy g.toYaml = .ok g := by
  have hc : ([("component".toList, Yaml.str g.component.text),
      ("trigger".toList, .str g.trigger.text)] : Fields).lookup "component".toList =
      some (.str g.component.text) := rfl
  have ht : ([("component".toList, Yaml.str g.component.text),
      ("trigger".toList, .str g.trigger.text)] : Fields).lookup "trigger".toList =
      some (.str g.trigger.text) := rfl
  simp only [normalizeGeneratedBy, GeneratedBy.toYaml, hc, ht, boundedString_text]
  rfl

/-- A mapping with the counters of `f` is `f` again. -/
theorem normalizeFreshness_of_lookup {fields : Fields} (f : Freshness)
    (ht : fields.lookup "total_entries".toList = some (.int f.totalEntries))
    (hs : fields.lookup "sampled_entries".toList = some (.int f.sampledEntries))
    (hu : fields.lookup "unsampled_entries".toList = some (.int f.unsampledEntries))
    (hp : fields.lookup "pending_child_changes".toList = some (.int f.pendingChildChanges))
    (hm : fields.lookup "missing_summary_entries".toList =
      f.missingSummaryEntries.map fun n => .int n) :
    normalizeFreshness (.map fields) = .ok f := by
  have hreq : requiredCounters.all (fun field => (fields.lookup field.toList).isSome) = true := by
    simp only [requiredCounters, List.all_cons, List.all_nil, ht, hs, hu, hp]
    rfl
  obtain ⟨t, s, u, p, m, covers⟩ := f
  simp only [normalizeFreshness, hreq, if_true, counter_of_lookup ht, counter_of_lookup hs,
    counter_of_lookup hu, counter_of_lookup hp]
  have hopt : optionalCounter fields "missing_summary_entries" = .ok m := by
    cases m with
    | none => rw [optionalCounter, hm]; rfl
    | some n => rw [optionalCounter, hm, counter_of_lookup hm]; rfl
  rw [hopt]
  exact dif_pos covers

theorem normalizeFreshness_toFields (f : Freshness) :
    normalizeFreshness (.map f.toFields) = .ok f := by
  refine normalizeFreshness_of_lookup f rfl rfl rfl rfl ?_
  obtain ⟨t, s, u, p, m, covers⟩ := f
  cases m <;> rfl

section lookups

variable (m : Metadata)

theorem Metadata.lookup_directory :
    m.toFields.lookup "directory".toList = m.directory.map .str := by
  obtain ⟨d, s, g, f⟩ := m
  cases d <;> cases s <;> cases g <;> cases f <;> rfl

theorem Metadata.lookup_source :
    m.toFields.lookup "source".toList = m.source.map Source.toYaml := by
  obtain ⟨d, s, g, f⟩ := m
  cases d <;> cases s <;> cases g <;> cases f <;> rfl

theorem Metadata.lookup_generatedBy :
    m.toFields.lookup "generated_by".toList = m.generatedBy.map GeneratedBy.toYaml := by
  obtain ⟨d, s, g, f⟩ := m
  cases d <;> cases s <;> cases g <;> cases f <;> rfl

theorem Metadata.lookup_freshness :
    m.toFields.lookup "freshness".toList = m.freshness.map fun f => .map f.toFields := by
  obtain ⟨d, s, g, f⟩ := m
  cases d <;> cases s <;> cases g <;> cases f <;> rfl

end lookups

theorem optional_map {α : Type} {check : Yaml → Except Error α} {toYaml : α → Yaml}
    (h : ∀ a, check (toYaml a) = .ok a) (hnull : ∀ a, toYaml a ≠ .null) (value : Option α) :
    optional check (value.map toYaml) = .ok value := by
  cases value with
  | none => rfl
  | some a =>
      have ha := h a
      have hn := hnull a
      rw [Option.map_some]
      cases hy : toYaml a with
      | null => exact absurd hy hn
      | _ =>
          rw [hy] at ha
          show some <$> check _ = _
          rw [ha]
          rfl

/-- Metadata in mapping form, under a directory and a freshness of its own. -/
theorem normalizeMetadata_of_lookup {fields : Fields} (m : Metadata) {d d' : Str}
    (hd : fields.lookup "directory".toList = some (.str d))
    (hd' : normalizeDirectoryUri d = .ok d')
    (hs : fields.lookup "source".toList = m.source.map Source.toYaml)
    (hg : fields.lookup "generated_by".toList = m.generatedBy.map GeneratedBy.toYaml)
    (hf : optional normalizeFreshness (fields.lookup "freshness".toList) = .ok m.freshness) :
    normalizeMetadata fields = .ok { m with directory := some d' } := by
  have hdir : normalizeDirectory (some (.str d)) = .ok (some d') := by
    show some <$> normalizeDirectoryUri d = _
    rw [hd']
    rfl
  rw [normalizeMetadata, hd, hdir, hs, hg, hf,
    optional_map normalizeSource_toYaml (fun _ h => by cases h),
    optional_map normalizeGeneratedBy_toYaml (fun _ h => by cases h)]
  rfl

theorem directory_of_normalizeMetadata {fields : Fields} {m : Metadata}
    (h : normalizeMetadata fields = .ok m) :
    normalizeDirectory (fields.lookup "directory".toList) = .ok m.directory := by
  obtain ⟨directory, hd, h⟩ := bind_eq_ok.mp h
  obtain ⟨source, -, h⟩ := bind_eq_ok.mp h
  obtain ⟨generatedBy, -, h⟩ := bind_eq_ok.mp h
  obtain ⟨freshness, -, h⟩ := bind_eq_ok.mp h
  cases h
  exact hd

/-! ## The round trip -/

/-- What a document relies on: a dumped mapping is loaded back, and none of its
lines is taken for the delimiter. -/
structure YamlLib.Faithful (lib : YamlLib) : Prop where
  load_dump (m : Metadata) :
    lib.safeLoad (rstrip (lib.safeDump m.toFields) ++ "\n".toList) = some (.map m.toFields)
  no_delimiter (m : Metadata) :
    ∀ line ∈ splitLines (rstrip (lib.safeDump m.toFields) ++ "\n".toList), chomp line ≠ delimiter

theorem closing_append {front : List Str} (h : ∀ line ∈ front, chomp line ≠ delimiter)
    {line : Str} (hline : chomp line = delimiter) (body : List Str) :
    closing (front ++ line :: body) = some (front, body) := by
  induction front with
  | nil => simp [closing, hline]
  | cons l front ih =>
      have hl := h l List.mem_cons_self
      rw [List.cons_append, closing, if_neg hl, ih fun x hx => h x (List.mem_cons_of_mem _ hx)]
      rfl

theorem splitLines_envelope (front body : Str) :
    splitLines (envelope front body) = "---\n".toList ::
      (splitLines (front ++ "\n".toList) ++
        "---\n".toList :: splitLines ('\n' :: (strip body ++ "\n".toList))) := by
  have hdelim : splitLines ("---".toList ++ ['\n']) = ["---\n".toList] := rfl
  have he : envelope front body = "---".toList ++ '\n' :: (front ++ '\n' ::
      ("---".toList ++ '\n' :: ('\n' :: (strip body ++ "\n".toList)))) := by
    show "---\n".toList ++ front ++ "\n---\n\n".toList ++ strip body ++ "\n".toList = _
    rw [List.append_assoc, List.append_assoc, List.append_assoc]
    rfl
  rw [he, splitLines_append_newline, splitLines_append_newline front, splitLines_append_newline,
    hdelim]
  rfl

/-- What is rendered: normalised metadata under a directory that is normalised. -/
theorem render_eq_ok {lib : YamlLib} {level : ContextLevel} {dirUri body text : Str}
    {fields : Fields}
    (h : renderAbstractOverview lib level dirUri body fields = .ok text) :
    level ≠ .detail ∧ ∃ d m, normalizeDirectoryUri dirUri = .ok d ∧
      normalizeMetadata (fields.set "directory".toList (.str d)) = .ok m ∧
      normalizeDirectoryUri d = .ok d ∧ m.directory = some d ∧
      text = envelope (rstrip (lib.safeDump m.toFields)) body := by
  unfold renderAbstractOverview at h
  split at h
  · cases h
  · next hlevel =>
      obtain ⟨d, hd, h⟩ := bind_eq_ok.mp h
      obtain ⟨m, hm, h⟩ := bind_eq_ok.mp h
      cases h
      have hdir : some <$> normalizeDirectoryUri d = .ok m.directory := by
        have := directory_of_normalizeMetadata hm
        rwa [Fields.lookup_set, if_pos rfl] at this
      obtain ⟨d', hd', hmd⟩ : ∃ d', normalizeDirectoryUri d = .ok d' ∧ some d' = m.directory := by
        cases hn : normalizeDirectoryUri d with
        | error e =>
            rw [hn] at hdir
            cases hdir
        | ok d' =>
            rw [hn] at hdir
            exact ⟨d', rfl, Except.ok.inj hdir⟩
      obtain rfl := normalizeDirectoryUri_again hd hd'
      exact ⟨hlevel, d', m, hd, hm, hd', hmd.symm, rfl⟩

theorem strip_append_newline (s : Str) : strip (strip s ++ "\n".toList) = strip s := by
  cases hs : strip s with
  | nil => decide
  | cons c t =>
      have hhead : isSpace c = false := head?_stripBy (congrArg List.head? hs)
      have hdrop : stripBy isSpace ((c :: t) ++ ['\n']) = stripBy isSpace (c :: t) :=
        stripBy_append_singleton (by decide) ⟨c, rfl, hhead⟩
      show stripBy isSpace ((c :: t) ++ ['\n']) = c :: t
      rw [hdrop, ← hs]
      exact strip_strip s

/-- The body that is parsed renders as the one it was rendered from. -/
theorem envelope_strip (front body : Str) :
    envelope front (strip body ++ "\n".toList) = envelope front body :=
  congrArg (fun text => "---\n".toList ++ front ++ "\n---\n\n".toList ++ text ++ "\n".toList)
    (strip_append_newline body)

/-- How a text is rendered. -/
theorem render_of_normalized {lib : YamlLib} {level : ContextLevel} {dirUri d : Str}
    {fields : Fields}
    {m : Metadata} (hlevel : level ≠ .detail) (hd : normalizeDirectoryUri dirUri = .ok d)
    (hm : normalizeMetadata (fields.set "directory".toList (.str d)) = .ok m) (body : Str) :
    renderAbstractOverview lib level dirUri body fields =
      .ok (envelope (rstrip (lib.safeDump m.toFields)) body) := by
  rw [renderAbstractOverview, if_neg hlevel]
  exact bind_eq_ok.mpr ⟨d, hd, bind_eq_ok.mpr ⟨m, hm, rfl⟩⟩

section roundtrip

variable {lib : YamlLib} (hlib : lib.Faithful)

include hlib

/-- The text of normalised metadata parses to it. -/
theorem parse_envelope {m : Metadata} {d : Str} (hd : m.directory = some d)
    (hnorm : normalizeDirectoryUri d = .ok d) (body : Str) :
    parseAbstractOverview lib (envelope (rstrip (lib.safeDump m.toFields)) body) =
      .ok { metadata := m, body := strip body ++ "\n".toList, legacy := false } := by
  have hdir : m.toFields.lookup "directory".toList = some (.str d) := by
    rw [m.lookup_directory, hd]
    rfl
  have hm : normalizeMetadata m.toFields = .ok m := by
    have := normalizeMetadata_of_lookup m hdir hnorm m.lookup_source m.lookup_generatedBy
      (by rw [m.lookup_freshness]
          exact optional_map normalizeFreshness_toFields (fun _ h => by cases h) _)
    rw [this, ← hd]
  have hchomp : chomp "---\n".toList = delimiter := by decide
  rw [parseAbstractOverview, splitLines_envelope]
  dsimp only
  rw [if_pos hchomp, closing_append (hlib.no_delimiter m) hchomp]
  dsimp only
  rw [flatten_splitLines, flatten_splitLines, loadFields, hlib.load_dump m]
  dsimp only
  rw [ok_bind, hdir]
  dsimp only [Option.isNone]
  rw [if_neg Bool.false_ne_true, hm]
  rfl

end roundtrip

/-! ## Public edits -/

/-- What `prepare_abstract_overview_write` raises -/
inductive EditError where
  /-- `ValueError` -/
  | value (message : String)
  /-- `AbstractOverviewMetadataError` -/
  | metadata (message : String)
  | document (error : Error)
  deriving DecidableEq, Repr

/-- An error of parsing or rendering goes through. -/
def raising {α : Type} : Except Error α → Except EditError α
  | .ok a => .ok a
  | .error e => .error (.document e)

/-- `uri.rstrip("/").rsplit("/", 1)` -/
def directoryAndName (uri : Str) : Str × Str :=
  (rsplitOnce '/' (trimEnd '/' uri)).getD (trimEnd '/' uri, trimEnd '/' uri)

/-- `ABSTRACT_OVERVIEW_FILENAMES` -/
def abstractOverviewFilenames : List Str := [".abstract.md".toList, ".overview.md".toList]

def isAbstractOverviewUri (uri : Str) : Bool :=
  abstractOverviewFilenames.contains (directoryAndName uri).2

/-- Metadata cannot be changed, nor removed by leaving it out; a document without any takes
its directory from the URI. -/
def prepareAbstractOverviewWrite (lib : YamlLib) (uri currentRaw requestedRaw mode : Str) :
    Except EditError Str := do
  if mode ≠ "replace".toList ∧ mode ≠ "append".toList then
    .error (.value ("unsupported abstract overview write mode: " ++ text mode))
  else if !isAbstractOverviewUri uri then
    .error (.value ("not an abstract overview URI: " ++ text uri))
  else
    let current ← raising (parseAbstractOverview lib currentRaw)
    let requested ← raising (parseAbstractOverview lib requestedRaw)
    if !requested.legacy ∧ requested.metadata ≠ current.metadata then
      .error (.metadata "cannot modify protected abstract overview metadata")
    else
      let body := if mode = "append".toList then current.body ++ requested.body else requested.body
      let level := if (directoryAndName uri).2 = ".abstract.md".toList then ContextLevel.abstract
        else .overview
      -- a directory is never empty once it is normalised
      let dirUri := current.metadata.directory.getD (directoryAndName uri).1
      raising (renderAbstractOverview lib level dirUri body current.metadata.toFields)

theorem raising_eq_ok {α : Type} {x : Except Error α} {a : α} : raising x = .ok a ↔ x = .ok a := by
  cases x with
  | error e => simp [raising]
  | ok b => simp [raising]

/-- A write is a rendering of the metadata that is there. -/
theorem prepareAbstractOverviewWrite_eq_ok {lib : YamlLib}
    {uri currentRaw requestedRaw mode out : Str}
    (h : prepareAbstractOverviewWrite lib uri currentRaw requestedRaw mode = .ok out) :
    ∃ current body level, parseAbstractOverview lib currentRaw = .ok current ∧
      renderAbstractOverview lib level
        (current.metadata.directory.getD (directoryAndName uri).1) body
        current.metadata.toFields = .ok out := by
  rw [prepareAbstractOverviewWrite] at h
  split at h
  · cases h
  split at h
  · cases h
  obtain ⟨current, hcurrent, h⟩ := bind_eq_ok.mp h
  obtain ⟨requested, -, h⟩ := bind_eq_ok.mp h
  split at h
  · cases h
  · exact ⟨current, _, _, raising_eq_ok.mp hcurrent, raising_eq_ok.mp h⟩

/-- A document with front matter has a normalised directory. -/
theorem directory_of_parse {lib : YamlLib} {raw : Str} {doc : Document}
    (h : parseAbstractOverview lib raw = .ok doc) (hlegacy : doc.legacy = false) :
    ∃ x d, normalizeDirectoryUri x = .ok d ∧ doc.metadata.directory = some d := by
  rw [parseAbstractOverview] at h
  split at h
  · cases h
    cases hlegacy
  split at h
  · split at h
    · cases h
    · obtain ⟨loaded, -, h⟩ := bind_eq_ok.mp h
      split at h
      · cases h
      · next hpresent =>
          obtain ⟨metadata, hmetadata, h⟩ := bind_eq_ok.mp h
          cases h
          have hdirectory := directory_of_normalizeMetadata hmetadata
          obtain ⟨value, hvalue⟩ : ∃ value, loaded.lookup "directory".toList = some value := by
            cases hlookup : loaded.lookup "directory".toList with
            | none => exact absurd (congrArg Option.isNone hlookup) hpresent
            | some value => exact ⟨value, rfl⟩
          rw [hvalue] at hdirectory
          cases hd : normalizeDirectoryUri (directoryText value) with
          | error e =>
              simp [normalizeDirectory, hd] at hdirectory
          | ok d =>
              refine ⟨_, d, hd, ?_⟩
              simpa [normalizeDirectory, hd] using hdirectory.symm
  · cases h
    cases hlegacy

/-- Normalised metadata under its own directory -/
theorem normalizeMetadata_toFields {m : Metadata} {d : Str} (hd : m.directory = some d)
    (hnorm : normalizeDirectoryUri d = .ok d) :
    normalizeMetadata (m.toFields.set "directory".toList (.str d)) = .ok m := by
  have hset : ∀ key : Str, key ≠ "directory".toList →
      (m.toFields.set "directory".toList (.str d)).lookup key = m.toFields.lookup key := by
    intro key hkey
    rw [Fields.lookup_set, if_neg hkey]
  have hfresh : optional normalizeFreshness
      ((m.toFields.set "directory".toList (.str d)).lookup "freshness".toList) =
        .ok m.freshness := by
    rw [hset _ (by decide), m.lookup_freshness]
    exact optional_map normalizeFreshness_toFields (fun _ h => by cases h) _
  have hnormal := normalizeMetadata_of_lookup m (by rw [Fields.lookup_set, if_pos rfl]) hnorm
    ((hset _ (by decide)).trans m.lookup_source) ((hset _ (by decide)).trans m.lookup_generatedBy)
    hfresh
  rw [hnormal, ← hd]

/-- Documents: a rendered one parses to its normalised metadata and the stripped body with a
line end, which render to the same text again; and a public edit of one with front matter
raises or leaves its metadata. -/
theorem documents_round_trip (lib : YamlLib) (hlib : lib.Faithful) :
    (∀ level dirUri body fields out, renderAbstractOverview lib level dirUri body fields = .ok out →
      ∃ d m, normalizeDirectoryUri dirUri = .ok d ∧
        normalizeMetadata (fields.set "directory".toList (.str d)) = .ok m ∧
        parseAbstractOverview lib out =
          .ok { metadata := m, body := strip body ++ "\n".toList, legacy := false } ∧
        m.directory = some d ∧
        renderAbstractOverview lib level d (strip body ++ "\n".toList) m.toFields = .ok out) ∧
    (∀ uri currentRaw requestedRaw mode current,
      parseAbstractOverview lib currentRaw = .ok current →
      current.legacy = false → ∀ out,
      prepareAbstractOverviewWrite lib uri currentRaw requestedRaw mode = .ok out →
      ∃ doc, parseAbstractOverview lib out = .ok doc ∧ doc.legacy = false ∧
        doc.metadata = current.metadata) := by
  refine ⟨?_, ?_⟩
  · intro level dirUri body fields out h
    obtain ⟨hlevel, d, m, hd, hm, hnorm, hdirectory, rfl⟩ := render_eq_ok h
    refine ⟨d, m, hd, hm, parse_envelope hlib hdirectory hnorm body, hdirectory, ?_⟩
    have hagain := normalizeMetadata_toFields hdirectory hnorm
    exact (render_of_normalized hlevel hnorm hagain _).trans
      (congrArg Except.ok (envelope_strip _ body))
  · intro uri currentRaw requestedRaw mode current hcurrent hlegacy out h
    obtain ⟨current', body, level, hcurrent', hrender⟩ := prepareAbstractOverviewWrite_eq_ok h
    obtain rfl : current = current' := Except.ok.inj (hcurrent.symm.trans hcurrent')
    obtain ⟨x, d, hx, hdirectory⟩ := directory_of_parse hcurrent hlegacy
    rw [hdirectory, Option.getD_some] at hrender
    obtain ⟨-, d', m, hd, hm, hnorm, hmdir, rfl⟩ := render_eq_ok hrender
    obtain rfl := normalizeDirectoryUri_again hx hd
    rw [normalizeMetadata_toFields hdirectory hnorm] at hm
    cases hm
    exact ⟨_, parse_envelope hlib hdirectory hnorm body, rfl, rfl⟩

namespace Sample

/-! A library that writes the metadata of one directory as PyYAML does, and any other metadata
as a code in unary. -/

/-- The texts and numbers of metadata -/
abbrev Raw : Type := Option Str × Option (Str × Str) × Option (Str × Str) ×
  Option (List (Option Nat))

def counters : List String := requiredCounters ++ ["missing_summary_entries"]

instance encodableChar : Encodable Char :=
  Encodable.ofLeftInverse Char.toNat Char.ofNat Char.ofNat_toNat

def textAt (key : Str) : Yaml → Str
  | .map fields =>
      match fields.lookup key with
      | some (.str s) => s
      | _ => []
  | _ => []

def numberAt? (key : Str) : Yaml → Option Nat
  | .map fields =>
      match fields.lookup key with
      | some (.int z) => some z.toNat
      | _ => none
  | _ => none

def readRaw (fields : Fields) : Raw :=
  ((fields.lookup "directory".toList).map fun d => textAt [] (.map [([], d)]),
    (fields.lookup "source".toList).map fun s => (textAt "kind".toList s, textAt "uri".toList s),
    (fields.lookup "generated_by".toList).map fun g =>
      (textAt "component".toList g, textAt "trigger".toList g),
    (fields.lookup "freshness".toList).map fun f =>
      counters.map fun key => numberAt? key.toList f)

def rawFields (raw : Raw) : Fields :=
  (raw.1.map fun d => ("directory".toList, Yaml.str d)).toList ++
  (raw.2.1.map fun s => ("source".toList,
    Yaml.map [("kind".toList, .str s.1), ("uri".toList, .str s.2)])).toList ++
  (raw.2.2.1.map fun g => ("generated_by".toList,
    Yaml.map [("component".toList, .str g.1), ("trigger".toList, .str g.2)])).toList ++
  (raw.2.2.2.map fun f => ("freshness".toList, Yaml.map ((counters.zip f).filterMap fun counter =>
    counter.2.map fun n => (counter.1.toList, Yaml.int n)))).toList

theorem rawFields_readRaw (m : Metadata) : rawFields (readRaw m.toFields) = m.toFields := by
  rw [readRaw, m.lookup_directory, m.lookup_source, m.lookup_generatedBy, m.lookup_freshness]
  obtain ⟨d, s, g, f⟩ := m
  cases f with
  | none => cases d <;> cases s <;> cases g <;> rfl
  | some f =>
      obtain ⟨t, n, u, p, missing, covers⟩ := f
      cases missing <;> cases d <;> cases s <;> cases g <;> rfl

def notesDirectory : Str := "viking://resources/notes/".toList

def notesMetadata : Metadata where
  directory := some notesDirectory
  source := some ⟨⟨"git".toList, by decide, by decide, by decide⟩,
    ⟨"https://example.org/notes".toList, by decide +kernel, by decide, by decide⟩⟩
  generatedBy := some ⟨⟨"semantic".toList, by decide, by decide, by decide⟩,
    ⟨"import".toList, by decide, by decide, by decide⟩⟩
  freshness := some ⟨3, 2, 1, 0, some 1, rfl⟩

/-- `yaml.safe_dump` of the metadata -/
def notesFront : Str :=
  ["directory: viking://resources/notes/", "source:", "  kind: git",
    "  uri: https://example.org/notes", "generated_by:", "  component: semantic",
    "  trigger: import", "freshness:", "  total_entries: 3", "  sampled_entries: 2",
    "  unsampled_entries: 1", "  pending_child_changes: 0",
    "  missing_summary_entries: 1"].flatMap fun line => line.toList ++ ['\n']

def code (fields : Fields) : Nat := Encodable.encode (readRaw fields)

theorem decode_code (fields : Fields) :
    (Encodable.decode (code fields) : Option Raw) = some (readRaw fields) :=
  Encodable.encodek _

-- the code of even small metadata is too large to be computed
attribute [irreducible] code

def unary (n : Nat) : Str := List.replicate n '1'

def notesLib : YamlLib where
  safeDump fields :=
    if code fields = code notesMetadata.toFields then notesFront else unary (code fields)
  safeLoad text :=
    if text = notesFront then some (.map notesMetadata.toFields)
    else (Encodable.decode (text.length - 1)).map fun raw => .map (rawFields raw)

theorem rstrip_unary (n : Nat) : rstrip (unary n) = unary n := by
  refine List.rdropWhile_eq_self_iff.mpr fun hne => ?_
  rw [List.eq_of_mem_replicate (List.getLast_mem hne)]
  decide

theorem rstrip_notesFront : rstrip notesFront ++ "\n".toList = notesFront := by decide +kernel

theorem unary_ne_notesFront (n : Nat) : unary n ++ "\n".toList ≠ notesFront := by
  intro h
  have hd : 'd' ∈ unary n ++ "\n".toList := h ▸ (by decide +kernel : 'd' ∈ notesFront)
  rcases List.mem_append.mp hd with hd | hd
  · exact absurd (List.eq_of_mem_replicate hd) (by decide)
  · exact absurd hd (by decide)

/-- A text without `-` has no delimiter line. -/
theorem chomp_ne_delimiter {s : Str} (h : '-' ∉ s) :
    ∀ line ∈ splitLines s, chomp line ≠ delimiter := by
  intro line hline hc
  apply h
  have hmem : '-' ∈ chomp line := by
    rw [hc]
    decide
  rw [← flatten_splitLines s]
  exact List.mem_flatten.mpr ⟨line, hline, (List.rdropWhile_prefix _ _).subset hmem⟩

theorem notesLib_faithful : notesLib.Faithful where
  load_dump m := by
    by_cases hnotes : code m.toFields = code notesMetadata.toFields
    · have hraw : readRaw m.toFields = readRaw notesMetadata.toFields := by
        have hdecode := decode_code m.toFields
        rw [hnotes, decode_code] at hdecode
        exact (Option.some.inj hdecode).symm
      have hfields : m.toFields = notesMetadata.toFields := by
        rw [← rawFields_readRaw, hraw, rawFields_readRaw]
      simp only [notesLib, rstrip_notesFront, if_true, hfields]
    · have hlength : (unary (code m.toFields) ++ "\n".toList).length - 1 = code m.toFields := by
        rw [List.length_append, unary, List.length_replicate]
        rfl
      simp only [notesLib, if_neg hnotes, rstrip_unary, if_neg (unary_ne_notesFront _), hlength,
        decode_code, Option.map_some, rawFields_readRaw]
  no_delimiter m := by
    refine chomp_ne_delimiter fun hmem => ?_
    simp only [notesLib] at hmem
    split at hmem
    · rw [rstrip_notesFront] at hmem
      exact absurd hmem (by decide +kernel)
    · rw [rstrip_unary] at hmem
      rcases List.mem_append.mp hmem with hmem | hmem
      · exact absurd (List.eq_of_mem_replicate hmem) (by decide)
      · exact absurd hmem (by decide)

theorem safeDump_notes : notesLib.safeDump notesMetadata.toFields = notesFront := by
  simp only [notesLib, if_true]

theorem notesDirectory_normal : normalizeDirectoryUri notesDirectory = .ok notesDirectory := by
  decide +kernel

/-- The document of the directory, with a body -/
def notes (body : Str) : Str :=
  "---\n".toList ++ notesFront ++ "---\n\n".toList ++ body ++ "\n".toList

theorem envelope_notes {body : Str} (hbody : strip body = body) :
    envelope (rstrip (notesLib.safeDump notesMetadata.toFields)) body = notes body := by
  have hfront : "---\n".toList ++ rstrip notesFront ++ "\n---\n\n".toList =
      "---\n".toList ++ notesFront ++ "---\n\n".toList := by decide +kernel
  calc envelope (rstrip (notesLib.safeDump notesMetadata.toFields)) body
      = envelope (rstrip notesFront) body :=
        congrArg (fun t => envelope (rstrip t) body) safeDump_notes
    _ = "---\n".toList ++ rstrip notesFront ++ "\n---\n\n".toList ++ body ++ "\n".toList :=
        congrArg (fun t => "---\n".toList ++ rstrip notesFront ++ "\n---\n\n".toList ++ t ++
          "\n".toList) hbody
    _ = notes body := congrArg (fun t => t ++ body ++ "\n".toList) hfront

theorem render_notes {body : Str} (hbody : strip body = body) :
    renderAbstractOverview notesLib .abstract notesDirectory body notesMetadata.toFields =
      .ok (notes body) := by
  rw [← envelope_notes hbody]
  exact render_of_normalized (by decide) notesDirectory_normal
    (normalizeMetadata_toFields rfl notesDirectory_normal) body

theorem parse_notes {body : Str} (hbody : strip body = body) :
    parseAbstractOverview notesLib (notes body) =
      .ok { metadata := notesMetadata, body := body ++ "\n".toList, legacy := false } := by
  have hparse := parse_envelope notesLib_faithful
    (m := notesMetadata) rfl notesDirectory_normal body
  rwa [envelope_notes hbody, hbody] at hparse

def notesUri : Str := "viking://resources/notes/.abstract.md".toList

/-- A text without front matter -/
theorem parse_plain :
    parseAbstractOverview notesLib "New".toList =
      .ok { metadata := ⟨none, none, none, none⟩, body := "New".toList, legacy := true } := by
  decide +kernel

theorem prepare_notes :
    prepareAbstractOverviewWrite notesLib notesUri (notes "Old".toList) "New".toList
      "replace".toList = .ok (notes "New".toList) := by
  have hmode : ¬("replace".toList ≠ "replace".toList ∧ "replace".toList ≠ "append".toList) := by
    decide
  have huri : (!isAbstractOverviewUri notesUri) = false := by decide +kernel
  have hname : (directoryAndName notesUri).2 = ".abstract.md".toList := by decide +kernel
  have hreplace : "replace".toList ≠ "append".toList := by decide
  have hlegacy : ∀ {P : Prop}, ¬((!true) = true ∧ P) := fun h => Bool.false_ne_true h.1
  have hold : parseAbstractOverview notesLib (notes "Old".toList) = _ := parse_notes (by decide)
  have hnew : renderAbstractOverview notesLib .abstract notesDirectory "New".toList
      notesMetadata.toFields = _ := render_notes (by decide)
  rw [prepareAbstractOverviewWrite, if_neg hmode, huri, if_neg Bool.false_ne_true, hold, raising,
    ok_bind, parse_plain, raising, ok_bind, if_neg hlegacy, hname, if_pos rfl, if_neg hreplace]
  exact congrArg raising hnew

/-- A document is rendered, parsed and edited. -/
theorem edited_document_keeps_metadata :
    notesLib.Faithful ∧ notesLib.safeDump notesMetadata.toFields = notesFront ∧
    (∃ m, parseAbstractOverview notesLib (notes "Old".toList) =
        .ok { metadata := m, body := "Old\n".toList, legacy := false } ∧
      m.directory = some notesDirectory ∧
      renderAbstractOverview notesLib .abstract notesDirectory "Old\n".toList m.toFields =
        .ok (notes "Old".toList)) ∧
    ∃ doc, parseAbstractOverview notesLib (notes "New".toList) = .ok doc ∧
      doc.metadata = notesMetadata := by
  obtain ⟨htrip, hedit⟩ := documents_round_trip notesLib notesLib_faithful
  refine ⟨notesLib_faithful, safeDump_notes, ?_, ?_⟩
  · obtain ⟨d, m, hd, -, hparse, hdirectory, hrender⟩ :=
      htrip _ _ _ _ _ (render_notes (by decide : strip "Old".toList = "Old".toList))
    obtain rfl : notesDirectory = d := Except.ok.inj (notesDirectory_normal.symm.trans hd)
    exact ⟨m, hparse, hdirectory, hrender⟩
  · obtain ⟨doc, hdoc, -, hmetadata⟩ :=
      hedit _ _ _ _ _ (parse_notes (by decide)) rfl _ prepare_notes
    exact ⟨doc, hdoc, hmetadata⟩

/-- The parsed body has a line end that the stripped body has not. -/
theorem parsed_body_ends_with_newline : notesLib.Faithful ∧
    ∃ doc, renderAbstractOverview notesLib .abstract notesDirectory "Old".toList
        notesMetadata.toFields = .ok (notes "Old".toList) ∧
      parseAbstractOverview notesLib (notes "Old".toList) = .ok doc ∧
      doc.body ≠ strip "Old".toList :=
  ⟨notesLib_faithful, _, render_notes (by decide), parse_notes (by decide), by decide⟩

end Sample

end OpenViking.Sidecar
