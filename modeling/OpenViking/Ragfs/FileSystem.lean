/-
# `OpenViking.Ragfs.FileSystem` — the search of the filesystem trait

`core/filesystem.rs`: the trait every layer of the stack implements, as far as
`grep` goes.  A layer is a record of its calls over its own state; `grep_file`
has a body in the trait, written here over the calls it makes.  It takes the lines
of a file in turn (`scan_ofFound`).
-/
import OpenViking.Lib.Act
import OpenViking.Lib.ReadAhead
import OpenViking.Lib.Segments

namespace OpenViking.Ragfs

open OpenViking.Lib OpenViking.Lib.ReadAhead

abbrev Bytes : Type := List UInt8

/-- An error of `core/errors.rs`, by its kind and text; a search passes it on. -/
structure Error where
  kind : String
  message : String
  deriving DecidableEq, Repr

structure GrepMatch where
  file : Str
  line : Nat
  content : Str
  deriving DecidableEq, Repr

structure GrepResult where
  found : List GrepMatch
  count : Nat
  deriving DecidableEq, Repr

namespace GrepResult

def new : GrepResult := ⟨[], 0⟩

def addMatch (r : GrepResult) (file : Str) (line : Nat) (content : Str) : GrepResult :=
  ⟨r.found ++ [⟨file, line, content⟩], r.count + 1⟩

/-- `node_limit.is_some_and(|limit| result.count >= limit)` -/
def full (r : GrepResult) (nodeLimit : Option Nat) : Bool :=
  nodeLimit.any fun limit => limit ≤ r.count

end GrepResult

abbrev Op (σ α : Type) : Type := Act Error σ α

/-- The call that the inherited body makes. -/
structure Lookup (σ : Type) where
  read : Str → (offset size : Nat) → Op σ Bytes

/-! ## The bodies of the trait -/

variable {σ : Type}

/-! ### Searching -/

def normalizePrefixPath (path : Str) : Str := if path = ['/'] then ['/'] else trimEnd '/' path

/-- The path of a match relative to the query root, `.` for the root itself. -/
def relativeMatchFile (root path : Str) : Str :=
  let base := normalizePrefixPath root
  if path = base then ['.']
  else if base = ['/'] then path.dropWhile (· == '/')
  else if base.isPrefixOf path then
    let rel := (path.drop base.length).dropWhile (· == '/')
    if rel = [] then ['.'] else rel
  else path.dropWhile (· == '/')

/-- A line that ended in a line feed loses a carriage return before it. -/
def stripCr (line : Str) : Str := if line.getLast? = some '\r' then line.dropLast else line

/-- `str::lines` -/
def lines (s : Str) : List Str :=
  let parts := s.splitOn '\n'
  parts.dropLast.map stripCr ++ (parts.getLast?.toList.filter (· ≠ []))

/-- What a search looks for and how far it goes: the arguments of `grep_file` that stay
the same. -/
structure Search where
  base : Str
  isMatch : Str → Bool
  nodeLimit : Option Nat

namespace Search

/-- The loop of `grep_file` over the lines of one file. -/
def scan (q : Search) (file : Str) (content : List Str) (result : GrepResult) : GrepResult :=
  content.zipIdx.foldl (fun r l =>
    if r.full q.nodeLimit then r
    else if q.isMatch l.1 then r.addMatch file (l.2 + 1) l.1 else r) result

variable (q : Search) (fs : Lookup σ) (fromUtf8Lossy : Bytes → Str)

def grepFile (path : Str) (result : GrepResult) : Op σ GrepResult :=
  if result.full q.nodeLimit then pure result
  else do
    let content ← fs.read path 0 0
    pure (q.scan (relativeMatchFile q.base path) (lines (fromUtf8Lossy content)) result)

end Search

/-! ## Events of a search -/

namespace GrepResult

/-- The result with these matches. -/
def ofFound (found : List GrepMatch) : GrepResult := ⟨found, found.length⟩

@[simp] theorem full_ofFound (found : List GrepMatch) (limit : Option Nat) :
    (ofFound found).full limit = ReadAhead.full limit found := rfl

theorem addMatch_ofFound (found : List GrepMatch) (file : Str) (line : Nat) (content : Str) :
    (ofFound found).addMatch file line content = ofFound (found ++ [⟨file, line, content⟩]) := by
  simp [addMatch, ofFound]

end GrepResult

namespace Search

variable (q : Search)

/-- The match of a numbered line, if it is one. -/
def matchAt (file : Str) (line : Str × Nat) : Option GrepMatch :=
  if q.isMatch line.1 then some ⟨file, line.2 + 1, line.1⟩ else none

/-! ## The default bodies take the events in turn -/

theorem scan_ofFound (file : Str) (content : List Str) (acc : List GrepMatch) :
    q.scan file content (.ofFound acc) =
      .ofFound (collect q.nodeLimit (q.matchAt file) content.zipIdx acc) := by
  unfold scan collect
  generalize content.zipIdx = numbered
  induction numbered generalizing acc with
  | nil => rfl
  | cons line numbered ih =>
      rw [List.foldl_cons, List.foldl_cons, ← ih, GrepResult.full_ofFound, matchAt]
      by_cases hfull : full q.nodeLimit acc = true
      · rw [if_pos hfull, if_pos hfull]
      · rw [if_neg hfull, if_neg hfull]
        by_cases hmatch : q.isMatch line.1 = true
        · rw [if_pos hmatch, if_pos hmatch, GrepResult.addMatch_ofFound]
        · rw [if_neg hmatch, if_neg hmatch]

end Search

end OpenViking.Ragfs
