/-
# `OpenViking.Git.Objects` — object ids and errors of the snapshot store

`git/error.rs`, and the ids of `gix_hash`: twenty bytes, printed as forty
lower-case hex digits.
-/
import OpenViking.Lib.Text
import OpenViking.Lib.Worklist
import Mathlib.Data.List.Sort
import OpenViking.Lib.OrderedTable
import OpenViking.Lib.Results
import Mathlib.Data.List.AList
import Mathlib.Data.List.Lex

namespace OpenViking.Git

open OpenViking.Lib

/-- `gix_hash::ObjectId`, a SHA-1 digest. -/
structure ObjectId where
  bytes : List UInt8
  length_eq : bytes.length = 20
  deriving DecidableEq

/-- `{:02x}` -/
def hexByte (b : UInt8) : Str := [Nat.digitChar (b.toNat / 16), Nat.digitChar (b.toNat % 16)]

/-- `ObjectId::to_hex` -/
def ObjectId.hex (oid : ObjectId) : Str := oid.bytes.flatMap hexByte

inductive ObjectStoreError (Oid : Type)
  | notFound (oid : Oid)
  | io (message : String)
  | zlib (message : String)
  | oidMismatch (expected actual : Oid)
  | backend (message : String)
  deriving DecidableEq

/-- The errors the modelled functions return or look at. -/
inductive GitError (Oid : Type)
  | objectStore (e : ObjectStoreError Oid)
  | refStore (message : String)
  | corruptedObject (message : String)
  | oidPrefixNotFound (digits : Str)
  | ambiguousOid (digits : Str) (count : Nat) (candidates : Str)
  | invalidPath (reason : String) (path : Str)
  | tooManyLogPaths (count limit : Nat)
  | logPathTooDeep (path : Str) (depth limit : Nat)
  | logScanLimitExceeded (scanned maxScanned matched requested : Nat)
  | other (message : String)
  deriving DecidableEq

end OpenViking.Git
