/-
# `OpenViking.Store.Scan` — reading a table at once and by pages

`store/local_store.py` over the two native stores.  `read_all` asks the engine
for the range of a table's keys; `iter_all` asks for pages of it and goes on
after the last key of the page before.  Between them lies the extension module
(`abi3_engine_backend.cpp`): it takes the keys of a range as C strings, which
refuses a key with a NUL in it, while keys are stored and returned with their
length.  Keys are compared as UTF-8 bytes by the stores and as code points by
Python, which is the same order.

`iter_all_iff`: on a content that does not change the scan gives what `read_all`
gives, in pages within their limits, exactly if it can name every key it has to
go on from.

Errors of the LevelDB iterator are left out, and so is an engine without
`seek_range_page`.
-/
import OpenViking.Lib.OrderedTable
import OpenViking.Lib.Paging
import OpenViking.Lib.Text
import Mathlib.Data.List.Lex

namespace OpenViking.Store

open OpenViking.Lib

abbrev Value : Type := List UInt8

abbrev KeyValue : Type := Str × Value

/-- `key.size() + value.size()` -/
def itemBytes (row : KeyValue) : Nat := (row.1.map Char.utf8Size).sum + row.2.length

/-- The loop of `seek_range_page`, the same in both stores: the rows from the iterator on,
the page so far and its bytes -/
def fillPage (endKey : Str) (limit maxBytes : Nat) :
    List KeyValue → List KeyValue → Nat → List KeyValue
  | [], page, _ => page
  | row :: rows, page, pageBytes =>
      if row.1 < endKey ∧ page.length < limit then
        if page ≠ [] ∧ (maxBytes ≤ pageBytes ∨ maxBytes - pageBytes < itemBytes row) then page
        else fillPage endKey limit maxBytes rows (page ++ [row]) (pageBytes + itemBytes row)
      else page

/-- The engine's two stores: a `std::map` and a LevelDB database -/
inductive NativeStore
  | volatileStore (data : Table Str Value)
  | persistStore (db : Table Str Value)

namespace NativeStore

def content : NativeStore → Table Str Value
  | volatileStore data => data
  | persistStore db => db

/-- `lower_bound` and `Seek` -/
def from_ (store : NativeStore) (startKey : Str) : List KeyValue := store.content.since startKey

/-- `seek_range` -/
def seekRange (store : NativeStore) (startKey endKey : Str) : List KeyValue :=
  (store.from_ startKey).takeWhile (·.1 < endKey)

/-- Where a page begins: `upper_bound`, or one step after `Seek` if it found the key itself -/
def pageStart (store : NativeStore) (startKey : Str) (startExclusive : Bool) : List KeyValue :=
  match store with
  | volatileStore data =>
      if startExclusive then data.after (some startKey) else data.since startKey
  | persistStore db =>
      match db.since startKey with
      | [] => []
      | row :: rows => if startExclusive ∧ row.1 = startKey then rows else row :: rows

/-- `seek_range_page` -/
def seekRangePage (store : NativeStore) (startKey endKey : Str) (limit maxBytes : Nat)
    (startExclusive : Bool) : List KeyValue :=
  if limit = 0 ∨ maxBytes = 0 then []
  else fillPage endKey limit maxBytes (store.pageStart startKey startExclusive) [] 0

end NativeStore

/-! ## The extension module -/

inductive PyError
  | valueError (message : String)
  | overflowError (message : String)
  | runtimeError (message : String)
  deriving DecidableEq, Repr

/-- `s` of `PyArg_ParseTuple` -/
def parseCString (s : Str) : Except PyError Str :=
  if Char.ofNat 0 ∈ s then .error (.valueError "embedded null character") else .ok s

/-- `n` of `PyArg_ParseTuple` -/
def parseSsize (n : Int) : Except PyError Int :=
  if -2 ^ 63 ≤ n ∧ n < 2 ^ 63 then .ok n
  else .error (.overflowError "Python int too large to convert to C ssize_t")

def pySeekRange (store : NativeStore) (startKey endKey : Str) : Except PyError (List KeyValue) := do
  let startKey ← parseCString startKey
  let endKey ← parseCString endKey
  pure (store.seekRange startKey endKey)

def pySeekRangePage (store : NativeStore) (startKey endKey : Str) (limit maxBytes : Int)
    (startExclusive : Bool) : Except PyError (List KeyValue) := do
  let startKey ← parseCString startKey
  let endKey ← parseCString endKey
  let limit ← parseSsize limit
  let maxBytes ← parseSsize maxBytes
  if limit ≤ 0 then .error (.valueError "seek_range_page limit must be positive")
  else if maxBytes ≤ 0 then .error (.valueError "seek_range_page max_bytes must be positive")
  else pure (store.seekRangePage startKey endKey limit.toNat maxBytes.toNat startExclusive)

/-! ## `local_store.py` -/

def maxUnicodeChar : Char := Char.ofNat 0x10ffff

def endKeyOf (table : Str) : Str := table ++ [maxUnicodeChar]

/-- The rows of a table under their own keys -/
def stripTable (table : Str) (rows : List KeyValue) : List KeyValue :=
  (rows.filter fun row => table.isPrefixOf row.1).map fun row => (row.1.drop table.length, row.2)

def readAll (store : NativeStore) (table : Str) : Except PyError (List KeyValue) := do
  let rows ← pySeekRange store table (endKeyOf table)
  pure (stripTable table rows)

/-- What a generator did: the pages it read and yielded, and how it ended, if it did -/
structure Scan where
  pages : List (List KeyValue)
  outcome : Option (Except PyError Unit)

def notAdvanced : PyError :=
  .runtimeError "Native bounded store scan did not advance its continuation cursor"

/-- The loop of `iter_all`, for at most `fuel` pages -/
def scanFrom (store : NativeStore) (endKey : Str) (pageSize pageBytes : Int) :
    Nat → Str → Bool → Scan
  | 0, _, _ => ⟨[], none⟩
  | fuel + 1, cursor, startExclusive =>
      match pySeekRangePage store cursor endKey pageSize pageBytes startExclusive with
      | .error e => ⟨[], some (.error e)⟩
      | .ok page =>
          match page.getLast? with
          | none => ⟨[], some (.ok ())⟩
          | some last =>
              if last.1 < cursor ∨ (startExclusive ∧ last.1 ≤ cursor) then
                ⟨[], some (.error notAdvanced)⟩
              else
                let rest := scanFrom store endKey pageSize pageBytes fuel last.1 true
                ⟨page :: rest.pages, rest.outcome⟩

def iterAll (store : NativeStore) (table : Str) (pageSize pageBytes : Int) (fuel : Nat) : Scan :=
  if pageSize ≤ 0 then
    ⟨[], some (.error (.valueError "Store scan page size must be positive"))⟩
  else if pageBytes ≤ 0 then
    ⟨[], some (.error (.valueError "Store scan page byte budget must be positive"))⟩
  else scanFrom store (endKeyOf table) pageSize pageBytes fuel table false

/-- The pairs the generator yields -/
def Scan.yielded (scan : Scan) (table : Str) : List KeyValue := stripTable table scan.pages.flatten

/-! ## Pages of a sorted content -/

variable {store : NativeStore} {table : Str}

/-- In ascending rows those below a key come first. -/
theorem takeWhile_lt_eq_filter {rows : List KeyValue} (h : rows.Pairwise (·.1 < ·.1)) (k : Str) :
    rows.takeWhile (·.1 < k) = rows.filter (·.1 < k) := by
  induction rows with
  | nil => rfl
  | cons row rows ih =>
      obtain ⟨hrow, hrows⟩ := List.pairwise_cons.mp h
      by_cases hk : row.1 < k
      · rw [List.takeWhile_cons_of_pos (by simpa using hk),
          List.filter_cons_of_pos (by simpa using hk),
          ih hrows]
      · rw [List.takeWhile_cons_of_neg (by simpa using hk),
          List.filter_cons_of_neg (by simpa using hk)]
        refine (List.filter_eq_nil_iff.mpr fun r hr => ?_).symm
        simpa using (not_lt.mp hk).trans (hrow r hr).le

theorem after_eq_filter_since (t : Table Str Value) (k : Str) :
    t.after (some k) = (t.since k).filter (k < ·.1) := by
  rw [Table.after, Table.since, List.filter_filter]
  refine List.filter_congr fun row _ => ?_
  by_cases hk : k < row.1
  · simp [hk, hk.le]
  · simp [hk]

/-- Both stores begin a page at the same row. -/
theorem pageStart_eq (store : NativeStore) (startKey : Str) (startExclusive : Bool) :
    store.pageStart startKey startExclusive =
      if startExclusive then store.content.after (some startKey)
      else store.content.since startKey := by
  cases store with
  | volatileStore data => rfl
  | persistStore db =>
      have hsorted : (db.since startKey).Pairwise (·.1 < ·.1) := db.sorted.filter _
      have hsince : ∀ row ∈ db.since startKey, startKey ≤ row.1 := fun row hrow =>
        (Table.mem_since.mp hrow).2
      simp only [NativeStore.pageStart, NativeStore.content, after_eq_filter_since]
      cases hrows : db.since startKey with
      | nil => simp
      | cons row rows =>
          rw [hrows] at hsorted hsince
          obtain ⟨hrow, -⟩ := List.pairwise_cons.mp hsorted
          cases startExclusive with
          | false => simp
          | true =>
              have hrest : rows.filter (startKey < ·.1) = rows := by
                refine List.filter_eq_self.mpr fun r hr => ?_
                simpa using (hsince row List.mem_cons_self).trans_lt (hrow r hr)
              by_cases hk : row.1 = startKey
              · simp [hk, hrest]
              · have hlt : startKey < row.1 :=
                  lt_of_le_of_ne (hsince row List.mem_cons_self) (Ne.symm hk)
                simp [hk, hlt, hrest]

/-- The loop adds rows of the range to the page until one does not fit. -/
theorem fillPage_spec (endKey : Str) {limit maxBytes : Nat} (rows page : List KeyValue)
    (hlimit : page.length ≤ limit)
    (hfits : page = [] ∨ page.length = 1 ∨
      (total itemBytes page.dropLast < maxBytes ∧ total itemBytes page ≤ maxBytes)) :
    ∃ out rest, fillPage endKey limit maxBytes rows page (total itemBytes page) = out ∧
      page ++ rows.takeWhile (·.1 < endKey) = out ++ rest ∧ out.length ≤ limit ∧
      (out = [] ∨ out.length = 1 ∨
        (total itemBytes out.dropLast < maxBytes ∧ total itemBytes out ≤ maxBytes)) ∧
      ∀ r ∈ rest.head?, out.length = limit ∨
        out ≠ [] ∧ (maxBytes ≤ total itemBytes out ∨
          maxBytes < total itemBytes out + itemBytes r) := by
  induction rows generalizing page with
  | nil => exact ⟨page, [], rfl, by simp, hlimit, hfits, fun r hr => by cases hr⟩
  | cons row rows ih =>
      unfold fillPage
      by_cases hkey : row.1 < endKey
      · have hwhile : (row :: rows).takeWhile (·.1 < endKey) =
            row :: rows.takeWhile (·.1 < endKey) := List.takeWhile_cons_of_pos (by simpa using hkey)
        by_cases hroom : page.length < limit
        · rw [if_pos ⟨hkey, hroom⟩]
          by_cases hover : page ≠ [] ∧ (maxBytes ≤ total itemBytes page ∨
              maxBytes - total itemBytes page < itemBytes row)
          · -- the row does not fit
            rw [if_pos hover]
            refine ⟨page, _, rfl, rfl, hlimit, hfits, fun r hr => .inr ⟨hover.1, ?_⟩⟩
            rw [hwhile, List.head?_cons, Option.mem_some_iff] at hr
            rw [← hr]
            omega
          · rw [if_neg hover]
            have htotal : total itemBytes (page ++ [row]) =
                total itemBytes page + itemBytes row := by
              simp [total]
            have hfits' : page ++ [row] = [] ∨ (page ++ [row]).length = 1 ∨
                (total itemBytes (page ++ [row]).dropLast < maxBytes ∧
                  total itemBytes (page ++ [row]) ≤ maxBytes) := by
              by_cases hpage : page = []
              · exact .inr (.inl (by rw [hpage]; rfl))
              · refine .inr (.inr ?_)
                rw [List.dropLast_concat, htotal]
                have hfit : ¬(maxBytes ≤ total itemBytes page ∨
                    maxBytes - total itemBytes page < itemBytes row) := fun h => hover ⟨hpage, h⟩
                omega
            obtain ⟨out, rest, hout, hsplit, hrest⟩ := ih (page ++ [row])
              (by rw [List.length_append]; exact hroom) hfits'
            refine ⟨out, rest, ?_, ?_, hrest⟩
            · rw [← htotal]
              exact hout
            · rw [← hsplit, hwhile, List.append_assoc]
              rfl
        · rw [if_neg fun h => hroom h.2]
          exact ⟨page, _, rfl, rfl, hlimit, hfits, fun r _ =>
            .inl (le_antisymm hlimit (not_lt.mp hroom))⟩
      · rw [if_neg fun h => hkey h.1]
        refine ⟨page, [], rfl, ?_, hlimit, hfits, fun r hr => by cases hr⟩
        rw [List.takeWhile_cons_of_neg (by simpa using hkey)]

/-- A page is the first page of the range that is left. -/
theorem fillPage_firstPage (endKey : Str) (maxBytes : Nat) {limit : Nat} (hlimit : 0 < limit)
    (rows : List KeyValue) :
    (fillPage endKey limit maxBytes rows [] 0 = [] ∧ rows.takeWhile (·.1 < endKey) = []) ∨
      ∃ rest, rows.takeWhile (·.1 < endKey) = fillPage endKey limit maxBytes rows [] 0 ++ rest ∧
        FirstPage itemBytes limit maxBytes (fillPage endKey limit maxBytes rows [] 0) rest := by
  obtain ⟨out, rest, hout, hsplit, hrows, hfits, hfull⟩ :=
    fillPage_spec endKey rows [] (Nat.zero_le limit) (.inl rfl)
  have hfill : fillPage endKey limit maxBytes rows [] 0 = out := hout
  rw [hfill]
  by_cases hne : out = []
  · left
    refine ⟨hne, ?_⟩
    cases rest with
    | nil => rw [hne] at hsplit; simpa using hsplit
    | cons r rest =>
        rcases hfull r rfl with h | h
        · rw [hne, List.length_nil] at h
          exact absurd h hlimit.ne
        · exact absurd hne h.1
  · right
    exact ⟨rest, hsplit, hne, hrows, hfits.resolve_left hne, fun r hr =>
      (hfull r hr).imp_right And.right⟩

/-! ## The range of a table -/

/-- The rows of the table in the order of their keys -/
def rangeOf (store : NativeStore) (table : Str) : List KeyValue :=
  store.seekRange table (endKeyOf table)

theorem rangeOf_eq_filter (store : NativeStore) (table : Str) :
    rangeOf store table = store.content.entries.filter fun row =>
      decide (row.1 < endKeyOf table) && decide (table ≤ row.1) := by
  rw [rangeOf, NativeStore.seekRange, NativeStore.from_, Table.since,
    takeWhile_lt_eq_filter (store.content.sorted.filter _), List.filter_filter]

theorem rangeOf_sorted (store : NativeStore) (table : Str) :
    (rangeOf store table).Pairwise (·.1 < ·.1) := by
  rw [rangeOf_eq_filter]
  exact store.content.sorted.filter _

/-- After a row of the range comes the rest of the range. -/
theorem range_after {read rest : List KeyValue} {last : KeyValue}
    (h : rangeOf store table = read ++ last :: rest) :
    (store.content.after (some last.1)).takeWhile (·.1 < endKeyOf table) = rest := by
  have hsorted := rangeOf_sorted store table
  have hlast : table ≤ last.1 := by
    have hmem : last ∈ rangeOf store table := by rw [h]; simp
    rw [rangeOf_eq_filter, List.mem_filter, Bool.and_eq_true] at hmem
    simpa using hmem.2.2
  have hafter : (store.content.after (some last.1)).takeWhile (·.1 < endKeyOf table) =
      (rangeOf store table).filter (last.1 < ·.1) := by
    rw [rangeOf_eq_filter, Table.after, takeWhile_lt_eq_filter (store.content.sorted.filter _),
      List.filter_filter, List.filter_filter]
    refine List.filter_congr fun row _ => ?_
    by_cases hrow : last.1 < row.1
    · simp [hrow, hlast.trans hrow.le]
    · simp [hrow]
  rw [hafter, h]
  rw [h, List.pairwise_append] at hsorted
  obtain ⟨-, hrest, hread⟩ := hsorted
  have hlow : read.filter (last.1 < ·.1) = [] := by
    refine List.filter_eq_nil_iff.mpr fun r hr => ?_
    simpa using (hread r hr last List.mem_cons_self).le
  have hhigh : rest.filter (last.1 < ·.1) = rest := by
    refine List.filter_eq_self.mpr fun r hr => ?_
    simpa using (List.pairwise_cons.mp hrest).1 r hr
  rw [List.filter_append, hlow, List.filter_cons_of_neg (by simp), hhigh, List.nil_append]

/-! ## The scan -/

/-- The keys a call of the extension module accepts -/
def Clean (s : Str) : Prop := Char.ofNat 0 ∉ s

theorem parseCString_clean {s : Str} (h : Clean s) : parseCString s = .ok s := if_neg h

theorem parseCString_not_clean {s : Str} (h : ¬Clean s) :
    parseCString s = .error (.valueError "embedded null character") := if_pos (not_not.mp h)

theorem clean_endKeyOf {table : Str} (h : Clean table) : Clean (endKeyOf table) := by
  intro hmem
  rcases List.mem_append.mp hmem with hmem | hmem
  · exact h hmem
  · exact absurd (List.mem_singleton.mp hmem) (by decide)

/-- Page sizes and budgets that fit into a C integer -/
structure Sizes (pageSize pageBytes : Int) : Prop where
  rows : 0 < pageSize ∧ pageSize < 2 ^ 63
  bytes : 0 < pageBytes ∧ pageBytes < 2 ^ 63

variable {pageSize pageBytes : Int}

theorem pySeekRangePage_eq (hsizes : Sizes pageSize pageBytes) (htable : Clean table) {cursor : Str}
    (hcursor : Clean cursor) (startExclusive : Bool) :
    pySeekRangePage store cursor (endKeyOf table) pageSize pageBytes startExclusive =
      .ok (fillPage (endKeyOf table) pageSize.toNat pageBytes.toNat
        (store.pageStart cursor startExclusive) [] 0) := by
  obtain ⟨⟨hrows, hrows'⟩, hbytes, hbytes'⟩ := hsizes
  have hsize (n : Int) (hpos : 0 < n) (hlt : n < 2 ^ 63) : parseSsize n = .ok n :=
    if_pos ⟨by omega, hlt⟩
  simp only [pySeekRangePage, parseCString_clean hcursor,
    parseCString_clean (clean_endKeyOf htable),
    hsize pageSize hrows hrows', hsize pageBytes hbytes hbytes', bind, Except.bind,
    pure, Except.pure]
  rw [if_neg (not_le.mpr hrows), if_neg (not_le.mpr hbytes), NativeStore.seekRangePage,
    if_neg (by omega)]

/-- The scan stands before the rows `rest` of the range. -/
structure At (store : NativeStore) (table cursor : Str) (startExclusive : Bool)
    (rest : List KeyValue) : Prop where
  read : ∃ read, rangeOf store table = read ++ rest
  next : (store.pageStart cursor startExclusive).takeWhile (·.1 < endKeyOf table) = rest

theorem at_start (store : NativeStore) (table : Str) :
    At store table table false (rangeOf store table) where
  read := ⟨[], rfl⟩
  next := by
    rw [pageStart_eq]
    rfl

/-- The page that is read next -/
theorem At.page {cursor : Str} {startExclusive : Bool} {page rest : List KeyValue}
    (h : At store table cursor startExclusive (page ++ rest)) (hsizes : Sizes pageSize pageBytes)
    (hfirst : FirstPage itemBytes pageSize.toNat pageBytes.toNat page rest) :
    fillPage (endKeyOf table) pageSize.toNat pageBytes.toNat
      (store.pageStart cursor startExclusive) [] 0 = page := by
  have hpos : 0 < pageSize.toNat := by have := hsizes.rows.1; omega
  rcases fillPage_firstPage (endKeyOf table) pageBytes.toNat hpos
    (store.pageStart cursor startExclusive) with ⟨-, hnil⟩ | ⟨rest', hsplit, hfirst'⟩
  · rw [h.next] at hnil
    exact absurd (List.append_eq_nil_iff.mp hnil).1 hfirst.nonempty
  · rw [h.next] at hsplit
    exact (hfirst'.eq hfirst hsplit.symm).1

/-- The rows after the cursor are after the cursor. -/
theorem At.advances {cursor : Str} {startExclusive : Bool} {rest : List KeyValue}
    (h : At store table cursor startExclusive rest) {row : KeyValue} (hrow : row ∈ rest) :
    ¬(row.1 < cursor ∨ (startExclusive = true ∧ row.1 ≤ cursor)) := by
  have hmem : row ∈ store.pageStart cursor startExclusive := by
    rw [← h.next] at hrow
    exact (List.takeWhile_prefix _).subset hrow
  rw [pageStart_eq] at hmem
  cases startExclusive with
  | false =>
      have hle := (Table.mem_since.mp hmem).2
      rintro (hlt | ⟨hfalse, -⟩)
      · exact absurd hlt (not_lt.mpr hle)
      · cases hfalse
  | true =>
      have hlt : cursor < row.1 := by
        rw [if_pos rfl, Table.after, List.mem_filter] at hmem
        simpa using hmem.2
      rintro (hlt' | ⟨-, hle⟩)
      · exact lt_asymm hlt hlt'
      · exact absurd hlt (not_lt.mpr hle)

/-- After a page the scan stands before the rest. -/
theorem At.after {cursor : Str} {startExclusive : Bool} {page rest : List KeyValue}
    {last : KeyValue}
    (h : At store table cursor startExclusive (page ++ rest)) (hlast : page.getLast? = some last) :
    At store table last.1 true rest := by
  obtain ⟨read, hread⟩ := h.read
  obtain ⟨init, rfl⟩ := List.getLast?_eq_some_iff.mp hlast
  refine ⟨⟨read ++ (init ++ [last]), by rw [hread, List.append_assoc read]⟩, ?_⟩
  have hsplit : rangeOf store table = (read ++ init) ++ last :: rest := by
    rw [hread]
    simp
  rw [pageStart_eq, if_pos rfl, range_after hsplit]

/-- The scan reads the pages of the range, if it can name the last key of each. -/
theorem scanFrom_clean (hsizes : Sizes pageSize pageBytes) (htable : Clean table)
    {rest : List KeyValue} {pages : List (List KeyValue)}
    (hpaged : Paged itemBytes pageSize.toNat pageBytes.toNat rest pages)
    (hclean : ∀ page ∈ pages, ∀ row ∈ page.getLast?, Clean row.1) {cursor : Str}
    {startExclusive : Bool} (hcursor : Clean cursor) (h : At store table cursor startExclusive rest)
    {fuel : Nat} (hfuel : pages.length < fuel) :
    scanFrom store (endKeyOf table) pageSize pageBytes fuel cursor startExclusive =
      ⟨pages, some (.ok ())⟩ := by
  induction hpaged generalizing cursor startExclusive fuel with
  | nil =>
      obtain ⟨fuel, rfl⟩ := Nat.exists_eq_succ_of_ne_zero (Nat.ne_of_gt hfuel)
      have hpage : fillPage (endKeyOf table) pageSize.toNat pageBytes.toNat
          (store.pageStart cursor startExclusive) [] 0 = [] := by
        have hpos : 0 < pageSize.toNat := by have := hsizes.rows.1; omega
        rcases fillPage_firstPage (endKeyOf table) pageBytes.toNat hpos
          (store.pageStart cursor startExclusive) with ⟨hnil, -⟩ | ⟨rest', hsplit, hfirst⟩
        · exact hnil
        · rw [h.next] at hsplit
          exact (List.append_eq_nil_iff.mp hsplit.symm).1
      simp only [scanFrom, pySeekRangePage_eq hsizes htable hcursor, hpage, List.getLast?_nil]
  | @cons page rest pages hfirst _ ih =>
      obtain ⟨fuel, rfl⟩ := Nat.exists_eq_succ_of_ne_zero (Nat.ne_of_gt (Nat.zero_lt_of_lt hfuel))
      have hlast : page.getLast? = some (page.getLast hfirst.nonempty) :=
        List.getLast?_eq_some_getLast hfirst.nonempty
      have hmem := List.getLast_mem hfirst.nonempty
      have hrest := ih (fun page' hpage' => hclean page' (List.mem_cons_of_mem _ hpage'))
        (hclean page List.mem_cons_self _ hlast) (h.after hlast) (Nat.lt_of_succ_lt_succ hfuel)
      simp only [scanFrom, pySeekRangePage_eq hsizes htable hcursor, h.page hsizes hfirst, hlast]
      rw [if_neg (h.advances (List.mem_append_left _ hmem)), hrest]

/-- A scan that comes to its end could name the last key of every page. -/
theorem clean_of_scanFrom (hsizes : Sizes pageSize pageBytes) (htable : Clean table)
    {rest : List KeyValue} {pages : List (List KeyValue)}
    (hpaged : Paged itemBytes pageSize.toNat pageBytes.toNat rest pages) {cursor : Str}
    {startExclusive : Bool} (hcursor : Clean cursor) (h : At store table cursor startExclusive rest)
    {fuel : Nat} (hend : (scanFrom store (endKeyOf table) pageSize pageBytes fuel cursor
      startExclusive).outcome = some (.ok ())) :
    ∀ page ∈ pages, ∀ row ∈ page.getLast?, Clean row.1 := by
  induction hpaged generalizing cursor startExclusive fuel with
  | nil =>
      intro page hpage
      cases hpage
  | @cons page rest pages hfirst _ ih =>
      cases fuel with
      | zero => cases hend
      | succ fuel =>
          have hlast : page.getLast? = some (page.getLast hfirst.nonempty) :=
            List.getLast?_eq_some_getLast hfirst.nonempty
          have hmem := List.getLast_mem hfirst.nonempty
          simp only [scanFrom, pySeekRangePage_eq hsizes htable hcursor, h.page hsizes hfirst,
            hlast] at hend
          rw [if_neg (h.advances (List.mem_append_left _ hmem))] at hend
          have hnext : Clean (page.getLast hfirst.nonempty).1 := by
            -- otherwise the next call is refused
            by_contra hdirty
            cases fuel with
            | zero => cases hend
            | succ fuel =>
                simp [scanFrom, pySeekRangePage, parseCString_not_clean hdirty, bind,
                  Except.bind] at hend
          intro page' hpage' row hrow
          rcases List.mem_cons.mp hpage' with rfl | hpage'
          · rw [hlast, Option.mem_some_iff] at hrow
            rw [← hrow]
            exact hnext
          · exact ih hnext (h.after hlast) hend page' hpage' row hrow

/-- The rows of a range can be divided into pages. -/
theorem exists_paged (endKey : Str) {limit : Nat} (maxBytes : Nat) (hlimit : 0 < limit)
    (rows : List KeyValue) (hrows : ∀ row ∈ rows, row.1 < endKey) :
    ∃ pages, Paged itemBytes limit maxBytes rows pages := by
  induction hn : rows.length using Nat.strong_induction_on generalizing rows with
  | _ n ih =>
      have hall : rows.takeWhile (·.1 < endKey) = rows :=
        List.takeWhile_eq_self_iff.mpr fun row hrow => by simpa using hrows row hrow
      rcases fillPage_firstPage endKey maxBytes hlimit rows with ⟨-, hnil⟩ | ⟨rest, hsplit, hfirst⟩
      · rw [hall] at hnil
        exact ⟨[], hnil ▸ .nil⟩
      · rw [hall] at hsplit
        have hlen := congrArg List.length hsplit
        rw [List.length_append] at hlen
        have hpos := List.length_pos_iff.mpr hfirst.nonempty
        obtain ⟨pages, hpages⟩ := ih rest.length (by omega) rest
          (fun row hrow => hrows row (by rw [hsplit]; exact List.mem_append_right _ hrow)) rfl
        have hpaged := Paged.cons hfirst hpages
        rw [← hsplit] at hpaged
        exact ⟨_, hpaged⟩

/-- What is asked of a scan: it ends as `read_all` ends, having yielded what that
returns, in pages within their limits. -/
def ScanOk (store : NativeStore) (table : Str) (pageSize pageBytes : Int) : Prop :=
  ∃ fuel, ∃ outcome, (iterAll store table pageSize pageBytes fuel).outcome = some outcome ∧
    (match readAll store table with
      | .ok rows => outcome = .ok () ∧
          (iterAll store table pageSize pageBytes fuel).yielded table = rows
      | .error e => outcome = .error e ∧ (iterAll store table pageSize pageBytes fuel).pages = []) ∧
    ∀ page ∈ (iterAll store table pageSize pageBytes fuel).pages,
      page.length ≤ pageSize ∧ ((total itemBytes page : Int) ≤ pageBytes ∨ page.length = 1)

/-- No page of the rows ends at a key with a NUL. -/
def EndsClean (rows : List KeyValue) (pageSize pageBytes : Int) : Prop :=
  ∀ pages, Paged itemBytes pageSize.toNat pageBytes.toNat rows pages →
    ∀ page ∈ pages, ∀ row ∈ page.getLast?, Clean row.1

theorem readAll_clean (store : NativeStore) (h : Clean table) :
    readAll store table = .ok (stripTable table (rangeOf store table)) := by
  simp [readAll, pySeekRange, parseCString_clean h, parseCString_clean (clean_endKeyOf h), bind,
    Except.bind, pure, Except.pure, rangeOf]

theorem readAll_not_clean (store : NativeStore) (h : ¬Clean table) :
    readAll store table = .error (.valueError "embedded null character") := by
  simp [readAll, pySeekRange, parseCString_not_clean h, bind, Except.bind]

theorem iterAll_eq (store : NativeStore) (table : Str) (hrows : 0 < pageSize)
    (hbytes : 0 < pageBytes)
    (fuel : Nat) : iterAll store table pageSize pageBytes fuel =
      scanFrom store (endKeyOf table) pageSize pageBytes fuel table false := by
  rw [iterAll, if_neg (not_le.mpr hrows), if_neg (not_le.mpr hbytes)]

/-- A size that does not fit into a C integer makes the first call fail. -/
theorem sizes_of_outcome (htable : Clean table) (hrows : 0 < pageSize) (hbytes : 0 < pageBytes)
    {fuel : Nat}
    (h : (scanFrom store (endKeyOf table) pageSize pageBytes fuel table false).outcome =
      some (.ok ())) : Sizes pageSize pageBytes := by
  by_contra hnot
  have hbig : ¬pageSize < 2 ^ 63 ∨ ¬pageBytes < 2 ^ 63 := by
    by_contra hboth
    obtain ⟨hsize, hbudget⟩ := not_or.mp hboth
    exact hnot ⟨⟨hrows, not_not.mp hsize⟩, hbytes, not_not.mp hbudget⟩
  have hfail : ∃ e, pySeekRangePage store table (endKeyOf table) pageSize pageBytes false =
      .error e := by
    simp only [pySeekRangePage, parseCString_clean htable,
      parseCString_clean (clean_endKeyOf htable),
      bind, Except.bind]
    by_cases hsize : pageSize < 2 ^ 63
    · have hbytes' := hbig.resolve_left (not_not.mpr hsize)
      rw [parseSsize, if_pos ⟨by omega, hsize⟩, parseSsize, if_neg fun h => hbytes' h.2]
      exact ⟨_, rfl⟩
    · rw [parseSsize, if_neg fun h => hsize h.2]
      exact ⟨_, rfl⟩
  obtain ⟨e, he⟩ := hfail
  cases fuel with
  | zero => cases h
  | succ fuel =>
      rw [scanFrom, he] at h
      cases h

theorem iter_all_iff (store : NativeStore) (table : Str) {pageSize pageBytes : Int}
    (hrows : 0 < pageSize) (hbytes : 0 < pageBytes) :
    ScanOk store table pageSize pageBytes ↔
      ¬Clean table ∨ (pageSize < 2 ^ 63 ∧ pageBytes < 2 ^ 63 ∧
        EndsClean (rangeOf store table) pageSize pageBytes) := by
  unfold ScanOk
  simp only [iterAll_eq store table hrows hbytes]
  constructor
  · rintro ⟨fuel, outcome, houtcome, hresult, -⟩
    refine or_iff_not_imp_left.mpr fun htable => ?_
    have htable := not_not.mp htable
    rw [readAll_clean store htable] at hresult
    rw [hresult.1] at houtcome
    have hsizes := sizes_of_outcome htable hrows hbytes houtcome
    exact ⟨hsizes.rows.2, hsizes.bytes.2, fun pages hpaged =>
      clean_of_scanFrom hsizes htable hpaged htable (at_start store table) houtcome⟩
  · intro h
    by_cases htable : Clean table
    · obtain ⟨hrows', hbytes', hclean⟩ := h.resolve_left (not_not.mpr htable)
      have hsizes : Sizes pageSize pageBytes := ⟨⟨hrows, hrows'⟩, hbytes, hbytes'⟩
      have hbelow : ∀ row ∈ rangeOf store table, row.1 < endKeyOf table := by
        intro row hrow
        rw [rangeOf_eq_filter, List.mem_filter, Bool.and_eq_true] at hrow
        simpa using hrow.2.1
      obtain ⟨pages, hpaged⟩ := exists_paged (endKeyOf table) pageBytes.toNat
        (by omega : 0 < pageSize.toNat) (rangeOf store table) hbelow
      have hscan := scanFrom_clean hsizes htable hpaged (hclean pages hpaged) htable
        (at_start store table) (Nat.lt_succ_self pages.length)
      refine ⟨pages.length + 1, .ok (), ?_⟩
      rw [hscan, readAll_clean store htable]
      refine ⟨rfl, ⟨rfl, ?_⟩, fun page hpage => ?_⟩
      · rw [Scan.yielded, hpaged.flatten_eq]
      · have hbounded := hpaged.bounded hpage
        omega
    · refine ⟨1, .error (.valueError "embedded null character"), ?_⟩
      rw [readAll_not_clean store htable]
      simp [scanFrom, pySeekRangePage, parseCString_not_clean htable, bind, Except.bind]

namespace Sample

/-- Two candidates in the table `C`, one of them under a key with a NUL -/
def plainStore : NativeStore :=
  .volatileStore ((Table.empty.put ['C', '1'] [7]).put ['C', '2'] [8, 9])

def nulStore : NativeStore :=
  .volatileStore ((Table.empty.put ['C', Char.ofNat 0] [7]).put ['C', '2'] [8, 9])

/-- Pages of one row, and the budget smaller than the second row -/
theorem plain_scan : (0 : Int) < 1 ∧ (0 : Int) < 3 ∧ ScanOk plainStore ['C'] 1 3 := by
  refine ⟨by decide, by decide, (iter_all_iff plainStore ['C'] (by decide) (by decide)).mpr
    (.inr ⟨by decide, by decide, fun pages hpaged page hpage row hrow => ?_⟩)⟩
  have hmem : row ∈ rangeOf plainStore ['C'] := by
    rw [← hpaged.flatten_eq]
    exact List.mem_flatten.mpr ⟨page, hpage, List.mem_of_getLast? hrow⟩
  have hrange : rangeOf plainStore ['C'] = [(['C', '1'], [7]), (['C', '2'], [8, 9])] := by decide
  rw [hrange, List.mem_cons, List.mem_singleton] at hmem
  rcases hmem with rfl | rfl
  · exact (by decide : Char.ofNat 0 ∉ ['C', '1'])
  · exact (by decide : Char.ofNat 0 ∉ ['C', '2'])

/-- `read_all` returns two pairs; the scan yields the first and then fails. -/
theorem nul_key_stops_scan :
    readAll nulStore ['C'] = .ok [([Char.ofNat 0], [7]), (['2'], [8, 9])] ∧
    (iterAll nulStore ['C'] 1 100 2).outcome =
      some (.error (.valueError "embedded null character")) ∧
    (iterAll nulStore ['C'] 1 100 2).yielded ['C'] = [([Char.ofNat 0], [7])] := by
  decide +kernel

end Sample

end OpenViking.Store
