/-
# `OpenViking.S3fs.GrepStream` — searching a file chunk by chunk

`grep_stream` of `crates/ragfs/src/plugins/s3fs/mod.rs` reads a file in chunks, decodes each
chunk by itself and carries what follows the last line feed over to the next.  The default
`grep_file` decodes the whole file.  Line breaks are stitched together correctly wherever
the chunks end (`streamLoop_eq`).  What is not is a character of several bytes with a chunk
border in it: both halves are decoded as broken.  So the two searches agree, for every
predicate and every limit, exactly when the chunks decoded one by one are the text of the
file.
-/
import OpenViking.Lib.Paging
import OpenViking.Lib.Utf8
import OpenViking.Ragfs.FileSystem

namespace OpenViking.S3fs

open OpenViking.Lib OpenViking.Ragfs

/-! ## The search -/

/-- What does not change during a search: the predicate, the reported name, the limit on
matches, and the sizes. -/
structure Stream where
  isMatch : Str → Bool
  relFile : Str
  remainingLimit : Nat
  chunkSize : Nat
  maxPartialSize : Nat

/-- `rest` is the text after the last line feed. -/
structure StreamState where
  rest : Str
  lineNo : Nat
  found : List GrepMatch

namespace Stream

variable (q : Stream)

/-- `len()` of a string -/
def byteLength (s : Str) : Nat := (encodeUtf8 s).length

/-- `read_chunk` of the object -/
def readChunk (content : Bytes) (offset : Nat) : Bytes := (content.drop offset).take q.chunkSize

/-- The match of a numbered line, if it is one. -/
def hit (line : Str × Nat) : Option GrepMatch :=
  if q.isMatch line.1 then some ⟨q.relFile, line.2 + 1, line.1⟩ else none

def matchLine (st : StreamState) (line : Str) : StreamState :=
  if q.remainingLimit ≤ st.found.length then st
  else
    { st with
      lineNo := st.lineNo + 1
      found := st.found ++ (q.hit (line, st.lineNo)).toList }

/-- The loop over `text.lines()` -/
def matchLines (lines : List Str) (st : StreamState) : StreamState := lines.foldl q.matchLine st

/-- What follows the loop. -/
def finish (st : StreamState) : List GrepMatch :=
  if st.rest ≠ [] ∧ st.found.length < q.remainingLimit then
    st.found ++ (q.hit (st.rest, st.lineNo)).toList
  else st.found

/-- The decoded chunk up to the end of its last complete line, and the remainder. -/
def completeLines (isLast : Bool) (chunk : Str) : Option (Str × Str) :=
  if isLast then some (chunk, [])
  else (rsplitOnce '\n' chunk).map fun x => (x.1 ++ ['\n'], x.2)

def streamLoop (content : Bytes) : (fuel offset : Nat) → StreamState → List GrepMatch
  | 0, _, st => q.finish st
  | fuel + 1, offset, st =>
      if q.remainingLimit ≤ st.found.length ∨ content.length ≤ offset then q.finish st
      else
        let chunk := q.readChunk content offset
        let isLast := chunk.isEmpty || decide (chunk.length < q.chunkSize) ||
          decide (content.length ≤ offset + q.chunkSize)
        match completeLines isLast (fromUtf8Lossy chunk) with
        | none =>
            let rest := st.rest ++ fromUtf8Lossy chunk
            if q.maxPartialSize < byteLength rest then st.found
            else streamLoop content fuel (offset + q.chunkSize) { st with rest := rest }
        | some (complete, remainder) =>
            let st := q.matchLines (lines (st.rest ++ complete)) st
            let st := { st with rest := remainder }
            if isLast then q.finish st
            else streamLoop content fuel (offset + q.chunkSize) st

/-- `grep_stream`; there are at most as many chunks as bytes. -/
def grepStream (content : Bytes) : List GrepMatch :=
  q.streamLoop content content.length 0 ⟨[], 0, []⟩

end Stream

/-! ## Lines -/

theorem lines_append_newline (a b : Str) :
    lines (a ++ '\n' :: b) = (a.splitOn '\n').map stripCr ++ lines b := by
  have hsplit : (a ++ '\n' :: b).splitOn '\n' = a.splitOn '\n' ++ b.splitOn '\n' := by
    unfold List.splitOn
    exact List.splitOnP_append_cons a b (by simp)
  have hne : b.splitOn '\n' ≠ [] := List.splitOn_ne_nil '\n' b
  simp only [lines]
  rw [hsplit, List.dropLast_append_of_ne_nil hne, List.map_append, List.append_assoc,
    List.getLast?_append_of_ne_nil _ hne]

theorem lines_nil : lines [] = [] := rfl

/-- A text cut after a line feed has the lines of both parts. -/
theorem lines_append (a b : Str) :
    lines (a ++ '\n' :: b) = lines (a ++ ['\n']) ++ lines b := by
  rw [lines_append_newline a b, lines_append_newline a [], lines_nil, List.append_nil]

theorem lines_of_not_mem {s : Str} (h : '\n' ∉ s) (hne : s ≠ []) : lines s = [s] := by
  rw [lines, List.splitOn_eq_singleton h]
  simp [hne]

theorem lines_cons {a : Str} (h : '\n' ∉ a) (b : Str) :
    lines (a ++ '\n' :: b) = stripCr a :: lines b := by
  rw [lines_append_newline, List.splitOn_eq_singleton h]
  rfl

/-- A line can be told from the line without its carriage return and its ASCII characters. -/
theorem eq_of_stripCr_eq {a a' : Str} (hstrip : stripCr a = stripCr a')
    (hascii : asciiOf a = asciiOf a') : a = a' := by
  have hcases : ∀ a : Str, a = stripCr a ∨ a = stripCr a ++ ['\r'] := by
    intro a
    unfold stripCr
    split
    · next hlast => exact .inr (List.dropLast_append_getLast? _ hlast).symm
    · exact .inl rfl
  have hlong : ∀ x : Str, asciiOf x ≠ asciiOf (x ++ ['\r']) := by
    intro x hx
    have hlen := congrArg List.length hx
    rw [asciiOf_append, List.length_append] at hlen
    exact absurd hlen (by simp [asciiOf])
  rcases hcases a with ha | ha
  · rcases hcases a' with ha' | ha'
    · rw [ha, ha', hstrip]
    · rw [ha, ha', hstrip] at hascii
      exact absurd hascii (hlong _)
  · rcases hcases a' with ha' | ha'
    · rw [ha, ha', hstrip] at hascii
      exact absurd hascii.symm (hlong _)
    · rw [ha, ha', hstrip]

theorem mem_asciiOf {s : Str} : '\n' ∈ asciiOf s ↔ '\n' ∈ s := by
  simp [asciiOf]

/-- A text can be told from its lines and its ASCII characters. -/
theorem eq_of_lines_eq {s t : Str} (hlines : lines s = lines t) (hascii : asciiOf s = asciiOf t) :
    s = t := by
  induction hn : s.length using Nat.strong_induction_on generalizing s t with
  | _ n ih =>
      have hmem : '\n' ∈ s ↔ '\n' ∈ t := by
        rw [← mem_asciiOf, hascii, mem_asciiOf]
      by_cases hs : '\n' ∈ s
      · obtain ⟨a, b, rfl, ha⟩ := List.eq_append_cons_of_mem hs
        obtain ⟨a', b', rfl, ha'⟩ := List.eq_append_cons_of_mem (hmem.mp hs)
        rw [lines_cons ha, lines_cons ha'] at hlines
        obtain ⟨hhead, htail⟩ := List.cons.inj hlines
        have hparts : asciiOf a = asciiOf a' ∧ asciiOf b = asciiOf b' := by
          have hfeed : ∀ x : Str, asciiOf ('\n' :: x) = '\n' :: asciiOf x := fun x => rfl
          rw [asciiOf_append, asciiOf_append, hfeed, hfeed] at hascii
          have hcut := splitOnce_append_cons (mt mem_asciiOf.mp ha) (asciiOf b)
          rw [hascii, splitOnce_append_cons (mt mem_asciiOf.mp ha') (asciiOf b')] at hcut
          exact (Prod.mk.inj (Option.some.inj hcut)).imp Eq.symm Eq.symm
        have hlt : b.length < n := by
          rw [← hn, List.length_append, List.length_cons]
          omega
        have hb := ih b.length hlt htail hparts.2 rfl
        rw [eq_of_stripCr_eq hhead hparts.1, hb]
      · have ht : '\n' ∉ t := mt hmem.mpr hs
        by_cases hse : s = []
        · by_cases hte : t = []
          · rw [hse, hte]
          · rw [hse, lines_nil, lines_of_not_mem ht hte] at hlines
            cases hlines
        · by_cases hte : t = []
          · rw [hte, lines_nil, lines_of_not_mem hs hse] at hlines
            cases hlines
          · rw [lines_of_not_mem hs hse, lines_of_not_mem ht hte] at hlines
            exact (List.cons.inj hlines).1

/-! ## Matches -/

/-- All matches in lines counted from `start`. -/
def Stream.hits (q : Stream) (start : Nat) (content : List Str) : List GrepMatch :=
  (content.zipIdx start).filterMap q.hit

section

variable {q : Stream}

theorem hits_append (start : Nat) (ls ms : List Str) :
    q.hits start (ls ++ ms) = q.hits start ls ++ q.hits (start + ls.length) ms := by
  rw [Stream.hits, List.zipIdx_append, List.filterMap_append]
  rfl

theorem matchLines_of_full {st : StreamState} (h : q.remainingLimit ≤ st.found.length)
    (ls : List Str) : q.matchLines ls st = st := by
  induction ls with
  | nil => rfl
  | cons line ls ih =>
      have hstep : q.matchLine st line = st := if_pos h
      rw [Stream.matchLines, List.foldl_cons, hstep]
      exact ih

theorem take_append_of_full {α : Type} {n : Nat} {l : List α} (hle : l.length ≤ n)
    (hge : n ≤ l.length)
    (m : List α) : (l ++ m).take n = l := by
  rw [List.take_append_of_le_length hge, List.take_of_length_le hle]

theorem matchLines_spec {st : StreamState} (hst : st.found.length ≤ q.remainingLimit)
    (ls : List Str) :
    (q.matchLines ls st).found = (st.found ++ q.hits st.lineNo ls).take q.remainingLimit ∧
      ((q.matchLines ls st).found.length < q.remainingLimit →
        (q.matchLines ls st).lineNo = st.lineNo + ls.length) := by
  induction ls generalizing st with
  | nil =>
      refine ⟨?_, fun _ => rfl⟩
      rw [Stream.hits, List.zipIdx_nil, List.filterMap_nil, List.append_nil,
        List.take_of_length_le hst]
      rfl
  | cons line ls ih =>
      by_cases hfull : q.remainingLimit ≤ st.found.length
      · have hsame := matchLines_of_full hfull (line :: ls)
        rw [hsame, take_append_of_full hst hfull]
        exact ⟨rfl, fun hlt => absurd hfull (not_le.mpr hlt)⟩
      · have hstep : q.matchLine st line =
            { st with
              lineNo := st.lineNo + 1
              found := st.found ++ (q.hit (line, st.lineNo)).toList } :=
          if_neg hfull
        have hone : (q.hit (line, st.lineNo)).toList.length ≤ 1 := by
          cases q.hit (line, st.lineNo) with
          | none => exact Nat.zero_le 1
          | some x => exact le_rfl
        have hnext : (q.matchLine st line).found.length ≤ q.remainingLimit := by
          rw [hstep, List.length_append]
          omega
        obtain ⟨hfound, hline⟩ := ih hnext
        have hhits : q.hits st.lineNo (line :: ls) =
            (q.hit (line, st.lineNo)).toList ++ q.hits (st.lineNo + 1) ls := by
          rw [Stream.hits, List.zipIdx_cons, List.filterMap_cons]
          cases q.hit (line, st.lineNo) with
          | none => rfl
          | some x => rfl
        rw [hhits, ← List.append_assoc]
        rw [hstep] at hfound hline
        refine ⟨?_, fun hlt => ?_⟩
        · exact (congrArg (fun st => (q.matchLines ls st).found) hstep).trans hfound
        · have hlast : (q.matchLines (line :: ls) st).lineNo = st.lineNo + 1 + ls.length := by
            have hcons : q.matchLines (line :: ls) st = q.matchLines ls (q.matchLine st line) := rfl
            rw [hcons, hstep] at hlt ⊢
            exact hline hlt
          rw [hlast, List.length_cons]
          omega

/-- The last chunk. -/
theorem finish_matchLines {st : StreamState} (hst : st.found.length ≤ q.remainingLimit)
    (ls : List Str) :
    q.finish { q.matchLines ls st with rest := [] } =
      (st.found ++ q.hits st.lineNo ls).take q.remainingLimit := by
  rw [Stream.finish, if_neg fun h => h.1 rfl]
  exact (matchLines_spec hst ls).1

/-- The text of the chunks decoded one by one. -/
def chunkedText (chunkSize fuel : Nat) (content : Bytes) : Str :=
  (slices chunkSize fuel content).flatMap fromUtf8Lossy

theorem chunkedText_nil (chunkSize fuel : Nat) : chunkedText chunkSize fuel [] = [] := by
  cases fuel with
  | zero => rfl
  | succ fuel => rfl

theorem chunkedText_succ {chunkSize : Nat} (fuel : Nat) {content : Bytes} (h : content ≠ []) :
    chunkedText chunkSize (fuel + 1) content =
      fromUtf8Lossy (content.take chunkSize) ++
        chunkedText chunkSize fuel (content.drop chunkSize) := by
  rw [chunkedText, slices, List.flatMap_cons]
  · rfl
  · exact h

/-- What the search has found in the end, from `st` on and with `text` still to come. -/
def Stream.result (q : Stream) (st : StreamState) (text : Str) : List GrepMatch :=
  (st.found ++ q.hits st.lineNo (lines (st.rest ++ text))).take q.remainingLimit

theorem finish_of_full {st : StreamState} (hst : st.found.length ≤ q.remainingLimit)
    (hfull : q.remainingLimit ≤ st.found.length) (text : Str) :
    q.finish st = q.result st text := by
  rw [Stream.result, take_append_of_full hst hfull, Stream.finish,
    if_neg fun h => absurd hfull (not_le.mpr h.2)]

theorem finish_of_end {st : StreamState} (hst : st.found.length ≤ q.remainingLimit)
    (hrest : st.rest = []) : q.finish st = q.result st [] := by
  have hhits : q.hits st.lineNo (lines (st.rest ++ [])) = [] := by
    rw [hrest]
    rfl
  rw [Stream.result, hhits, List.append_nil, List.take_of_length_le hst, Stream.finish,
    if_neg fun h => h.1 hrest]

/-- Lines can be matched in two goes. -/
theorem take_matchLines {st : StreamState} (hst : st.found.length ≤ q.remainingLimit)
    (ls ms : List Str) :
    ((q.matchLines ls st).found ++ q.hits (q.matchLines ls st).lineNo ms).take q.remainingLimit =
      (st.found ++ q.hits st.lineNo (ls ++ ms)).take q.remainingLimit := by
  obtain ⟨hfound, hline⟩ := matchLines_spec hst ls
  rw [hits_append, ← List.append_assoc]
  by_cases hlt : (q.matchLines ls st).found.length < q.remainingLimit
  · -- nothing was cut off
    have hall : (st.found ++ q.hits st.lineNo ls).take q.remainingLimit =
        st.found ++ q.hits st.lineNo ls := by
      rw [hfound, List.length_take] at hlt
      exact List.take_of_length_le (by omega)
    rw [hline hlt, hfound, hall]
  · rw [hfound, List.length_take] at hlt
    have hge : q.remainingLimit ≤ (st.found ++ q.hits st.lineNo ls).length := by omega
    have hfull : q.remainingLimit ≤
        ((st.found ++ q.hits st.lineNo ls).take q.remainingLimit).length := by
      rw [List.length_take]
      omega
    rw [hfound, List.take_append_of_le_length hfull, List.take_take, Nat.min_self,
      List.take_append_of_le_length hge]

/-- Complete lines are matched, and the remainder is carried over. -/
theorem result_matchLines {st : StreamState} (hst : st.found.length ≤ q.remainingLimit)
    (a b text : Str) :
    q.result { q.matchLines (lines (st.rest ++ (a ++ ['\n']))) st with rest := b } text =
      q.result st (a ++ '\n' :: b ++ text) := by
  have hsplit : lines (st.rest ++ (a ++ '\n' :: b ++ text)) =
      lines (st.rest ++ (a ++ ['\n'])) ++ lines (b ++ text) := by
    have hcut := lines_append (st.rest ++ a) (b ++ text)
    simpa only [List.append_assoc, List.cons_append] using hcut
  rw [Stream.result, Stream.result, hsplit]
  exact take_matchLines hst _ _

/-- A chunk is the last one exactly when nothing follows it. -/
theorem isLast_eq {content : Bytes} {offset : Nat} (hchunk : 0 < q.chunkSize)
    (hmore : offset < content.length) :
    ((q.readChunk content offset).isEmpty ||
      decide ((q.readChunk content offset).length < q.chunkSize) ||
      decide (content.length ≤ offset + q.chunkSize)) =
    decide (content.length ≤ offset + q.chunkSize) := by
  have hlen : (q.readChunk content offset).length =
      min q.chunkSize (content.length - offset) := by
    rw [Stream.readChunk, List.length_take, List.length_drop]
  have hne : (q.readChunk content offset).isEmpty = false := by
    rw [List.isEmpty_eq_false_iff, ← List.length_pos_iff, hlen]
    omega
  rw [hne, hlen, Bool.false_or]
  by_cases hend : content.length ≤ offset + q.chunkSize
  · rw [decide_eq_true hend, Bool.or_true]
  · rw [decide_eq_false hend, Bool.or_false]
    exact decide_eq_false (by omega)

theorem byteLength_le_append (s t : Str) : Stream.byteLength s ≤ Stream.byteLength (s ++ t) := by
  rw [Stream.byteLength, Stream.byteLength, encodeUtf8_append, List.length_append]
  omega

theorem byteLength_le_of_append (s t : Str) : Stream.byteLength t ≤ Stream.byteLength (s ++ t) := by
  rw [Stream.byteLength, Stream.byteLength, encodeUtf8_append, List.length_append]
  omega

theorem streamLoop_eq {content : Bytes} (hchunk : 0 < q.chunkSize) {fuel offset : Nat}
    {st : StreamState} (hfuel : (content.drop offset).length ≤ fuel)
    (hst : st.found.length ≤ q.remainingLimit)
    (hrest : content.drop offset = [] → st.rest = [])
    (hmax : Stream.byteLength (st.rest ++ chunkedText q.chunkSize fuel (content.drop offset)) ≤
      q.maxPartialSize) :
    q.streamLoop content fuel offset st =
      q.result st (chunkedText q.chunkSize fuel (content.drop offset)) := by
  induction fuel generalizing offset st with
  | zero =>
      have hempty := List.eq_nil_of_length_eq_zero (Nat.le_zero.mp hfuel)
      exact finish_of_end hst (hrest hempty)
  | succ fuel ih =>
      rw [Stream.streamLoop]
      split
      · next hdone =>
          rcases hdone with hfull | hend
          · exact finish_of_full hst hfull _
          · have hempty : content.drop offset = [] := List.drop_eq_nil_of_le hend
            rw [hempty, chunkedText_nil]
            exact finish_of_end hst (hrest hempty)
      · next hgo =>
          obtain ⟨-, hmore⟩ := not_or.mp hgo
          have hne : content.drop offset ≠ [] := by
            intro hempty
            exact hmore (List.drop_eq_nil_iff.mp hempty)
          have hdrop : (content.drop offset).drop q.chunkSize =
              content.drop (offset + q.chunkSize) := List.drop_drop
          rw [chunkedText_succ fuel hne, hdrop] at hmax ⊢
          have hchunkEq : (content.drop offset).take q.chunkSize = q.readChunk content offset := rfl
          rw [hchunkEq] at hmax ⊢
          simp only [isLast_eq hchunk (not_le.mp hmore)]
          generalize fromUtf8Lossy (q.readChunk content offset) = chunk at hmax ⊢
          have hlater : (content.drop (offset + q.chunkSize)).length ≤ fuel := by
            rw [List.length_drop] at hfuel ⊢
            omega
          by_cases hend : content.length ≤ offset + q.chunkSize
          · -- the last chunk
            have hempty : content.drop (offset + q.chunkSize) = [] := List.drop_eq_nil_of_le hend
            simp only [decide_eq_true hend, Stream.completeLines, if_true]
            rw [hempty, chunkedText_nil, List.append_nil, finish_matchLines hst]
            rfl
          · have hnext : content.drop (offset + q.chunkSize) ≠ [] := by
              intro hempty
              exact hend (List.drop_eq_nil_iff.mp hempty)
            simp only [decide_eq_false hend, Stream.completeLines, Bool.false_eq_true, if_false]
            cases hcut : rsplitOnce '\n' chunk with
            | none =>
                have hfits : ¬q.maxPartialSize < Stream.byteLength (st.rest ++ chunk) := by
                  refine not_lt.mpr (le_trans ?_ hmax)
                  rw [← List.append_assoc]
                  exact byteLength_le_append _ _
                simp only [Option.map_none, if_neg hfits]
                have hfound : ({ st with rest := st.rest ++ chunk } : StreamState).found.length ≤
                    q.remainingLimit := hst
                refine (ih hlater hfound (fun h => absurd h hnext) ?_).trans ?_
                · simpa only [List.append_assoc] using hmax
                · simp only [Stream.result, List.append_assoc]
            | some parts =>
                obtain ⟨a, b⟩ := parts
                obtain ⟨rfl, -⟩ := rsplitOnce_eq_some.mp hcut
                simp only [Option.map_some]
                rw [← result_matchLines hst]
                have hfound : (q.matchLines (lines (st.rest ++ (a ++ ['\n']))) st).found.length ≤
                    q.remainingLimit := by
                  rw [(matchLines_spec hst _).1, List.length_take]
                  exact Nat.min_le_left _ _
                generalize q.matchLines (lines (st.rest ++ (a ++ ['\n']))) st = st' at hfound ⊢
                have hfound' : ({ st' with rest := b } : StreamState).found.length ≤
                    q.remainingLimit := hfound
                refine ih hlater hfound' (fun h => absurd h hnext) (le_trans ?_ hmax)
                have hcons : st.rest ++ (a ++ '\n' :: b ++
                      chunkedText q.chunkSize fuel (content.drop (offset + q.chunkSize))) =
                    (st.rest ++ a ++ ['\n']) ++
                      (b ++ chunkedText q.chunkSize fuel
                        (content.drop (offset + q.chunkSize))) := by
                  simp
                rw [hcons]
                exact byteLength_le_of_append _ _

theorem grepStream_eq {content : Bytes} (hchunk : 0 < q.chunkSize)
    (hmax : Stream.byteLength (chunkedText q.chunkSize content.length content) ≤ q.maxPartialSize) :
    q.grepStream content =
      (q.hits 0 (lines (chunkedText q.chunkSize content.length content))).take
        q.remainingLimit := by
  have hfound : (⟨[], 0, []⟩ : StreamState).found.length ≤ q.remainingLimit := Nat.zero_le _
  exact streamLoop_eq hchunk le_rfl hfound (fun _ => rfl) hmax

/-! ## The default search -/

/-- A filesystem with one object. -/
def served (content : Bytes) : Lookup Unit where
  read _ _ _ := pure content

/-- The stream of a search in the file `path`. -/
def streamOf (search : Search) (path : Str) (limit chunkSize maxPartialSize : Nat) : Stream where
  isMatch := search.isMatch
  relFile := relativeMatchFile search.base path
  remainingLimit := limit
  chunkSize := chunkSize
  maxPartialSize := maxPartialSize

theorem grepFile_eq {search : Search} {limit : Nat} (hpos : 0 < limit)
    (hlimit : search.nodeLimit = some limit) (content : Bytes) (path : Str)
    (chunkSize maxPartialSize : Nat) :
    search.grepFile (served content) fromUtf8Lossy path .new () =
      (.ok (.ofFound (((streamOf search path limit chunkSize maxPartialSize).hits 0
        (lines (fromUtf8Lossy content))).take limit)), ()) := by
  have hfull : GrepResult.new.full search.nodeLimit = false := by
    rw [hlimit]
    exact decide_eq_false (by simpa [GrepResult.new] using Nat.ne_of_gt hpos)
  have hscan := Search.scan_ofFound search (relativeMatchFile search.base path)
    (lines (fromUtf8Lossy content)) []
  rw [ReadAhead.collect_eq, hlimit] at hscan
  rw [Search.grepFile, hfull]
  exact congrArg (fun r => (Except.ok r, ())) hscan

end

/-! ## The two searches -/

theorem ascii_chunkedText {chunkSize : Nat} (hchunk : 0 < chunkSize) (content : Bytes) :
    asciiOf (chunkedText chunkSize content.length content) = asciiBytes content := by
  have hparts : ∀ parts : List Bytes, asciiOf (parts.flatMap fromUtf8Lossy) =
      asciiBytes parts.flatten := by
    intro parts
    induction parts with
    | nil => rfl
    | cons part parts ih =>
        rw [List.flatMap_cons, List.flatten_cons, asciiOf_append, asciiBytes_append, ih,
          ascii_fromUtf8Lossy]
  rw [chunkedText, hparts, flatten_slices hchunk le_rfl]

/-- Every line is a match. -/
def everyLine (limit : Nat) : Search := ⟨[], fun _ => true, some limit⟩

theorem hits_everyLine (limit chunkSize maxPartialSize start : Nat) (content : List Str) :
    ((streamOf (everyLine limit) [] limit chunkSize maxPartialSize).hits start content).map
      GrepMatch.content = content := by
  induction content generalizing start with
  | nil => rfl
  | cons line content ih => exact congrArg (line :: ·) (ih (start + 1))

/-- Streaming finds what the default search finds, for every predicate, every limit and every
sufficient size of the carried text, exactly when the chunks decoded one by one are the
decoded file. -/
theorem grep_stream_iff (content : Bytes) (chunkSize : Nat) (hchunk : 0 < chunkSize) :
    (∀ (search : Search) (path : Str) (limit maxPartialSize : Nat), 0 < limit →
      search.nodeLimit = some limit →
      Stream.byteLength (fromUtf8Lossy content) ≤ maxPartialSize →
      search.grepFile (served content) fromUtf8Lossy path .new () =
        (.ok (.ofFound ((streamOf search path limit chunkSize maxPartialSize).grepStream
          content)), ())) ↔
    chunkedText chunkSize content.length content = fromUtf8Lossy content := by
  constructor
  · intro hall
    refine eq_of_lines_eq ?_ ((ascii_chunkedText hchunk content).trans
      (ascii_fromUtf8Lossy content).symm)
    -- a search for every line, with room for all of them and for the carried text
    let limit := (lines (fromUtf8Lossy content)).length +
      (lines (chunkedText chunkSize content.length content)).length + 1
    let size := Stream.byteLength (fromUtf8Lossy content) +
      Stream.byteLength (chunkedText chunkSize content.length content)
    have hsame := hall (everyLine limit) [] limit size (Nat.succ_pos _) rfl (Nat.le_add_right _ _)
    rw [grepFile_eq (Nat.succ_pos _) rfl content [] chunkSize size,
      grepStream_eq (q := streamOf (everyLine limit) [] limit chunkSize size) hchunk
        (Nat.le_add_left _ _)] at hsame
    have hfound := congrArg (fun r : Except Error GrepResult × Unit =>
      (r.1.toOption.map fun g => g.found.map GrepMatch.content)) hsame
    have htake : ∀ content : List Str, content.length ≤ limit →
        (((streamOf (everyLine limit) [] limit chunkSize size).hits 0 content).take limit).map
          GrepMatch.content = content := by
      intro content hlen
      rw [List.map_take, hits_everyLine, List.take_of_length_le hlen]
    have hlines := Option.some.inj hfound
    exact (htake _ (by omega)).symm.trans (hlines.symm.trans (htake _ (by omega)))
  · intro htext search path limit maxPartialSize hpos hlimit hmax
    rw [grepFile_eq hpos hlimit content path chunkSize maxPartialSize,
      grepStream_eq (q := streamOf search path limit chunkSize maxPartialSize) hchunk
        (htext.symm ▸ hmax)]
    exact congrArg (fun text => (Except.ok (GrepResult.ofFound (((streamOf search path limit
      chunkSize maxPartialSize).hits 0 (lines text)).take limit)), ())) htext.symm

namespace Sample

/-- `a`, a carriage return, a line feed and `b`. -/
def twoLines : Bytes := [97, 13, 10, 98]

theorem two_lines_agree :
    0 < 2 ∧ chunkedText 2 twoLines.length twoLines = fromUtf8Lossy twoLines ∧
      (everyLine 5).grepFile (served twoLines) fromUtf8Lossy [] .new () =
        (.ok (.ofFound ((streamOf (everyLine 5) [] 5 2 100).grepStream twoLines)), ()) := by
  have htext : chunkedText 2 twoLines.length twoLines = fromUtf8Lossy twoLines := by decide +kernel
  exact ⟨by decide, htext, (grep_stream_iff twoLines 2 (by decide)).mpr htext (everyLine 5) [] 5 100
    (by decide) rfl (by decide +kernel)⟩

/-- The two bytes of `é` are in different chunks. -/
theorem split_character_lost :
    (everyLine 5).grepFile (served [0xC3, 0xA9]) fromUtf8Lossy [] .new () =
        (.ok (.ofFound [⟨['.'], 1, ['é']⟩]), ()) ∧
      (streamOf (everyLine 5) [] 5 1 100).grepStream [0xC3, 0xA9] =
        [⟨['.'], 1, [replacement, replacement]⟩] := by
  decide +kernel

end Sample

end OpenViking.S3fs
