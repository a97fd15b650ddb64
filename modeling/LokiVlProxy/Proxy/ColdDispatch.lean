/-
  Proxy/ColdDispatch.lean --- log queries over hot and cold storage.

  Source: internal/proxy/cold_dispatch.go: coldBackwardChunkedFetch, countNDJSONLines,
  reverseNDJSONBody, readAndReverseNDJSON, trimNDJSONBodyToLimit, and the ranges and the backward
  path of proxyLogQueryCold and proxyLogQueryBoth; internal/proxy/cold_routing.go:
  ColdRouter.coldRequest, stringReader.

  Instants are nanoseconds, at least an hour above the least that an int64 holds: the start of
  a chunk does not wrap.
-/
import LokiVlProxy.Foundation.Loop
import LokiVlProxy.Foundation.Ndjson
import LokiVlProxy.Foundation.Netstring
import LokiVlProxy.Foundation.QueryEncoding

namespace LokiVlProxy.Proxy

open Foundation List

/-! ## The split between hot and cold -/

/-- A closed range of instants. -/
structure NanoRange where
  startNs : Int
  endNs : Int
  deriving DecidableEq, Repr

def NanoRange.Has (range : NanoRange) (ts : Int) : Prop := range.startNs ≤ ts ∧ ts ≤ range.endNs
  deriving Decidable

variable {range : NanoRange} {boundaryNs ts : Int}

def countNDJSONLines (body : Text) : Nat :=
  ((body.splitOn '\n').filter fun line => !(trimSpace line).isEmpty).length

def reverseNDJSONBody (body : Text) : Text := joinLines (bodyLines body).reverse

/-- The limit that a limit parameter asks for. -/
def queryLimit (limitParam : Text) : Nat :=
  match parseInt limitParam with
  | some n => if n ≤ 0 then 1000 else n.toNat
  | none => 1000

def trimNDJSONBodyToLimit (body limitParam : Text) : Text :=
  joinLines ((bodyLines body).take (queryLimit limitParam))

theorem queryLimit_pos (limitParam : Text) : 0 < queryLimit limitParam := by
  unfold queryLimit
  split
  · split <;> omega
  · decide

theorem countNDJSONLines_ndjson {lines : List Text} (h : ∀ line ∈ lines, IsLine line) :
    countNDJSONLines (ndjson lines) = lines.length := by
  have hkept : lines.filter (fun line => !(trimSpace line).isEmpty) = lines := by
    rw [filter_eq_self]
    intro line hline
    rw [(h line hline).2.2, Bool.not_false]
  rw [countNDJSONLines, splitOn_ndjson h, filter_append, hkept]
  exact congrArg List.length (append_nil lines)

/-! ## The newest lines of a body -/

def maxRingSize : Nat := 5000

/-- The variables of the loop of `readAndReverseNDJSON`; `head` and `total` count the same lines. -/
structure LineRing where
  ring : List Text
  head : Nat

/-- One line of the scanner. -/
def LineRing.read (limit : Nat) (s : LineRing) (token : Text) : LineRing :=
  let line := trimReturn token
  if line.isEmpty then s else ⟨s.ring.set (s.head % limit) line, s.head + 1⟩

/-- How a `bufio.Scanner` ends before the end of what it reads. -/
inductive ScanError (ε : Type) where
  | tooLong
  | read (e : ε)
  deriving DecidableEq, Repr

/-- The buffer that `readAndReverseNDJSON` gives its scanner, in bytes. -/
def scannerBuffer : Nat := 8 * 1024 * 1024

/-- A line, with its newline, fits the buffer of the scanner. -/
def fitsBuffer (line : Text) : Bool := byteLength line < scannerBuffer

/-- `readAndReverseNDJSON` on the text that a reader delivers and the error it then ends with.
The scanner stops at the first line that does not fit.  What stands behind the last newline, when
it is empty, is no line, and is skipped like an empty one. -/
def readAndReverseNDJSON {ε : Type} (body : Text) (readErr : Option ε) (limit : Int) :
    Except (ScanError ε) Text :=
  let limit := if limit ≤ 0 ∨ limit > maxRingSize then maxRingSize else limit.toNat
  let tokens := (body.splitOn '\n').takeWhile fitsBuffer
  let s := tokens.foldl (LineRing.read limit) ⟨replicate maxRingSize [], 0⟩
  match if (body.splitOn '\n').all fitsBuffer then readErr.map .read else some .tooLong with
  | some e => .error e
  | none =>
    let n := if s.head > limit then limit else s.head
    let lines := (List.range n).map fun i => s.ring.getD ((s.head - n + i) % limit) []
    .ok (joinLines lines.reverse)

/-- The ring holds the last lines that were read: line `i` is in slot `i % limit` until the
line `i + limit` comes. -/
structure LineRing.Holds (limit : Nat) (lines : List Text) (s : LineRing) : Prop where
  length_ring : s.ring.length = maxRingSize
  head_eq : s.head = lines.length
  slot : ∀ i < lines.length, lines.length ≤ i + limit → s.ring[i % limit]? = lines[i]?

variable {limit : Nat} {lines : List Text} {s : LineRing}

/-- One token keeps in the ring the last lines read. -/
theorem LineRing.Holds.read (h : s.Holds limit lines) (hpos : 0 < limit)
    (hmax : limit ≤ maxRingSize) (token : Text) :
    (s.read limit token).Holds limit
      (lines ++ [trimReturn token].filter fun line => !line.isEmpty) := by
  obtain ⟨hlength, hhead, hslot⟩ := h
  unfold LineRing.read
  dsimp only
  split
  case isTrue hempty =>
    rw [filter_cons_of_neg (by simp [hempty]), filter_nil, append_nil]
    exact ⟨hlength, hhead, hslot⟩
  case isFalse hline =>
    rw [filter_cons_of_pos (by simp [hline]), filter_nil]
    refine ⟨by rw [length_set, hlength], by rw [hhead, length_append]; rfl, ?_⟩
    intro i hi hkept
    rw [length_append, length_singleton] at hi hkept
    rw [hhead, getElem?_set]
    rcases Nat.lt_succ_iff_lt_or_eq.mp hi with hold | rfl
    · -- Two of the last `limit` lines are never in one slot.
      have hother : lines.length % limit ≠ i % limit := by
        intro heq
        have hdvd := Nat.sub_mod_eq_zero_of_mod_eq heq
        rw [Nat.mod_eq_of_lt (by omega)] at hdvd
        omega
      rw [if_neg hother, getElem?_append_left hold]
      exact hslot i hold (by omega)
    · have hin : lines.length % limit < s.ring.length :=
        hlength ▸ (Nat.mod_lt _ hpos).trans_le hmax
      rw [if_pos rfl, if_pos hin, getElem?_concat_length]

/-- After all the tokens the ring holds the last lines read. -/
theorem LineRing.Holds.foldl (h : s.Holds limit lines) (hpos : 0 < limit)
    (hmax : limit ≤ maxRingSize) (tokens : List Text) :
    (tokens.foldl (LineRing.read limit) s).Holds limit
      (lines ++ (tokens.map trimReturn).filter fun line => !line.isEmpty) := by
  induction tokens generalizing s lines with
  | nil => simpa using h
  | cons token tokens ih =>
    rw [foldl_cons, map_cons, ← singleton_append, filter_append, ← append_assoc]
    exact ih (h.read hpos hmax token)

/-- The slots from `head - n` on are the last `n` lines. -/
theorem LineRing.Holds.unrolled (h : s.Holds limit lines) {n : Nat} (hn : n ≤ lines.length)
    (hlimit : n ≤ limit) :
    (List.range n).map (fun i => s.ring.getD ((lines.length - n + i) % limit) []) =
      lines.drop (lines.length - n) := by
  refine ext_getElem ?_ ?_
  · rw [length_map, length_range, length_drop]
    omega
  · intro i hi _
    rw [length_map, length_range] at hi
    rw [getElem_map, getElem_range, getElem_drop, getD_eq_getElem?_getD,
      h.slot _ (by omega) (by omega), getElem?_eq_getElem, Option.getD_some]

/-- The limit that the ring is used with. -/
theorem ringLimit (limit : Int) :
    (if limit ≤ 0 ∨ limit > maxRingSize then maxRingSize else limit.toNat) =
      if limit ≤ 0 then 5000 else min limit.toNat 5000 := by
  unfold maxRingSize
  split_ifs <;> omega

theorem not_fitsBuffer {line : Text} (h : scannerBuffer ≤ byteLength line) :
    fitsBuffer line = false :=
  decide_eq_false (Nat.not_lt.mpr h)

/-- The answer is the last lines that are not empty, the newest first.  A line that does not fit
the scanner, or a reader that fails, makes it an error. -/
theorem readAndReverseNDJSON_eq {ε : Type} (body : Text) (readErr : Option ε) (limit : Int) :
    readAndReverseNDJSON body readErr limit =
      if ∃ line ∈ body.splitOn '\n', scannerBuffer ≤ byteLength line then .error .tooLong
      else
        match readErr with
        | some e => .error (.read e)
        | none =>
          .ok (joinLines ((bodyLines body).reverse.take
            (if limit ≤ 0 then 5000 else min limit.toNat 5000))) := by
  unfold readAndReverseNDJSON
  rw [ringLimit]
  generalize hl : (if limit ≤ 0 then 5000 else min limit.toNat 5000) = l
  have hpos : 0 < l := by
    rw [← hl]
    split <;> omega
  have hmax : l ≤ maxRingSize := by
    rw [← hl, maxRingSize]
    split <;> omega
  have hstart : LineRing.Holds l [] ⟨replicate maxRingSize [], 0⟩ :=
    ⟨length_replicate, rfl, fun i hi _ => absurd hi (Nat.not_lt_zero i)⟩
  by_cases hlong : ∃ line ∈ body.splitOn '\n', scannerBuffer ≤ byteLength line
  · have hnot : (body.splitOn '\n').all fitsBuffer = false := by
      obtain ⟨line, hline, hlength⟩ := hlong
      exact all_eq_false.mpr ⟨line, hline, ne_true_of_eq_false (not_fitsBuffer hlength)⟩
    rw [if_pos hlong, hnot]
    rfl
  · have hfits : ∀ line ∈ body.splitOn '\n', fitsBuffer line = true := by
      intro line hline
      exact decide_eq_true (Nat.lt_of_not_le fun hlength => hlong ⟨line, hline, hlength⟩)
    rw [if_neg hlong, all_eq_true.mpr hfits, takeWhile_eq_self_iff.mpr hfits]
    cases readErr with
    | some e => rfl
    | none =>
      have hend := hstart.foldl hpos hmax (body.splitOn '\n')
      rw [nil_append] at hend
      dsimp only [Option.map_none]
      rw [if_pos rfl]
      dsimp only
      rw [hend.head_eq, hend.unrolled (by split <;> omega) (by split <;> omega), reverse_drop]
      unfold bodyLines
      congr 2
      rw [take_eq_take_iff, length_reverse]
      split <;> omega

/-- A line that does not fit the buffer ends the read with an error. -/
theorem readAndReverseNDJSON_long {ε : Type} {line : Text} (hline : '\n' ∉ line)
    (hlong : scannerBuffer ≤ byteLength line) (readErr : Option ε) (limit : Int) :
    readAndReverseNDJSON line readErr limit = .error .tooLong := by
  have hlines : (['\n'].intercalate [line]).splitOn '\n' = [line] :=
    splitOn_intercalate '\n' (by simpa using hline) (cons_ne_nil _ _)
  rw [intercalate_singleton] at hlines
  unfold readAndReverseNDJSON
  rw [hlines, all_cons, not_fitsBuffer hlong]
  rfl

theorem byteLength_replicate (size : Nat) : byteLength (replicate size 'x') = size := by
  rw [byteLength, map_replicate, sum_replicate]
  exact Nat.mul_one size

/-- A body of one line of eight mebibytes: nothing is returned. -/
theorem long_line_not_returned :
    '\n' ∉ replicate scannerBuffer 'x' ∧
      readAndReverseNDJSON (replicate scannerBuffer 'x') (none : Option Empty) 1 =
        .error .tooLong := by
  have hline : '\n' ∉ replicate scannerBuffer 'x' := fun hmem =>
    absurd (eq_of_mem_replicate hmem) (by decide)
  exact ⟨hline, readAndReverseNDJSON_long hline (byteLength_replicate _).ge none 1⟩

/-! ## Backward queries to cold storage -/

def coldBackwardChunkDuration : Int := 3600000000000

/-- `maxLimitValue`, as a number of rows. -/
def maxLimitRows : Nat := 10000

/-- The parameters that are set for each chunk. -/
structure ChunkRequest where
  range : NanoRange
  limit : Nat
  deriving DecidableEq, Repr

/-- The variables of the loop of `coldBackwardChunkedFetch`. -/
structure ChunkFetch where
  chunks : List Text
  accCount : Nat
  chunkEnd : Int

variable {ε : Type} (coldPost : ChunkRequest → Except ε Text)

/-- One round of that loop; `coldPost` is the request with its status check and its body read. -/
def fetchChunk (startNs : Int) (limit : Nat) (s : ChunkFetch) : Except ε (ChunkFetch ⊕ List Text) :=
  if startNs < s.chunkEnd then
    let chunkStart := s.chunkEnd - coldBackwardChunkDuration
    let chunkStart := if chunkStart < startNs then startNs else chunkStart
    if limit ≤ s.accCount then .ok (.inr s.chunks)
    else do
      let body ← coldPost ⟨⟨chunkStart, s.chunkEnd⟩, min (limit - s.accCount) maxLimitRows⟩
      let chunks := s.chunks ++ [body]
      let accCount := s.accCount + countNDJSONLines body
      if limit ≤ accCount then return .inr chunks else return .inl ⟨chunks, accCount, chunkStart⟩
  else .ok (.inr s.chunks)

/-- At least as many as there are chunks. -/
def chunkCount (startNs endNs : Int) : Nat :=
  ((endNs - startNs) / coldBackwardChunkDuration).toNat + 1

def coldBackwardChunkedFetch (startNs endNs : Int) (limit : Nat) : Bounded ε Text := do
  let chunks ← loop (fetchChunk coldPost startNs limit) (chunkCount startNs endNs + 1)
    ⟨[], 0, endNs⟩
  return chunks.reverse.flatten

/-- The body that `proxyLogQueryCold` makes its answer from, unless the direction is forward. -/
def proxyLogQueryCold (range : NanoRange) (limitParam : Text) : Bounded ε Text := do
  let ascBody ← coldBackwardChunkedFetch coldPost range.startNs range.endNs (queryLimit limitParam)
  return trimNDJSONBodyToLimit (reverseNDJSONBody ascBody) limitParam

/-! ## Requests to the cold backend -/

/-- `stringReader.Read`. -/
def stringReader : Reader (List UInt8) where
  read s size :=
    let n := min size s.length
    if n < s.length then (⟨s.take n, false⟩, s) else (⟨s.take n, true⟩, s)

/-- What `coldRequest` puts into a request. -/
structure ColdRequest where
  method : String
  path : Text
  contentType : String
  /-- the string behind the `stringReader` -/
  body : List UInt8

/-- `coldRequest`, up to sending it: the parameters are in the order `Encode` writes them. -/
def coldRequest (method : String) (path : Text) (params : List (Text × Text)) : ColdRequest :=
  ⟨method, path, "application/x-www-form-urlencoded",
    (encodePairs params).flatMap String.utf8EncodeChar⟩

/-! ## What the calls deliver -/

theorem stateAt_stringReader (s : List UInt8) (sizes : Nat → Nat) (n : Nat) :
    stringReader.stateAt sizes s n = s := by
  induction n with
  | zero => rfl
  | succ n ih =>
    rw [Reader.stateAt, ih, stringReader]
    dsimp only
    split <;> rfl

theorem result_stringReader (s : List UInt8) (sizes : Nat → Nat) (n : Nat) :
    stringReader.result sizes s n = ⟨s.take (sizes n), decide (s.length ≤ sizes n)⟩ := by
  have htake : s.take (min (sizes n) s.length) = s.take (sizes n) := by
    rw [take_eq_take_iff]
    omega
  rw [Reader.result, stateAt_stringReader, stringReader]
  dsimp only
  rw [htake]
  split
  · rw [decide_eq_false (by omega)]
  · rw [decide_eq_true (by omega)]

variable {sizes : Nat → Nat}

theorem delivers_of_le {s : List UInt8} (hfits : s.length ≤ sizes 0) :
    stringReader.Delivers sizes s s := by
  refine ⟨0, ?_, ?_, ?_⟩
  · intro i hi
    exact absurd hi (Nat.not_lt_zero i)
  · rw [result_stringReader]
    exact decide_eq_true hfits
  · rw [Reader.delivered_succ, result_stringReader, take_of_length_le hfits]
    rfl

theorem le_of_delivers {s : List UInt8} (hpos : ∀ i, 0 < sizes i)
    (h : stringReader.Delivers sizes s s) : s.length ≤ sizes 0 := by
  obtain ⟨n, hmore, heof, hcontent⟩ := h
  rw [result_stringReader] at heof
  have hlast : s.length ≤ sizes n := of_decide_eq_true heof
  cases n with
  | zero => exact hlast
  | succ n =>
    have hfirst := hmore 0 (Nat.succ_pos n)
    rw [result_stringReader] at hfirst
    have hlong : ¬ s.length ≤ sizes 0 := of_decide_eq_false hfirst
    have hpart : (stringReader.result sizes s 0).bytes.length ≤
        (stringReader.delivered sizes s (n + 1)).length :=
      stringReader.length_result_le sizes (Nat.succ_pos n)
    have htotal := congrArg List.length hcontent
    rw [Reader.delivered_succ, length_append, result_stringReader,
      length_take] at htotal
    rw [result_stringReader, length_take] at hpart
    have hsize := hpos 0
    omega

theorem coldRequest_sends_iff (method : String) (path : Text) (params : List (Text × Text))
    (hpos : ∀ i, 0 < sizes i) :
    let body := (coldRequest method path params).body
    stringReader.Delivers sizes body body ↔ body.length ≤ sizes 0 :=
  ⟨le_of_delivers hpos, delivers_of_le⟩

theorem stringReader_delivers_iff (s : List UInt8) (sizes : Nat → Nat) (hpos : ∀ i, 0 < sizes i) :
    stringReader.Delivers sizes s s ↔ s.length ≤ sizes 0 := by
  constructor
  · intro h
    exact le_of_delivers hpos h
  · intro hfits
    exact delivers_of_le hfits

theorem stringReader_delivers_short :
    stringReader.Delivers (fun _ => 4) [97, 61, 98] [97, 61, 98] :=
  (stringReader_delivers_iff [97, 61, 98] (fun _ => 4) (fun _ => by decide)).mpr (by decide)

/-- Four-byte buffers and the body `ab=cde`: every call returns `ab=c` again. -/
theorem stringReader_repeats_long :
    ¬ stringReader.Delivers (fun _ => 4) [97, 98, 61, 99, 100, 101] [97, 98, 61, 99, 100, 101] := by
  intro h
  exact absurd (le_of_delivers (fun _ => by decide) h) (by decide)

end LokiVlProxy.Proxy
