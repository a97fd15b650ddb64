/-
  Proxy/WindowBody.lean --- the body of a window's response, as far as it can be read.

  Source: internal/proxy/query_range_windowing.go: fetchQueryRangeWindow,
  vlLogsToLokiWindowEntriesStream; `bufio.Scanner` with `ScanLines`.

  The scanner ends in one way at the end of the body, at a line that does not fit its
  buffer and where reading fails, and the converter does not ask which it was.
-/
import LokiVlProxy.Foundation.Quoting
import LokiVlProxy.Foundation.KeyMap
import LokiVlProxy.Proxy.BreakerCallers

open List

namespace LokiVlProxy.Foundation

/-- The lines of a text that have ended, and what stands behind the last newline. -/
def cutLines : Bytes → List Bytes × Bytes
  | [] => ([], [])
  | c :: s =>
    if c = 10 then ([] :: (cutLines s).1, (cutLines s).2)
    else
      match (cutLines s).1 with
      | [] => ([], c :: (cutLines s).2)
      | line :: lines => ((c :: line) :: lines, (cutLines s).2)

/-- The lines of a text, the last one with or without its newline. -/
def textLines (s : Bytes) : List Bytes := (cutLines s).1 ++ [(cutLines s).2]

theorem textLines_append (a b : Bytes) : ∃ more after,
    textLines (a ++ b) = (cutLines a).1 ++ ((cutLines a).2 ++ more) :: after := by
  have hcut : ∃ more after, textLines b = more :: after := by
    rw [textLines]
    cases (cutLines b).1 with
    | nil | cons line lines => exact ⟨_, _, rfl⟩
  obtain ⟨more, after, hb⟩ := hcut
  refine ⟨more, after, ?_⟩
  induction a with
  | nil => exact hb
  | cons c a ih =>
    rw [textLines] at ih ⊢
    rw [cons_append, cutLines, cutLines]
    split_ifs with hc
    · rw [cons_append, ih]
      rfl
    · -- the first line grows by one byte, whether or not it has ended in `a`
      cases hab : (cutLines (a ++ b)).1 with
      | nil =>
        rw [hab] at ih
        cases ha : (cutLines a).1 with
        | nil => simpa [ha] using ih
        | cons line lines => simp [ha] at ih
      | cons line lines =>
        rw [hab] at ih
        cases ha : (cutLines a).1 with
        | nil | cons line' lines' => simpa [ha] using ih

end LokiVlProxy.Foundation

namespace LokiVlProxy.Proxy

open Foundation

/-! ## Rows -/

/-- How a line becomes a row: `parse` gives none for a line that is no JSON, has no usable
`_time` or is over the line size limit.  Rows that agree in `record` are duplicates. -/
structure RowReader (α : Type) where
  parse : Bytes → Option α
  record : α → Bytes
  /-- `-dedupe-exact-duplicates` -/
  dedupe : Bool

/-- A response with a success status: the whole body, and the number of bytes after which
reading it fails. -/
structure WindowResponse where
  body : Bytes
  failsAfter : Option Nat

/-- What can be read. -/
def WindowResponse.received (resp : WindowResponse) : Bytes :=
  match resp.failsAfter with
  | none => resp.body
  | some n => resp.body.take n

def windowEntryScannerLineBytes : Nat := 1024 * 1024

/-- A line, with its newline, fits the buffer of the scanner. -/
def fitsScanner (line : Bytes) : Bool := line.length < windowEntryScannerLineBytes

namespace RowReader

variable {α : Type} (reader : RowReader α)

/-- The row of a line.  Spaces, tabs and carriage returns around it do not count. -/
def row (line : Bytes) : Option α :=
  let line := trimBytes [32, 9, 13] line
  if line = [] then none else reader.parse line

/-- What is kept of a list of lines with these records seen, all lines read. -/
def rows (seen : List Bytes) : List Bytes → List α
  | [] => []
  | line :: lines =>
    match reader.row line with
    | none => rows seen lines
    | some row =>
      if reader.dedupe ∧ reader.record row ∈ seen then rows seen lines
      else row :: rows (reader.record row :: seen) lines

/-- The records seen after these lines. -/
def seenAfter (seen : List Bytes) : List Bytes → List Bytes
  | [] => seen
  | line :: lines =>
    match reader.row line with
    | none => seenAfter seen lines
    | some row =>
      if reader.dedupe ∧ reader.record row ∈ seen then seenAfter seen lines
      else seenAfter (reader.record row :: seen) lines

theorem rows_append (seen lines more : List Bytes) :
    reader.rows seen (lines ++ more) =
      reader.rows seen lines ++ reader.rows (reader.seenAfter seen lines) more := by
  induction lines generalizing seen with
  | nil => rfl
  | cons line lines ih =>
    rw [cons_append, rows, rows, seenAfter]
    cases reader.row line with
    | none => exact ih seen
    | some row =>
      by_cases hdup : reader.dedupe ∧ reader.record row ∈ seen
      · simpa only [if_pos hdup] using ih seen
      · simp only [if_neg hdup, ih, cons_append]

/-- The scan loop of `vlLogsToLokiWindowEntriesStream` over the lines that were received. -/
def scan (lines : List Bytes) : List α := reader.rows [] (lines.takeWhile fitsScanner)

def vlLogsToLokiWindowEntriesStream (resp : WindowResponse) : List α :=
  reader.scan (textLines resp.received)

/-- The rows that the backend sent or was about to send. -/
def allRows (resp : WindowResponse) : List α := reader.rows [] (textLines resp.body)

end RowReader

/-! ## The part that is not read whole -/

namespace WindowResponse

variable (resp : WindowResponse)

/-- The lines that were received with their newlines, up to the first that does not fit. -/
def wholeLines : List Bytes := (cutLines resp.received).1.takeWhile fitsScanner

/-- The lines from there on, as the backend sent them or was about to. -/
def unreadLines : List Bytes := (textLines resp.body).drop resp.wholeLines.length

/-- What the scanner still makes of them: the line without its newline at the end of what was
received, if it gets that far and the line fits. -/
def cutLine : List Bytes :=
  ((textLines resp.received).drop resp.wholeLines.length).takeWhile fitsScanner

theorem exists_received_append : ∃ rest, resp.body = resp.received ++ rest := by
  rw [received]
  cases resp.failsAfter with
  | none => exact ⟨[], (append_nil _).symm⟩
  | some n => exact ⟨_, (take_append_drop n resp.body).symm⟩

theorem wholeLines_isPrefix : resp.wholeLines <+: (cutLines resp.received).1 :=
  takeWhile_prefix _

theorem textLines_body : textLines resp.body = resp.wholeLines ++ resp.unreadLines := by
  obtain ⟨rest, hbody⟩ := resp.exists_received_append
  obtain ⟨more, after, hlines⟩ := textLines_append resp.received rest
  have hsub : resp.wholeLines <+: textLines resp.body := by
    rw [hbody, hlines]
    exact resp.wholeLines_isPrefix.trans (prefix_append _ _)
  rw [unreadLines, ← prefix_iff_eq_append.mp hsub]
  congr 1
  rw [prefix_iff_eq_append.mp hsub]

theorem takeWhile_received :
    (textLines resp.received).takeWhile fitsScanner = resp.wholeLines ++ resp.cutLine := by
  have hsplit : textLines resp.received =
      resp.wholeLines ++ (textLines resp.received).drop resp.wholeLines.length := by
    refine (prefix_iff_eq_append.mp ?_).symm
    exact resp.wholeLines_isPrefix.trans (prefix_append _ _)
  have hall : ∀ line ∈ resp.wholeLines, fitsScanner line = true :=
    fun line hline => mem_takeWhile_imp hline
  conv_lhs => rw [hsplit]
  rw [takeWhile_append_of_pos hall, cutLine]

end WindowResponse

namespace RowReader

variable {α : Type} (reader : RowReader α) (resp : WindowResponse)

/-- What is read of a body that ended early. -/
theorem entries_eq : reader.vlLogsToLokiWindowEntriesStream resp =
    reader.rows [] resp.wholeLines ++
      reader.rows (reader.seenAfter [] resp.wholeLines) resp.cutLine := by
  rw [vlLogsToLokiWindowEntriesStream, scan, resp.takeWhile_received, rows_append]

/-- What the whole body holds. -/
theorem allRows_eq : reader.allRows resp =
    reader.rows [] resp.wholeLines ++
      reader.rows (reader.seenAfter [] resp.wholeLines) resp.unreadLines := by
  rw [allRows, resp.textLines_body, rows_append]

/-- No new row stands in the part that is not read whole, but one that the cut line gives. -/
def NothingUnread : Prop :=
  List.Sublist (reader.rows (reader.seenAfter [] resp.wholeLines) resp.unreadLines)
    (reader.rows (reader.seenAfter [] resp.wholeLines) resp.cutLine)

end RowReader

/-! ## The fetch -/

/-- What one attempt of a fetch meets: a failure, which may or may not be tried again, or a
response with a success status. -/
inductive FetchAttempt where
  | failed (retry : Bool)
  | response (resp : WindowResponse)

section Fetch

variable {α : Type} (reader : RowReader α) (cacheKey : String) (stores : Bool)

/-- The attempts of `fetchQueryRangeWindow`, so many of them left.  `stores` is that the
window has a TTL. -/
def fetchAttempts : Nat → List FetchAttempt → KeyMap String (List α) →
    Option (List α) × KeyMap String (List α)
  | 0, _, cache => (none, cache)
  | _ + 1, [], cache => (none, cache)
  | left + 1, .failed retry :: attempts, cache =>
    if retry then fetchAttempts left attempts cache else (none, cache)
  | _ + 1, .response resp :: _, cache =>
    let entries := reader.vlLogsToLokiWindowEntriesStream resp
    (some entries, if stores then cache.insert cacheKey entries else cache)

/-- `fetchQueryRangeWindow`: the entries, or an error, and the cache. -/
def fetchQueryRangeWindowBody (attempts : List FetchAttempt) (cache : KeyMap String (List α)) :
    Option (List α) × KeyMap String (List α) :=
  match cache.find? cacheKey with
  | some entries => (some entries, cache)
  | none => fetchAttempts reader cacheKey stores queryRangeWindowFetchAttempts attempts cache

/-- An outcome that is not shortened: every row of the response has its entry, in the answer
and in the cache; or there is an error and nothing is cached. -/
def NotShortened (resp : WindowResponse) (cache : KeyMap String (List α))
    (outcome : Option (List α) × KeyMap String (List α)) : Prop :=
  match outcome.1 with
  | none => outcome.2 = cache
  | some entries => List.Sublist (reader.allRows resp) entries ∧
      (stores = true → outcome.2.find? cacheKey = some entries)

variable {reader cacheKey stores}

/-- Attempts that fail leave the cache alone. -/
theorem fetchAttempts_failed (fails left : Nat) (attempts : List FetchAttempt)
    (cache : KeyMap String (List α)) :
    fetchAttempts reader cacheKey stores (fails + left)
        (List.replicate fails (.failed true) ++ attempts) cache =
      fetchAttempts reader cacheKey stores left attempts cache := by
  induction fails with
  | zero => rw [Nat.zero_add, replicate_zero, nil_append]
  | succ fails ih =>
    rw [Nat.succ_add, replicate_succ, cons_append, fetchAttempts, if_pos rfl, ih]

end Fetch

/-- A success response, however many attempts failed before it, is answered, and cached, in
full if and only if no new row stands in the part of its body that is not read. -/
theorem fetchQueryRangeWindow_complete_iff {α : Type} (reader : RowReader α) (cacheKey : String)
    (stores : Bool) (resp : WindowResponse) (fails : Nat) (attempts : List FetchAttempt)
    (cache : KeyMap String (List α)) (hmiss : cache.find? cacheKey = none)
    (hfails : fails < queryRangeWindowFetchAttempts) :
    NotShortened reader cacheKey stores resp cache
        (fetchQueryRangeWindowBody reader cacheKey stores
          (List.replicate fails (.failed true) ++ .response resp :: attempts) cache) ↔
      reader.NothingUnread resp := by
  obtain ⟨left, hleft⟩ := Nat.exists_eq_add_of_lt hfails
  rw [fetchQueryRangeWindowBody, hmiss, hleft, Nat.add_assoc]
  simp only [fetchAttempts_failed, fetchAttempts, NotShortened]
  rw [reader.allRows_eq, reader.entries_eq, append_sublist_append_left]
  constructor
  · exact fun h => h.1
  · intro h
    refine ⟨h, fun hstores => ?_⟩
    rw [if_pos hstores, KeyMap.find?_insert, if_pos rfl]

/-- Every line that is not blank is a row. -/
def lineReader : RowReader Bytes where
  parse := some
  record := id
  dedupe := false

theorem fetchQueryRangeWindow_complete_two :
    NotShortened lineReader "key" true ⟨bytes "a\nb\n", none⟩ ∅
      (fetchQueryRangeWindowBody lineReader "key" true
        (List.replicate 1 (.failed true) ++ [.response ⟨bytes "a\nb\n", none⟩]) ∅) :=
  (fetchQueryRangeWindow_complete_iff lineReader "key" true ⟨bytes "a\nb\n", none⟩ 1 [] ∅ rfl
    (by decide)).mpr (List.Sublist.refl _)

/-- The connection breaks behind the first of two rows. -/
theorem not_fetchQueryRangeWindow_complete :
    ¬ NotShortened lineReader "key" true ⟨bytes "a\nb\n", some 2⟩ ∅
      (fetchQueryRangeWindowBody lineReader "key" true [.response ⟨bytes "a\nb\n", some 2⟩] ∅) := by
  intro h
  have hsub : List.Sublist [bytes "a", bytes "b"] [bytes "a"] := h.1
  exact absurd hsub (by decide)

end LokiVlProxy.Proxy
