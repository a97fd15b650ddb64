/-
  Proxy/TemplatePages.lean --- how many rows a template log query reads.

  Source: internal/proxy/template_pipeline.go: pushdownPrefix, pipelineSuffixDropsRows,
  fetchTemplatePipelineEntries, fetchTemplatePipelineEntriesWithFallback,
  fetchTemplatePipelineEntriesQuery, fetchTemplatePipelineEntriesSplit, vlRowTimestampNanos,
  and the sort and truncation of proxyTemplateLogQuery; internal/logql/pipeline.go: Process.

  The proxy asks the backend for the newest (or oldest) rows and runs the whole pipeline on
  them.
-/
import LokiVlProxy.Proxy.WindowRows

namespace LokiVlProxy.Proxy

open Foundation List

/-! ## The plan -/

inductive StageKind where
  | lineFilter
  | labelFilter
  | parser
  | lineFormat
  | labelFormat
  | drop
  | keep
  | decolorize
  | unwrap
  deriving DecidableEq, Repr

/-- The stages that can drop an entry. -/
def StageKind.filters : StageKind → Bool
  | .lineFilter | .labelFilter => true
  | _ => false

/-- A stage of a pipeline over entries `E`.  `needsProxyEvaluation` says that the stage by
itself has to be evaluated here: a template, or a filter on the error labels. -/
structure PipelineStage (E : Type) where
  kind : StageKind
  needsProxyEvaluation : Bool
  apply : E → Option E
  keeps : kind.filters = false → ∀ e, (apply e).isSome

section Plan

variable {E : Type} (stages : List (PipelineStage E))

/-- `pushdownPrefix`. -/
def pushdownStages : List (PipelineStage E) :=
  stages.takeWhile fun s => !s.needsProxyEvaluation

def pipelineSuffixDropsRows : Bool :=
  (stages.drop (pushdownStages stages).length).any fun s => s.kind.filters

/-- `Pipeline.Process`. -/
def processStages (e : E) : Option E :=
  stages.foldlM (fun e s => s.apply e) e

structure TemplatePlan (E : Type) where
  stages : List (PipelineStage E)
  baseLogsQL : String
  fallbackLogsQL : String

def TemplatePlan.suffixDropsRows (plan : TemplatePlan E) : Bool :=
  pipelineSuffixDropsRows plan.stages

end Plan

/-! ## The backend -/

/-- What is stored, which queries are accepted, and what a query answers for a row: nothing,
or the row with the fields the query's pipes add.  `streamed` is the answer to a query without
a sort, in whatever order. -/
structure TemplateBackend where
  stored : List Row
  accepts : String → Bool
  answer : String → Row → Option Row
  time_answer : ∀ query row row', answer query row = some row' → row'.time = row.time
  streamed : String → Int × Int → List Row

/-- The rows a query matches in a span, in the direction of the request: the answer to
`sort by (_time [desc]) limit n` is the first `n` of them. -/
def TemplateBackend.matching (backend : TemplateBackend) (direction query : String)
    (t : Int × Int) : List Row :=
  (Row.inSpan backend.stored direction t).filterMap (backend.answer query)

/-- The query that is answered: the pushed-down one, or the one with the line filters only
when the backend rejects the former. -/
def TemplateBackend.served {E : Type} (backend : TemplateBackend) (plan : TemplatePlan E) :
    Option String :=
  if backend.accepts plan.baseLogsQL then some plan.baseLogsQL
  else if plan.fallbackLogsQL ≠ "" ∧ plan.fallbackLogsQL ≠ plan.baseLogsQL ∧
      backend.accepts plan.fallbackLogsQL then some plan.fallbackLogsQL
  else none

/-! ## Reading a page -/

/-- An entry that survived the pipeline.  Its line, labels and sizes are those of the entry
the pipeline left. -/
structure TemplateEntry (E : Type) where
  ts : Int
  entry : E
  deriving DecidableEq

/-- `vlRowTimestampNanos`: a small number is taken for seconds. -/
def vlRowTimestampNanos (time : Int) : Int :=
  if time < 10 ^ 12 then (time * 10 ^ 9).bmod (2 ^ 64) else time

/-- The settings of the proxy, how it makes an entry of a row, and `room`: how many entries
the budget shared with the other queries lets the read of a page hold. -/
structure TemplateReader (E : Type) where
  rangeMetricRowLimit : Int
  dedupeExactDuplicates : Bool
  entryOf : Row → E
  room : Int × Int → Nat → Nat

def defaultManualRangeMetricRowLimit : Nat := 1000000

namespace TemplateReader

variable {E : Type} (reader : TemplateReader E) (plan : TemplatePlan E)

def rowLimit : Nat :=
  if reader.rangeMetricRowLimit ≤ 0 then defaultManualRangeMetricRowLimit
  else reader.rangeMetricRowLimit.toNat

/-- The entry of a row, when the row can be used and the pipeline keeps it. -/
def survivor (row : Row) : Option (TemplateEntry E) :=
  if row.line = .usable then
    (processStages plan.stages (reader.entryOf row)).map (⟨vlRowTimestampNanos row.time, ·⟩)
  else none

/-- The scan of `fetchTemplatePipelineEntriesQuery`, with the rows seen and the room left: the
entries and the number of rows scanned.  `none` is a line the scanner cannot hold. -/
def scan : List (Int × String) → Nat → List Row → Option (List (TemplateEntry E) × Nat)
  | _, _, [] => some ([], 0)
  | seen, room, row :: rows =>
      match row.line with
      | .overlong => none
      | .skipped => (scan seen room rows).map fun page => (page.1, page.2 + 1)
      | .usable =>
          if reader.dedupeExactDuplicates ∧ (row.time, row.record) ∈ seen then
            (scan seen room rows).map fun page => (page.1, page.2 + 1)
          else
            match processStages plan.stages (reader.entryOf row) with
            | none =>
                (scan ((row.time, row.record) :: seen) room rows).map
                  fun page => (page.1, page.2 + 1)
            | some e =>
                if room = 0 then some ([], 1)
                else
                  (scan ((row.time, row.record) :: seen) (room - 1) rows).map
                    fun page => (⟨vlRowTimestampNanos row.time, e⟩ :: page.1, page.2 + 1)

/-- A scan that is not disturbed gives the survivors of the whole page. -/
theorem scan_eq {rows : List Row} (hline : ∀ row ∈ rows, row.line ≠ .overlong)
    (hdistinct : rows.Pairwise fun a b => a.time ≠ b.time) {seen : List (Int × String)}
    (hseen : ∀ row ∈ rows, ∀ key ∈ seen, key.1 ≠ row.time) {room : Nat}
    (hroom : (rows.filterMap (reader.survivor plan)).length ≤ room) :
    reader.scan plan seen room rows =
      some (rows.filterMap (reader.survivor plan), rows.length) := by
  induction rows generalizing seen room with
  | nil => rfl
  | cons row rows ih =>
    obtain ⟨hrow, hrows⟩ := pairwise_cons.mp hdistinct
    have hline' : ∀ row' ∈ rows, row'.line ≠ .overlong := fun row' h =>
      hline row' (mem_cons_of_mem _ h)
    have hseen' : ∀ row' ∈ rows, ∀ key ∈ seen, key.1 ≠ row'.time := fun row' h =>
      hseen row' (mem_cons_of_mem _ h)
    have hmore : ∀ row' ∈ rows, ∀ key ∈ (row.time, row.record) :: seen, key.1 ≠ row'.time := by
      intro row' h key hkey
      rcases mem_cons.mp hkey with rfl | hkey
      · exact hrow row' h
      · exact hseen' row' h key hkey
    rw [scan]
    cases hkind : row.line with
    | overlong => exact absurd hkind (hline row (by simp))
    | skipped =>
      have hnone : reader.survivor plan row = none := by simp [survivor, hkind]
      rw [filterMap_cons_none hnone] at hroom ⊢
      simp only [ih hline' hrows hseen' hroom, Option.map_some, length_cons]
    | usable =>
      have hfresh : ¬ (reader.dedupeExactDuplicates = true ∧ (row.time, row.record) ∈ seen) :=
        fun h => hseen row (by simp) _ h.2 rfl
      simp only [if_neg hfresh]
      cases hprocess : processStages plan.stages (reader.entryOf row) with
      | none =>
        have hnone : reader.survivor plan row = none := by simp [survivor, hkind, hprocess]
        rw [filterMap_cons_none hnone] at hroom ⊢
        simp only [ih hline' hrows hmore hroom, Option.map_some, length_cons]
      | some e =>
        have hsome : reader.survivor plan row = some ⟨vlRowTimestampNanos row.time, e⟩ := by
          simp [survivor, hkind, hprocess]
        rw [filterMap_cons_some hsome, length_cons] at hroom
        have hleft : (rows.filterMap (reader.survivor plan)).length ≤ room - 1 :=
          Nat.le_sub_one_of_lt hroom
        have hsomeRoom : room ≠ 0 := Nat.ne_of_gt (Nat.lt_of_lt_of_le (Nat.succ_pos _) hroom)
        rw [filterMap_cons_some hsome]
        simp only [if_neg hsomeRoom, ih hline' hrows hmore hleft, Option.map_some, length_cons]

/-! ## The pages of a window -/

variable (backend : TemplateBackend) (direction : String) (t : Int × Int)

/-- `fetchTemplatePipelineEntriesWithFallback` with a bounded sort: the entries and the number
of rows scanned. -/
def readPage (sortRows : Nat) : Option (List (TemplateEntry E) × Nat) :=
  (backend.served plan).bind fun query =>
    reader.scan plan [] (reader.room t sortRows) ((backend.matching direction query t).take sortRows)

/-- What a fetch returns, and whether its last read reached the raw-row cap. -/
structure Fetched (E : Type) where
  entries : List (TemplateEntry E)
  capped : Bool

/-- The loop of `fetchTemplatePipelineEntries`. -/
def growPages (t : Int × Int) (wantRows : Nat) : Nat → Nat → Option (Fetched E)
  | 0, _ => none
  | fuel + 1, rows =>
      (reader.readPage plan backend direction t rows).bind fun page =>
        if plan.suffixDropsRows = false ∨ wantRows ≤ page.1.length ∨ page.2 < rows ∨
            reader.rowLimit ≤ rows then
          some ⟨page.1, decide (reader.rowLimit ≤ page.2)⟩
        else growPages t wantRows fuel (min (rows * 8) reader.rowLimit)

/-- `fetchTemplatePipelineEntries`.  Without a usable bound the match is read unsorted up to
the cap. -/
def fetchTemplatePipelineEntries (wantRows : Nat) : Option (Fetched E) :=
  if wantRows = 0 ∨ reader.rowLimit < wantRows then
    (backend.served plan).bind fun query =>
      (reader.scan plan [] (reader.room t 0)
        ((backend.streamed query t).take reader.rowLimit)).map
          fun page => ⟨page.1, decide (reader.rowLimit ≤ page.2)⟩
  else reader.growPages plan backend direction t wantRows (reader.rowLimit + 1) wantRows

/-- Nothing but the pages decides what is read: a query is answered, no line is longer than
the scanner's buffer, the shared budget has room for every page, and no two rows have one
time. -/
structure Undisturbed (query : String) : Prop where
  served : backend.served plan = some query
  lines : ∀ row ∈ backend.stored, ∀ row', backend.answer query row = some row' →
    row'.line ≠ .overlong
  room : ∀ t n, (((backend.matching direction query t).take n).filterMap
    (reader.survivor plan)).length ≤ reader.room t n
  distinct : backend.stored.Pairwise fun a b => a.time ≠ b.time

/-- The survivors among the first `n` rows of a span. -/
def pageOf (query : String) (t : Int × Int) (n : Nat) : List (TemplateEntry E) :=
  ((backend.matching direction query t).take n).filterMap (reader.survivor plan)

/-- The survivors of a span. -/
def survivors (query : String) (t : Int × Int) : List (TemplateEntry E) :=
  (backend.matching direction query t).filterMap (reader.survivor plan)

variable {reader plan backend direction} {query : String}

/-- A page is the beginning of the rows that survive. -/
theorem pageOf_eq_take (n : Nat) :
    reader.pageOf plan backend direction query t n =
      (reader.survivors plan backend direction query t).take
        (reader.pageOf plan backend direction query t n).length :=
  prefix_iff_eq_take.mp <| IsPrefix.filterMap _ <| take_prefix _ _

theorem length_pageOf_le (n : Nat) :
    (reader.pageOf plan backend direction query t n).length ≤ backend.stored.length :=
  calc (reader.pageOf plan backend direction query t n).length
      ≤ ((backend.matching direction query t).take n).length := length_filterMap_le _ _
    _ ≤ (backend.matching direction query t).length := length_take_le' _ _
    _ ≤ (Row.inSpan backend.stored direction t).length := length_filterMap_le _ _
    _ ≤ backend.stored.length := by
        rw [Row.inSpan, length_insertionSort]
        exact length_filter_le _ _

theorem pageOf_of_length_le {t : Int × Int} {n : Nat}
    (h : (backend.matching direction query t).length ≤ n) :
    reader.pageOf plan backend direction query t n =
      reader.survivors plan backend direction query t := by
  rw [pageOf, take_of_length_le h, survivors]

theorem pairwise_inSpan (h : backend.stored.Pairwise fun a b => a.time ≠ b.time)
    (t : Int × Int) :
    (Row.inSpan backend.stored direction t).Pairwise fun a b => a.time ≠ b.time := by
  have hfilter : (backend.stored.filter (within Row.time t)).Pairwise
      fun a b => a.time ≠ b.time := h.sublist filter_sublist
  exact (List.Perm.pairwise_iff (fun hne => Ne.symm hne) (perm_insertionSort _ _)).mpr hfilter

theorem pairwise_matching (h : backend.stored.Pairwise fun a b => a.time ≠ b.time)
    (t : Int × Int) :
    (backend.matching direction query t).Pairwise fun a b => a.time ≠ b.time := by
  refine List.Pairwise.filterMap _ (fun a b hne a' ha' b' hb' => ?_) (pairwise_inSpan h t)
  rwa [backend.time_answer _ _ _ ha', backend.time_answer _ _ _ hb']

namespace Undisturbed

section

variable (h : Undisturbed reader plan backend direction query) (t : Int × Int)

include h

/-- What one request for a page reads. -/
theorem readPage_eq (n : Nat) :
    reader.readPage plan backend direction t n =
      some (reader.pageOf plan backend direction query t n,
        min n (backend.matching direction query t).length) := by
  have hline : ∀ row ∈ (backend.matching direction query t).take n, row.line ≠ .overlong := by
    intro row hrow
    obtain ⟨row₀, hrow₀, hanswer⟩ := mem_filterMap.mp (mem_of_mem_take hrow)
    exact h.lines row₀ (Row.mem_inSpan.mp hrow₀).1 row hanswer
  have hdistinct : ((backend.matching direction query t).take n).Pairwise
      fun a b => a.time ≠ b.time :=
    (pairwise_matching h.distinct t).sublist (take_sublist n _)
  rw [readPage, h.served, Option.bind_some,
    scan_eq reader plan hline hdistinct (fun _ _ _ hkey => absurd hkey not_mem_nil) (h.room t n),
    length_take, pageOf]

/-- The loop ends with some page: the first one when nothing behind the pushed-down stages
filters; otherwise one with enough survivors, one that has all rows, or one at the cap. -/
theorem growPages_spec (want : Nat) {fuel rows : Nat} (hrows : 0 < rows)
    (hfuel : reader.rowLimit < rows + fuel) (hpos : 0 < fuel) :
    ∃ n, reader.growPages plan backend direction t want fuel rows =
        some ⟨reader.pageOf plan backend direction query t n,
          decide (reader.rowLimit ≤ min n (backend.matching direction query t).length)⟩ ∧
      (plan.suffixDropsRows = false → n = rows) ∧
      (plan.suffixDropsRows = true →
        want ≤ (reader.pageOf plan backend direction query t n).length ∨
        (backend.matching direction query t).length ≤ n ∨
        reader.rowLimit ≤ min n (backend.matching direction query t).length) := by
  induction fuel generalizing rows with
  | zero => exact absurd hpos (Nat.lt_irrefl 0)
  | succ fuel ih =>
    rw [growPages, h.readPage_eq, Option.bind_some]
    split
    · rename_i hstop
      refine ⟨rows, rfl, fun _ => rfl, fun hdrops => ?_⟩
      rw [hdrops] at hstop
      simp only [Bool.true_eq_false, false_or] at hstop
      omega
    · rename_i hgo
      simp only [not_or, Nat.not_le, Nat.not_lt, Bool.not_eq_false] at hgo
      obtain ⟨hdrops, -, -, hbelow⟩ := hgo
      have hgrown : 0 < min (rows * 8) reader.rowLimit := by omega
      obtain ⟨n, hn, -, henough⟩ := ih hgrown (by omega) (by omega)
      refine ⟨n, hn, fun hnot => ?_, henough⟩
      rw [hdrops] at hnot
      exact absurd hnot.symm Bool.false_ne_true

/-- What one window gives when it is asked for `want` entries. -/
theorem fetchPages_spec (want : Nat) :
    ∃ n capped, (plan.suffixDropsRows = false → n = want) ∧ (0 < want → want ≤ reader.rowLimit →
      reader.fetchTemplatePipelineEntries plan backend direction t want =
        some ⟨(reader.survivors plan backend direction query t).take
          (reader.pageOf plan backend direction query t n).length, capped⟩ ∧
      (plan.suffixDropsRows = true → capped = true ∨
        min (reader.survivors plan backend direction query t).length want ≤
          (reader.pageOf plan backend direction query t n).length)) := by
  rcases Nat.eq_zero_or_pos want with rfl | hwant
  · exact ⟨0, false, fun _ => rfl, fun h0 => absurd h0 (Nat.lt_irrefl 0)⟩
  have hfuel : reader.rowLimit < want + (reader.rowLimit + 1) := by omega
  obtain ⟨n, hn, hfirst, henough⟩ := h.growPages_spec t want hwant hfuel (Nat.succ_pos _)
  refine ⟨n, decide (reader.rowLimit ≤ min n (backend.matching direction query t).length), hfirst,
    fun _ hlimit => ⟨?_, fun hdrops => ?_⟩⟩
  · rw [fetchTemplatePipelineEntries, if_neg (by omega), hn, ← pageOf_eq_take]
  · rcases henough hdrops with hmany | hall | hcap
    · exact .inr (Nat.le_trans (Nat.min_le_right _ _) hmany)
    · rw [pageOf_of_length_le hall]
      exact .inr (Nat.min_le_left _ _)
    · exact .inl (decide_eq_true hcap)

end

end Undisturbed

/-! ## The windows of a range -/

section Windows

variable (reader plan backend direction)

/-- The loop of `fetchTemplatePipelineEntriesSplit`, `parallel` windows at a time. -/
def fetchBatches (parallel limit : Nat) :
    Nat → List (Int × Int) → Fetched E → Option (Fetched E)
  | 0, _, collected => some collected
  | fuel + 1, windows, collected =>
      if windows = [] ∨ limit ≤ collected.entries.length then some collected
      else
        ((windows.take parallel).mapM fun t =>
          reader.fetchTemplatePipelineEntries plan backend direction t
            (limit - collected.entries.length)).bind fun results =>
              fetchBatches parallel limit fuel (windows.drop parallel)
                ⟨collected.entries ++ results.flatMap Fetched.entries,
                  collected.capped || results.any Fetched.capped⟩

/-- What the first rows of the windows are enough for: of every window, the survivors that
are still needed are among as many of its first rows as were missing when its batch began. -/
def PagesSuffice (parallel limit : Nat) (query : String) (windows : List (Int × Int)) : Prop :=
  GaveEnough parallel (reader.survivors plan backend direction query)
    (fun t asked => (reader.pageOf plan backend direction query t asked).length)
    windows.length limit windows
  deriving Decidable

variable {reader plan backend direction}

theorem mapM_eq_some_map {α β : Type} {f : α → Option β} {g : α → β} {l : List α}
    (h : ∀ a ∈ l, f a = some (g a)) : l.mapM f = some (l.map g) := by
  induction l with
  | nil => rfl
  | cons a l ih =>
    rw [mapM_cons, h a (by simp), ih fun b hb => h b (mem_cons_of_mem _ hb)]
    rfl

/-- What the batches collect, and that the pages reach far enough when they grow and none of
them reached the cap. -/
theorem fetchBatches_spec {limit parallel : Nat} (hlimit : limit ≤ reader.rowLimit)
    {f : Int × Int → List (TemplateEntry E)} {cut : Int × Int → Nat → Nat}
    {capped : Int × Int → Nat → Bool}
    (hpage : ∀ t want, 0 < want → want ≤ reader.rowLimit →
      reader.fetchTemplatePipelineEntries plan backend direction t want =
        some ⟨(f t).take (cut t want), capped t want⟩ ∧
      (plan.suffixDropsRows = true → capped t want = true ∨ min (f t).length want ≤ cut t want))
    (fuel : Nat) (windows : List (Int × Int)) (collected : Fetched E) :
    ∃ out, reader.fetchBatches plan backend direction parallel limit fuel windows collected =
        some out ∧
      out.entries = collected.entries ++ batchRead parallel (fun t want => (f t).take (cut t want))
        fuel (limit - collected.entries.length) windows ∧
      (out.capped = false → collected.capped = false ∧ (plan.suffixDropsRows = true →
        GaveEnough parallel f cut fuel (limit - collected.entries.length) windows)) := by
  induction fuel generalizing windows collected with
  | zero => exact ⟨collected, rfl, by simp [batchRead], fun h => ⟨h, fun _ => trivial⟩⟩
  | succ fuel ih =>
    rw [fetchBatches]
    by_cases hstop : windows = [] ∨ limit ≤ collected.entries.length
    · have hstop' : windows = [] ∨ limit - collected.entries.length = 0 := by
        rwa [Nat.sub_eq_zero_iff_le]
      refine ⟨collected, if_pos hstop, ?_, fun h => ⟨h, fun _ => ?_⟩⟩
      · rw [batchRead, if_pos hstop', append_nil]
      · rcases hstop' with rfl | hnone
        · exact gaveEnough_nil _ _
        · rw [hnone]
          exact gaveEnough_zero _ _
    · have hstop' : ¬ (windows = [] ∨ limit - collected.entries.length = 0) := by
        rwa [Nat.sub_eq_zero_iff_le]
      have hmissing : 0 < limit - collected.entries.length := by
        rw [not_or] at hstop'
        exact Nat.pos_of_ne_zero hstop'.2
      generalize hm : limit - collected.entries.length = missing at hstop' hmissing ⊢
      have hread := fun t => hpage t missing hmissing (by omega)
      rw [if_neg hstop, mapM_eq_some_map fun t _ => (hread t).1, Option.bind_some]
      rw [flatMap_map]
      obtain ⟨out, hout, hentries, henough⟩ := ih (windows.drop parallel) _
      refine ⟨out, hout, ?_, fun hcap => ?_⟩
      · rw [hentries, batchRead, if_neg hstop', append_assoc, length_append,
          ← Nat.sub_sub, hm]
      · obtain ⟨hcaps, hrest⟩ := henough hcap
        rw [Bool.or_eq_false_iff, any_eq_false] at hcaps
        refine ⟨hcaps.1, fun hdrops => ?_⟩
        have hgave : Along (fun t => (f t).length)
            (fun left t => min (f t).length left ≤ cut t missing) missing (windows.take parallel) := by
          refine Along.of_forall fun left hleft t ht => ?_
          rcases (hread t).2 hdrops with hcapped | hmany
          · exact absurd hcapped (hcaps.2 _ (mem_map_of_mem ht))
          · omega
        refine ⟨hgave, ?_⟩
        have hnext := hrest hdrops
        rw [length_append, ← Nat.sub_sub, hm] at hnext
        -- the next batch is asked for what is missing, unless nothing is
        rcases Nat.lt_or_ge ((windows.take parallel).map fun t => (f t).length).sum missing
          with hlt | hge
        · rwa [flatMap_short_eq hgave (by rwa [length_flatMap]), length_flatMap] at hnext
        · rw [Nat.sub_eq_zero_of_le hge]
          exact gaveEnough_zero _ _

end Windows

end TemplateReader

/-! ## A template log query -/

/-- `strings.EqualFold(direction, "forward")`. -/
def isForward (direction : String) : Bool :=
  direction.toList.map Char.toLower == "forward".toList

/-- The direction of the sort pipe and of the last sort. -/
def sortDirection (direction : String) : String :=
  if isForward direction then "forward" else "backward"

structure TemplateWindowing where
  queryRangeWindowing : Bool
  streamResponse : Bool
  queryRangeSplitInterval : Int64
  queryRangeAlignWindows : Bool
  queryRangeMaxParallel : Int

structure TemplateRequest where
  startNs : Int64
  endNs : Int64
  direction : String
  limit : Nat

def TemplateRequest.range (req : TemplateRequest) : Int × Int :=
  (req.startNs.toInt, req.endNs.toInt)

namespace TemplateWindowing

variable (config : TemplateWindowing) (req : TemplateRequest)

def parallel : Nat := (max config.queryRangeMaxParallel 1).toNat

/-- The windows the range is split into; `none` is the panic of the splitter. -/
def windows : Option (List Window) :=
  if config.queryRangeWindowing ∧ ¬ config.streamResponse then
    Window.splitQueryRangeWindowsWithOptions req.startNs req.endNs config.queryRangeSplitInterval
      req.direction config.queryRangeAlignWindows
  else some []

end TemplateWindowing

/-- The spans that are read: the windows, or the whole range when there are not at least two. -/
def TemplateRequest.spans (req : TemplateRequest) (windows : List Window) : List (Int × Int) :=
  if windows.length ≤ 1 then [req.range] else windows.map Window.span

section Query

variable {E : Type} (config : TemplateWindowing) (reader : TemplateReader E)
  (plan : TemplatePlan E) (backend : TemplateBackend) (req : TemplateRequest)

def fetchTemplatePipelineEntriesSplit : Option (TemplateReader.Fetched E) :=
  (config.windows req).bind fun windows =>
    if windows.length ≤ 1 then
      reader.fetchTemplatePipelineEntries plan backend (sortDirection req.direction) req.range
        req.limit
    else
      reader.fetchBatches plan backend (sortDirection req.direction) config.parallel req.limit
        windows.length (windows.map Window.span) ⟨[], false⟩

/-- The sort and truncation of `proxyTemplateLogQuery`. -/
def sortAndTruncate (direction : String) (limit : Nat) (entries : List (TemplateEntry E)) :
    List (TemplateEntry E) :=
  let sorted := entries.insertionSort fun a b =>
    if isForward direction then a.ts ≤ b.ts else b.ts ≤ a.ts
  if limit = 0 then sorted else sorted.take limit

variable {config reader plan backend req}

theorem TemplateReader.fetchBatches_singleton {direction : String} {parallel limit : Nat}
    (hpar : 0 < parallel) (hlimit : 0 < limit) (t : Int × Int) :
    reader.fetchBatches plan backend direction parallel limit 1 [t] ⟨[], false⟩ =
      reader.fetchTemplatePipelineEntries plan backend direction t limit := by
  obtain ⟨parallel, rfl⟩ : ∃ p, parallel = p + 1 := ⟨parallel - 1, by omega⟩
  have hgo : ¬ ([t] = [] ∨ limit ≤ 0) := by simp; omega
  rw [TemplateReader.fetchBatches, length_nil, if_neg hgo, Nat.sub_zero, take_succ_cons,
    take_nil, mapM_cons]
  cases reader.fetchTemplatePipelineEntries plan backend direction t limit with
  | none => rfl
  | some out => simp [TemplateReader.fetchBatches]

theorem TemplateWindowing.parallel_pos (config : TemplateWindowing) : 0 < config.parallel := by
  rw [TemplateWindowing.parallel]
  omega

variable {windows : List Window}

/-- The split fetch reads the windows in batches. -/
theorem fetchSplit_eq (hwindows : config.windows req = some windows) (hlimit : 0 < req.limit) :
    fetchTemplatePipelineEntriesSplit config reader plan backend req =
      reader.fetchBatches plan backend (sortDirection req.direction) config.parallel req.limit
        (req.spans windows).length (req.spans windows) ⟨[], false⟩ := by
  rw [fetchTemplatePipelineEntriesSplit, hwindows, Option.bind_some, TemplateRequest.spans]
  split
  · exact (TemplateReader.fetchBatches_singleton config.parallel_pos hlimit req.range).symm
  · rw [length_map]

variable (reader plan backend) in
/-- The survivors of the spans, one span after the other, are those of the range. -/
theorem flatMap_spans (hwindows : config.windows req = some windows)
    (hwhole : windows.length ≤ 1 ∨ ∃ w ∈ windows, w.endNs = req.endNs)
    (hdirection : isForward req.direction = true → req.direction = "forward") (query : String) :
    (req.spans windows).flatMap
        (reader.survivors plan backend (sortDirection req.direction) query) =
      reader.survivors plan backend (sortDirection req.direction) query req.range := by
  rw [TemplateRequest.spans]
  split
  · simp
  · rename_i hmany
    obtain ⟨inOrder, htiles, hordered⟩ : ∃ inOrder : List Window,
        Tiles req.startNs.toInt req.endNs.toInt (inOrder.map Window.span) ∧
        windows = if req.direction = "forward" then inOrder else inOrder.reverse := by
      rw [TemplateWindowing.windows] at hwindows
      split at hwindows
      · exact Window.tiles_split hwindows (hwhole.resolve_left hmany)
      · obtain rfl := Option.some.inj hwindows
        exact absurd (Nat.zero_le 1) hmany
    have hsame : sortDirection req.direction = "forward" ↔ req.direction = "forward" := by
      rw [sortDirection]
      constructor
      · intro h
        split at h
        · exact hdirection ‹_›
        · exact absurd h (by decide)
      · intro h
        rw [if_pos (by rw [h]; decide)]
    have hspans : windows.map Window.span =
        if sortDirection req.direction = "forward" then inOrder.map Window.span
        else (inOrder.map Window.span).reverse := by
      rw [hordered]
      by_cases h : req.direction = "forward"
      · rw [if_pos h, if_pos (hsame.mpr h)]
      · rw [if_neg h, if_neg (fun h' => h (hsame.mp h')), map_reverse]
    rw [hspans, TemplateReader.survivors, TemplateBackend.matching, TemplateRequest.range,
      Row.inSpan_eq_flatMap _ _ htiles, filterMap_flatMap, filterMap_flatMap]
    rfl

variable (reader plan backend req) in
/-- The entries of a span are in the order of the last sort, and no two are equal. -/
theorem pairwise_survivors (query : String)
    (hdistinct : backend.stored.Pairwise fun a b => a.time ≠ b.time)
    (htimes : ∀ row ∈ backend.stored, 10 ^ 12 ≤ row.time) (t : Int × Int) :
    (reader.survivors plan backend (sortDirection req.direction) query t).Pairwise fun a b =>
      (if isForward req.direction then a.ts ≤ b.ts else b.ts ≤ a.ts) ∧ a ≠ b := by
  have hsorted : (Row.inSpan backend.stored (sortDirection req.direction) t).Pairwise
      (Row.Before (sortDirection req.direction)) := pairwise_insertionSort _ _
  have hrows : (Row.inSpan backend.stored (sortDirection req.direction) t).Pairwise fun a b =>
      (Row.Before (sortDirection req.direction) a b ∧ a.time ≠ b.time) ∧
        (10 ^ 12 ≤ a.time ∧ 10 ^ 12 ≤ b.time) := by
    refine (hsorted.and (TemplateReader.pairwise_inSpan hdistinct t)).and ?_
    refine pairwise_of_forall_mem_list fun a ha b hb => ⟨?_, ?_⟩
    · exact htimes a (Row.mem_inSpan.mp ha).1
    · exact htimes b (Row.mem_inSpan.mp hb).1
  rw [TemplateReader.survivors, TemplateBackend.matching, filterMap_filterMap]
  refine List.Pairwise.filterMap _ (fun a b hab x hx y hy => ?_) hrows
  obtain ⟨⟨hbefore, hne⟩, hlow, hlow'⟩ := hab
  have hts : ∀ (row : Row) (e : TemplateEntry E), 10 ^ 12 ≤ row.time →
      (backend.answer query row).bind (reader.survivor plan) = some e → e.ts = row.time := by
    intro row e hrow he
    obtain ⟨row', hanswer, hsurvivor⟩ := Option.bind_eq_some_iff.mp he
    rw [TemplateReader.survivor] at hsurvivor
    split at hsurvivor
    · obtain ⟨e', -, rfl⟩ := Option.map_eq_some_iff.mp hsurvivor
      rw [vlRowTimestampNanos, backend.time_answer _ _ _ hanswer, if_neg (Int.not_lt.mpr hrow)]
    · exact absurd hsurvivor (Option.some_ne_none e).symm
  have hx' := hts a x hlow hx
  have hy' := hts b y hlow' hy
  refine ⟨?_, fun heq => hne (by rw [← hx', ← hy', heq])⟩
  rw [Row.Before, sortDirection] at hbefore
  rw [hx', hy']
  cases hforward : isForward req.direction with
  | true | false => simpa [hforward] using hbefore

/-- When no read reached the raw-row cap, the entries are the first ones that survive exactly
when the pages grow, or reach far enough as they are. -/
theorem templateEntries_first_iff {query : String}
    (h : TemplateReader.Undisturbed reader plan backend (sortDirection req.direction) query)
    (htimes : ∀ row ∈ backend.stored, 10 ^ 12 ≤ row.time) {windows : List Window}
    (hwindows : config.windows req = some windows)
    (hwhole : windows.length ≤ 1 ∨ ∃ w ∈ windows, w.endNs = req.endNs)
    (hdirection : isForward req.direction = true → req.direction = "forward")
    (hlimit : 1 ≤ req.limit) (hlimit' : req.limit ≤ reader.rowLimit) :
    ∃ out, fetchTemplatePipelineEntriesSplit config reader plan backend req = some out ∧
      (out.capped = false →
        (sortAndTruncate req.direction req.limit out.entries =
            (reader.survivors plan backend (sortDirection req.direction) query req.range).take
              req.limit ↔
          plan.suffixDropsRows = true ∨
            reader.PagesSuffice plan backend (sortDirection req.direction) config.parallel
              req.limit query (req.spans windows))) := by
  choose page capped hfirst hpage using fun t want => h.fetchPages_spec t want
  obtain ⟨out, hout, hentries, hgrown⟩ := TemplateReader.fetchBatches_spec hlimit' hpage
    (req.spans windows).length (req.spans windows) ⟨[], false⟩
  refine ⟨out, (fetchSplit_eq hwindows hlimit).trans hout, fun hcap => ?_⟩
  have hall := flatMap_spans reader plan backend hwindows hwhole hdirection query
  have hpairs := pairwise_survivors reader plan backend req query h.distinct htimes req.range
  rw [nil_append, length_nil, Nat.sub_zero] at hentries
  -- what is collected is already in the order of the last sort
  have hsub : out.entries.Sublist
      (reader.survivors plan backend (sortDirection req.direction) query req.range) := by
    rw [hentries, ← hall]
    exact batchRead_sublist _ _ _
  have hsorted := ((hpairs.imp fun hab => hab.1).sublist hsub).insertionSort_eq
  have hnodup : ((req.spans windows).flatMap
      (reader.survivors plan backend (sortDirection req.direction) query)).Nodup := by
    rw [hall]
    exact hpairs.imp fun hab => hab.2
  rw [sortAndTruncate, hsorted, if_neg (by omega), hentries, ← hall,
    take_batchRead_iff config.parallel_pos (Nat.le_refl _) hnodup]
  cases hdrops : plan.suffixDropsRows with
  | true =>
    have hgave := (hgrown hcap).2 hdrops
    exact iff_of_true hgave (.inl rfl)
  | false =>
    have hpages : page = fun _ want => want := by
      funext t want
      exact hfirst t want hdrops
    rw [hpages, TemplateReader.PagesSuffice]
    simp

end Query

/-! ## A filter that was not pushed down -/

/-- A label filter in front of a template: the pushed-down query is the filter, the other one
has no filter at all. -/
def filteredPlan : TemplatePlan String where
  stages := [⟨.labelFilter, false, fun e => if e = "kept" then some e else none,
      fun h => absurd h (by decide)⟩,
    ⟨.lineFormat, true, some, fun _ _ => rfl⟩]
  baseLogsQL := "filter"
  fallbackLogsQL := "*"

/-- Two rows, of which the filter keeps the older one. -/
def twoRows (accepts : String → Bool) : TemplateBackend where
  stored := [⟨10 ^ 12, "kept", .usable⟩, ⟨10 ^ 12 + 1500, "dropped", .usable⟩]
  accepts := accepts
  answer := fun query row => if query = "filter" ∧ row.record ≠ "kept" then none else some row
  time_answer := fun query row row' h => by
    split at h
    · exact absurd h (Option.some_ne_none row').symm
    · exact congrArg Row.time (Option.some.inj h).symm
  streamed := fun _ _ => []

def plainReader : TemplateReader String where
  rangeMetricRowLimit := 10
  dedupeExactDuplicates := true
  entryOf := Row.record
  room := fun _ _ => 2

theorem undisturbed_twoRows {accepts : String → Bool} {direction query : String}
    (hserved : (twoRows accepts).served filteredPlan = some query) :
    TemplateReader.Undisturbed plainReader filteredPlan (twoRows accepts) direction query where
  served := hserved
  lines := by
    intro row hrow row' hanswer
    have husable : row.line = .usable := by
      have hall : ∀ row ∈ (twoRows accepts).stored, row.line = .usable := by simp [twoRows]
      exact hall row hrow
    simp only [twoRows] at hanswer
    split at hanswer
    · exact absurd hanswer (Option.some_ne_none row').symm
    · rw [← Option.some.inj hanswer, husable]
      decide
  room := fun t n => TemplateReader.length_pageOf_le t n
  distinct := by simp [twoRows]

def halfSplit : TemplateWindowing := ⟨true, false, 1000, false, 1⟩

def newestOne : TemplateRequest := ⟨1000000000000, 1000000001999, "backward", 1⟩

/-- Two windows, read one after the other, with the filter pushed down. -/
theorem templateEntries_first_twoWindows :
    ∃ out, fetchTemplatePipelineEntriesSplit halfSplit plainReader filteredPlan
        (twoRows fun _ => true) newestOne = some out ∧
      (out.capped = false →
        (sortAndTruncate "backward" 1 out.entries =
            (plainReader.survivors filteredPlan (twoRows fun _ => true) "backward" "filter"
              newestOne.range).take 1 ↔
          filteredPlan.suffixDropsRows = true ∨
            plainReader.PagesSuffice filteredPlan (twoRows fun _ => true) "backward" 1 1 "filter"
              [(1000000001000, 1000000001999), (1000000000000, 1000000000999)])) := by
  have hquiet : TemplateReader.Undisturbed plainReader filteredPlan (twoRows fun _ => true)
      (sortDirection newestOne.direction) "filter" := undisturbed_twoRows (by decide)
  have hwindows : halfSplit.windows newestOne =
      some [⟨1000000001000, 1000000001999⟩, ⟨1000000000000, 1000000000999⟩] := by decide +kernel
  exact templateEntries_first_iff hquiet (by decide) hwindows (by decide) (by decide) (by decide)
    (by decide)

/-- The filter was not pushed down, so the newest row is read and dropped, and nothing more is
read. -/
theorem not_templateEntries_first :
    ¬ ∀ (accepts : String → Bool) (config : TemplateWindowing) (req : TemplateRequest)
        (query : String) (out : TemplateReader.Fetched String),
      TemplateReader.Undisturbed plainReader filteredPlan (twoRows accepts)
        (sortDirection req.direction) query →
      1 ≤ req.limit → req.limit ≤ plainReader.rowLimit →
      fetchTemplatePipelineEntriesSplit config plainReader filteredPlan (twoRows accepts) req =
        some out → out.capped = false →
      sortAndTruncate req.direction req.limit out.entries =
        (plainReader.survivors filteredPlan (twoRows accepts) (sortDirection req.direction) query
          req.range).take req.limit := by
  intro h
  have hfirst := h (fun query => query == "*") ⟨false, false, 0, false, 1⟩ newestOne "*" ⟨[], false⟩
    (undisturbed_twoRows (by decide)) (by decide) (by decide) (by rfl) rfl
  exact absurd (congrArg List.length hfirst) (by decide +kernel)

end LokiVlProxy.Proxy
