/-
  Proxy/WindowRows.lean --- the rows of a window, as the backend sends them and as the
  proxy reads them.

  Source: internal/proxy/query_range_windowing.go: withQueryDirectionSort,
  vlLogsToLokiWindowEntriesStream; internal/proxy/loki_record.go: rowDedup.

  The backend sorts the matching rows of a window by time in the direction of the request
  and sends the first `limit` of them, one line each.
-/
import LokiVlProxy.Proxy.QueryWindows

namespace LokiVlProxy.Proxy

open Foundation List

/-- How the scanner takes the line of a row: it makes an entry of it; it skips it (not
JSON, no usable `_time`, over the line size limit); or the line is longer than the
scanner's buffer, and the scan ends there. -/
inductive LineKind where
  | usable
  | skipped
  | overlong
  deriving DecidableEq, Repr

/-- A stored row.  `record` is everything in it but `_stream_id`: rows that agree in it are
exact duplicates. -/
structure Row where
  time : Int
  record : String
  line : LineKind
  deriving DecidableEq, Repr

namespace Row

/-- `vlLogsToLokiWindowEntriesStream`, with the records seen so far.  `dedupe` is
`-dedupe-exact-duplicates`. -/
def scan (dedupe : Bool) (seen : List String) : List Row → List Row
  | [] => []
  | row :: rows =>
      match row.line with
      | .overlong => []
      | .skipped => scan dedupe seen rows
      | .usable =>
          if dedupe ∧ row.record ∈ seen then scan dedupe seen rows
          else row :: scan dedupe (row.record :: seen) rows

/-- Every row makes an entry: all lines are usable, and there are no duplicates to leave
out. -/
structure AllKept (dedupe : Bool) (rows : List Row) : Prop where
  usable : ∀ row ∈ rows, row.line = .usable
  distinct : dedupe = true → (rows.map record).Nodup

instance (dedupe : Bool) (rows : List Row) : Decidable (AllKept dedupe rows) :=
  decidable_of_iff ((∀ row ∈ rows, row.line = .usable) ∧ (dedupe = true → (rows.map record).Nodup))
    ⟨fun h => ⟨h.1, h.2⟩, fun h => ⟨h.usable, h.distinct⟩⟩

variable {rows : List Row}

theorem AllKept.sublist {dedupe : Bool} {rows' : List Row} (h : AllKept dedupe rows)
    (hs : rows'.Sublist rows) : AllKept dedupe rows' where
  usable := fun row hrow => h.usable row (hs.subset hrow)
  distinct := fun hd => (h.distinct hd).sublist (hs.map record)

theorem scan_append {dedupe : Bool} (h : AllKept dedupe rows) (seen : List String)
    (hnew : dedupe = true → ∀ row ∈ rows, row.record ∉ seen) (more : List Row) :
    ∃ seen', scan dedupe seen (rows ++ more) = rows ++ scan dedupe seen' more := by
  induction rows generalizing seen with
  | nil => exact ⟨seen, rfl⟩
  | cons row rows ih =>
    have hfresh : ¬ (dedupe = true ∧ row.record ∈ seen) := fun hdup =>
      hnew hdup.1 row (by simp) hdup.2
    have hnew' : dedupe = true → ∀ row' ∈ rows, row'.record ∉ row.record :: seen := by
      intro hd row' hrow' hmem
      have hnodup := h.distinct hd
      rw [map_cons, nodup_cons] at hnodup
      rcases mem_cons.mp hmem with heq | hseen
      · exact hnodup.1 (heq ▸ mem_map_of_mem hrow')
      · exact hnew hd row' (mem_cons_of_mem _ hrow') hseen
    obtain ⟨seen', hrest⟩ := ih (h.sublist (sublist_cons_self row rows)) _ hnew'
    refine ⟨seen', ?_⟩
    rw [cons_append, scan, h.usable row (by simp)]
    simp only [if_neg hfresh, hrest, cons_append]

/-! ## The direction of a request -/

/-- The order of `withQueryDirectionSort`. -/
def Before (direction : String) (a b : Row) : Prop :=
  if direction = "forward" then a.time ≤ b.time else b.time ≤ a.time
  deriving Decidable

instance (direction : String) : Std.Total (Before direction) where
  total := fun a b => by
    unfold Before
    split <;> omega

instance (direction : String) : IsTrans Row (Before direction) where
  trans := fun a b c hab hbc => by
    unfold Before at *
    split at hab <;> simp_all <;> omega

/-- The rows within a span of time, sorted in the direction of the request. -/
def inSpan (rows : List Row) (direction : String) (t : Int × Int) : List Row :=
  (rows.filter (within time t)).insertionSort (Before direction)

theorem mem_inSpan {direction : String} {t : Int × Int} {row : Row} :
    row ∈ inSpan rows direction t ↔ row ∈ rows ∧ t.1 ≤ row.time ∧ row.time ≤ t.2 := by
  rw [inSpan, mem_insertionSort, mem_filter, within_iff]

theorem filter_inSpan (rows : List Row) (direction : String) {a b : Int} {t : Int × Int}
    (ha : a ≤ t.1) (hb : t.2 ≤ b) :
    (inSpan rows direction (a, b)).filter (within time t) = inSpan rows direction t := by
  rw [inSpan, filter_insertionSort, filter_filter, inSpan]
  congr 1
  refine filter_congr fun row _ => ?_
  rw [Bool.eq_iff_iff, Bool.and_eq_true, within_iff, within_iff]
  constructor
  · exact fun h => h.1
  · intro h
    refine ⟨h, ?_, ?_⟩ <;> simp only <;> omega

/-- The rows of a range are those of its windows, one window after the other in the
direction of the request. -/
theorem inSpan_eq_flatMap (rows : List Row) (direction : String) {a b : Int}
    {ts : List (Int × Int)} (ht : Tiles a b ts) :
    inSpan rows direction (a, b) =
      (if direction = "forward" then ts else ts.reverse).flatMap (inSpan rows direction) := by
  have hsorted : (inSpan rows direction (a, b)).Pairwise (Before direction) :=
    pairwise_insertionSort _ _
  have hin : ∀ row ∈ inSpan rows direction (a, b), a ≤ row.time ∧ row.time ≤ b :=
    fun row hrow => (mem_inSpan.mp hrow).2
  have hparts : ∀ ts' : List (Int × Int), (∀ t ∈ ts', t ∈ ts) →
      (ts'.flatMap fun t => (inSpan rows direction (a, b)).filter (within time t)) =
        ts'.flatMap (inSpan rows direction) := by
    intro ts' hsub
    refine flatMap_congr fun t htmem => ?_
    obtain ⟨hlo, -, hhi⟩ := ht.bounds (hsub t htmem)
    exact filter_inSpan rows direction hlo hhi
  by_cases hdir : direction = "forward"
  · have hasc : (inSpan rows direction (a, b)).Pairwise fun x y => x.time ≤ y.time :=
      hsorted.imp fun {x y} hxy => by simpa [Before, hdir] using hxy
    rw [if_pos hdir, ← hparts ts fun _ h => h]
    exact eq_flatMap_tiles hasc hin ht
  · have hdesc : (inSpan rows direction (a, b)).Pairwise fun x y => y.time ≤ x.time :=
      hsorted.imp fun {x y} hxy => by simpa [Before, hdir] using hxy
    rw [if_neg hdir, ← hparts ts.reverse fun _ h => mem_reverse.mp h]
    exact eq_flatMap_tiles_reverse hdesc hin ht

end Row

/-- The rows of a window in the direction of the request. -/
def Window.rows (stored : List Row) (direction : String) (w : Window) : List Row :=
  Row.inSpan stored direction w.span

/-- The entries made of the first `limit` rows of a window. -/
def Window.entries (dedupe : Bool) (stored : List Row) (direction : String) (w : Window)
    (limit : Nat) : List Row :=
  Row.scan dedupe [] ((w.rows stored direction).take limit)

variable {direction : String}

/-- Where the first `r` rows of a window are all kept, they are the first `r` entries of
every fetch that asks for as many of them as there are. -/
theorem Window.take_entries {dedupe : Bool} {stored : List Row} {w : Window} {r limit : Nat}
    (hle : min (w.rows stored direction).length r ≤ limit)
    (h : Row.AllKept dedupe ((w.rows stored direction).take r)) :
    (w.entries dedupe stored direction limit).take r = (w.rows stored direction).take r := by
  rw [entries]
  generalize w.rows stored direction = rows at *
  have hsplit : rows.take limit = rows.take r ++ (rows.take limit).drop r := by
    conv_lhs => rw [← take_append_drop r (rows.take limit)]
    rw [take_take]
    congr 1
    exact take_eq_take_iff.mpr (by omega)
  obtain ⟨seen, hscan⟩ := Row.scan_append h [] (fun _ _ _ => not_mem_nil)
    ((rows.take limit).drop r)
  rw [hsplit, hscan]
  rcases Nat.lt_or_ge rows.length r with hshort | hlong
  · -- the window has fewer rows than that: nothing follows them
    have hnone : (rows.take limit).drop r = [] := by
      rw [drop_eq_nil_iff, length_take]
      omega
    rw [hnone, Row.scan, append_nil, take_take, Nat.min_self]
  · refine take_left' ?_
    rw [length_take, Nat.min_eq_left hlong]

/-- None of the first `budget` rows of the windows, taken in their order, is left out by the
scan of its window. -/
def KeptUpTo (dedupe : Bool) (stored : List Row) (direction : String) :
    Nat → List Window → Prop :=
  Along (fun w => (w.rows stored direction).length) fun budget w =>
    Row.AllKept dedupe ((w.rows stored direction).take budget)

instance (dedupe : Bool) (stored : List Row) (direction : String) (budget : Nat)
    (windows : List Window) : Decidable (KeptUpTo dedupe stored direction budget windows) :=
  Along.decidable budget windows

theorem KeptUpTo.of_forall {dedupe : Bool} {stored : List Row} {windows : List Window}
    {budget : Nat} (h : ∀ w ∈ windows, Row.AllKept dedupe ((w.rows stored direction).take budget)) :
    KeptUpTo dedupe stored direction budget windows :=
  Along.of_forall fun _ hle w hw => (h w hw).sublist (take_sublist_take_left hle)

end LokiVlProxy.Proxy
