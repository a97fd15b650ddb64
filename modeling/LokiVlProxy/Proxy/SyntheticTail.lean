/-
  Proxy/SyntheticTail.lean --- the tail that polls.

  Source: internal/proxy/tail.go: streamSyntheticTail, writeSyntheticTailBatch,
  newSyntheticTailSeen, syntheticTailSeen.

  Where the backend has no tail endpoint, the proxy asks for the oldest rows from
  `windowStart` on, two hundred at a time, sends what it has not sent before, and moves
  `windowStart` one nanosecond past the newest row it sent, or past itself when there was
  none.
-/
import Mathlib
import LokiVlProxy.Foundation.Run
import LokiVlProxy.Foundation.Text

namespace LokiVlProxy.Proxy

open Foundation List Option

/-! ## The rows already sent -/

def maxSyntheticTailSeenEntries : Nat := 4096

/-- `syntheticTailSeen`: the keys seen, and the order they came in.  The two agree, and no
key is in the order twice. -/
structure SyntheticTailSeen where
  seen : List Text
  order : List Text
  limit : Nat
  agree : ∀ key, key ∈ seen ↔ key ∈ order
  nodup : order.Nodup

namespace SyntheticTailSeen

/-- `newSyntheticTailSeen`. -/
def new (limit : Nat) : SyntheticTailSeen where
  seen := []
  order := []
  limit := if limit = 0 then maxSyntheticTailSeenEntries else limit
  agree := fun _ => Iff.rfl
  nodup := nodup_nil

variable (s : SyntheticTailSeen)

def contains (key : Text) : Bool := s.seen.contains key

variable {s : SyntheticTailSeen} {key : Text}

@[simp] theorem contains_iff : s.contains key = true ↔ key ∈ s.order := by
  rw [contains, contains_iff_mem, s.agree]

theorem nodup_order_concat (h : ¬ s.contains key = true) : (s.order ++ [key]).Nodup := by
  have hnew : key ∉ s.order := fun hmem => h (contains_iff.mpr hmem)
  exact nodup_append.mpr ⟨s.nodup, nodup_singleton key, fun a ha b hb hab =>
    hnew (mem_singleton.mp hb ▸ hab ▸ ha)⟩

theorem mem_filter_take {seen order : List Text} (hagree : ∀ key, key ∈ seen ↔ key ∈ order)
    (hnodup : order.Nodup) (drop : Nat) (key : Text) :
    key ∈ seen.filter (fun k => !(order.take drop).contains k) ↔ key ∈ order.drop drop := by
  have hdisj : List.Disjoint (order.take drop) (order.drop drop) := by
    rw [← take_append_drop drop order] at hnodup
    exact (nodup_append'.mp hnodup).2.2
  have hsplit : key ∈ order ↔ key ∈ order.take drop ∨ key ∈ order.drop drop := by
    rw [← mem_append, take_append_drop]
  rw [mem_filter, hagree, hsplit]
  simp only [Bool.not_eq_true', contains_eq_mem, decide_eq_false_iff_not]
  constructor
  · rintro ⟨hor, hnot⟩
    exact hor.resolve_left hnot
  · intro hmem
    exact ⟨Or.inr hmem, fun htake => hdisj htake hmem⟩

/-- `Add`: the oldest keys go when there are more than `limit`. -/
def add (s : SyntheticTailSeen) (key : Text) : SyntheticTailSeen :=
  if h : s.contains key = true then s
  else
    let order := s.order ++ [key]
    let drop := order.length - s.limit
    { seen := (key :: s.seen).filter fun k => !(order.take drop).contains k
      order := order.drop drop
      limit := s.limit
      agree := mem_filter_take (fun k => by simp [s.agree, or_comm]) (nodup_order_concat h) _
      nodup := (nodup_order_concat h).sublist (drop_sublist _ _) }

/-- Adding a new key drops the oldest ones over the limit. -/
theorem order_add (h : key ∉ s.order) :
    (s.add key).order =
      (s.order ++ [key]).drop ((s.order ++ [key]).length - s.limit) := by
  rw [add, dif_neg (fun hc => h (contains_iff.mp hc))]

@[simp] theorem limit_add (s : SyntheticTailSeen) (key : Text) : (s.add key).limit = s.limit := by
  rw [add]
  split <;> rfl

theorem length_order_add_le (h : s.order.length ≤ s.limit) : (s.add key).order.length ≤ s.limit := by
  by_cases hseen : key ∈ s.order
  · rwa [add, dif_pos (contains_iff.mpr hseen)]
  · rw [order_add hseen, length_drop]
    omega

theorem eq_or_mem_of_mem_order_add {k : Text} (hk : k ∈ (s.add key).order) :
    k = key ∨ k ∈ s.order := by
  by_cases h : key ∈ s.order
  · rw [add, dif_pos (contains_iff.mpr h)] at hk
    exact Or.inr hk
  · rw [order_add h] at hk
    have hmem := mem_of_mem_drop hk
    rw [mem_append, mem_singleton] at hmem
    exact hmem.symm

/-- The newest keys are remembered, as many as the limit allows. -/
theorem suffix_order_add {recent : List Text} (h : key ∉ s.order) (hrecent : recent <:+ s.order)
    (hfit : recent.length < s.limit) : recent ++ [key] <:+ (s.add key).order := by
  obtain ⟨old, hold⟩ := hrecent
  rw [order_add h, ← hold, append_assoc, drop_append_of_le_length]
  · exact suffix_append _ _
  · rw [length_append, length_append, length_singleton]
    omega

end SyntheticTailSeen

/-! ## Rows and polls -/

/-- A row as the tail reads it. -/
structure TailRow where
  /-- `_time`, in nanoseconds -/
  time : Int
  /-- `_stream` -/
  stream : Text
  /-- `_msg` -/
  msg : Text
  deriving DecidableEq, Repr

/-- How the backend writes a time, and what `parseEntryTime` makes of it: it reads the time
that was written, and what is written has no NUL in it. -/
structure TimeFormat where
  print : Int → Text
  parseEntryTime : Text → Option Int
  parse_print : ∀ t, parseEntryTime (print t) = some t
  nul_notMem : ∀ t, '\x00' ∉ print t

/-- What a poll meets: the rows that are visible, the time of day, and the order the backend
sorts rows into.  Rows of one time can come in any order. -/
structure Poll where
  visible : List TailRow
  now : Int
  sort : List TailRow → List TailRow
  sort_perm : ∀ rows, (sort rows).Perm rows
  sort_sorted : ∀ rows, (sort rows).Pairwise fun a b => a.time ≤ b.time

def syntheticTailBatchLimit : Nat := 200

namespace Poll

/-- The rows that match a poll from `windowStart` to the time of day. -/
def Matches (poll : Poll) (windowStart : Int) (row : TailRow) : Prop :=
  windowStart ≤ row.time ∧ row.time ≤ poll.now
  deriving Decidable

/-- The answer to the query of a poll: `sort by (_time) limit 200`. -/
def read (poll : Poll) (windowStart : Int) : List TailRow :=
  (poll.sort (poll.visible.filter (poll.Matches windowStart))).take syntheticTailBatchLimit

variable {poll : Poll} {windowStart : Int} {row : TailRow}

theorem mem_sort_filter :
    row ∈ poll.sort (poll.visible.filter (poll.Matches windowStart)) ↔
      row ∈ poll.visible ∧ windowStart ≤ row.time ∧ row.time ≤ poll.now := by
  rw [(poll.sort_perm _).mem_iff, mem_filter, decide_eq_true_iff, Matches]

theorem mem_of_mem_read (h : row ∈ poll.read windowStart) :
    row ∈ poll.visible ∧ windowStart ≤ row.time ∧ row.time ≤ poll.now :=
  mem_sort_filter.mp (mem_of_mem_take h)

/-- A poll reads no more rows than the limit of a batch. -/
theorem length_read_le (poll : Poll) (windowStart : Int) :
    (poll.read windowStart).length ≤ syntheticTailBatchLimit :=
  length_take_le _ _

theorem nodup_read (h : poll.visible.Nodup) (windowStart : Int) : (poll.read windowStart).Nodup :=
  (((poll.sort_perm _).nodup_iff.mpr (h.filter _))).sublist (take_sublist _ _)

theorem time_le_of_not_mem_read {r : TailRow} (hvisible : row ∈ poll.visible)
    (hstart : windowStart ≤ row.time) (hnot : row ∉ poll.read windowStart)
    (hr : r ∈ poll.read windowStart) : r.time ≤ row.time := by
  by_cases hnow : row.time ≤ poll.now
  · -- the row matches, so it stands behind the limit
    have hmem := mem_sort_filter.mpr ⟨hvisible, hstart, hnow⟩
    have hsorted := poll.sort_sorted (poll.visible.filter (poll.Matches windowStart))
    rw [← take_append_drop syntheticTailBatchLimit
      (poll.sort (poll.visible.filter (poll.Matches windowStart)))] at hmem hsorted
    exact (pairwise_append.mp hsorted).2.2 r hr row ((mem_append.mp hmem).resolve_left hnot)
  · have hle := (mem_of_mem_read hr).2.2
    omega

end Poll

/-! ## A poll -/

section Batch

variable (fmt : TimeFormat)

def TailRow.seenKey (row : TailRow) : Text :=
  fmt.print row.time ++ '\x00' :: (row.stream ++ '\x00' :: row.msg)

variable {fmt} in
theorem TailRow.time_eq_of_seenKey_eq {a b : TailRow} (h : a.seenKey fmt = b.seenKey fmt) :
    a.time = b.time := by
  have hprint := (append_cons_inj_of_notMem (fmt.nul_notMem _) (fmt.nul_notMem _) h).1
  have hparse := congrArg fmt.parseEntryTime hprint
  rw [fmt.parse_print, fmt.parse_print] at hparse
  exact some.inj hparse

/-- What the scan loop of a poll changes. -/
structure TailScan where
  newest : Int
  lastSeen : SyntheticTailSeen
  /-- the rows written to the client so far -/
  sent : List TailRow

/-- The body of the scan loop. -/
def TailScan.readRow (st : TailScan) (row : TailRow) : TailScan :=
  let seenKey := row.seenKey fmt
  if st.lastSeen.contains seenKey then st
  else
    { newest :=
        match fmt.parseEntryTime (fmt.print row.time) with
        | some entryTime => if st.newest < entryTime then entryTime else st.newest
        | none => st.newest
      lastSeen := st.lastSeen.add seenKey
      sent := st.sent ++ [row] }

/-- What the tail keeps from poll to poll. -/
structure TailState where
  windowStart : Int
  lastSeen : SyntheticTailSeen
  sent : List TailRow

def writeSyntheticTailBatch (st : TailState) (poll : Poll) : TailState :=
  let scan := (poll.read st.windowStart).foldl (TailScan.readRow fmt)
    ⟨st.windowStart, st.lastSeen, st.sent⟩
  ⟨scan.newest + 1, scan.lastSeen, scan.sent⟩

/-- The keys remembered are those of rows that were sent, and no row sent is newer than
`newest`. -/
structure TailScan.Consistent (st : TailScan) : Prop where
  keys : ∀ key ∈ st.lastSeen.order, ∃ row ∈ st.sent, row.seenKey fmt = key
  times : ∀ row ∈ st.sent, row.time ≤ st.newest

variable {fmt} {st : TailScan} {row : TailRow} {rows : List TailRow}

/-- A remembered row is not sent again. -/
theorem TailScan.readRow_seen (h : row.seenKey fmt ∈ st.lastSeen.order) :
    st.readRow fmt row = st := by
  rw [readRow, if_pos (SyntheticTailSeen.contains_iff.mpr h)]

/-- A new row is sent and remembered. -/
theorem TailScan.readRow_new (h : row.seenKey fmt ∉ st.lastSeen.order) :
    st.readRow fmt row =
      ⟨max st.newest row.time, st.lastSeen.add (row.seenKey fmt), st.sent ++ [row]⟩ := by
  rw [readRow, if_neg (fun hc => h (SyntheticTailSeen.contains_iff.mp hc)), fmt.parse_print]
  simp only [TailScan.mk.injEq, and_true]
  split <;> omega

theorem TailScan.Consistent.newest_readRow (h : st.Consistent fmt) (row : TailRow) :
    (st.readRow fmt row).newest = max st.newest row.time := by
  by_cases hseen : row.seenKey fmt ∈ st.lastSeen.order
  · obtain ⟨r, hr, hkey⟩ := h.keys _ hseen
    have hle := h.times r hr
    rw [TailRow.time_eq_of_seenKey_eq hkey] at hle
    rw [readRow_seen hseen, max_eq_left hle]
  · rw [readRow_new hseen]

/-- Reading a row keeps the scan consistent. -/
theorem TailScan.Consistent.readRow (h : st.Consistent fmt) (row : TailRow) :
    (st.readRow fmt row).Consistent fmt := by
  by_cases hseen : row.seenKey fmt ∈ st.lastSeen.order
  · rw [readRow_seen hseen]
    exact h
  · rw [readRow_new hseen]
    constructor
    · intro key hkey
      rcases SyntheticTailSeen.eq_or_mem_of_mem_order_add hkey with rfl | hkey
      · exact ⟨row, by simp, rfl⟩
      · obtain ⟨r, hr, hk⟩ := h.keys key hkey
        exact ⟨r, mem_append_left _ hr, hk⟩
    · intro r hr
      rcases mem_append.mp hr with hr | hr
      · exact (h.times r hr).trans (le_max_left _ _)
      · rw [mem_singleton.mp hr]
        exact le_max_right _ _

variable (newest : Int)

/-- The newest of these rows, or `newest` when none is newer. -/
def newestOf (rows : List TailRow) : Int :=
  rows.foldl (fun t row => max t row.time) newest

theorem le_newestOf (rows : List TailRow) : newest ≤ newestOf newest rows := by
  induction rows generalizing newest with
  | nil => exact le_refl newest
  | cons row rows ih => exact (le_max_left _ _).trans (ih (max newest row.time))

theorem time_le_newestOf (h : row ∈ rows) (newest : Int) : row.time ≤ newestOf newest rows := by
  induction rows generalizing newest with
  | nil => exact absurd h not_mem_nil
  | cons r rows ih =>
    rcases mem_cons.mp h with rfl | h
    · exact (le_max_right _ _).trans (le_newestOf _ rows)
    · exact ih h _

theorem newestOf_eq (rows : List TailRow) :
    newestOf newest rows = newest ∨ ∃ row ∈ rows, newestOf newest rows = row.time := by
  induction rows generalizing newest with
  | nil => exact Or.inl rfl
  | cons r rows ih =>
    rcases ih (max newest r.time) with heq | ⟨row, hrow, heq⟩
    · rcases max_choice newest r.time with hmax | hmax
      · exact Or.inl (heq.trans hmax)
      · exact Or.inr ⟨r, mem_cons_self, heq.trans hmax⟩
    · exact Or.inr ⟨row, mem_cons_of_mem r hrow, heq⟩

/-- Reading a batch keeps the scan consistent. -/
theorem TailScan.Consistent.scan (h : st.Consistent fmt) (rows : List TailRow) :
    (rows.foldl (TailScan.readRow fmt) st).Consistent fmt ∧
      (rows.foldl (TailScan.readRow fmt) st).newest = newestOf st.newest rows := by
  induction rows generalizing st with
  | nil => exact ⟨h, rfl⟩
  | cons row rows ih =>
    obtain ⟨hcons, hnewest⟩ := ih (h.readRow row)
    refine ⟨hcons, hnewest.trans ?_⟩
    rw [h.newest_readRow]
    rfl

/-- What an answer adds to the rows sent: some of its rows, in their order and with different
keys when the memory is large enough for the answer. -/
theorem TailScan.sent_scan (st : TailScan) (rows : List TailRow) {recent : List Text}
    (hrecent : recent <:+ st.lastSeen.order)
    (hfit : recent.length + rows.length ≤ st.lastSeen.limit) :
    ∃ fresh, (rows.foldl (TailScan.readRow fmt) st).sent = st.sent ++ fresh ∧ fresh.Sublist rows ∧
      (∀ row ∈ fresh, row.seenKey fmt ∉ recent) ∧ (fresh.map (TailRow.seenKey fmt)).Nodup := by
  induction rows generalizing st recent with
  | nil => exact ⟨[], by simp⟩
  | cons row rows ih =>
    rw [foldl_cons]
    rw [length_cons] at hfit
    by_cases hseen : row.seenKey fmt ∈ st.lastSeen.order
    · rw [readRow_seen hseen]
      obtain ⟨fresh, hsent, hsub, hkeys⟩ := ih st hrecent (by omega)
      exact ⟨fresh, hsent, hsub.cons row, hkeys⟩
    · rw [readRow_new hseen]
      have hrecent' := SyntheticTailSeen.suffix_order_add hseen hrecent (by omega)
      obtain ⟨fresh, hsent, hsub, hnew, hnodup⟩ := ih
        ⟨max st.newest row.time, st.lastSeen.add (row.seenKey fmt), st.sent ++ [row]⟩ hrecent'
        (by rw [length_append, length_singleton, SyntheticTailSeen.limit_add]; omega)
      refine ⟨row :: fresh, by rw [hsent]; simp, hsub.cons_cons row, ?_, ?_⟩
      · intro r hr hmem
        rcases mem_cons.mp hr with rfl | hr
        · exact hseen (hrecent.subset hmem)
        · exact hnew r hr (mem_append_left _ hmem)
      · rw [map_cons, nodup_cons]
        refine ⟨fun hmem => ?_, hnodup⟩
        obtain ⟨r, hr, hkey⟩ := mem_map.mp hmem
        exact hnew r hr (by simp [hkey])

theorem TailScan.sent_scan_of_nodup (st : TailScan)
    (hnodup : (rows.map (TailRow.seenKey fmt)).Nodup)
    (hnew : ∀ row ∈ rows, row.seenKey fmt ∉ st.lastSeen.order) :
    (rows.foldl (TailScan.readRow fmt) st).sent = st.sent ++ rows := by
  induction rows generalizing st with
  | nil => simp
  | cons row rows ih =>
    rw [map_cons, nodup_cons] at hnodup
    rw [foldl_cons, readRow_new (hnew row mem_cons_self), ih _ hnodup.2]
    · simp
    · intro r hr hmem
      rcases SyntheticTailSeen.eq_or_mem_of_mem_order_add hmem with hkey | hmem
      · exact hnodup.1 (hkey ▸ mem_map_of_mem hr)
      · exact hnew r (mem_cons_of_mem row hr) hmem

theorem TailScan.memory_scan (st : TailScan) (rows : List TailRow) {limit : Nat}
    (hlimit : st.lastSeen.limit = limit) (hlength : st.lastSeen.order.length ≤ limit) :
    (rows.foldl (TailScan.readRow fmt) st).lastSeen.limit = limit ∧
      (rows.foldl (TailScan.readRow fmt) st).lastSeen.order.length ≤ limit := by
  induction rows generalizing st with
  | nil => exact ⟨hlimit, hlength⟩
  | cons row rows ih =>
    by_cases hseen : row.seenKey fmt ∈ st.lastSeen.order
    · rw [foldl_cons, readRow_seen hseen]
      exact ih st hlimit hlength
    · rw [foldl_cons, readRow_new hseen]
      refine ih _ ((SyntheticTailSeen.limit_add _ _).trans hlimit) ?_
      subst hlimit
      exact SyntheticTailSeen.length_order_add_le hlength

/-! ## Any polls -/

/-- What every poll keeps, whatever the backend shows it. -/
structure TailState.Orderly (fmt : TimeFormat) (st : TailState) : Prop where
  keys : ∀ key ∈ st.lastSeen.order, ∃ row ∈ st.sent, row.seenKey fmt = key
  times : ∀ row ∈ st.sent, row.time < st.windowStart
  once : st.sent.Nodup
  ordered : st.sent.Pairwise fun a b => a.time ≤ b.time
  limit : st.lastSeen.limit = maxSyntheticTailSeenEntries
  bounded : st.lastSeen.order.length ≤ maxSyntheticTailSeenEntries

namespace TailState

/-- The tail before its first poll. -/
def first (start : Int) : TailState := ⟨start, .new maxSyntheticTailSeenEntries, []⟩

variable {st : TailState} (poll : Poll)

theorem Orderly.first (fmt : TimeFormat) (start : Int) : (first start).Orderly fmt :=
  ⟨nofun, nofun, nodup_nil, .nil, rfl, Nat.zero_le _⟩

theorem Orderly.scanned (h : st.Orderly fmt) :
    TailScan.Consistent fmt ⟨st.windowStart, st.lastSeen, st.sent⟩ :=
  ⟨h.keys, fun row hrow => (h.times row hrow).le⟩

/-- One poll sends rows that it read, each key once. -/
theorem Orderly.sent (h : st.Orderly fmt) :
    ∃ fresh, (writeSyntheticTailBatch fmt st poll).sent = st.sent ++ fresh ∧
      fresh.Sublist (poll.read st.windowStart) ∧ (fresh.map (TailRow.seenKey fmt)).Nodup := by
  have hroom := (poll.length_read_le st.windowStart).trans
    (show syntheticTailBatchLimit ≤ maxSyntheticTailSeenEntries by decide)
  obtain ⟨fresh, hsent, hsub, _, hnodup⟩ := @TailScan.sent_scan fmt
    ⟨st.windowStart, st.lastSeen, st.sent⟩ (poll.read st.windowStart) [] nil_suffix
    (by simpa [h.limit] using hroom)
  exact ⟨fresh, hsent, hsub, hnodup⟩

/-- What is sent before a poll is older than the window of the poll. -/
theorem Orderly.step (h : st.Orderly fmt) : (writeSyntheticTailBatch fmt st poll).Orderly fmt := by
  obtain ⟨fresh, hsent, hsub, hnodup⟩ := h.sent poll
  have hafter := (h.scanned.scan (poll.read st.windowStart)).1
  have hmemory := @TailScan.memory_scan fmt ⟨st.windowStart, st.lastSeen, st.sent⟩
    (poll.read st.windowStart) _ h.limit h.bounded
  have hnew : ∀ a ∈ st.sent, ∀ b ∈ fresh, a.time < b.time := fun a ha b hb =>
    (h.times a ha).trans_le (Poll.mem_of_mem_read (hsub.subset hb)).2.1
  have hsorted := ((poll.sort_sorted _).sublist (take_sublist _ _)).sublist hsub
  refine ⟨hafter.keys, fun row hrow => Int.lt_add_one_iff.mpr (hafter.times row hrow), ?_, ?_,
    hmemory.1, hmemory.2⟩
  · rw [hsent]
    exact nodup_append'.mpr
      ⟨h.once, hnodup.of_map, fun row hold hrow => (hnew row hold row hrow).false⟩
  · rw [hsent]
    exact pairwise_append.mpr ⟨h.ordered, hsorted, fun a ha b hb => (hnew a ha b hb).le⟩

end TailState

end Batch

/-! ## Runs -/

/-- The polls of a tail.  Rows are different, stay visible, and become visible in the order of
their times. -/
structure Arrivals where
  poll : Nat → Poll
  distinct : ∀ i, (poll i).visible.Nodup
  stays : ∀ i, ∀ row ∈ (poll i).visible, row ∈ (poll (i + 1)).visible
  ordered : ∀ i, ∀ row ∈ (poll (i + 1)).visible, row ∉ (poll i).visible →
    ∀ r ∈ (poll i).visible, r.time ≤ row.time

namespace Arrivals

variable (fmt : TimeFormat) (start : Int) (arrivals : Arrivals)

/-- A row that becomes visible at some poll. -/
def Arrives (row : TailRow) : Prop := ∃ i, row ∈ (arrivals.poll i).visible

/-- `streamSyntheticTail`: what the tail has after the first `n` polls. -/
def streamSyntheticTail : Nat → TailState
  | 0 => ⟨start, .new maxSyntheticTailSeenEntries, []⟩
  | n + 1 => writeSyntheticTailBatch fmt (streamSyntheticTail n) (arrivals.poll n)

/-- The start of the window of poll `n`. -/
def windowStart (n : Nat) : Int := (arrivals.streamSyntheticTail fmt start n).windowStart

/-- The rows that poll `n` reads. -/
def readAt (n : Nat) : List TailRow :=
  (arrivals.poll n).read (arrivals.windowStart fmt start n)

/-- The rows sent by the first `n` polls. -/
def sent (n : Nat) : List TailRow := (arrivals.streamSyntheticTail fmt start n).sent

/-- Every row from the start on is sent at some time, and none twice. -/
def DeliversOnce : Prop :=
  (∀ row, arrivals.Arrives row → start ≤ row.time → ∃ n, row ∈ arrivals.sent fmt start n) ∧
    ∀ n, (arrivals.sent fmt start n).Nodup

/-- A poll leaves nothing behind: a row, visible by now or later, that has the time of a row
which the poll reads, or the time its window starts with, is read by it as well; and the keys
of the rows it reads are different. -/
structure LeavesNothing (poll : Poll) (windowStart : Int) : Prop where
  ties : ∀ row, arrivals.Arrives row → row ∉ poll.read windowStart →
    row.time ≠ windowStart ∧ ∀ r ∈ poll.read windowStart, row.time ≠ r.time
  keys : ((poll.read windowStart).map (TailRow.seenKey fmt)).Nodup

variable {fmt start arrivals} {i : Nat} {row : TailRow}

theorem visible_of_le {j : Nat} (hij : i ≤ j) (h : row ∈ (arrivals.poll i).visible) :
    row ∈ (arrivals.poll j).visible := by
  induction j, hij using Nat.le_induction with
  | base => exact h
  | succ j _ ih => exact arrivals.stays j row ih

theorem Arrives.time_le {r : TailRow} (h : arrivals.Arrives row)
    (hnot : row ∉ (arrivals.poll i).visible) (hr : r ∈ (arrivals.poll i).visible) :
    r.time ≤ row.time := by
  obtain ⟨j, hj⟩ := h
  have hij : i ≤ j := by
    by_contra hlt
    exact hnot (visible_of_le (by omega) hj)
  induction j, hij using Nat.le_induction with
  | base => exact absurd hj hnot
  | succ j hij ih =>
    by_cases hbefore : row ∈ (arrivals.poll j).visible
    · exact ih hbefore
    · exact arrivals.ordered j row hj hbefore r (visible_of_le hij hr)

variable (n : Nat)

/-- The tail is orderly after every number of polls. -/
theorem orderly : (arrivals.streamSyntheticTail fmt start n).Orderly fmt := by
  induction n with
  | zero => exact .first fmt start
  | succ n ih => exact ih.step _

theorem sent_nodup : (arrivals.sent fmt start n).Nodup := (orderly n).once

theorem windowStart_succ : arrivals.windowStart fmt start (n + 1) =
    newestOf (arrivals.windowStart fmt start n) (arrivals.readAt fmt start n) + 1 :=
  congrArg (· + 1) ((orderly n).scanned.scan (arrivals.readAt fmt start n)).2

variable (fmt start arrivals) in
/-- Every poll moves the window on. -/
theorem windowStart_strictMono : StrictMono (arrivals.windowStart fmt start) := by
  refine strictMono_nat_of_lt_succ fun n => ?_
  rw [windowStart_succ]
  exact Int.lt_add_one_iff.mpr (le_newestOf _ _)

theorem start_le_windowStart : start ≤ arrivals.windowStart fmt start n :=
  (windowStart_strictMono fmt start arrivals).monotone (Nat.zero_le n)

variable (fmt start arrivals) in
theorem start_add_le_windowStart : start + n ≤ arrivals.windowStart fmt start n := by
  induction n with
  | zero => exact (Int.add_zero start).le
  | succ n ih =>
    have hlt := windowStart_strictMono fmt start arrivals (lt_add_one n)
    push_cast
    omega

/-- The rows of a poll lie between its window start and the next one. -/
theorem time_of_mem_readAt {n : Nat} (h : row ∈ arrivals.readAt fmt start n) :
    arrivals.windowStart fmt start n ≤ row.time ∧
      row.time < arrivals.windowStart fmt start (n + 1) := by
  refine ⟨(Poll.mem_of_mem_read h).2.1, ?_⟩
  rw [windowStart_succ]
  exact Int.lt_add_one_iff.mpr (time_le_newestOf h _)

theorem windowStart_unique {t : Int} {k : Nat} (hi : arrivals.windowStart fmt start i ≤ t)
    (hi' : t < arrivals.windowStart fmt start (i + 1)) (hk : arrivals.windowStart fmt start k ≤ t)
    (hk' : t < arrivals.windowStart fmt start (k + 1)) : i = k := by
  have hik := (windowStart_strictMono fmt start arrivals).lt_iff_lt.mp (hi.trans_lt hk')
  have hki := (windowStart_strictMono fmt start arrivals).lt_iff_lt.mp (hk.trans_lt hi')
  omega

variable (fmt start arrivals) in
/-- What one more poll sends. -/
theorem sent_succ : ∃ fresh, arrivals.sent fmt start (n + 1) =
      arrivals.sent fmt start n ++ fresh ∧ fresh.Sublist (arrivals.readAt fmt start n) ∧
      (fresh.map (TailRow.seenKey fmt)).Nodup :=
  (orderly n).sent (arrivals.poll n)

theorem mem_read_of_mem_sent {n : Nat} (h : row ∈ arrivals.sent fmt start n) :
    ∃ k, row ∈ arrivals.readAt fmt start k ∧ row ∈ arrivals.sent fmt start (k + 1) := by
  induction n with
  | zero => exact absurd h not_mem_nil
  | succ n ih =>
    obtain ⟨fresh, hsent, hsub, _⟩ := sent_succ fmt start arrivals n
    by_cases hold : row ∈ arrivals.sent fmt start n
    · exact ih hold
    · refine ⟨n, ?_, h⟩
      rw [hsent, mem_append] at h
      exact hsub.subset (h.resolve_left hold)

theorem mem_readAt_of_sent {n : Nat} (hle : arrivals.windowStart fmt start i ≤ row.time)
    (hlt : row.time < arrivals.windowStart fmt start (i + 1)) (h : row ∈ arrivals.sent fmt start n) :
    row ∈ arrivals.readAt fmt start i ∧ row ∈ arrivals.sent fmt start (i + 1) := by
  obtain ⟨k, hread, hsent⟩ := mem_read_of_mem_sent h
  obtain ⟨hk, hk'⟩ := time_of_mem_readAt hread
  rw [windowStart_unique hle hlt hk hk']
  exact ⟨hread, hsent⟩

theorem tie_of_not_mem_readAt (harrives : arrivals.Arrives row)
    (hle : arrivals.windowStart fmt start i ≤ row.time)
    (hlt : row.time < arrivals.windowStart fmt start (i + 1))
    (hnot : row ∉ arrivals.readAt fmt start i) :
    row.time = arrivals.windowStart fmt start i ∨
      ∃ r ∈ arrivals.readAt fmt start i, row.time = r.time := by
  rw [windowStart_succ, Int.lt_add_one_iff] at hlt
  rcases newestOf_eq (arrivals.windowStart fmt start i) (arrivals.readAt fmt start i) with
    heq | ⟨r, hr, heq⟩
  · exact Or.inl (le_antisymm (hlt.trans heq.le) hle)
  · refine Or.inr ⟨r, hr, le_antisymm (hlt.trans heq.le) ?_⟩
    by_cases hvisible : row ∈ (arrivals.poll i).visible
    · exact Poll.time_le_of_not_mem_read hvisible hle hnot hr
    · exact harrives.time_le hvisible (Poll.mem_of_mem_read hr).1

variable (fmt arrivals) in
theorem exists_window {t : Int} (h : start ≤ t) :
    ∃ i, arrivals.windowStart fmt start i ≤ t ∧ t < arrivals.windowStart fmt start (i + 1) := by
  by_contra hnone
  push Not at hnone
  have hall : ∀ i, arrivals.windowStart fmt start i ≤ t := by
    intro i
    induction i with
    | zero => exact h
    | succ i ih => exact hnone i ih
  have hpast := start_add_le_windowStart fmt start arrivals
    (t - start + 1).toNat
  have hle := hall (t - start + 1).toNat
  omega

/-- A poll that leaves nothing behind sends every row of its window. -/
theorem mem_sent_of_leavesNothing
    (h : arrivals.LeavesNothing fmt (arrivals.poll i) (arrivals.windowStart fmt start i))
    (harrives : arrivals.Arrives row) (hle : arrivals.windowStart fmt start i ≤ row.time)
    (hlt : row.time < arrivals.windowStart fmt start (i + 1)) :
    row ∈ arrivals.sent fmt start (i + 1) := by
  have hread : row ∈ arrivals.readAt fmt start i := by
    by_contra hnot
    obtain ⟨hstart, hties⟩ := h.ties row harrives hnot
    rcases tie_of_not_mem_readAt harrives hle hlt hnot with htie | ⟨r, hr, htie⟩
    · exact hstart htie
    · exact hties r hr htie
  have hall : arrivals.sent fmt start (i + 1) =
      arrivals.sent fmt start i ++ arrivals.readAt fmt start i := by
    refine TailScan.sent_scan_of_nodup _ h.keys fun r hr hkey => ?_
    -- a key that is remembered is that of a row before the window
    obtain ⟨r', hr', heq⟩ := (orderly i).keys _ hkey
    have hbefore := (orderly i).times r' hr'
    rw [TailRow.time_eq_of_seenKey_eq heq] at hbefore
    have hfrom := (Poll.mem_of_mem_read hr).2.1
    exact absurd hbefore (not_lt.mpr hfrom)
  rw [hall]
  exact mem_append_right _ hread

/-- Where every row is sent, each poll left nothing behind. -/
theorem DeliversOnce.leavesNothing (h : arrivals.DeliversOnce fmt start) (i : Nat) :
    arrivals.LeavesNothing fmt (arrivals.poll i) (arrivals.windowStart fmt start i) := by
  have hsent : ∀ row, arrivals.Arrives row → arrivals.windowStart fmt start i ≤ row.time →
      row.time < arrivals.windowStart fmt start (i + 1) →
      row ∈ arrivals.readAt fmt start i ∧ row ∈ arrivals.sent fmt start (i + 1) := by
    intro row harrives hle hlt
    obtain ⟨n, hn⟩ := h.1 row harrives ((start_le_windowStart i).trans hle)
    exact mem_readAt_of_sent hle hlt hn
  constructor
  · intro row harrives hnot
    constructor
    · intro htie
      refine hnot (hsent row harrives htie.ge ?_).1
      rw [htie]
      exact windowStart_strictMono fmt start arrivals (lt_add_one i)
    · intro r hr htie
      obtain ⟨hle, hlt⟩ := time_of_mem_readAt hr
      exact hnot (hsent row harrives (htie ▸ hle) (htie ▸ hlt)).1
  · -- all that was read was sent, and what is sent has different keys
    obtain ⟨fresh, hfresh, hsub, hnodup⟩ := sent_succ fmt start arrivals i
    have hread : (arrivals.readAt fmt start i).Nodup := Poll.nodup_read (arrivals.distinct i) _
    have hsubset : arrivals.readAt fmt start i ⊆ fresh := by
      intro row hrow
      obtain ⟨hle, hlt⟩ := time_of_mem_readAt hrow
      have hmem := (hsent row ⟨i, (Poll.mem_of_mem_read hrow).1⟩ hle hlt).2
      rw [hfresh, mem_append] at hmem
      refine hmem.resolve_left fun hold => ?_
      exact absurd ((orderly i).times row hold) (not_lt.mpr hle)
    have heq : fresh = arrivals.readAt fmt start i :=
      hsub.eq_of_length_le (hread.subperm hsubset).length_le
    rw [heq] at hnodup
    exact hnodup

/-- Every row from the start on is sent exactly once if and only if every poll leaves nothing
behind. -/
theorem streamSyntheticTail_delivers_iff (fmt : TimeFormat) (start : Int) (arrivals : Arrivals) :
    arrivals.DeliversOnce fmt start ↔
      ∀ i, arrivals.LeavesNothing fmt (arrivals.poll i) (arrivals.windowStart fmt start i) := by
  constructor
  · intro h i
    exact h.leavesNothing i
  · intro h
    refine ⟨fun row harrives hstart => ?_, sent_nodup⟩
    obtain ⟨i, hle, hlt⟩ := exists_window fmt arrivals hstart
    exact ⟨i + 1, mem_sent_of_leavesNothing (h i) harrives hle hlt⟩

end Arrivals

/-! ## A row that shares its time with one already sent -/

/-- Times in nanoseconds, which `parseEntryTime` takes as well. -/
def nanoseconds : TimeFormat where
  print := formatInt
  parseEntryTime := fun text =>
    match text with
    | '-' :: digits => (parseDigits digits).map fun n : Nat => -(n : Int)
    | digits => (parseDigits digits).map fun n : Nat => (n : Int)
  parse_print := by
    intro t
    rw [formatInt]
    split_ifs with hneg
    · simp only [parseDigits_toDigits, Option.map_some, some.injEq]
      omega
    · split
      · rename_i digits heq
        exact absurd (isDigit_of_mem_toDigits (heq ▸ mem_cons_self)) (by decide)
      · simp only [parseDigits_toDigits, Option.map_some, some.injEq]
        omega
  nul_notMem := by
    intro t hmem
    rw [formatInt] at hmem
    split_ifs at hmem
    · rcases mem_cons.mp hmem with heq | hmem
      · exact absurd heq (by decide)
      · exact absurd (isDigit_of_mem_toDigits hmem) (by decide)
    · exact absurd (isDigit_of_mem_toDigits hmem) (by decide)

/-- A poll whose backend sorts by insertion. -/
def Poll.sorted (visible : List TailRow) (now : Int) : Poll where
  visible := visible
  now := now
  sort := List.insertionSort fun a b => a.time ≤ b.time
  sort_perm := perm_insertionSort _
  sort_sorted := fun rows => by
    have : Std.Total fun a b : TailRow => a.time ≤ b.time := ⟨fun a b => le_total a.time b.time⟩
    have : IsTrans TailRow fun a b => a.time ≤ b.time := ⟨fun a b c => le_trans⟩
    exact pairwise_insertionSort _ rows

/-- The second of two rows of one nanosecond comes after the poll that sent the first. -/
def lateTie : Arrivals where
  poll := fun i => Poll.sorted
    (⟨7, [], ['a']⟩ :: if i = 0 then [] else [⟨7, [], ['b']⟩]) 10
  distinct := fun i => by
    by_cases hi : i = 0
    · simp [Poll.sorted, hi]
    · simp [Poll.sorted, hi]
  stays := fun i row hrow => by
    by_cases hi : i = 0
    · simp_all [Poll.sorted]
    · simpa [Poll.sorted, hi] using hrow
  ordered := fun i row hrow _ r hr => by
    have htime : ∀ i, ∀ r ∈ (Poll.sorted (⟨7, [], ['a']⟩ ::
        if i = 0 then [] else [⟨7, [], ['b']⟩]) 10).visible, r.time = 7 := by
      intro i r hr
      by_cases hi : i = 0
      · simp_all [Poll.sorted]
      · rcases (by simpa [Poll.sorted, hi] using hr : r = ⟨7, [], ['a']⟩ ∨ r = ⟨7, [], ['b']⟩) with
          rfl | rfl <;> rfl
    rw [htime _ r hr, htime _ row hrow]

theorem not_streamSyntheticTail_delivers :
    ¬ ∀ (fmt : TimeFormat) (start : Int) (arrivals : Arrivals), arrivals.DeliversOnce fmt start := by
  intro h
  have hread : lateTie.readAt nanoseconds 5 0 = [⟨7, [], ['a']⟩] := by decide
  have hnext : 7 < lateTie.windowStart nanoseconds 5 1 := by
    have hmem : (⟨7, [], ['a']⟩ : TailRow) ∈ lateTie.readAt nanoseconds 5 0 := by simp [hread]
    exact (Arrivals.time_of_mem_readAt hmem).2
  have hlate : lateTie.Arrives ⟨7, [], ['b']⟩ := ⟨1, by simp [lateTie, Poll.sorted]⟩
  obtain ⟨n, hn⟩ := (h nanoseconds 5 lateTie).1 _ hlate (by decide)
  have hsent := (Arrivals.mem_readAt_of_sent (i := 0) (by decide) hnext hn).1
  rw [hread] at hsent
  exact absurd hsent (by decide)

end LokiVlProxy.Proxy
