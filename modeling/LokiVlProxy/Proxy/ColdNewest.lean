/-
  Proxy/ColdNewest.lean --- which rows a backward query to cold storage returns.

  The cold backend lists a range oldest first and cuts the list at the limit.
-/
import LokiVlProxy.Foundation.OrderedParts
import LokiVlProxy.Proxy.ColdDispatch

namespace LokiVlProxy.Proxy

open Foundation List

/-! ## The store -/

/-- A stored row and the line that the backend writes for it. -/
structure ColdRow where
  ts : Int
  line : Text
  isLine : IsLine line

/-- The stored rows, oldest first. -/
structure ColdStore where
  rows : List ColdRow
  ordered : rows.Pairwise fun a b => a.ts ≤ b.ts

namespace ColdStore

variable (store : ColdStore)

/-- The rows of a closed range. -/
def inside (range : NanoRange) : List ColdRow := store.rows.filter fun row => range.Has row.ts

/-- The oldest rows of a closed range, at most as many as the limit. -/
def oldest (req : ChunkRequest) : List ColdRow := (store.inside req.range).take req.limit

/-- What the backend answers. -/
def answer (req : ChunkRequest) : Text := ndjson ((store.oldest req).map ColdRow.line)

/-- The lines of the newest rows of a closed range, newest first. -/
def newest (range : NanoRange) (limit : Nat) : List Text :=
  ((store.inside range).reverse.take limit).map ColdRow.line

/-! ## The condition -/

/-- The rows of a chunk that no chunk before it has: all of them, or those below its end. -/
def fresh (shared : Bool) (range : NanoRange) : List ColdRow :=
  store.rows.filter fun row =>
    range.startNs ≤ row.ts && if shared then row.ts < range.endNs else row.ts ≤ range.endNs

/-- The rows of a chunk on the end that it shares with the chunk before it. -/
def again (shared : Bool) (range : NanoRange) : List ColdRow :=
  store.rows.filter fun row => shared && range.startNs ≤ row.ts && row.ts = range.endNs

/-- The chunks of a range, newest first. -/
def chunks (startNs : Int) : Nat → Int → List NanoRange
  | 0, _ => []
  | n + 1, chunkEnd =>
      if startNs < chunkEnd then
        let chunkStart := max (chunkEnd - coldBackwardChunkDuration) startNs
        ⟨chunkStart, chunkEnd⟩ :: chunks startNs n chunkStart
      else []

/-- In every chunk that is reached while rows are wanted, the new rows are as many as may be
asked for, or they are fewer and no row lies on the shared end. -/
def ClearChunks : Bool → List NanoRange → Nat → Prop
  | _, [], _ => True
  | shared, range :: ranges, wanted =>
      wanted = 0 ∨
        ((store.fresh shared range).length = min wanted maxLimitRows ∨
            (store.fresh shared range).length ≤ min wanted maxLimitRows ∧
              store.again shared range = []) ∧
          ClearChunks true ranges (wanted - (store.fresh shared range).length)

/-- The same for a whole query, where a range of one instant is never asked for. -/
def Clear (range : NanoRange) (limit : Nat) : Prop :=
  if range.startNs < range.endNs then
    store.ClearChunks false (chunks range.startNs (chunkCount range.startNs range.endNs) range.endNs) limit
  else store.inside range = []

/-! ## Rows of a chunk -/

variable {store} {shared : Bool} {range : NanoRange} {row : ColdRow} {wanted : Nat}

theorem mem_fresh (h : row ∈ store.fresh shared range) :
    row ∈ store.rows ∧ range.startNs ≤ row.ts ∧ row.ts ≤ range.endNs ∧
      (shared = true → row.ts < range.endNs) := by
  rw [fresh, mem_filter, Bool.and_eq_true, decide_eq_true_eq] at h
  obtain ⟨hrow, hstart, hend⟩ := h
  cases shared with
  | false =>
    have hle : row.ts ≤ range.endNs := by simpa using hend
    exact ⟨hrow, hstart, hle, by simp⟩
  | true =>
    have hlt : row.ts < range.endNs := by simpa using hend
    exact ⟨hrow, hstart, Int.le_of_lt hlt, fun _ => hlt⟩

theorem mem_again (h : row ∈ store.again shared range) :
    shared = true ∧ row ∈ store.rows ∧ row.ts = range.endNs := by
  simp only [again, mem_filter, Bool.and_eq_true, decide_eq_true_eq] at h
  exact ⟨h.2.1.1, h.1, h.2.2⟩

theorem filter_split {p : ColdRow → Bool} (bound : Int) :
    store.rows.filter p =
      (store.rows.filter fun row => p row && decide (row.ts < bound)) ++
        store.rows.filter fun row => p row && !decide (row.ts < bound) := by
  have hsplit := eq_filter_append_filter_not (l := store.rows.filter p)
    (List.Pairwise.filter p store.ordered) (p := fun row => decide (row.ts < bound))
    (fun a _ b _ hab hb => by
      rw [decide_eq_true_eq] at hb ⊢
      omega)
  simp only [filter_filter] at hsplit
  simpa only [Bool.and_comm] using hsplit

theorem decide_has (range : NanoRange) (ts : Int) :
    decide (range.Has ts) = (decide (range.startNs ≤ ts) && decide (ts ≤ range.endNs)) :=
  Bool.decide_and _ _

/-- The rows of a chunk are those it has alone and those it shares with the chunk before. -/
theorem inside_eq (shared : Bool) (range : NanoRange) :
    store.inside range = store.fresh shared range ++ store.again shared range := by
  cases shared with
  | false =>
    have hagain : store.again false range = [] := by simp [again]
    rw [hagain, append_nil, inside, fresh]
    refine filter_congr fun row _ => ?_
    rw [decide_has]
    rfl
  | true =>
    rw [inside, filter_split range.endNs]
    refine congrArg₂ _ (filter_congr fun row _ => ?_) (filter_congr fun row _ => ?_)
    · rw [Bool.eq_iff_iff]
      simp only [decide_has, Bool.and_eq_true, decide_eq_true_eq, if_true]
      omega
    · rw [Bool.eq_iff_iff]
      simp only [decide_has, Bool.and_eq_true, Bool.not_eq_true', decide_eq_true_eq,
        decide_eq_false_iff_not, true_and]
      omega

/-- The fresh rows of a range, cut at the start of a chunk. -/
theorem fresh_split {startNs bound endNs : Int} (hlow : startNs ≤ bound) (hhigh : bound < endNs) :
    store.fresh shared ⟨startNs, endNs⟩ =
      store.fresh true ⟨startNs, bound⟩ ++ store.fresh shared ⟨bound, endNs⟩ := by
  rw [fresh, filter_split bound]
  refine congrArg₂ _ (filter_congr fun row _ => ?_) (filter_congr fun row _ => ?_)
  · rw [Bool.eq_iff_iff]
    cases shared <;>
      simp only [Bool.and_eq_true, decide_eq_true_eq, if_true, Bool.false_eq_true, if_false] <;>
      omega
  · rw [Bool.eq_iff_iff]
    cases shared <;>
      simp only [Bool.and_eq_true, Bool.not_eq_true', decide_eq_true_eq, decide_eq_false_iff_not,
        if_true, Bool.false_eq_true, if_false] <;>
      omega

/-! ## What the loop collects -/

variable (store) in
/-- The rows of each answer, newest chunk first. -/
def served : List NanoRange → Nat → List (List ColdRow)
  | [], _ => []
  | range :: ranges, wanted =>
      if wanted = 0 then []
      else
        let rows := store.oldest ⟨range, min wanted maxLimitRows⟩
        rows :: served ranges (wanted - rows.length)

theorem served_zero (ranges : List NanoRange) : store.served ranges 0 = [] := by
  cases ranges <;> rfl

variable (rows : List ColdRow)

/-- The lines of answered rows. -/
def body : Text := ndjson (rows.map ColdRow.line)

theorem isLine_map : ∀ line ∈ rows.map ColdRow.line, IsLine line := by
  intro line hline
  obtain ⟨row, -, rfl⟩ := mem_map.mp hline
  exact row.isLine

theorem countNDJSONLines_body : countNDJSONLines (body rows) = rows.length := by
  rw [body, countNDJSONLines_ndjson (isLine_map rows), length_map]

theorem flatten_map_body (answers : List (List ColdRow)) :
    (answers.map body).flatten = body answers.flatten := by
  induction answers with
  | nil => rfl
  | cons rows answers ih =>
    rw [map_cons, flatten_cons, ih, flatten_cons, body, body, body, map_append,
      ndjson_append]

variable (startNs : Int)

/-- The loop over the chunks collects what the store serves, chunk after chunk. -/
theorem loop_fetchChunk {ε : Type} (limit n : Nat) (bodies : List Text) (acc : Nat)
    (chunkEnd : Int) (hn : chunkEnd - startNs ≤ n * coldBackwardChunkDuration) :
    loop (fetchChunk (fun req => (.ok (store.answer req) : Except ε Text)) startNs limit) (n + 1)
        ⟨bodies, acc, chunkEnd⟩ =
      .ok (bodies ++ (store.served (chunks startNs n chunkEnd) (limit - acc)).map body) := by
  induction n generalizing bodies acc chunkEnd with
  | zero =>
    have hend : ¬ startNs < chunkEnd := by omega
    simp only [loop, fetchChunk, hend, if_false]
    exact congrArg _ (append_nil bodies).symm
  | succ n ih =>
    by_cases hend : startNs < chunkEnd
    · have hstart : (if chunkEnd - coldBackwardChunkDuration < startNs then startNs
          else chunkEnd - coldBackwardChunkDuration) =
          max (chunkEnd - coldBackwardChunkDuration) startNs := by
        split <;> omega
      rw [loop, fetchChunk, if_pos hend]
      simp only [hstart]
      by_cases hfull : limit ≤ acc
      · rw [if_pos hfull, Nat.sub_eq_zero_of_le hfull, served_zero]
        exact congrArg _ (append_nil bodies).symm
      · rw [if_neg hfull, chunks, if_pos hend, served, if_neg (by omega)]
        set req : ChunkRequest := ⟨⟨max (chunkEnd - coldBackwardChunkDuration) startNs, chunkEnd⟩,
          min (limit - acc) maxLimitRows⟩
        have hcount : countNDJSONLines (store.answer req) = (store.oldest req).length :=
          countNDJSONLines_body _
        rw [map_cons, append_cons]
        by_cases hdone : limit ≤ acc + (store.oldest req).length
        · have hwanted : limit - acc - (store.oldest req).length = 0 := by omega
          rw [hwanted, served_zero]
          simp only [bind, Except.bind, hcount, hdone, if_true]
          exact congrArg _ (append_nil _).symm
        · have hrest := ih (bodies ++ [store.answer req]) (acc + (store.oldest req).length)
            req.range.startNs (by
              have hlow : req.range.startNs - startNs ≤
                  max (chunkEnd - coldBackwardChunkDuration - startNs) 0 := by
                simp only [req]
                omega
              push_cast at hn
              unfold coldBackwardChunkDuration at *
              omega)
          rw [← Nat.sub_sub] at hrest
          simp only [bind, Except.bind, hcount, hdone, if_false]
          exact hrest
    · simp only [loop, fetchChunk, chunks, hend, if_false]
      exact congrArg _ (append_nil bodies).symm

/-! ## When the collected rows are the newest -/

theorem room_pos (h : wanted ≠ 0) : 0 < min wanted maxLimitRows := by
  have hmax : 0 < maxLimitRows := by decide
  omega

/-- In a clear chunk the oldest rows that fit are its fresh rows. -/
theorem oldest_of_clear {room : Nat} (h : (store.fresh shared range).length = room ∨
      (store.fresh shared range).length ≤ room ∧ store.again shared range = []) :
    store.oldest ⟨range, room⟩ = store.fresh shared range := by
  rw [oldest, inside_eq shared]
  rcases h with hexact | ⟨hle, hnone⟩
  · exact take_left' hexact
  · rw [hnone, append_nil]
    exact take_of_length_le hle

theorem fresh_empty : store.fresh true ⟨startNs, startNs⟩ = [] := by
  rw [eq_nil_iff_forall_not_mem]
  intro row hrow
  obtain ⟨-, hlow, -, hhigh⟩ := mem_fresh hrow
  have hlt := hhigh rfl
  dsimp only at hlow hlt
  omega

theorem take_reverse_append {older new : List ColdRow} (h : new.length ≤ wanted) :
    (older ++ new).reverse.take wanted =
      new.reverse ++ older.reverse.take (wanted - new.length) := by
  rw [reverse_append, take_append, length_reverse,
    take_of_length_le (by rwa [length_reverse])]

/-- A chunk that the condition does not clear is answered with a wrong newest row. -/
theorem head?_of_not_clear {startNs bound endNs : Int} {room : Nat} (hnodup : store.rows.Nodup)
    (hroom : 0 < room) (hlow : startNs ≤ bound) (hhigh : bound < endNs)
    (h : ¬ ((store.fresh shared ⟨bound, endNs⟩).length = room ∨
      (store.fresh shared ⟨bound, endNs⟩).length ≤ room ∧ store.again shared ⟨bound, endNs⟩ = [])) :
    ∃ row, (store.oldest ⟨⟨bound, endNs⟩, room⟩).getLast? = some row ∧
      (store.fresh shared ⟨startNs, endNs⟩).getLast? ≠ some row := by
  set new := store.fresh shared ⟨bound, endNs⟩ with hnew
  rw [oldest, inside_eq shared, ← hnew]
  rw [not_or, not_and] at h
  obtain ⟨hne, hagain⟩ := h
  by_cases hcut : new.length ≤ room
  · -- rows on the shared end come again
    have hsome := hagain hcut
    have hextra : (store.again shared ⟨bound, endNs⟩).take (room - new.length) ≠ [] := by
      rw [Ne, take_eq_nil_iff]
      rintro (hzero | hnil)
      · omega
      · exact hsome hnil
    obtain ⟨row, hrow⟩ := getLast?_isSome.mpr hextra |> Option.isSome_iff_exists.mp
    refine ⟨row, ?_, ?_⟩
    · rw [take_append, getLast?_append, hrow]
      rfl
    · intro hlast
      obtain ⟨hshared, -, hts⟩ := mem_again (mem_of_mem_take (mem_of_getLast? hrow))
      obtain ⟨-, -, -, hlt⟩ := mem_fresh (mem_of_getLast? hlast)
      have hlt' := hlt hshared
      dsimp only at hts hlt'
      omega
  · -- the newest rows of the chunk are cut off
    have hlt : room < new.length := by omega
    have hdistinct : new.Nodup := List.Nodup.filter _ hnodup
    refine ⟨new[room - 1], ?_, ?_⟩
    · rw [take_append_of_le_length (Nat.le_of_lt hlt), getLast?_eq_getElem?,
        length_take_of_le (Nat.le_of_lt hlt), getElem?_take_of_lt (Nat.sub_one_lt_of_lt hroom),
        getElem?_eq_getElem (by omega)]
    · have htotal : store.fresh shared ⟨startNs, endNs⟩ = store.fresh true ⟨startNs, bound⟩ ++ new :=
        fresh_split hlow hhigh
      rw [htotal, getLast?_append, getLast?_eq_getElem?,
        getElem?_eq_getElem (by omega), Option.some_or, Ne, Option.some.injEq,
        hdistinct.getElem_inj_iff]
      omega

theorem head?_take_reverse {rows : List ColdRow} (h : wanted ≠ 0) :
    (rows.reverse.take wanted).head? = rows.getLast? := by
  rw [head?_take, if_neg h, head?_reverse]

/-- Over the chunks of a range, the rows collected for it are its newest ones exactly when every
chunk that is reached is clear; that no other rows will do needs rows that can be told apart. -/
theorem served_newest (n : Nat) (shared : Bool) (endNs : Int) (wanted : Nat)
    (hn : endNs - startNs ≤ n * coldBackwardChunkDuration)
    (hrange : startNs < endNs ∨ shared = true ∧ startNs ≤ endNs) :
    (store.ClearChunks shared (chunks startNs n endNs) wanted →
      ((store.served (chunks startNs n endNs) wanted).flatMap List.reverse).take wanted =
        (store.fresh shared ⟨startNs, endNs⟩).reverse.take wanted) ∧
    (store.rows.Nodup →
      ((store.served (chunks startNs n endNs) wanted).flatMap List.reverse).take wanted =
        (store.fresh shared ⟨startNs, endNs⟩).reverse.take wanted →
      store.ClearChunks shared (chunks startNs n endNs) wanted) := by
  induction n generalizing shared endNs wanted with
  | zero =>
    -- only the empty range needs no chunk
    obtain ⟨rfl, hend⟩ : shared = true ∧ endNs = startNs := by grind
    rw [hend, fresh_empty]
    exact ⟨fun _ => rfl, fun _ _ => trivial⟩
  | succ n ih =>
    by_cases hlt : startNs < endNs
    · have hlow : startNs ≤ max (endNs - coldBackwardChunkDuration) startNs := by omega
      have hhigh : max (endNs - coldBackwardChunkDuration) startNs < endNs := by
        unfold coldBackwardChunkDuration
        omega
      have hnext : max (endNs - coldBackwardChunkDuration) startNs - startNs ≤
          n * coldBackwardChunkDuration := by
        push_cast at hn
        unfold coldBackwardChunkDuration at *
        omega
      simp only [chunks, if_pos hlt]
      generalize max (endNs - coldBackwardChunkDuration) startNs = bound at hlow hhigh hnext ⊢
      by_cases hwanted : wanted = 0
      · subst hwanted
        exact ⟨fun _ => rfl, fun _ _ => .inl rfl⟩
      rw [served, if_neg hwanted]
      simp only [flatMap_cons, ClearChunks, hwanted, false_or]
      have ih := ih true bound (wanted - (store.fresh shared ⟨bound, endNs⟩).length) hnext
        (.inr ⟨rfl, hlow⟩)
      by_cases hclear : (store.fresh shared ⟨bound, endNs⟩).length = min wanted maxLimitRows ∨
          (store.fresh shared ⟨bound, endNs⟩).length ≤ min wanted maxLimitRows ∧
            store.again shared ⟨bound, endNs⟩ = []
      · have hle : (store.fresh shared ⟨bound, endNs⟩).length ≤ wanted := by omega
        rw [oldest_of_clear hclear, fresh_split hlow hhigh, take_reverse_append hle,
          take_append, length_reverse, take_of_length_le (by rwa [length_reverse]),
          append_cancel_left_eq]
        exact ⟨fun h => ih.1 h.2, fun hnodup heq => ⟨hclear, ih.2 hnodup heq⟩⟩
      · refine ⟨fun h => absurd h.1 hclear, fun hnodup heq => ?_⟩
        obtain ⟨row, hserved, hnewest⟩ :=
          head?_of_not_clear hnodup (room_pos hwanted) hlow hhigh hclear
        have hhead := congrArg List.head? heq
        rw [head?_take_reverse hwanted, head?_take, if_neg hwanted, head?_append,
          head?_reverse, hserved] at hhead
        exact absurd hhead.symm hnewest
    · obtain ⟨rfl, hend⟩ : shared = true ∧ endNs = startNs := by grind
      rw [hend, fresh_empty]
      simp only [chunks, lt_irrefl, if_false]
      exact ⟨fun _ => rfl, fun _ _ => trivial⟩

/-! ## The answer -/

theorem chunkCount_covers (range : NanoRange) :
    range.endNs - range.startNs ≤
      (chunkCount range.startNs range.endNs : Nat) * coldBackwardChunkDuration := by
  unfold chunkCount coldBackwardChunkDuration
  omega

/-- The answer of the cold path, in terms of the rows of the store. -/
theorem proxyLogQueryCold_eq {ε : Type} (store : ColdStore) (range : NanoRange) (limitParam : Text) :
    proxyLogQueryCold (fun req => (.ok (store.answer req) : Except ε Text)) range limitParam =
      .ok (joinLines ((((store.served (chunks range.startNs (chunkCount range.startNs range.endNs)
        range.endNs) (queryLimit limitParam)).flatMap List.reverse).take
          (queryLimit limitParam)).map ColdRow.line)) := by
  rw [proxyLogQueryCold, coldBackwardChunkedFetch, loop_fetchChunk _ _ _ _ _ _ (chunkCount_covers range),
    nil_append, Nat.sub_zero]
  set answers := store.served _ (queryLimit limitParam)
  have hreverse : answers.reverse.flatten.reverse = answers.flatMap List.reverse := by
    rw [reverse_flatten, map_reverse, reverse_reverse, flatMap_def]
  refine congrArg Except.ok ?_
  rw [← map_reverse, flatten_map_body, reverseNDJSONBody, body,
    bodyLines_ndjson (isLine_map _), trimNDJSONBodyToLimit, ← map_reverse,
    bodyLines_joinLines (isLine_map _), hreverse, map_take]

theorem inside_eq_fresh (range : NanoRange) : store.inside range = store.fresh false range := by
  have hagain : store.again false range = [] := by simp [again]
  rw [inside_eq false, hagain, append_nil]

theorem map_line_inj (hdistinct : (store.rows.map ColdRow.line).Nodup) {a b : List ColdRow}
    (ha : ∀ row ∈ a, row ∈ store.rows) (hb : ∀ row ∈ b, row ∈ store.rows)
    (h : a.map ColdRow.line = b.map ColdRow.line) : a = b := by
  induction a generalizing b with
  | nil => exact (map_eq_nil_iff.mp h.symm).symm
  | cons x a ih =>
    cases b with
    | nil => cases h
    | cons y b =>
      rw [map_cons, map_cons, cons.injEq] at h
      have hxy : x = y := inj_on_of_nodup_map hdistinct (ha x mem_cons_self)
        (hb y mem_cons_self) h.1
      rw [hxy, ih (fun row hrow => ha row (mem_cons_of_mem _ hrow))
        (fun row hrow => hb row (mem_cons_of_mem _ hrow)) h.2]

theorem mem_rows_of_served {ranges : List NanoRange}
    (h : row ∈ (store.served ranges wanted).flatMap List.reverse) : row ∈ store.rows := by
  induction ranges generalizing wanted with
  | nil => cases h
  | cons range ranges ih =>
    rw [served] at h
    split at h
    · cases h
    · rw [flatMap_cons, mem_append, mem_reverse] at h
      rcases h with hrow | hrow
      · exact mem_of_mem_filter (mem_of_mem_take hrow)
      · exact ih hrow

/-- The collected rows are the newest ones exactly when every chunk that is reached is clear. -/
theorem collected_newest_iff (range : NanoRange) {limit : Nat} (hlimit : 0 < limit) :
    let collected := ((store.served (chunks range.startNs (chunkCount range.startNs range.endNs)
      range.endNs) limit).flatMap List.reverse).take limit
    (store.Clear range limit → collected = (store.inside range).reverse.take limit) ∧
      (store.rows.Nodup → collected = (store.inside range).reverse.take limit →
        store.Clear range limit) := by
  intro collected
  by_cases hrange : range.startNs < range.endNs
  · rw [Clear, if_pos hrange, inside_eq_fresh]
    exact served_newest range.startNs _ false range.endNs limit (chunkCount_covers range)
      (.inl hrange)
  · -- no chunk is fetched
    have hnone : collected = [] := by
      have hchunks : chunks range.startNs (chunkCount range.startNs range.endNs) range.endNs = [] := by
        rw [chunkCount, chunks, if_neg hrange]
      simp only [collected, hchunks, served, flatMap_nil, take_nil]
    rw [Clear, if_neg hrange, hnone]
    refine ⟨?_, ?_⟩
    · intro hempty
      rw [hempty, reverse_nil, take_nil]
    · intro _ hempty
      rw [eq_comm, take_eq_nil_iff, reverse_eq_nil_iff] at hempty
      exact hempty.resolve_left (by omega)

/-- A backward query to cold storage returns the newest rows when every chunk it reaches is
clear; with rows whose lines differ, only then. -/
theorem cold_backward_newest {ε : Type} (store : ColdStore) (range : NanoRange) (limitParam : Text) :
    (store.Clear range (queryLimit limitParam) →
      proxyLogQueryCold (fun req => (.ok (store.answer req) : Except ε Text)) range limitParam =
        .ok (joinLines (store.newest range (queryLimit limitParam)))) ∧
    ((store.rows.map ColdRow.line).Nodup →
      proxyLogQueryCold (fun req => (.ok (store.answer req) : Except ε Text)) range limitParam =
        .ok (joinLines (store.newest range (queryLimit limitParam))) →
      store.Clear range (queryLimit limitParam)) := by
  have hcollected := store.collected_newest_iff range (queryLimit_pos limitParam)
  rw [proxyLogQueryCold_eq, newest]
  refine ⟨?_, ?_⟩
  · intro hclear
    rw [hcollected.1 hclear]
  · intro hdistinct heq
    refine hcollected.2 (List.Nodup.of_map _ hdistinct) (map_line_inj hdistinct ?_ ?_ ?_)
    · intro row hrow
      exact mem_rows_of_served (mem_of_mem_take hrow)
    · intro row hrow
      exact mem_of_mem_filter (mem_reverse.mp (mem_of_mem_take hrow))
    · exact joinLines_inj (isLine_map _) (isLine_map _) (Except.ok.inj heq)

/-- Two rows in one hour. -/
def twoRows : ColdStore where
  rows := [⟨1, ['a'], by decide⟩, ⟨2, ['b'], by decide⟩]
  ordered := by decide

theorem cold_backward_newest_two :
    twoRows.Clear ⟨0, 10⟩ (queryLimit ['2']) ∧
      proxyLogQueryCold (fun req => (.ok (twoRows.answer req) : Except Unit Text)) ⟨0, 10⟩ ['2'] =
        .ok (joinLines (twoRows.newest ⟨0, 10⟩ (queryLimit ['2']))) := by
  have hclear : twoRows.Clear ⟨0, 10⟩ (queryLimit ['2']) := by
    rw [Clear, if_pos (by decide)]
    exact .inr ⟨.inl (by decide), trivial⟩
  exact ⟨hclear, (cold_backward_newest twoRows ⟨0, 10⟩ ['2']).1 hclear⟩

/-- A limit of one gives the older row; a row on the shared end of two chunks comes twice; the
row of a range of one instant is not found. -/
theorem cold_backward_misses_newest :
    (proxyLogQueryCold (fun req => (.ok (twoRows.answer req) : Except Unit Text)) ⟨0, 10⟩ ['1'] =
        .ok ['a'] ∧ twoRows.newest ⟨0, 10⟩ 1 = [['b']]) ∧
      proxyLogQueryCold (fun req => (.ok (twoRows.answer req) : Except Unit Text))
        ⟨0, 1 + coldBackwardChunkDuration⟩ ['9'] = .ok ['b', '\n', 'a', '\n', 'a'] ∧
      (proxyLogQueryCold (fun req => (.ok (twoRows.answer req) : Except Unit Text)) ⟨1, 1⟩ ['9'] =
        .ok [] ∧ twoRows.newest ⟨1, 1⟩ 9 = [['a']]) := by
  decide +kernel

end ColdStore

end LokiVlProxy.Proxy
