/-
  Proxy/WindowedQuery.lean --- the batch loop of a windowed log query and the rows it returns.

  Source: internal/proxy/query_range_windowing.go: proxyLogQueryWindowed,
  fetchQueryRangeWindowBatch.

  The windows are fetched in batches.
-/
import LokiVlProxy.Proxy.BackendErr
import LokiVlProxy.Proxy.WindowRows

namespace LokiVlProxy.Proxy

open Foundation List

def queryRangeBatchRetryAttempts : Nat := 3

/-- One call of `fetchQueryRangeWindowBatch`: the index of the first window, the number of
windows, and the retries made so far. -/
structure Attempt where
  start : Nat
  size : Nat
  retry : Nat
  deriving DecidableEq, Repr

structure Env (σ ε : Type) where
  /-- `queryRangeWindowBatchParallelLimit` for the window with this index -/
  parallel : Nat → Int
  /-- `fetchQueryRangeWindowBatch` with the windows and the limit for each -/
  fetchBatch : σ → Attempt → List Window → Nat → Except BackendErr (List (List ε)) × σ
  /-- the request's context ends during the backoff after this attempt -/
  ctxDone : Attempt → Bool
  /-- `queryRangePartialResponses` -/
  partialResponses : Bool

/-- How the tries of one batch end; `size` is the size of the last try. -/
inductive BatchEnd (σ ε : Type) where
  | fetched (results : List (List ε)) (size : Nat) (s : σ)
  /-- a retryable failure that outlasted the retries, with partial responses -/
  | gaveUp (size : Nat) (s : σ)
  | timedOut (s : σ)
  | failed (err : BackendErr) (s : σ)

/-- What the client gets. -/
inductive Outcome (ε : Type) where
  /-- the entries, and whether the response is marked as partial -/
  | answered (isPartial : Bool) (collected : List ε)
  | timedOut
  | failed (err : BackendErr)
  /-- not a windowed query: the caller goes on without windows -/
  | notHandled
  | panicked
  deriving DecidableEq, Repr

variable {σ ε : Type}

/-- The inner loop: one batch with its retries. -/
def retryLoop (env : Env σ ε) (windows : List Window) (i remaining : Nat) (s : σ)
    (batchSize retryAttempt : Nat) : BatchEnd σ ε :=
  let attempt : Attempt := ⟨i, batchSize, retryAttempt⟩
  match env.fetchBatch s attempt ((windows.drop i).take batchSize) remaining with
  | (.ok results, s) => .fetched results batchSize s
  | (.error err, s) =>
      if shouldRetryQueryRangeWindow (some err) ∧ batchSize > 1 then
        if env.ctxDone attempt then .timedOut s
        else retryLoop env windows i remaining s (max 1 (batchSize / 2)) (retryAttempt + 1)
      else if shouldRetryQueryRangeWindow (some err) ∧ batchSize = 1 ∧
          retryAttempt < queryRangeBatchRetryAttempts then
        if env.ctxDone attempt then .timedOut s
        else retryLoop env windows i remaining s batchSize (retryAttempt + 1)
      else if shouldRetryQueryRangeWindow (some err) ∧ env.partialResponses then
        .gaveUp batchSize s
      else .failed err s
termination_by batchSize + (queryRangeBatchRetryAttempts - retryAttempt)

/-- The results of a batch, appended one after the other until the limit is reached. -/
def appendResults (limit : Nat) : List (List ε) → List ε × Nat → List ε × Nat
  | [], s => s
  | result :: results, (collected, remaining) =>
      if result.length = 0 then appendResults limit results (collected, remaining)
      else if (collected ++ result).length ≥ limit then ((collected ++ result).take limit, 0)
      else appendResults limit results (collected ++ result, limit - (collected ++ result).length)

/-- The size of the next batch. -/
def batchSizeAt (env : Env σ ε) (windows : List Window) (i : Nat) : Nat :=
  let batchSize := min (env.parallel i) (windows.length - i)
  if batchSize ≤ 0 then 1 else batchSize.toNat

theorem batchSizeAt_pos (env : Env σ ε) (windows : List Window) (i : Nat) :
    1 ≤ batchSizeAt env windows i := by
  simp only [batchSizeAt]
  split <;> omega

/-- The number of windows a batch has gone through. -/
def BatchEnd.size : BatchEnd σ ε → Nat
  | .fetched _ size _ => size
  | .gaveUp size _ => size
  | .timedOut _ => 1
  | .failed _ _ => 1

theorem retryLoop_size_pos (env : Env σ ε) (windows : List Window) (i remaining : Nat) (s : σ)
    {batchSize : Nat} (h : 1 ≤ batchSize) (retryAttempt : Nat) :
    1 ≤ (retryLoop env windows i remaining s batchSize retryAttempt).size := by
  fun_induction retryLoop env windows i remaining s batchSize retryAttempt with
  | case3 s batchSize retryAttempt attempt err s' hfetch hretry hctx ih =>
    exact ih (Nat.le_max_left 1 _)
  | case5 s batchSize retryAttempt attempt err s' hfetch hnot hretry hctx ih => exact ih h
  | _ => simp_all [BatchEnd.size]

/-- The outer loop. -/
def batchLoop (env : Env σ ε) (windows : List Window) (limit i remaining : Nat)
    (collected : List ε) (isPartial : Bool) (s : σ) : Outcome ε × σ :=
  if i < windows.length ∧ remaining > 0 then
    match _hend : retryLoop env windows i remaining s (batchSizeAt env windows i) 0 with
    | .fetched results size s' =>
        batchLoop env windows limit (i + size)
          (appendResults limit results (collected, remaining)).2
          (appendResults limit results (collected, remaining)).1 isPartial s'
    | .gaveUp size s' => batchLoop env windows limit (i + size) remaining collected true s'
    | .timedOut s' => (.timedOut, s')
    | .failed err s' => (.failed err, s')
  else (.answered isPartial collected, s)
termination_by windows.length - i
decreasing_by
  all_goals
    have hsize := retryLoop_size_pos env windows i remaining s (batchSizeAt_pos env windows i) 0
    rw [_hend, BatchEnd.size] at hsize
    omega

/-- One round of the loop over the batches. -/
theorem batchLoop_round (env : Env σ ε) {windows : List Window} {limit i remaining : Nat}
    (hi : i < windows.length) (hremaining : 0 < remaining) (collected : List ε) (isPartial : Bool)
    (s : σ) :
    batchLoop env windows limit i remaining collected isPartial s =
      match retryLoop env windows i remaining s (batchSizeAt env windows i) 0 with
      | .fetched results size s' =>
        batchLoop env windows limit (i + size)
          (appendResults limit results (collected, remaining)).2
          (appendResults limit results (collected, remaining)).1 isPartial s'
      | .gaveUp size s' => batchLoop env windows limit (i + size) remaining collected true s'
      | .timedOut s' => (.timedOut, s')
      | .failed err s' => (.failed err, s') := by
  rw [batchLoop, if_pos ⟨hi, hremaining⟩]
  split <;> rename_i hend <;> rw [hend]

/-! ## The limit -/

/-- Appending the answers of a batch takes rows up to the limit. -/
theorem appendResults_eq {limit : Nat} {collected : List ε} (hlt : collected.length < limit)
    (results : List (List ε)) :
    appendResults limit results (collected, limit - collected.length) =
      ((collected ++ results.flatten).take limit,
        limit - ((collected ++ results.flatten).take limit).length) := by
  induction results generalizing collected with
  | nil =>
    rw [flatten_nil, append_nil, take_of_length_le (Nat.le_of_lt hlt)]
    rfl
  | cons result results ih =>
    rw [flatten_cons, ← append_assoc, appendResults]
    split
    · rename_i hempty
      obtain rfl := eq_nil_of_length_eq_zero hempty
      rw [append_nil]
      exact ih hlt
    · split
      · rename_i hfull
        rw [take_append_of_le_length hfull, length_take, Nat.min_eq_left hfull,
          Nat.sub_self]
      · rename_i hroom
        exact ih (Nat.not_le.mp hroom)

/-! ## Requests whose fetches do not depend on each other -/

/-- The course of a request: which batches are tried, and which attempts fail. -/
structure Course where
  parallel : Nat → Int
  outcome : Attempt → Option BackendErr
  ctxDone : Attempt → Bool
  partialResponses : Bool

namespace Course

/-- The request with this course, in which a fetch of a window that succeeds returns
`answer`. -/
def env (course : Course) (answer : Window → Nat → List ε) : Env Unit ε where
  parallel := course.parallel
  fetchBatch := fun _ attempt windows limit =>
    match course.outcome attempt with
    | none => (.ok (windows.map fun w => answer w limit), ())
    | some err => (.error err, ())
  ctxDone := course.ctxDone
  partialResponses := course.partialResponses

/-- How the batch that starts at a window ends, whatever the fetches return. -/
def settle (course : Course) (windows : List Window) (i batchSize retryAttempt : Nat) :
    BatchEnd Unit Unit :=
  retryLoop (course.env fun _ _ => []) windows i 1 () batchSize retryAttempt

/-- The results of the batch with the answers put in. -/
def withAnswers (windows : List Window) (i remaining : Nat) (answer : Window → Nat → List ε) :
    BatchEnd Unit Unit → BatchEnd Unit ε
  | .fetched _ size s =>
      .fetched (((windows.drop i).take size).map fun w => answer w remaining) size s
  | .gaveUp size s => .gaveUp size s
  | .timedOut s => .timedOut s
  | .failed err s => .failed err s

variable {attempt : Attempt}

theorem fetchBatch_env (course : Course) (answer : Window → Nat → List ε) (attempt : Attempt)
    (windows : List Window) (limit : Nat) :
    (course.env answer).fetchBatch () attempt windows limit =
      match course.outcome attempt with
      | none => (.ok (windows.map fun w => answer w limit), ())
      | some err => (.error err, ()) := rfl

theorem retryLoop_env (course : Course) (answer : Window → Nat → List ε) (windows : List Window)
    (i remaining batchSize retryAttempt : Nat) :
    retryLoop (course.env answer) windows i remaining () batchSize retryAttempt =
      withAnswers windows i remaining answer
        (course.settle windows i batchSize retryAttempt) := by
  rw [settle, retryLoop, retryLoop]
  cases hout : course.outcome ⟨i, batchSize, retryAttempt⟩ with
  | none => simp only [fetchBatch_env, hout, withAnswers]
  | some err =>
    simp only [fetchBatch_env, hout, apply_ite (withAnswers windows i remaining answer)]
    refine ite_congr rfl (fun _ => ?_) fun _ => ?_
    · refine ite_congr rfl (fun _ => rfl) fun _ => ?_
      exact retryLoop_env course answer windows i remaining _ _
    · refine ite_congr rfl (fun _ => ?_) fun _ => ?_
      · refine ite_congr rfl (fun _ => rfl) fun _ => ?_
        exact retryLoop_env course answer windows i remaining _ _
      · exact ite_congr rfl (fun _ => rfl) fun _ => rfl
termination_by batchSize + (queryRangeBatchRetryAttempts - retryAttempt)

end Course

/-! ## How the batches end

The course of a request decides how the windows fall into batches and which batches are given up
(`Course.plan`). -/

/-- The batch neither ends the request with an error nor with a timeout. -/
def BatchEnd.goesOn {σ ε : Type} : BatchEnd σ ε → Prop
  | .fetched _ _ _ => True
  | .gaveUp _ _ => True
  | .timedOut _ => False
  | .failed _ _ => False

namespace Course

variable (course : Course)

/-- How the batch that starts at a window ends. -/
def batchEnd (windows : List Window) (i : Nat) : BatchEnd Unit Unit :=
  course.settle windows i (batchSizeAt (course.env fun _ _ => ([] : List Unit)) windows i) 0

theorem batchEnd_size_pos (windows : List Window) (i : Nat) :
    1 ≤ (course.batchEnd windows i).size :=
  retryLoop_size_pos _ windows i 1 () (batchSizeAt_pos _ windows i) 0

/-- The batches of a request, each with whether it arrives, as far as the request gets. -/
def plan (course : Course) (windows : List Window) (i : Nat) : List (List Window × Bool) :=
  if i < windows.length then
    match _hend : course.batchEnd windows i with
    | .fetched _ size _ => ((windows.drop i).take size, true) :: plan course windows (i + size)
    | .gaveUp size _ => ((windows.drop i).take size, false) :: plan course windows (i + size)
    | .timedOut _ => []
    | .failed _ _ => []
  else []
termination_by windows.length - i
decreasing_by
  all_goals
    have hsize := course.batchEnd_size_pos windows i
    rw [_hend, BatchEnd.size] at hsize
    omega

variable {windows : List Window}

/-- The batches of a plan that goes on are all the windows. -/
theorem flatMap_plan {course : Course} (h : ∀ i, (course.batchEnd windows i).goesOn) (i : Nat) :
    (course.plan windows i).flatMap Prod.fst = windows.drop i := by
  fun_induction plan course windows i with
  | case1 i hi results size s hend ih | case2 i hi size s hend ih =>
    rw [flatMap_cons, ih, ← drop_drop, take_append_drop]
  | case3 i hi s hend => exact absurd (h i) (by simp [hend, BatchEnd.goesOn])
  | case4 i hi err s hend => exact absurd (h i) (by simp [hend, BatchEnd.goesOn])
  | case5 i hi => rw [drop_of_length_le (Nat.not_lt.mp hi), flatMap_nil]

/-- One round, in terms of the plan. -/
theorem batchLoop_step {ε : Type} (answer : Window → Nat → List ε)
    {limit i remaining : Nat} (hi : i < windows.length) (hremaining : 0 < remaining)
    (collected : List ε) (isPartial : Bool) :
    batchLoop (course.env answer) windows limit i remaining collected isPartial () =
      match course.batchEnd windows i with
      | .fetched _ size _ =>
        let appended := appendResults limit
          (((windows.drop i).take size).map fun w => answer w remaining) (collected, remaining)
        batchLoop (course.env answer) windows limit (i + size) appended.2 appended.1 isPartial ()
      | .gaveUp size _ =>
        batchLoop (course.env answer) windows limit (i + size) remaining collected true ()
      | .timedOut _ => (.timedOut, ())
      | .failed err _ => (.failed err, ()) := by
  have hloop : retryLoop (course.env answer) windows i remaining ()
      (batchSizeAt (course.env answer) windows i) 0 =
      withAnswers windows i remaining answer (course.batchEnd windows i) :=
    retryLoop_env course answer windows i remaining _ 0
  rw [batchLoop_round _ hi hremaining, hloop]
  cases course.batchEnd windows i <;> rfl

/-! ## The rows returned -/

section Returned

variable {ε : Type} {rows : Window → List ε} {answer : Window → Nat → List ε}

/-- Up to the budget, what is answered for each window are the first of its rows, if at least
as many are asked for as the budget allows. -/
def AnswersUpTo (rows : Window → List ε) (answer : Window → Nat → List ε) :
    Nat → List Window → Prop :=
  Along (fun w => (rows w).length) fun budget w =>
    ∀ limit, budget ≤ limit → (answer w limit).take budget = (rows w).take budget

variable {limit : Nat} {collected : List ε} {windows : List Window}

theorem appendResults_answers {batch : List Window} (hlt : collected.length < limit)
    (h : AnswersUpTo rows answer (limit - collected.length) batch) :
    appendResults limit (batch.map fun w => answer w (limit - collected.length))
        (collected, limit - collected.length) =
      ((collected ++ batch.flatMap rows).take limit,
        limit - ((collected ++ batch.flatMap rows).take limit).length) := by
  have hbatch : (batch.flatMap fun w => answer w (limit - collected.length)).take
      (limit - collected.length) = (batch.flatMap rows).take (limit - collected.length) :=
    take_flatMap_congr (h.mono fun _ hle _ _ hanswer => hanswer _ hle)
  have htake : (collected ++ (batch.map fun w => answer w (limit - collected.length)).flatten).take
      limit = (collected ++ batch.flatMap rows).take limit := by
    rw [← flatMap_def, take_append, take_append, hbatch]
  rw [appendResults_eq hlt, htake]

theorem batchLoop_full {env : Env Unit ε} {i : Nat} {isPartial : Bool}
    (hfull : collected.length = limit) :
    batchLoop env windows limit i (limit - collected.length) collected isPartial () =
      (.answered isPartial collected, ()) := by
  rw [batchLoop, if_neg (by omega)]

theorem take_take_append {α : Type} (limit : Nat) (xs ys : List α) :
    (xs.take limit ++ ys).take limit = (xs ++ ys).take limit := by
  rw [take_append, take_append, take_take, Nat.min_self, length_take]
  congr 2
  omega

/-- From any point of the loop on, the rows of the batches that arrive are appended, up to
the limit. -/
theorem batchLoop_env {course : Course} (hon : ∀ i, (course.batchEnd windows i).goesOn) {i : Nat}
    (hle : collected.length ≤ limit) (hanswers : AnswersUpTo rows answer (limit - collected.length)
      (present (course.plan windows i)))
    (isPartial : Bool) :
    ∃ isPartial', batchLoop (course.env answer) windows limit i (limit - collected.length)
        collected isPartial () =
      (.answered isPartial'
        ((collected ++ (present (course.plan windows i)).flatMap rows).take limit), ()) ∧
      ((∀ batch ∈ course.plan windows i, batch.2 = true) → isPartial' = isPartial) := by
  fun_induction plan course windows i generalizing collected isPartial with
  | case1 i hi results size s hend ih =>
    rw [present_cons_true] at hanswers ⊢
    rw [flatMap_append, ← append_assoc]
    rcases Nat.eq_or_lt_of_le hle with hfull | hlt
    · refine ⟨isPartial, ?_, fun _ => rfl⟩
      rw [batchLoop_full hfull, ← hfull, append_assoc, take_left]
    · rw [batchLoop_step course _ hi (Nat.sub_pos_of_lt hlt), hend]
      simp only [appendResults_answers hlt hanswers.left]
      have hbudget : ∀ more : List ε, limit - ((collected ++ more).take limit).length =
          limit - collected.length - more.length := by
        intro more
        rw [length_take, length_append]
        omega
      have hrest := hanswers.right
      rw [← hbudget] at hrest
      obtain ⟨isPartial', heq, hall⟩ := ih (by simp) hrest isPartial
      refine ⟨isPartial', ?_, fun h => hall fun batch hb => h batch (mem_cons_of_mem _ hb)⟩
      rw [take_take_append] at heq
      exact heq
  | case2 i hi size s hend ih =>
    rw [present_cons_false] at hanswers ⊢
    rcases Nat.eq_or_lt_of_le hle with hfull | hlt
    · refine ⟨isPartial, ?_, fun _ => rfl⟩
      rw [batchLoop_full hfull, ← hfull, take_left]
    · rw [batchLoop_step course _ hi (Nat.sub_pos_of_lt hlt), hend]
      obtain ⟨isPartial', heq, -⟩ := ih hle hanswers true
      refine ⟨isPartial', heq, fun hall => ?_⟩
      exact absurd (hall _ mem_cons_self) (by simp)
  | case3 i hi s hend => exact absurd (hon i) (by simp [hend, BatchEnd.goesOn])
  | case4 i hi err s hend => exact absurd (hon i) (by simp [hend, BatchEnd.goesOn])
  | case5 i hi =>
    refine ⟨isPartial, ?_, fun _ => rfl⟩
    rw [batchLoop, if_neg (fun h => hi h.1), present_nil, flatMap_nil, append_nil,
      take_of_length_le hle]

/-! ## Requests without failures -/

/-- The request with the same batch sizes in which every fetch succeeds. -/
def withoutFailures (course : Course) : Course := { course with outcome := fun _ => none }

variable (course : Course)

theorem batchEnd_withoutFailures (windows : List Window) (i : Nat) :
    ∃ results, course.withoutFailures.batchEnd windows i =
      .fetched results (batchSizeAt (course.env fun _ _ => ([] : List Unit)) windows i) () := by
  rw [batchEnd, settle, retryLoop]
  simp only [fetchBatch_env, withoutFailures]
  exact ⟨_, rfl⟩

theorem goesOn_withoutFailures (windows : List Window) (i : Nat) :
    (course.withoutFailures.batchEnd windows i).goesOn := by
  obtain ⟨results, hend⟩ := course.batchEnd_withoutFailures windows i
  rw [hend]
  trivial

theorem plan_withoutFailures (windows : List Window) (i : Nat) :
    ∀ batch ∈ course.withoutFailures.plan windows i, batch.2 = true := by
  intro batch hbatch
  fun_induction plan course.withoutFailures windows i with
  | case1 i hi results size s hend ih =>
    rcases mem_cons.mp hbatch with rfl | hrest
    · rfl
    · exact ih hrest
  | case2 i hi size s hend ih =>
    obtain ⟨results, hfetched⟩ := course.batchEnd_withoutFailures windows i
    rw [hend] at hfetched
    cases hfetched
  | case3 i hi s hend | case4 i hi err s hend | case5 i hi => cases hbatch

theorem present_withoutFailures (windows : List Window) :
    present (course.withoutFailures.plan windows 0) = windows := by
  rw [present, filter_eq_self.mpr (course.plan_withoutFailures windows 0),
    flatMap_plan (course.goesOn_withoutFailures windows), drop_zero]

/-- Without failures the loop answers with the rows of all the windows, up to the limit. -/
theorem batchLoop_withoutFailures (hanswers : AnswersUpTo rows answer limit windows) :
    batchLoop (course.withoutFailures.env answer) windows limit 0 limit [] false () =
      (.answered false ((windows.flatMap rows).take limit), ()) := by
  rw [← course.present_withoutFailures windows] at hanswers
  have hempty : ([] : List ε).length ≤ limit := Nat.zero_le limit
  obtain ⟨isPartial, heq, hwhole⟩ :=
    batchLoop_env (course.goesOn_withoutFailures windows) hempty hanswers false
  rw [hwhole (course.plan_withoutFailures windows 0), course.present_withoutFailures windows] at heq
  exact heq

end Returned

/-! ## The rows of the range -/

section Range

variable {dedupe : Bool} {stored : List Row} {direction : String}

/-- The request in which every window has the entries that the scan makes of its rows. -/
def served (course : Course) (dedupe : Bool) (stored : List Row) (direction : String) :
    Env Unit Row :=
  course.env fun w limit => w.entries dedupe stored direction limit

theorem answersUpTo_of_kept {budget : Nat} {windows : List Window}
    (h : KeptUpTo dedupe stored direction budget windows) :
    AnswersUpTo (Window.rows stored direction)
      (fun w limit => w.entries dedupe stored direction limit) budget windows :=
  h.mono fun _ _ _ _ hkept _ hle => Window.take_entries (by omega) hkept

end Range

end Course

/-- Three windows of ten nanoseconds. -/
def threeWindows : List Window := [⟨0, 9⟩, ⟨10, 19⟩, ⟨20, 29⟩]

/-- A row that the scan can use. -/
def usableRow (time : Int) (record : String) : Row := ⟨time, record, .usable⟩

end LokiVlProxy.Proxy
