/-
  Proxy/PartialAnswer.lean --- what a partial response holds.

  Source: internal/proxy/query_range_windowing.go: proxyLogQueryWindowed, the branch of
  queryRangePartialResponses.

  A batch that is given up ends the loop over its retries, not the loop over the windows:
  the windows behind it are still fetched and their rows appended.
-/
import LokiVlProxy.Proxy.WindowedQuery

namespace LokiVlProxy.Proxy

open Foundation List

namespace Course

/-- Every failure is one that is retried. -/
def OnlyRetryable (course : Course) : Prop :=
  ∀ attempt, ∀ err ∈ course.outcome attempt, shouldRetryQueryRangeWindow (some err) = true

/-- The same request of a client that waits for the answer. -/
def waiting (course : Course) : Course := { course with ctxDone := fun _ => false }

/-! ## The client's patience -/

/-- A batch ends with a timeout or as if the client had waited. -/
theorem settle_waiting (course : Course) (windows : List Window)
    (i batchSize retryAttempt : Nat) :
    course.settle windows i batchSize retryAttempt = .timedOut () ∨
      course.settle windows i batchSize retryAttempt =
        course.waiting.settle windows i batchSize retryAttempt := by
  have hwait : ∀ attempt, ¬ (course.waiting.env fun _ _ => ([] : List Unit)).ctxDone attempt =
      true := fun _ => Bool.false_ne_true
  have hsame : ∀ s attempt ws limit,
      (course.waiting.env fun _ _ => ([] : List Unit)).fetchBatch s attempt ws limit =
        (course.env fun _ _ => ([] : List Unit)).fetchBatch s attempt ws limit :=
    fun _ _ _ _ => rfl
  rw [settle, settle]
  fun_induction retryLoop (course.env fun _ _ => ([] : List Unit)) windows i 1 () batchSize
    retryAttempt with
  | case1 s batchSize retryAttempt attempt results s' hfetch =>
    refine .inr ?_
    rw [retryLoop]
    simp only [hsame, hfetch, attempt]
  | case2 | case4 => exact .inl rfl
  | case3 s batchSize retryAttempt attempt err s' hfetch hretry hctx ih =>
    rw [retryLoop.eq_def (course.waiting.env _)]
    simp only [hsame, hfetch, attempt, if_pos hretry, if_neg (hwait _)]
    exact ih
  | case5 s batchSize retryAttempt attempt err s' hfetch hnot hretry hctx ih =>
    rw [retryLoop.eq_def (course.waiting.env _)]
    simp only [hsame, hfetch, attempt, if_neg hnot, if_pos hretry, if_neg (hwait _)]
    exact ih
  | case6 s batchSize retryAttempt attempt err s' hfetch hnot hnot' hgive
  | case7 s batchSize retryAttempt attempt err s' hfetch hnot hnot' hgive =>
    refine .inr ?_
    rw [retryLoop]
    simp only [hsame, hfetch, attempt, if_neg hnot, if_neg hnot']
    split <;> trivial

theorem outcome_of_error {ε : Type} {course : Course} {answer : Window → Nat → List ε}
    {attempt : Attempt} {windows : List Window} {limit : Nat} {err : BackendErr} {s : Unit}
    (h : (course.env answer).fetchBatch () attempt windows limit = (.error err, s)) :
    course.outcome attempt = some err := by
  cases hout : course.outcome attempt with
  | none => simp [fetchBatch_env, hout] at h
  | some err' =>
    rw [fetchBatch_env, hout] at h
    cases h
    rfl

theorem goesOn_waiting {course : Course} (h : course.OnlyRetryable)
    (henabled : course.partialResponses = true) (windows : List Window) (i : Nat) :
    (course.waiting.batchEnd windows i).goesOn := by
  rw [batchEnd, settle]
  generalize batchSizeAt _ windows i = batchSize
  fun_induction retryLoop (course.waiting.env fun _ _ => ([] : List Unit)) windows i 1 () batchSize
    0 with
  | case1 | case6 => trivial
  | case2 | case4 =>
    rename_i hctx
    exact absurd hctx Bool.false_ne_true
  | case3 | case5 =>
    rename_i ih
    exact ih
  | case7 s batchSize retryAttempt attempt err s' hfetch hnot hnot' hgive =>
    have herr : course.waiting.outcome attempt = some err := outcome_of_error hfetch
    exact absurd ⟨h attempt err herr, henabled⟩ hgive

/-- A request ends with a timeout or as if the client had waited. -/
theorem batchLoop_waiting {ε : Type} (course : Course) (answer : Window → Nat → List ε)
    (windows : List Window) (limit i remaining : Nat) (collected : List ε) (isPartial : Bool) :
    batchLoop (course.env answer) windows limit i remaining collected isPartial () =
        (.timedOut, ()) ∨
      batchLoop (course.env answer) windows limit i remaining collected isPartial () =
        batchLoop (course.waiting.env answer) windows limit i remaining collected isPartial () := by
  by_cases hgo : i < windows.length ∧ remaining > 0
  · have hpos := course.batchEnd_size_pos windows i
    rw [batchLoop_step course answer hgo.1 hgo.2, batchLoop_step course.waiting answer hgo.1 hgo.2]
    have hend : course.batchEnd windows i = .timedOut () ∨
        course.batchEnd windows i = course.waiting.batchEnd windows i :=
      course.settle_waiting windows i _ 0
    rcases hend with hend | hend
    · rw [hend]
      exact .inl rfl
    · rw [← hend]
      cases hsize : course.batchEnd windows i with
      | fetched results size s | gaveUp size s =>
        have : 1 ≤ size := by simpa [hsize, BatchEnd.size] using hpos
        exact batchLoop_waiting course answer windows limit (i + size) _ _ _
      | timedOut s => exact .inl rfl
      | failed err s => exact .inr rfl
  · refine .inr ?_
    rw [batchLoop, if_neg hgo, batchLoop, if_neg hgo]
termination_by windows.length - i

/-! ## What is missing -/

section Prefix

variable {dedupe : Bool} {stored : List Row} {direction : String}

/-- The rows of each batch of the plan, with whether the batch arrives. -/
def plannedRows (course : Course) (stored : List Row) (direction : String)
    (windows : List Window) : List (List Row × Bool) :=
  (course.plan windows 0).map fun batch => (batch.1.flatMap (Window.rows stored direction), batch.2)

variable {windows : List Window}

/-- Where every batch goes on, the planned rows are those of all the windows. -/
theorem flatMap_plannedRows {course : Course} (hon : ∀ i, (course.batchEnd windows i).goesOn) :
    (course.plannedRows stored direction windows).flatMap Prod.fst =
      windows.flatMap (Window.rows stored direction) := by
  have hall := flatMap_plan hon 0
  rw [drop_zero] at hall
  rw [plannedRows, flatMap_map]
  conv_rhs => rw [← hall, flatMap_assoc]

/-- No row is in two windows of a split. -/
theorem disjoint_rows {startNs endNs interval : Int64} {align : Bool} {all : List Window}
    (hsplit : Window.splitQueryRangeWindowsWithOptions startNs endNs interval direction align =
      some all)
    (hsub : windows.Sublist all) :
    windows.Pairwise fun w w' =>
      (w.rows stored direction).Disjoint (w'.rows stored direction) := by
  refine ((Window.pairwise_split hsplit).sublist hsub).imp fun {w w'} happart row hrow hrow' => ?_
  have hin := (Row.mem_inSpan.mp hrow).2
  have hin' := (Row.mem_inSpan.mp hrow').2
  omega

theorem disjoint_plannedRows {course : Course} (hon : ∀ i, (course.batchEnd windows i).goesOn)
    (hdisj : windows.Pairwise fun w w' =>
      (w.rows stored direction).Disjoint (w'.rows stored direction)) :
    ((course.plannedRows stored direction windows).map Prod.fst).Pairwise List.Disjoint := by
  have hall := flatMap_plan hon 0
  rw [drop_zero, flatMap_def] at hall
  rw [← hall, pairwise_flatten] at hdisj
  have hbatches := pairwise_map.mp hdisj.2
  rw [plannedRows, map_map]
  refine pairwise_map.mpr (hbatches.imp fun {batch batch'} happart row hrow hrow' => ?_)
  obtain ⟨w, hw, hroww⟩ := mem_flatMap.mp hrow
  obtain ⟨w', hw', hroww'⟩ := mem_flatMap.mp hrow'
  exact happart w hw w' hw' hroww hroww'

/-- With partial responses on, the rows returned are the first rows of the whole answer
exactly when, up to the limit, nothing is found behind a batch that was given up. -/
theorem partial_answer_prefix_iff {startNs endNs interval : Int64} {align : Bool}
    {all windows : List Window} {limit : Nat} {course : Course}
    (hsplit : Window.splitQueryRangeWindowsWithOptions startNs endNs interval direction align =
      some all)
    (hsub : windows.Sublist all)
    (hkept : ∀ w ∈ windows, Row.AllKept dedupe ((w.rows stored direction).take limit))
    (hretryable : course.OnlyRetryable) (henabled : course.partialResponses = true) :
    batchLoop (course.served dedupe stored direction) windows limit 0 limit [] false () =
      (.timedOut, ()) ∨
    ∃ isPartial returned whole,
      batchLoop (course.served dedupe stored direction) windows limit 0 limit [] false () =
        (.answered isPartial returned, ()) ∧
      batchLoop (course.withoutFailures.served dedupe stored direction) windows limit 0 limit []
        false () = (.answered false whole, ()) ∧
      (returned <+: whole ↔
        NoHole limit (course.waiting.plannedRows stored direction windows)) := by
  have hon := goesOn_waiting hretryable henabled windows
  have hthere : ∀ w ∈ present (course.waiting.plan windows 0),
      Row.AllKept dedupe ((w.rows stored direction).take limit) := by
    intro w hw
    obtain ⟨batch, hbatch, hmem⟩ := exists_part_of_mem_present hw
    have hin : w ∈ (course.waiting.plan windows 0).flatMap Prod.fst :=
      mem_flatMap.mpr ⟨batch, hbatch, hmem⟩
    rw [flatMap_plan hon, drop_zero] at hin
    exact hkept w hin
  have hempty : ([] : List Row).length ≤ limit := Nat.zero_le limit
  obtain ⟨isPartial, hreturned, -⟩ :=
    batchLoop_env hon hempty (answersUpTo_of_kept (KeptUpTo.of_forall hthere)) false
  rcases course.batchLoop_waiting (fun w limit => w.entries dedupe stored direction limit) windows
    limit 0 limit [] false with htimeout | hwaits
  · exact .inl htimeout
  · refine .inr ⟨isPartial, _, _, hwaits.trans hreturned,
      course.batchLoop_withoutFailures (answersUpTo_of_kept (KeptUpTo.of_forall hkept)), ?_⟩
    rw [nil_append, ← present_flatMap, ← flatMap_plannedRows hon]
    exact take_present_prefix_iff (disjoint_plannedRows hon (disjoint_rows hsplit hsub)) limit

end Prefix

/-- Batches of two windows; the backend answers 503 whenever the second window is asked
for. -/
def secondWindowDown : Course where
  parallel := fun _ => 2
  outcome := fun attempt =>
    if attempt.start ≤ 1 ∧ 1 < attempt.start + attempt.size then
      some ⟨some 503, false, false, false, "backend unavailable"⟩
    else none
  ctxDone := fun _ => false
  partialResponses := true

theorem secondWindowDown_onlyRetryable : secondWindowDown.OnlyRetryable := by
  intro attempt err herr
  simp only [secondWindowDown] at herr
  split at herr
  · obtain rfl := Option.some.inj herr
    decide
  · cases herr

/-- Nothing is stored in the last window, so nothing follows the gap. -/
theorem partial_answer_prefix_first_window :
    let stored := [usableRow 3 "a", usableRow 12 "b"]
    NoHole 5 (secondWindowDown.waiting.plannedRows stored "forward" threeWindows) ∧
    ∃ isPartial returned whole,
      batchLoop (secondWindowDown.served true stored "forward") threeWindows 5 0 5 [] false () =
        (.answered isPartial returned, ()) ∧
      batchLoop (secondWindowDown.withoutFailures.served true stored "forward") threeWindows 5 0 5
        [] false () = (.answered false whole, ()) ∧ returned <+: whole := by
  intro stored
  have hplan : secondWindowDown.waiting.plannedRows stored "forward" threeWindows =
      [([usableRow 3 "a"], true), ([usableRow 12 "b"], false), ([], true)] := by decide +kernel
  have hnone : NoHole 5 (secondWindowDown.waiting.plannedRows stored "forward" threeWindows) := by
    rw [hplan]
    exact .inr (.inr rfl)
  have hsplit : Window.splitQueryRangeWindowsWithOptions 0 29 10 "forward" false =
      some threeWindows := by decide +kernel
  have hkept : ∀ w ∈ threeWindows, Row.AllKept true ((w.rows stored "forward").take 5) := by decide
  have hanswered : batchLoop (secondWindowDown.served true stored "forward") threeWindows 5 0 5 []
      false () ≠ (.timedOut, ()) := by decide +kernel
  obtain htimeout | ⟨isPartial, returned, whole, hreturned, hwhole, hiff⟩ :=
    partial_answer_prefix_iff hsplit (List.Sublist.refl _) hkept secondWindowDown_onlyRetryable rfl
  · exact absurd htimeout hanswered
  · exact ⟨hnone, isPartial, returned, whole, hreturned, hwhole, hiff.mpr hnone⟩

/-- The second window fails every try and is given up; the third is fetched all the same, and
its row is returned while that of the second is missing. -/
theorem partial_answer_with_hole :
    let stored := [usableRow 3 "a", usableRow 12 "b", usableRow 25 "c"]
    secondWindowDown.partialResponses = true ∧
    batchLoop (secondWindowDown.served true stored "forward") threeWindows 5 0 5 [] false () =
      (.answered true [usableRow 3 "a", usableRow 25 "c"], ()) ∧
    batchLoop (secondWindowDown.withoutFailures.served true stored "forward") threeWindows 5 0 5 []
        false () =
      (.answered false [usableRow 3 "a", usableRow 12 "b", usableRow 25 "c"], ()) ∧
    ¬ [usableRow 3 "a", usableRow 25 "c"] <+:
      [usableRow 3 "a", usableRow 12 "b", usableRow 25 "c"] := by
  decide +kernel

end Course

end LokiVlProxy.Proxy
