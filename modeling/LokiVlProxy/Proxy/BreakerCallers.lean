/-
  Proxy/BreakerCallers.lean --- the breaker together with the calls it admits.

  Sources: `vlGetInner`, `vlPostHTTP`, `vlPostInner` (`internal/proxy/backend.go`)
  and the breaker handling of `fetchQueryRangeWindow`
  (`internal/proxy/query_range_windowing.go`).  The coalesced and the readiness
  paths run `vlGetInner` or `vlPostInner` after one `Allow`, so they end like
  these.

  A half-open breaker hands out at most `successThreshold` probe slots and never
  takes one back.
-/
import LokiVlProxy.Foundation.Run
import LokiVlProxy.Middleware.CircuitBreaker
import LokiVlProxy.Proxy.BackendErr

namespace LokiVlProxy.Proxy

open Middleware Middleware.CbState Middleware.CircuitBreaker Foundation List

/-! ## How a call ends -/

/-- What one HTTP exchange with the backend came to. -/
inductive HttpReply where
  /-- the request could not be built -/
  | notSent (err : BackendErr)
  /-- the client returned an error -/
  | failed (err : BackendErr)
  /-- a response arrived and its compressed body could not be opened -/
  | undecodable (err : BackendErr)
  /-- a response; `errText` is the redacted message its error would carry -/
  | answered (status : Nat) (errText : String)
  deriving DecidableEq, Repr

/-- What a call tells the breaker. -/
inductive Recorded where
  | success
  | failure
  | nothing
  deriving DecidableEq, Repr

variable (ctxDone : Bool)

/-- The failure branch shared by all callers. -/
def recordedOf (err : BackendErr) : Recorded :=
  if shouldRecordBreakerFailure ctxDone (some err) then .failure else .nothing

def vlGetInner : HttpReply → Recorded
  | .notSent _ => .nothing
  | .failed err => recordedOf ctxDone err
  -- unlike `vlPostInner`, an undecodable response is not classified here
  | .undecodable _ => .nothing
  | .answered _ _ => .success

/-- `vlPostHTTP`: the error it returns, if any. -/
def vlPostHTTP : HttpReply → Option BackendErr
  | .notSent err => some err
  | .failed err => some err
  | .undecodable err => some { err with text := "decode backend response: " ++ err.text }
  | .answered _ _ => none

def vlPostInner (r : HttpReply) : Recorded :=
  match vlPostHTTP r with
  | some err => recordedOf ctxDone err
  | none => .success

/-- The error of one attempt of `fetchQueryRangeWindow`: the client's, or one
that carries the status of a response from 400 on. -/
def fetchErr (r : HttpReply) : Option BackendErr :=
  match vlPostHTTP r, r with
  | some err, _ => some err
  | none, .answered status errText =>
      if status < 400 then none
      else some ⟨some status, false, false, false, errText⟩
  | none, _ => none

def queryRangeWindowFetchAttempts : Nat := 5

/-- The attempt loop of `fetchQueryRangeWindow` with `left` attempts after this
one; `ctxDone a` says whether the fetch context is done after attempt `a`. -/
def windowAttempts (ctxDone : Nat → Bool) (reply : Nat → HttpReply) : Nat → Nat → Recorded
  | left, attempt =>
      match fetchErr (reply attempt) with
      | none => .success
      | some err =>
          match left with
          | 0 => recordedOf (ctxDone attempt) err
          | left + 1 =>
              if shouldRetryQueryRangeWindow (some err) then
                if ctxDone attempt then .nothing
                else windowAttempts ctxDone reply left (attempt + 1)
              else recordedOf (ctxDone attempt) err

/-- How an admitted call ends. -/
inductive Ending where
  | get (ctxDone : Bool) (r : HttpReply)
  | post (ctxDone : Bool) (r : HttpReply)
  | window (ctxDone : Nat → Bool) (reply : Nat → HttpReply)

/-- What the ending records. -/
def Ending.recorded : Ending → Recorded
  | .get ctxDone r => vlGetInner ctxDone r
  | .post ctxDone r => vlPostInner ctxDone r
  | .window ctxDone reply => windowAttempts ctxDone reply (queryRangeWindowFetchAttempts - 1) 1

/-! ## The breaker and its outstanding calls -/

/-- The breaker, the clock and the admitted calls that have not ended.  An
outstanding call is the number of the half-open episode it probes, if any;
`episode` numbers the episodes. -/
structure Guarded where
  cb : CircuitBreaker
  now : Int
  outstanding : List (Option Nat)
  episode : Nat
  deriving DecidableEq

/-- What can happen next. -/
inductive GuardedEvent where
  | allow
  /-- the `i`-th outstanding call ends -/
  | finish (i : Nat) (e : Ending)
  | tick (d : Nat)

namespace Guarded

variable (cb : CircuitBreaker)

def start (now : Int) : Guarded := ⟨cb, now, [], 0⟩

variable (s : Guarded)

/-- `Allow`, and the call it admits. -/
def allow : Guarded :=
  let cb := s.cb.exec s.now .allow
  let episode :=
    if s.cb.state ≠ cbHalfOpen ∧ cb.state = cbHalfOpen then s.episode + 1 else s.episode
  if s.cb.reply s.now .allow then
    { s with
      cb := cb
      outstanding := (if cb.state = cbHalfOpen then some episode else none) :: s.outstanding
      episode := episode }
  else { s with cb := cb }

/-- The breaker after a call recorded its outcome. -/
def record : Recorded → CircuitBreaker
  | .success => s.cb.exec s.now .recordSuccess
  | .failure => s.cb.exec s.now .recordFailure
  | .nothing => s.cb

def step : GuardedEvent → Guarded
  | .allow => s.allow
  | .finish i e =>
      if i < s.outstanding.length then
        { s with cb := s.record e.recorded, outstanding := s.outstanding.eraseIdx i }
      else s
  | .tick d => { s with now := s.now + d }

/-- The system after a list of events. -/
def run (now : Int) (events : List GuardedEvent) : Guarded :=
  events.foldl step (start cb now)

/-- There is a time from which on `Allow` returns true. -/
def EventuallyAllows : Prop :=
  ∃ T, ∀ t, T ≤ t → (cb.allow t).1 = true

/-- No probe of the present half-open episode ends without recording. -/
def ProbesRecord : GuardedEvent → Prop
  | .finish i e =>
      s.cb.state = cbHalfOpen → s.outstanding[i]? = some (some s.episode) →
        e.recorded ≠ .nothing
  | _ => True

/-! ## The invariant -/

/-- The outstanding probes of the present episode. -/
def probes : Nat := s.outstanding.count (some s.episode)

/-- Every slot handed out in the present half-open episode is accounted for: its
call succeeded or is outstanding. -/
structure Inv (successThreshold : Int) (s : Guarded) : Prop where
  shadow : s.cb.atomicState = s.cb.state
  threshold : s.cb.successThreshold = successThreshold
  slots : s.cb.state = cbHalfOpen → s.cb.halfOpenProbes ≤ s.cb.successes + s.probes
  unfinished : s.cb.state = cbHalfOpen → s.cb.successes < s.cb.successThreshold

theorem inv_start (failureThreshold successThreshold openDuration windowDuration now : Int) :
    Inv successThreshold
      (start (newCircuitBreaker failureThreshold successThreshold openDuration windowDuration)
        now) where
  shadow := rfl
  threshold := rfl
  slots := fun h => by cases h
  unfinished := fun h => by cases h

variable {successThreshold : Int}

/-- An admitted call takes its slot with it. -/
theorem Inv.allow (hpos : 1 ≤ successThreshold) {s : Guarded} (hi : Inv successThreshold s) :
    Inv successThreshold s.allow := by
  have he := effect_exec s.now hi.shadow .allow
  obtain ⟨hshadow, _, _, hthr, _⟩ := he.shadow hi.shadow
  have hthr' := hthr.trans hi.threshold
  unfold Guarded.allow
  generalize s.cb.exec s.now .allow = cb' at he hshadow hthr hthr'
  generalize s.cb.reply s.now .allow = r at he
  cases he with
  | admitClosed h | rejectOpen h ht =>
    exact ⟨hshadow, hthr', by simp [h], by simp [h]⟩
  | enterHalfOpen h ht =>
    refine ⟨hshadow, hthr', fun _ => ?_, fun _ => ?_⟩
    · simp only [probes, h, ne_eq, reduceCtorEq, not_false_eq_true, and_self, if_true,
        count_cons_self]
      push_cast
      omega
    · simp only [if_true]
      have := hi.threshold
      omega
  | probe h hp =>
    have hslots := hi.slots h
    have hunf := hi.unfinished h
    refine ⟨hshadow, hthr', fun _ => ?_, fun _ => ?_⟩
    · simp only [probes, h, ne_eq, not_true_eq_false, and_true, if_false, if_true,
        count_cons_self] at hslots ⊢
      push_cast
      omega
    · simpa using hunf
  | rejectHalfOpen h hp =>
    exact ⟨hshadow, hthr', by simpa [probes] using hi.slots, by simpa using hi.unfinished⟩

theorem count_eraseIdx {α : Type} [BEq α] [LawfulBEq α] (a : α) (l : List α) (i : Nat) :
    l.count a ≤ (l.eraseIdx i).count a + 1 ∧
      (l[i]? ≠ some a → l.count a = (l.eraseIdx i).count a) := by
  induction l generalizing i with
  | nil => simp
  | cons x l ih =>
    cases i with
    | zero =>
      simp only [eraseIdx_zero, tail_cons, getElem?_cons_zero, ne_eq,
        Option.some.injEq, count_cons, beq_iff_eq]
      constructor
      · split <;> omega
      · intro h
        rw [if_neg (by simpa using h)]
        omega
    | succ i =>
      obtain ⟨h1, h2⟩ := ih i
      simp only [eraseIdx_cons_succ, getElem?_cons_succ, count_cons]
      refine ⟨by omega, fun h => ?_⟩
      rw [h2 h]

/-- A call that ends gives its slot back as a success, or leaves the half-open
state, or was not a probe of this episode. -/
theorem Inv.finish {s : Guarded} (hi : Inv successThreshold s) {i : Nat} {e : Ending}
    (hok : s.ProbesRecord (.finish i e)) : Inv successThreshold (s.step (.finish i e)) := by
  simp only [step]
  split
  · obtain ⟨hcount, hother⟩ := count_eraseIdx (some s.episode) s.outstanding i
    simp only [ProbesRecord] at hok
    cases hr : e.recorded with
    | nothing =>
      refine ⟨hi.shadow, hi.threshold, fun h => ?_, hi.unfinished⟩
      have hne : s.outstanding[i]? ≠ some (some s.episode) := fun hp => hok h hp hr
      have hslots := hi.slots h
      simp only [probes, record, hother hne] at hslots ⊢
      exact hslots
    | success =>
      have he := effect_exec s.now hi.shadow .recordSuccess
      obtain ⟨hshadow, _, _, hthr, _⟩ := he.shadow hi.shadow
      have hthr' := hthr.trans hi.threshold
      simp only [record]
      generalize s.cb.exec s.now .recordSuccess = cb' at he hshadow hthr hthr'
      generalize s.cb.reply s.now .recordSuccess = r at he
      cases he with
      | ignoreSuccess h =>
        exact ⟨hshadow, hthr', fun h' => absurd h' h, fun h' => absurd h' h⟩
      | close h hs => exact ⟨hshadow, hthr', by simp, by simp⟩
      | countSuccess h hs =>
        refine ⟨hshadow, hthr', fun _ => ?_, fun _ => ?_⟩
        · have hslots := hi.slots h
          simp only [probes] at hslots ⊢
          omega
        · simp only at hs ⊢
          omega
    | failure =>
      have he := effect_exec s.now hi.shadow .recordFailure
      obtain ⟨hshadow, _, _, hthr, _⟩ := he.shadow hi.shadow
      have hthr' := hthr.trans hi.threshold
      simp only [record]
      generalize s.cb.exec s.now .recordFailure = cb' at he hshadow hthr hthr'
      generalize s.cb.reply s.now .recordFailure = r at he
      cases he with
      | countFailure h hf => exact ⟨hshadow, hthr', by simp [h], by simp [h]⟩
      | tripClosed h hf | tripHalfOpen h => exact ⟨hshadow, hthr', by simp, by simp⟩
      | ignoreFailure h => exact ⟨hshadow, hthr', by simp [h], by simp [h]⟩
  · exact hi

/-- A step in which a probe that leaves records its outcome keeps the invariant. -/
theorem Inv.step (hpos : 1 ≤ successThreshold) (s : Guarded) (e : GuardedEvent)
    (hi : Inv successThreshold s) (hok : s.ProbesRecord e) : Inv successThreshold (s.step e) := by
  cases e with
  | allow => exact hi.allow hpos
  | finish i e => exact hi.finish hok
  | tick d => exact ⟨hi.shadow, hi.threshold, hi.slots, hi.unfinished⟩

/-- A breaker that is not half-open allows calls from some time on. -/
theorem eventuallyAllows_of_not_halfOpen {cb : CircuitBreaker}
    (hs : cb.state ≠ cbHalfOpen) : EventuallyAllows cb := by
  refine ⟨cb.openUntil + 1, fun t ht => ?_⟩
  simp only [CircuitBreaker.allow]
  split
  · rfl
  · cases h : cb.state with
    | cbClosed => simp [allowLocked, h]
    | cbOpen =>
      have hlate : t > cb.openUntil := by omega
      simp [allowLocked, h, hlate]
    | cbHalfOpen => exact absurd h hs

/-- The breaker is never wedged in a run in which no probe ends without
recording: with nobody outstanding it admits again from some time on, and a
half-open breaker without free slots has a call outstanding. -/
theorem never_wedged_of_probes_record
    (failureThreshold successThreshold openDuration windowDuration now : Int)
    (hpos : 1 ≤ successThreshold) (events : List GuardedEvent)
    (hok : StepsMeet step ProbesRecord
      (start (newCircuitBreaker failureThreshold successThreshold openDuration windowDuration)
        now) events) :
    let s := run (newCircuitBreaker failureThreshold successThreshold openDuration
      windowDuration) now events
    (s.outstanding = [] → EventuallyAllows s.cb) ∧
      (s.cb.state = cbHalfOpen → s.cb.successThreshold ≤ s.cb.halfOpenProbes →
        s.cb.successes < s.cb.successThreshold → s.outstanding ≠ []) := by
  intro s
  have hi : Inv successThreshold s :=
    run_invariant_of_stepsMeet (Inv.step hpos) (inv_start _ _ _ _ _) hok
  -- with nobody outstanding every slot of the episode ended in a success
  have hfree : s.outstanding = [] → s.cb.state = cbHalfOpen →
      s.cb.halfOpenProbes < s.cb.successThreshold := by
    intro hnil hs
    have hslots := hi.slots hs
    have hunf := hi.unfinished hs
    simp only [probes, hnil, count_nil] at hslots
    omega
  constructor
  · intro hnil
    by_cases hs : s.cb.state = cbHalfOpen
    · refine ⟨0, fun t _ => ?_⟩
      have := hfree hnil hs
      simp [CircuitBreaker.allow, hi.shadow, hs, allowLocked, this]
    · exact eventuallyAllows_of_not_halfOpen hs
  · intro hs hused _ hnil
    have := hfree hnil hs
    omega

/-- A refused connection, which is recorded as a failure. -/
def connectionRefused : BackendErr :=
  ⟨none, false, false, false, "dial tcp 10.0.0.1:9428: connect: connection refused"⟩

/-- A request whose context was cancelled, which is not recorded. -/
def contextCanceled : BackendErr :=
  ⟨none, true, false, false, "context canceled"⟩

/-- A breaker that trips, half-opens and closes through a probe that succeeds. -/
theorem never_wedged_after_recovery :
    let s := run (newCircuitBreaker 1 1 10 30) 0
      [.allow, .finish 0 (.get false (.failed connectionRefused)), .tick 11, .allow,
        .finish 0 (.get false (.answered 200 ""))]
    (s.outstanding = [] → EventuallyAllows s.cb) ∧
      (s.cb.state = cbHalfOpen → s.cb.successThreshold ≤ s.cb.halfOpenProbes →
        s.cb.successes < s.cb.successThreshold → s.outstanding ≠ []) :=
  never_wedged_of_probes_record 1 1 10 30 0 (by decide) _
    ⟨trivial, fun h => absurd h (by decide), trivial, trivial, fun _ _ => by decide, trivial⟩

/-- The breaker can wedge: a failure opens it, and the one probe of the
half-open state ends with its context done and records nothing.  No call is
outstanding and no later `Allow` returns true. -/
theorem breaker_can_wedge :
    ¬ ∀ (failureThreshold successThreshold openDuration windowDuration now : Int)
        (events : List GuardedEvent), 1 ≤ failureThreshold → 1 ≤ successThreshold →
      (run (newCircuitBreaker failureThreshold successThreshold openDuration windowDuration)
        now events).outstanding = [] →
      EventuallyAllows (run (newCircuitBreaker failureThreshold successThreshold openDuration
        windowDuration) now events).cb := by
  intro hclaim
  obtain ⟨T, hT⟩ := hclaim 1 1 10 30 0
    [.allow, .finish 0 (.get false (.failed connectionRefused)), .tick 11, .allow,
      .finish 0 (.get true (.failed contextCanceled))] (by decide) (by decide) (by decide)
  have hcb : (run (newCircuitBreaker 1 1 10 30) 0
      [.allow, .finish 0 (.get false (.failed connectionRefused)), .tick 11, .allow,
        .finish 0 (.get true (.failed contextCanceled))]).cb =
      ⟨cbHalfOpen, cbHalfOpen, [0], 0, 1, 10, 1, 30, 1, 10⟩ := by decide
  have hT' := hT T (Int.le_refl T)
  rw [hcb] at hT'
  simp [CircuitBreaker.allow, allowLocked] at hT'

end Guarded

end LokiVlProxy.Proxy
