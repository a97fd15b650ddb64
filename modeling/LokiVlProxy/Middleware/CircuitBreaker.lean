/-
  Middleware/CircuitBreaker.lean --- the circuit breaker in front of the
  VictoriaLogs backend (`internal/middleware/circuitbreaker.go`).

  Times and durations are nanoseconds, as integers.
-/
import Mathlib.Data.List.Basic

namespace LokiVlProxy.Middleware

inductive CbState where
  | cbClosed
  | cbOpen
  | cbHalfOpen
  deriving DecidableEq, Repr, Inhabited

/-- One second, the unit the source writes its durations in. -/
def second : Int := 1000000000

/-- The zero `time.Time` (January 1 of year 1) as Unix nanoseconds. -/
def zeroTime : Int := -62135596800 * second

/-- `CircuitBreaker`: the shadow of the state, the fields under the mutex and
the configuration. -/
structure CircuitBreaker where
  atomicState : CbState
  state : CbState
  failureTimes : List Int
  successes : Int
  halfOpenProbes : Int
  openUntil : Int
  failureThreshold : Int
  windowDuration : Int
  successThreshold : Int
  openDuration : Int
  deriving DecidableEq, Repr, Inhabited

open CbState

def newCircuitBreaker (failureThreshold successThreshold openDuration windowDuration : Int) :
    CircuitBreaker where
  atomicState := cbClosed
  state := cbClosed
  failureTimes := []
  successes := 0
  halfOpenProbes := 0
  openUntil := zeroTime
  failureThreshold := failureThreshold
  windowDuration := if windowDuration ≤ 0 then 30 * second else windowDuration
  successThreshold := successThreshold
  openDuration := openDuration

namespace CircuitBreaker

variable (now : Int) (cb : CircuitBreaker)

/-- The body of `Allow` under the mutex. -/
def allowLocked : Bool × CircuitBreaker :=
  match cb.state with
  | cbClosed => (true, cb)
  | cbOpen =>
      if now > cb.openUntil then
        (true, { cb with
          state := cbHalfOpen, atomicState := cbHalfOpen, successes := 0, halfOpenProbes := 1 })
      else (false, cb)
  | cbHalfOpen =>
      if cb.halfOpenProbes < cb.successThreshold then
        (true, { cb with halfOpenProbes := cb.halfOpenProbes + 1 })
      else (false, cb)

/-- The body of `RecordSuccess` under the mutex. -/
def recordSuccessLocked : CircuitBreaker :=
  match cb.state with
  | cbHalfOpen =>
      if cb.successes + 1 ≥ cb.successThreshold then
        { cb with
          successes := cb.successes + 1, state := cbClosed, atomicState := cbClosed,
          failureTimes := [] }
      else { cb with successes := cb.successes + 1 }
  | cbClosed => cb
  | cbOpen => cb

/-- `pruneWindow`: the leading failures older than the window go. -/
def pruneWindow : CircuitBreaker :=
  { cb with failureTimes := cb.failureTimes.dropWhile (· < now - cb.windowDuration) }

/-- The failure list of `RecordFailure` in the closed state: pruned, then
extended by this failure. -/
def noteFailure : CircuitBreaker :=
  { cb.pruneWindow now with failureTimes := (cb.pruneWindow now).failureTimes ++ [now] }

/-- The switch to the open state, shared by both branches of `RecordFailure`. -/
def trip : CircuitBreaker :=
  { cb with state := cbOpen, atomicState := cbOpen, openUntil := now + cb.openDuration }

/-- The body of `RecordFailure`, all of it under the mutex. -/
def recordFailureLocked : CircuitBreaker :=
  match cb.state with
  | cbClosed =>
      if ((cb.noteFailure now).failureTimes.length : Int) ≥ cb.failureThreshold then
        (cb.noteFailure now).trip now
      else cb.noteFailure now
  | cbHalfOpen => cb.trip now
  | cbOpen => cb

/-- `Allow`, executed at one instant. -/
def allow : Bool × CircuitBreaker :=
  if cb.atomicState = cbClosed then (true, cb) else cb.allowLocked now

/-- `RecordSuccess`, executed at one instant. -/
def recordSuccess : CircuitBreaker :=
  if cb.atomicState = cbClosed then cb else cb.recordSuccessLocked

/-- `RecordFailure`, executed at one instant. -/
def recordFailure : CircuitBreaker :=
  cb.recordFailureLocked now

end CircuitBreaker

/-! ## Calls

The three operations as data, so that a history of calls is a list. -/

/-- A call of one of the three operations. -/
inductive Call where
  | allow
  | recordSuccess
  | recordFailure
  deriving DecidableEq, Repr

namespace CircuitBreaker

variable (now : Int) (cb : CircuitBreaker)

/-- The breaker after a critical section. -/
def critical : Call → CircuitBreaker
  | .allow => (cb.allowLocked now).2
  | .recordSuccess => cb.recordSuccessLocked
  | .recordFailure => cb.recordFailureLocked now

/-- What a critical section returns to its caller. -/
def criticalReply : Call → Bool
  | .allow => (cb.allowLocked now).1
  | .recordSuccess => true
  | .recordFailure => true

/-- The breaker after a call executed at one instant. -/
def exec : Call → CircuitBreaker
  | .allow => (cb.allow now).2
  | .recordSuccess => cb.recordSuccess
  | .recordFailure => cb.recordFailure now

/-- What the call returns to its caller; the two recording calls return nothing,
written `true`. -/
def reply : Call → Bool
  | .allow => (cb.allow now).1
  | .recordSuccess => true
  | .recordFailure => true

/-- The configuration fields, which no operation writes. -/
def SameConfig (cb cb' : CircuitBreaker) : Prop :=
  cb'.failureThreshold = cb.failureThreshold ∧ cb'.windowDuration = cb.windowDuration ∧
    cb'.successThreshold = cb.successThreshold ∧ cb'.openDuration = cb.openDuration

/-- Everything a call can do to a breaker whose shadow agrees with its state.
Every property of runs below is derived from these cases. -/
inductive Effect (now : Int) (cb : CircuitBreaker) : Call → CircuitBreaker → Bool → Prop
  /-- a closed breaker admits, without the mutex -/
  | admitClosed (h : cb.state = cbClosed) : Effect now cb .allow cb true
  /-- the open interval is over: this call is the first probe -/
  | enterHalfOpen (h : cb.state = cbOpen) (ht : now > cb.openUntil) :
      Effect now cb .allow { cb with
        state := cbHalfOpen, atomicState := cbHalfOpen, successes := 0, halfOpenProbes := 1 } true
  | rejectOpen (h : cb.state = cbOpen) (ht : ¬ now > cb.openUntil) : Effect now cb .allow cb false
  /-- a further probe -/
  | probe (h : cb.state = cbHalfOpen) (hp : cb.halfOpenProbes < cb.successThreshold) :
      Effect now cb .allow { cb with halfOpenProbes := cb.halfOpenProbes + 1 } true
  | rejectHalfOpen (h : cb.state = cbHalfOpen) (hp : ¬ cb.halfOpenProbes < cb.successThreshold) :
      Effect now cb .allow cb false
  | ignoreSuccess (h : cb.state ≠ cbHalfOpen) : Effect now cb .recordSuccess cb true
  /-- enough successes: the breaker closes -/
  | close (h : cb.state = cbHalfOpen) (hs : cb.successes + 1 ≥ cb.successThreshold) :
      Effect now cb .recordSuccess { cb with
        successes := cb.successes + 1, state := cbClosed, atomicState := cbClosed,
        failureTimes := [] } true
  | countSuccess (h : cb.state = cbHalfOpen) (hs : ¬ cb.successes + 1 ≥ cb.successThreshold) :
      Effect now cb .recordSuccess { cb with successes := cb.successes + 1 } true
  /-- a failure in the closed state that stays below the threshold -/
  | countFailure (h : cb.state = cbClosed)
      (hf : ¬ (((cb.failureTimes.dropWhile (· < now - cb.windowDuration) ++ [now]).length : Int)
        ≥ cb.failureThreshold)) :
      Effect now cb .recordFailure { cb with
        failureTimes := cb.failureTimes.dropWhile (· < now - cb.windowDuration) ++ [now] } true
  /-- a failure in the closed state that reaches the threshold -/
  | tripClosed (h : cb.state = cbClosed)
      (hf : ((cb.failureTimes.dropWhile (· < now - cb.windowDuration) ++ [now]).length : Int)
        ≥ cb.failureThreshold) :
      Effect now cb .recordFailure { cb with
        failureTimes := cb.failureTimes.dropWhile (· < now - cb.windowDuration) ++ [now],
        state := cbOpen, atomicState := cbOpen, openUntil := now + cb.openDuration } true
  /-- any failure ends a half-open episode -/
  | tripHalfOpen (h : cb.state = cbHalfOpen) :
      Effect now cb .recordFailure { cb with
        state := cbOpen, atomicState := cbOpen, openUntil := now + cb.openDuration } true
  | ignoreFailure (h : cb.state = cbOpen) : Effect now cb .recordFailure cb true

variable {cb : CircuitBreaker} {now : Int}

/-- A call executed at one instant has one of the listed effects. -/
theorem effect_exec (now : Int) (hshadow : cb.atomicState = cb.state) (c : Call) :
    Effect now cb c (cb.exec now c) (cb.reply now c) := by
  cases c with
  | allow =>
    simp only [exec, reply, allow, hshadow]
    cases hs : cb.state with
    | cbClosed => simpa using Effect.admitClosed hs
    | cbOpen =>
      simp only [reduceCtorEq, if_false, allowLocked, hs]
      split
      · rename_i ht; exact .enterHalfOpen hs ht
      · rename_i ht; exact .rejectOpen hs ht
    | cbHalfOpen =>
      simp only [reduceCtorEq, if_false, allowLocked, hs]
      split
      · rename_i hp; simpa [hs] using (.probe hs hp : Effect now cb .allow _ true)
      · rename_i hp; exact .rejectHalfOpen hs hp
  | recordSuccess =>
    simp only [exec, reply, recordSuccess, hshadow]
    cases hs : cb.state with
    | cbClosed => simpa using (.ignoreSuccess (by simp [hs]) : Effect now cb .recordSuccess cb true)
    | cbOpen =>
      simp only [reduceCtorEq, if_false, recordSuccessLocked, hs]
      exact .ignoreSuccess (by simp [hs])
    | cbHalfOpen =>
      simp only [reduceCtorEq, if_false, recordSuccessLocked, hs]
      split
      · rename_i hp; exact .close hs hp
      · rename_i hp; simpa [hs] using (.countSuccess hs hp : Effect now cb .recordSuccess _ true)
  | recordFailure =>
    simp only [exec, reply, recordFailure, recordFailureLocked]
    cases hs : cb.state with
    | cbClosed =>
      simp only
      split
      · rename_i hf; exact .tripClosed hs hf
      · rename_i hf; exact .countFailure hs hf
    | cbOpen => exact .ignoreFailure hs
    | cbHalfOpen => exact .tripHalfOpen hs

/-- The state that is read without the lock follows the one under it. -/
theorem Effect.shadow {cb' : CircuitBreaker} {c : Call} {r : Bool} (h : Effect now cb c cb' r)
    (hshadow : cb.atomicState = cb.state) : cb'.atomicState = cb'.state ∧ cb.SameConfig cb' := by
  cases h <;> simp_all [SameConfig]

theorem store_of_shadow (hshadow : cb.atomicState = cb.state) :
    { cb with atomicState := cb.state } = cb := by
  cases cb
  simp only at hshadow
  subst hshadow
  rfl

/-- With the two states in step, the critical section is the whole call. -/
theorem critical_eq_exec (hshadow : cb.atomicState = cb.state) (c : Call) :
    cb.critical now c = cb.exec now c := by
  cases c with
  | allow | recordSuccess =>
    simp only [critical, exec, allow, recordSuccess]
    split
    · rename_i h
      rw [hshadow] at h
      simp [allowLocked, recordSuccessLocked, h]
    · rfl
  | recordFailure => rfl

theorem criticalReply_eq_reply (hshadow : cb.atomicState = cb.state) (c : Call) :
    cb.criticalReply now c = cb.reply now c := by
  cases c with
  | allow =>
    simp only [criticalReply, reply, allow]
    split
    · rename_i h
      rw [hshadow] at h
      simp [allowLocked, h]
    · rfl
  | recordSuccess => rfl
  | recordFailure => rfl

end CircuitBreaker

end LokiVlProxy.Middleware
