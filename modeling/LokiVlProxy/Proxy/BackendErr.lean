/-
  Proxy/BackendErr.lean --- how the proxy classifies a failed backend call
  (`internal/proxy/http_utils.go`, `internal/proxy/query_range_windowing.go`).

  A Go error is known to this code by what `errors.Is` and `errors.As` find in
  it and by its text, so that is what `BackendErr` holds.
-/
import Mathlib.Data.List.Infix

namespace LokiVlProxy.Proxy

/-- A backend error as the classifiers see it. -/
structure BackendErr where
  /-- the status of an error that carries an HTTP response (`httpStatusCoder`) -/
  statusCode : Option Nat
  /-- wraps `context.Canceled` -/
  canceled : Bool
  /-- wraps `context.DeadlineExceeded` -/
  deadlineExceeded : Bool
  /-- wraps a `net.Error` whose `Timeout()` is true -/
  netTimeout : Bool
  /-- `Error()` -/
  text : String
  deriving DecidableEq, Repr, Inhabited

namespace BackendErr

/-- `strings.Contains(strings.ToLower(err.Error()), needle)`; every needle of
the source is lower-case ASCII. -/
def mentions (err : BackendErr) (needle : String) : Bool :=
  decide (needle.toList <:+: err.text.toList.map Char.toLower)

/-- `isCanceledErr` on an error. -/
def isCanceledErr (err : BackendErr) : Bool :=
  err.canceled || err.mentions "context canceled"

/-- The statuses `shouldRetryQueryRangeWindow` retries. -/
def retryableStatus (code : Nat) : Bool :=
  code = 429 || code = 500 || code = 502 || code = 503 || code = 504

end BackendErr

open BackendErr

/-- `shouldRecordBreakerFailure`; `ctxDone` is `ctx != nil && ctx.Err() != nil`. -/
def shouldRecordBreakerFailure (ctxDone : Bool) : Option BackendErr → Bool
  | none => false
  | some err =>
      if ctxDone then false
      else if err.statusCode.isSome then false
      else if err.isCanceledErr || err.deadlineExceeded then false
      else if err.netTimeout then false
      else if err.mentions "context canceled" || err.mentions "deadline exceeded" ||
          err.mentions "timeout" then false
      else true

def shouldRetryQueryRangeWindow : Option BackendErr → Bool
  | none => false
  | some err =>
      if err.isCanceledErr then false
      else if err.deadlineExceeded then true
      else if err.netTimeout then true
      else if err.statusCode.any retryableStatus then true
      else if err.mentions "circuit breaker" then false
      else
        err.mentions "backend unavailable" || err.mentions "all the 1 backends" ||
          err.mentions "connection refused" || err.mentions "connection reset" ||
          err.mentions "timeout" || err.mentions "temporarily unavailable"

end LokiVlProxy.Proxy
