/-
  Middleware/BreakerHistory.lean --- what a sequential history of breaker calls
  keeps.

  A history lists finished calls with the time each read and what it returned.
-/
import LokiVlProxy.Foundation.Run
import LokiVlProxy.Middleware.CircuitBreaker
import Mathlib.Data.List.Sort

namespace LokiVlProxy.Middleware

open CbState CircuitBreaker Foundation List

/-- A finished call: the operation, the time it read and what it returned. -/
structure Done where
  call : Call
  time : Int
  ret : Bool
  deriving DecidableEq, Repr

/-- The breaker with the two pieces of its past that the safety properties
speak about. -/
structure Ledger where
  cb : CircuitBreaker
  /-- times of the failures recorded since the breaker last closed, oldest first -/
  sinceClosed : List Int
  /-- the calls of the present half-open episode, the entering one included -/
  episode : List Done

namespace Ledger

/-- A breaker without a past. -/
def start (cb : CircuitBreaker) : Ledger := ⟨cb, [], []⟩

/-- One more finished call. -/
def step (l : Ledger) (d : Done) : Ledger :=
  let cb' := l.cb.exec d.time d.call
  { cb := cb'
    sinceClosed :=
      if l.cb.state = cbHalfOpen ∧ cb'.state = cbClosed then []
      else if d.call = .recordFailure then l.sinceClosed ++ [d.time]
      else l.sinceClosed
    episode := if cb'.state = cbHalfOpen then l.episode ++ [d] else [] }

/-- The call returned what the breaker answers at that point, and a failure is
not recorded at a time before an earlier one. -/
def Admissible (l : Ledger) (d : Done) : Prop :=
  d.ret = l.cb.reply d.time d.call ∧
    (d.call = .recordFailure → ∀ t ∈ l.sinceClosed, t ≤ d.time)

/-- Calls of `Allow` among these that returned true. -/
def admitted (calls : List Done) : List Done :=
  calls.filter fun d => d.call = .allow ∧ d.ret = true

/-- Calls of `RecordSuccess` among these. -/
def succeeded (calls : List Done) : List Done :=
  calls.filter fun d => d.call = .recordSuccess

/-- Failures of the list that lie within the window that ends at `now`. -/
def recent (cb : CircuitBreaker) (now : Int) (failures : List Int) : List Int :=
  failures.filter (now - cb.windowDuration ≤ ·)

/-- What holds of a ledger after every admissible history. -/
structure Good (cb0 : CircuitBreaker) (l : Ledger) : Prop where
  shadow : l.cb.atomicState = l.cb.state
  config : cb0.SameConfig l.cb
  sorted : l.sinceClosed.Pairwise (· ≤ ·)
  /-- in the closed state the breaker remembers only recorded failures -/
  kept : l.cb.state = cbClosed → l.cb.failureTimes.Sublist l.sinceClosed
  /-- and it remembers every failure that a later window can still count -/
  complete : l.cb.state = cbClosed → ∀ cutoff,
    (∀ t ∈ l.sinceClosed, t - l.cb.windowDuration ≤ cutoff) →
      l.cb.failureTimes.filter (cutoff ≤ ·) = l.sinceClosed.filter (cutoff ≤ ·)
  outside : l.cb.state ≠ cbHalfOpen → l.episode = []
  probes : l.cb.state = cbHalfOpen →
    ((admitted l.episode).length : Int) = l.cb.halfOpenProbes
  probesLe : l.cb.state = cbHalfOpen → l.cb.halfOpenProbes ≤ max 1 l.cb.successThreshold
  successes : l.cb.state = cbHalfOpen →
    ((succeeded l.episode).length : Int) = l.cb.successes
  noFailure : l.cb.state = cbHalfOpen → ∀ d ∈ l.episode, d.call ≠ .recordFailure

theorem dropWhile_eq_filter_of_sorted {l : List Int} (hl : l.Pairwise (· ≤ ·)) (cutoff : Int) :
    l.dropWhile (· < cutoff) = l.filter (cutoff ≤ ·) := by
  induction l with
  | nil => rfl
  | cons t l ih =>
    rw [pairwise_cons] at hl
    by_cases ht : t < cutoff
    · rw [dropWhile_cons_of_pos (by simpa using ht), ih hl.2,
        filter_cons_of_neg (by simpa using ht)]
    · rw [dropWhile_cons_of_neg (by simpa using ht)]
      refine (filter_eq_self.mpr fun x hx => ?_).symm
      rcases mem_cons.mp hx with rfl | hx
      · simpa using ht
      · have := hl.1 x hx
        simp only [decide_eq_true_eq]
        omega

variable {now : Int} {cb : CircuitBreaker} {since : List Int} {cb0 : CircuitBreaker} {l : Ledger}

theorem Good.dropWhile_eq (hg : Good cb0 l)
    (hs : l.cb.state = cbClosed) (hnow : ∀ t ∈ l.sinceClosed, t ≤ now) :
    l.cb.failureTimes.dropWhile (· < now - l.cb.windowDuration) =
      recent l.cb now l.sinceClosed := by
  have hsorted : l.cb.failureTimes.Pairwise (· ≤ ·) := hg.sorted.sublist (hg.kept hs)
  rw [dropWhile_eq_filter_of_sorted hsorted]
  refine hg.complete hs _ fun t ht => ?_
  have := hnow t ht
  omega

theorem good_start (failureThreshold successThreshold openDuration windowDuration : Int) :
    Good (newCircuitBreaker failureThreshold successThreshold openDuration windowDuration)
      (start (newCircuitBreaker failureThreshold successThreshold openDuration windowDuration)) where
  shadow := rfl
  config := ⟨rfl, rfl, rfl, rfl⟩
  sorted := List.Pairwise.nil
  kept := fun _ => List.Sublist.refl _
  complete := fun _ _ _ => rfl
  outside := fun _ => rfl
  probes := fun h => by cases h
  probesLe := fun h => by cases h
  successes := fun h => by cases h
  noFailure := fun h => by cases h

theorem Good.sorted_snoc (hg : Good cb0 l)
    (hnow : ∀ t ∈ l.sinceClosed, t ≤ now) : (l.sinceClosed ++ [now]).Pairwise (· ≤ ·) := by
  rw [pairwise_append]
  refine ⟨hg.sorted, pairwise_singleton _ _, fun t ht t' ht' => ?_⟩
  rw [mem_singleton] at ht'
  exact ht' ▸ hnow t ht

/-- Noting a failure keeps what the breaker remembers in step with the history. -/
theorem Good.noteFailure (hg : Good cb0 l)
    (hs : l.cb.state = cbClosed) (hnow : ∀ t ∈ l.sinceClosed, t ≤ now) :
    (l.cb.failureTimes.dropWhile (· < now - l.cb.windowDuration) ++ [now]).Sublist
        (l.sinceClosed ++ [now]) ∧
      ∀ cutoff, (∀ t ∈ l.sinceClosed ++ [now], t - l.cb.windowDuration ≤ cutoff) →
        (l.cb.failureTimes.dropWhile (· < now - l.cb.windowDuration) ++ [now]).filter
            (cutoff ≤ ·) =
          (l.sinceClosed ++ [now]).filter (cutoff ≤ ·) := by
  rw [hg.dropWhile_eq hs hnow]
  refine ⟨List.Sublist.append filter_sublist (List.Sublist.refl _), fun cutoff hcut => ?_⟩
  have hlast : now - l.cb.windowDuration ≤ cutoff := hcut now (by simp)
  rw [filter_append, filter_append, recent, filter_filter]
  congr 1
  refine filter_congr fun t _ => ?_
  -- a failure the new cutoff keeps was kept by the pruning cutoff already
  by_cases h : cutoff ≤ t
  · have : now - l.cb.windowDuration ≤ t := by omega
    simp [h, this]
  · simp [h]

/-! The invariant has three faces, one for each state the breaker can be in. -/

section

variable (hshadow : cb.atomicState = cb.state) (hconfig : cb0.SameConfig cb)
  (hsorted : since.Pairwise (· ≤ ·))

include hshadow hconfig hsorted

theorem Good.of_not_halfOpen (hs : cb.state ≠ cbHalfOpen)
    (hkept : cb.state = cbClosed → cb.failureTimes.Sublist since)
    (hcomplete : cb.state = cbClosed → ∀ cutoff, (∀ t ∈ since, t - cb.windowDuration ≤ cutoff) →
      cb.failureTimes.filter (cutoff ≤ ·) = since.filter (cutoff ≤ ·)) :
    Good cb0 ⟨cb, since, []⟩ where
  shadow := hshadow
  config := hconfig
  sorted := hsorted
  kept := hkept
  complete := hcomplete
  outside := fun _ => rfl
  probes := fun h => absurd h hs
  probesLe := fun h => absurd h hs
  successes := fun h => absurd h hs
  noFailure := fun h => absurd h hs

theorem Good.of_open (hs : cb.state = cbOpen) : Good cb0 ⟨cb, since, []⟩ :=
  .of_not_halfOpen hshadow hconfig hsorted (by simp [hs]) (by simp [hs]) (by simp [hs])

theorem Good.of_closed (hs : cb.state = cbClosed) (hkept : cb.failureTimes.Sublist since)
    (hcomplete : ∀ cutoff, (∀ t ∈ since, t - cb.windowDuration ≤ cutoff) →
      cb.failureTimes.filter (cutoff ≤ ·) = since.filter (cutoff ≤ ·)) :
    Good cb0 ⟨cb, since, []⟩ :=
  .of_not_halfOpen hshadow hconfig hsorted (by simp [hs]) (fun _ => hkept) fun _ => hcomplete

theorem Good.of_halfOpen {episode : List Done} (hs : cb.state = cbHalfOpen)
    (hprobes : ((admitted episode).length : Int) = cb.halfOpenProbes)
    (hle : cb.halfOpenProbes ≤ max 1 cb.successThreshold)
    (hsuccesses : ((succeeded episode).length : Int) = cb.successes)
    (hfail : ∀ d ∈ episode, d.call ≠ .recordFailure) :
    Good cb0 ⟨cb, since, episode⟩ where
  shadow := hshadow
  config := hconfig
  sorted := hsorted
  kept := by simp [hs]
  complete := by simp [hs]
  outside := fun h => absurd hs h
  probes := fun _ => hprobes
  probesLe := fun _ => hle
  successes := fun _ => hsuccesses
  noFailure := fun _ => hfail

end

/-- Every admissible call keeps the invariant. -/
theorem Good.step {d : Done} (hg : Good cb0 l)
    (hd : l.Admissible d) : Good cb0 (l.step d) := by
  obtain ⟨hret, htime⟩ := hd
  obtain ⟨call, time, ret⟩ := d
  have he := effect_exec time hg.shadow call
  simp only at hret htime
  rw [← hret] at he
  obtain ⟨hshadow, hconfig⟩ := he.shadow hg.shadow
  have hconf : cb0.SameConfig (l.cb.exec time call) := by
    obtain ⟨h1, h2, h3, h4⟩ := hg.config
    obtain ⟨k1, k2, k3, k4⟩ := hconfig
    exact ⟨k1.trans h1, k2.trans h2, k3.trans h3, k4.trans h4⟩
  have hsorted : call = .recordFailure → (l.sinceClosed ++ [time]).Pairwise (· ≤ ·) :=
    fun hc => hg.sorted_snoc (htime hc)
  unfold Ledger.step
  generalize l.cb.exec time call = cb' at he hshadow hconf
  cases he with
  | admitClosed h =>
    simpa [h] using Good.of_closed hshadow hconf hg.sorted h (hg.kept h) (hg.complete h)
  | enterHalfOpen h ht =>
    have hnil : l.episode = [] := hg.outside (by simp [h])
    simp only [h, hnil, reduceCtorEq, false_and, if_false, if_true, nil_append]
    refine .of_halfOpen hshadow hconf hg.sorted rfl ?_ ?_ ?_ ?_
    · simp [admitted]
    · simp
    · simp [succeeded]
    · simp
  | rejectOpen h ht =>
    simpa [h] using Good.of_open hshadow hconf hg.sorted h
  | probe h hp =>
    simp only [h] at hshadow hconf ⊢
    simp only [reduceCtorEq, and_false, if_false, if_true]
    refine .of_halfOpen hshadow hconf hg.sorted rfl ?_ ?_ ?_ ?_
    · have := hg.probes h
      simp [admitted, filter_append] at this ⊢
      omega
    · simp only
      omega
    · simpa [succeeded, filter_append] using hg.successes h
    · simpa [or_imp, forall_and] using hg.noFailure h
  | rejectHalfOpen h hp =>
    simp only [h, reduceCtorEq, and_false, if_false, if_true]
    refine .of_halfOpen hshadow hconf hg.sorted h ?_ (hg.probesLe h) ?_ ?_
    · simpa [admitted, filter_append] using hg.probes h
    · simpa [succeeded, filter_append] using hg.successes h
    · simpa [or_imp, forall_and] using hg.noFailure h
  | ignoreSuccess h =>
    have hnil : l.episode = [] := hg.outside h
    cases hs : l.cb.state with
    | cbClosed =>
      simpa [hs] using Good.of_closed hshadow hconf hg.sorted hs (hg.kept hs) (hg.complete hs)
    | cbOpen => simpa [hs] using Good.of_open hshadow hconf hg.sorted hs
    | cbHalfOpen => exact absurd hs h
  | close h hs =>
    simp only [h, reduceCtorEq, and_self, if_false, if_true]
    exact .of_closed hshadow hconf List.Pairwise.nil rfl (List.Sublist.refl _)
      (fun _ _ => rfl)
  | countSuccess h hs =>
    simp only [h] at hshadow hconf ⊢
    simp only [reduceCtorEq, and_false, if_false, if_true]
    refine .of_halfOpen hshadow hconf hg.sorted rfl ?_ (hg.probesLe h) ?_ ?_
    · simpa [admitted, filter_append] using hg.probes h
    · have := hg.successes h
      simp [succeeded, filter_append] at this ⊢
      omega
    · simpa [or_imp, forall_and] using hg.noFailure h
  | countFailure h hf =>
    obtain ⟨hkept, hcomplete⟩ := hg.noteFailure h (htime rfl)
    simp only [h] at hshadow hconf ⊢
    simp only [reduceCtorEq, false_and, if_false, if_true]
    exact .of_closed hshadow hconf (hsorted rfl) rfl hkept hcomplete
  | tripClosed h | tripHalfOpen h =>
    simp only [h, reduceCtorEq, and_false, if_false, if_true]
    exact .of_open hshadow hconf (hsorted rfl) rfl
  | ignoreFailure h =>
    simp only [h, reduceCtorEq, and_self, if_false, if_true]
    exact .of_open hshadow hconf (hsorted rfl) h

/-- The ledger after a history. -/
def ofHistory (cb0 : CircuitBreaker) (h : List Done) : Ledger :=
  h.foldl Ledger.step (start cb0)

/-- The safety of one more call, whatever came before it. -/
structure SafeAt (l : Ledger) (d : Done) : Prop where
  /-- A closed breaker remembers recorded failures only, in order. -/
  remembered : l.cb.state = cbClosed →
    (∀ t ∈ l.cb.failureTimes, t ∈ l.sinceClosed) ∧ l.cb.failureTimes.Pairwise (· ≤ ·)
  /-- It opens exactly on a failure that, together with the failures recorded
  since it last closed, makes the threshold within the window. -/
  opens : l.cb.state = cbClosed →
    ((l.step d).cb.state = cbOpen ↔ d.call = .recordFailure ∧
      l.cb.failureThreshold ≤ (recent l.cb d.time (l.sinceClosed ++ [d.time])).length)
  /-- A half-open episode admits at most this many calls. -/
  probeBound : ((admitted (l.step d).episode).length : Int) ≤ max 1 l.cb.successThreshold
  /-- It closes only after enough successes of the same episode, and no failure. -/
  closes : l.cb.state = cbHalfOpen → (l.step d).cb.state = cbClosed →
    d.call = .recordSuccess ∧
      l.cb.successThreshold ≤ (succeeded (l.episode ++ [d])).length ∧
      ∀ x ∈ l.episode ++ [d], x.call ≠ .recordFailure
  /-- An open breaker rejects until its time is over. -/
  rejects : l.cb.state = cbOpen → d.call = .allow → d.time ≤ l.cb.openUntil → d.ret = false

theorem windowDuration_pos (failureThreshold successThreshold openDuration windowDuration : Int) :
    0 < (newCircuitBreaker failureThreshold successThreshold openDuration
      windowDuration).windowDuration := by
  simp only [newCircuitBreaker, second]
  split <;> omega

section Safe

variable {cb0 : CircuitBreaker} {l : Ledger} {d : Done}

section

variable (hg : Good cb0 l)

include hg

/-- The step of a ledger is one effect of the breaker. -/
theorem Good.effect (hd : l.Admissible d) : Effect d.time l.cb d.call (l.step d).cb d.ret := by
  rw [hd.1]
  exact effect_exec _ hg.shadow d.call

/-- The failures that the breaker still counts are those of the history within the window. -/
theorem Good.remembered_eq_recent (hwindow : 0 < l.cb.windowDuration) (hs : l.cb.state = cbClosed)
    {now : Int} (hnow : ∀ t ∈ l.sinceClosed, t ≤ now) :
    l.cb.failureTimes.dropWhile (· < now - l.cb.windowDuration) ++ [now] =
      recent l.cb now (l.sinceClosed ++ [now]) := by
  rw [hg.dropWhile_eq hs hnow, recent, recent, filter_append]
  congr 1
  refine (filter_eq_self.mpr fun t ht => ?_).symm
  rw [mem_singleton] at ht
  simp only [ht, decide_eq_true_eq]
  omega

/-- A closed breaker opens exactly on a failure that reaches the threshold within the window. -/
theorem Good.opens_iff (hwindow : 0 < l.cb.windowDuration) (hd : l.Admissible d)
    (hs : l.cb.state = cbClosed) :
    (l.step d).cb.state = cbOpen ↔ d.call = .recordFailure ∧
      l.cb.failureThreshold ≤ (recent l.cb d.time (l.sinceClosed ++ [d.time])).length := by
  have he := hg.effect hd
  have hlen := fun hc => hg.remembered_eq_recent hwindow hs (hd.2 hc)
  generalize (l.step d).cb = cb' at he
  obtain ⟨call, time, ret⟩ := d
  simp only at he hlen ⊢
  cases he with
  | countFailure h hf =>
    rw [hlen rfl] at hf
    simpa [hs] using hf
  | tripClosed h hf =>
    rw [hlen rfl] at hf
    simpa using hf
  | admitClosed h | ignoreSuccess h => simp [hs]
  | enterHalfOpen h | rejectOpen h | probe h => simp [h] at hs
  | rejectHalfOpen h | close h | countSuccess h | tripHalfOpen h | ignoreFailure h => simp [h] at hs

/-- A half-open breaker admits no more probes than the threshold. -/
theorem Good.probes_le (hd : l.Admissible d) :
    ((admitted (l.step d).episode).length : Int) ≤ max 1 l.cb.successThreshold := by
  have hg' := hg.step hd
  have hthr : (l.step d).cb.successThreshold = l.cb.successThreshold :=
    hg'.config.2.2.1.trans hg.config.2.2.1.symm
  by_cases hs : (l.step d).cb.state = cbHalfOpen
  · rw [hg'.probes hs, ← hthr]
    exact hg'.probesLe hs
  · rw [hg'.outside hs]
    simp [admitted]

/-- A half-open breaker closes only on the success that reaches the threshold. -/
theorem Good.closes_after (hd : l.Admissible d) (hs : l.cb.state = cbHalfOpen)
    (hclosed : (l.step d).cb.state = cbClosed) :
    d.call = .recordSuccess ∧
      l.cb.successThreshold ≤ (succeeded (l.episode ++ [d])).length ∧
      ∀ x ∈ l.episode ++ [d], x.call ≠ .recordFailure := by
  have he := hg.effect hd
  have hsucc := hg.successes hs
  have hfail := hg.noFailure hs
  generalize (l.step d).cb = cb' at he hclosed
  obtain ⟨call, time, ret⟩ := d
  simp only at he ⊢
  cases he with
  | close h hthr =>
    refine ⟨rfl, ?_, by simpa [or_imp, forall_and] using hfail⟩
    simp only [succeeded, filter_append, length_append] at hsucc ⊢
    simp
    omega
  | admitClosed h | rejectOpen h | countFailure h | ignoreFailure h => simp [h] at hs
  | enterHalfOpen h | tripClosed h | tripHalfOpen h => simp at hclosed
  | probe h | rejectHalfOpen h | countSuccess h => simp [h] at hclosed
  | ignoreSuccess h => exact absurd hs h

/-- An open breaker refuses until its time is up. -/
theorem Good.rejects_open (hd : l.Admissible d) (hs : l.cb.state = cbOpen) (hc : d.call = .allow)
    (ht : d.time ≤ l.cb.openUntil) : d.ret = false := by
  have he := hg.effect hd
  generalize (l.step d).cb = cb' at he
  obtain ⟨call, time, ret⟩ := d
  simp only at he hc ht ⊢
  subst hc
  cases he with
  | rejectOpen h | rejectHalfOpen h => rfl
  | enterHalfOpen h hgt => omega
  | admitClosed h | probe h => simp [h] at hs

/-- Every admissible call on a good ledger is safe. -/
theorem Good.safeAt (hwindow : 0 < cb0.windowDuration) (hd : l.Admissible d) : SafeAt l d where
  remembered := fun hs =>
    ⟨fun _ ht => (hg.kept hs).subset ht, hg.sorted.sublist (hg.kept hs)⟩
  opens := hg.opens_iff (by rw [hg.config.2.1]; exact hwindow) hd
  probeBound := hg.probes_le hd
  closes := hg.closes_after hd
  rejects := hg.rejects_open hd

end

end Safe

end Ledger

/-! ## Concurrent callers

Each caller runs its call in the steps the source takes on shared memory:

    load      the lock-free read of `atomicState` in `Allow` and
              `RecordSuccess`, which returns at once when it reads closed
    lock      the mutex is taken and the critical section runs, up to its
              `atomicState.Store`
    publish   the `atomicState.Store`
    unlock    the mutex is released and the call returns
-/

open Ledger Function

/-- Where a caller is inside its call. -/
inductive Caller where
  | idle
  /-- about to read `atomicState` -/
  | loading (c : Call)
  /-- about to take the mutex -/
  | waiting (c : Call)
  /-- inside the critical section entered at `time`; `ret` is its answer and
  `pre` the breaker it found -/
  | publishing (c : Call) (time : Int) (ret : Bool) (pre : CircuitBreaker)
  /-- about to release the mutex -/
  | unlocking
  deriving DecidableEq

/-- The breaker, its mutex, its callers and the clock.  `hist` records finished
calls; no step reads it. -/
structure Sys where
  cb : CircuitBreaker
  mu : Option Nat
  caller : Nat → Caller
  now : Int
  hist : List Done

/-- What can happen next. -/
inductive Event where
  | call (i : Nat) (c : Call)
  | load (i : Nat)
  | lock (i : Nat)
  | publish (i : Nat)
  | unlock (i : Nat)
  | tick (d : Nat)
  deriving DecidableEq

namespace Sys

/-- A breaker nobody calls yet. -/
def start (cb : CircuitBreaker) (now : Int) : Sys where
  cb := cb
  mu := none
  caller := fun _ => .idle
  now := now
  hist := []

/-- Move caller `i`. -/
def move (s : Sys) (i : Nat) (p : Caller) : Sys :=
  { s with caller := Function.update s.caller i p }

def step (s : Sys) : Event → Sys
  | .call i c =>
      match s.caller i with
      | .idle =>
          -- `RecordFailure` has no lock-free path
          if c = .recordFailure then s.move i (.waiting c) else s.move i (.loading c)
      | _ => s
  | .load i =>
      match s.caller i with
      | .loading c =>
          if s.cb.atomicState = cbClosed then
            { s.move i .idle with hist := s.hist ++ [⟨c, s.now, true⟩] }
          else s.move i (.waiting c)
      | _ => s
  | .lock i =>
      match s.caller i, s.mu with
      | .waiting c, none =>
          { s.move i (.publishing c s.now (s.cb.criticalReply s.now c) s.cb) with
            mu := some i
            cb := { s.cb.critical s.now c with atomicState := s.cb.atomicState } }
      | _, _ => s
  | .publish i =>
      match s.caller i with
      | .publishing c time ret _ =>
          { s.move i .unlocking with
            cb := { s.cb with atomicState := s.cb.state }
            hist := s.hist ++ [⟨c, time, ret⟩] }
      | _ => s
  | .unlock i =>
      match s.caller i with
      | .unlocking => { s.move i .idle with mu := none }
      | _ => s
  | .tick d => { s with now := s.now + d }

/-- The system after a list of events. -/
def run (cb : CircuitBreaker) (now : Int) (events : List Event) : Sys :=
  events.foldl step (start cb now)

/-! ## The simulation

`Linked` relates the shared memory to the ledger of the history: equal while the
mutex is free or its holder has published, one unpublished critical section
ahead otherwise. -/

/-- The caller is outside the critical section. -/
def Outside : Caller → Prop
  | .publishing _ _ _ _ => False
  | .unlocking => False
  | _ => True

/-- How the shared memory follows from the ledger, by what the mutex holder has
done so far. -/
def Linked (s : Sys) (l : Ledger) : Prop :=
  match s.mu with
  | none => s.cb = l.cb
  | some i =>
      match s.caller i with
      | .publishing c time ret pre =>
          pre = l.cb ∧ ret = l.cb.reply time c ∧ time ≤ s.now ∧
            (∀ t ∈ l.sinceClosed, t ≤ time) ∧
            s.cb = { l.cb.critical time c with atomicState := l.cb.atomicState }
      | .unlocking => s.cb = l.cb
      | _ => False

/-- The invariant of every interleaving. -/
structure Inv (cb0 : CircuitBreaker) (s : Sys) : Prop where
  history : StepsMeet Ledger.step Admissible (Ledger.start cb0) s.hist
  good : Good cb0 (ofHistory cb0 s.hist)
  linked : s.Linked (ofHistory cb0 s.hist)
  exclusive : ∀ i, s.mu ≠ some i → Outside (s.caller i)
  loads : ∀ i c, s.caller i = .loading c → c ≠ .recordFailure
  past : ∀ t ∈ (ofHistory cb0 s.hist).sinceClosed, t ≤ s.now

/-- The ledger of a history, call by call. -/
theorem ofHistory_append (cb0 : CircuitBreaker) (h : List Done) (d : Done) :
    ofHistory cb0 (h ++ [d]) = (ofHistory cb0 h).step d := by
  simp [ofHistory, List.foldl_append]

variable {cb0 : CircuitBreaker} {s : Sys}

theorem Inv.history_append (hi : Inv cb0 s) {d : Done} (hd : (ofHistory cb0 s.hist).Admissible d) :
    StepsMeet Ledger.step Admissible (Ledger.start cb0) (s.hist ++ [d]) := by
  rw [stepsMeet_append]
  exact ⟨hi.history, hd, trivial⟩

/-- A call that takes the path without the lock leaves the ledger as it is. -/
theorem step_fast {l : Ledger} (hg : Good cb0 l) (hs : l.cb.atomicState = cbClosed) {c : Call}
    (hc : c ≠ .recordFailure) (time : Int) :
    l.Admissible ⟨c, time, true⟩ ∧ l.step ⟨c, time, true⟩ = l := by
  have hstate : l.cb.state = cbClosed := hg.shadow ▸ hs
  have hepisode : l.episode = [] := hg.outside (by simp [hstate])
  cases c with
  | allow =>
    refine ⟨⟨by simp [reply, CircuitBreaker.allow, hs], by simp⟩, ?_⟩
    simp [Ledger.step, exec, CircuitBreaker.allow, hs, hstate, ← hepisode]
  | recordSuccess =>
    refine ⟨⟨by simp [reply], by simp⟩, ?_⟩
    simp [Ledger.step, exec, CircuitBreaker.recordSuccess, hs, hstate, ← hepisode]
  | recordFailure => exact absurd rfl hc

section

variable (hi : Inv cb0 s)

include hi

variable {i : Nat}

theorem Inv.not_outside_of_mu (hmu : s.mu = some i) : ¬ Outside (s.caller i) := by
  have hl := hi.linked
  simp only [Linked, hmu] at hl
  cases hc : s.caller i <;> simp_all [Outside]

theorem Inv.mu_of_not_outside (hc : ¬ Outside (s.caller i)) : s.mu = some i := by
  by_contra hmu
  exact hc (hi.exclusive i hmu)

theorem Inv.loads_move {p : Caller} (hload : ∀ c, p = .loading c → c ≠ .recordFailure) :
    ∀ j c, (s.move i p).caller j = .loading c → c ≠ .recordFailure := by
  intro j c hj
  by_cases hji : j = i
  · subst hji
    exact hload c (by simpa [Sys.move] using hj)
  · exact hi.loads j c (by simpa [Sys.move, update_of_ne hji] using hj)

/-- A caller that moves outside the lock keeps the invariant. -/
theorem Inv.move {p : Caller} (hout : Outside (s.caller i)) (hp : Outside p)
    (hload : ∀ c, p = .loading c → c ≠ .recordFailure) : Inv cb0 (s.move i p) where
  history := hi.history
  good := hi.good
  linked := by
    have hl := hi.linked
    cases hmu : s.mu with
    | none => simpa [Linked, Sys.move, hmu] using hl
    | some j =>
      -- the holder is some other caller, so its place is untouched
      have hne : j ≠ i := fun h => hi.not_outside_of_mu hmu (h ▸ hout)
      simpa [Linked, Sys.move, hmu, update_of_ne hne] using hl
  exclusive := by
    intro j hj
    by_cases hji : j = i
    · subst hji; simpa [Sys.move] using hp
    · simpa [Sys.move, update_of_ne hji] using hi.exclusive j hj
  loads := hi.loads_move hload
  past := hi.past

/-- The lock-free read keeps the invariant. -/
theorem Inv.load (i : Nat) : Inv cb0 (s.step (.load i)) := by
  simp only [step]
  split
  · rename_i c hc
    have hout : Outside (s.caller i) := by rw [hc]; trivial
    split
    · rename_i hclosed
      -- what the read sees is the shadow of the ledger, published or not
      have hshadow : (ofHistory cb0 s.hist).cb.atomicState = cbClosed := by
        have hl := hi.linked
        cases hmu : s.mu with
        | none =>
          simp only [Linked, hmu] at hl
          rw [← hl]; exact hclosed
        | some j =>
          simp only [Linked, hmu] at hl
          cases hj : s.caller j with
          | publishing c' time ret pre =>
            simp only [hj] at hl
            rw [hl.2.2.2.2] at hclosed
            exact hclosed
          | unlocking =>
            simp only [hj] at hl
            rw [← hl]; exact hclosed
          | idle | loading c' | waiting c' => simp [hj] at hl
      obtain ⟨hadm, hsame⟩ := step_fast hi.good hshadow (hi.loads i c hc) s.now
      have hmove := hi.move (p := .idle) hout trivial (by simp)
      have hledger : ofHistory cb0 (s.hist ++ [⟨c, s.now, true⟩]) = ofHistory cb0 s.hist := by
        rw [ofHistory_append, hsame]
      exact
        { history := hi.history_append hadm
          good := hledger ▸ hmove.good
          linked := hledger ▸ hmove.linked
          exclusive := hmove.exclusive
          loads := hmove.loads
          past := hledger ▸ hmove.past }
    · exact hi.move hout trivial (by simp)
  · exact hi

/-- Taking the lock keeps the invariant. -/
theorem Inv.lock (i : Nat) : Inv cb0 (s.step (.lock i)) := by
  simp only [step]
  split
  · rename_i c hc hmu
    have hcb : s.cb = (ofHistory cb0 s.hist).cb := by
      have hl := hi.linked
      simpa [Linked, hmu] using hl
    have hreply : s.cb.criticalReply s.now c = (ofHistory cb0 s.hist).cb.reply s.now c := by
      rw [hcb, criticalReply_eq_reply hi.good.shadow]
    exact
      { history := hi.history
        good := hi.good
        linked := by
          simp only [Linked, Sys.move, update_self]
          exact ⟨hcb, hreply, le_refl _, hi.past, by rw [hcb]⟩
        exclusive := by
          intro j hj
          have hji : j ≠ i := fun h => hj (by rw [h])
          simp only [Sys.move, update_of_ne hji]
          exact hi.exclusive j (by simp [hmu])
        loads := hi.loads_move nofun
        past := hi.past }
  · exact hi

/-- Publishing keeps the invariant: the call joins the history here. -/
theorem Inv.publish (i : Nat) : Inv cb0 (s.step (.publish i)) := by
  simp only [step]
  split
  · rename_i c time ret pre hc
    have hmu : s.mu = some i := hi.mu_of_not_outside (by simp [hc, Outside])
    have hl := hi.linked
    simp only [Linked, hmu, hc] at hl
    obtain ⟨_, hret, htime, hpast, hcb⟩ := hl
    have hadm : (ofHistory cb0 s.hist).Admissible ⟨c, time, ret⟩ := ⟨hret, fun _ => hpast⟩
    have hgood := hi.good.step hadm
    rw [← ofHistory_append] at hgood
    have hledger : (ofHistory cb0 (s.hist ++ [⟨c, time, ret⟩])).cb =
        (ofHistory cb0 s.hist).cb.critical time c := by
      rw [ofHistory_append, critical_eq_exec hi.good.shadow]
      rfl
    exact
      { history := hi.history_append hadm
        good := hgood
        linked := by
          simp only [Linked, Sys.move, hmu, update_self]
          have hshadow := hgood.shadow
          rw [hledger] at hshadow ⊢
          rw [hcb]
          exact store_of_shadow hshadow
        exclusive := by
          intro j hj
          have hji : j ≠ i := fun h => hj (by simp [h, hmu, Sys.move])
          simp only [Sys.move, update_of_ne hji]
          exact hi.exclusive j (by rw [hmu]; exact fun h => hji (Option.some.inj h).symm)
        loads := hi.loads_move nofun
        past := by
          intro t ht
          rw [ofHistory_append] at ht
          simp only [Ledger.step] at ht
          split at ht
          · simp at ht
          · split at ht
            · rcases List.mem_append.mp ht with ht | ht
              · exact hi.past t ht
              · rw [List.mem_singleton] at ht
                exact ht ▸ htime
            · exact hi.past t ht }
  · exact hi

/-- Releasing the lock completes the call in the history. -/
theorem Inv.unlock (i : Nat) : Inv cb0 (s.step (.unlock i)) := by
  simp only [step]
  split
  · rename_i hc
    have hmu : s.mu = some i := hi.mu_of_not_outside (by simp [hc, Outside])
    have hl := hi.linked
    simp only [Linked, hmu, hc] at hl
    exact
      { history := hi.history
        good := hi.good
        linked := by simpa [Linked, Sys.move] using hl
        exclusive := by
          intro j _
          by_cases hji : j = i
          · subst hji; simp [Sys.move, Outside]
          · simp only [Sys.move, update_of_ne hji]
            exact hi.exclusive j (by rw [hmu]; exact fun h => hji (Option.some.inj h).symm)
        loads := hi.loads_move nofun
        past := hi.past }
  · exact hi

end

/-- Every step of every interleaving keeps the invariant. -/
theorem Inv.step (s : Sys) (e : Event) (hi : Inv cb0 s) : Inv cb0 (s.step e) := by
  cases e with
  | call i c =>
    simp only [Sys.step]
    split
    · rename_i hc
      have hout : Outside (s.caller i) := by rw [hc]; trivial
      split
      · exact hi.move hout trivial (by simp)
      · rename_i hne
        exact hi.move hout trivial (by rintro c' ⟨⟩; exact hne)
    · exact hi
  | load i => exact hi.load i
  | lock i => exact hi.lock i
  | publish i => exact hi.publish i
  | unlock i => exact hi.unlock i
  | tick d =>
    have hle : s.now ≤ s.now + d := by omega
    refine { hi with linked := ?_, past := fun t ht => (hi.past t ht).trans hle }
    have hl := hi.linked
    cases hmu : s.mu with
    | none => simpa [Linked, Sys.step, hmu] using hl
    | some j =>
      simp only [Linked, Sys.step, hmu] at hl ⊢
      cases hj : s.caller j with
      | publishing c time ret pre =>
        simp only [hj] at hl ⊢
        exact ⟨hl.1, hl.2.1, hl.2.2.1.trans hle, hl.2.2.2⟩
      | unlocking => simpa [hj] using hl
      | idle | loading c | waiting c => simp [hj] at hl

/-- Every interleaving of the callers keeps the invariant. -/
theorem inv_run (failureThreshold successThreshold openDuration windowDuration now : Int)
    (events : List Event) :
    Inv (newCircuitBreaker failureThreshold successThreshold openDuration windowDuration)
      (run (newCircuitBreaker failureThreshold successThreshold openDuration windowDuration)
        now events) := by
  refine run_invariant Inv.step ?_ events
  exact
    { history := trivial
      good := good_start _ _ _ _
      linked := by simp [Linked, start, ofHistory, Ledger.start]
      exclusive := fun _ _ => trivial
      loads := by simp [start]
      past := by simp [start, ofHistory, Ledger.start] }

/-- Safety of the breaker over whole runs: whatever the callers and however
their steps interleave, the shadow equals the state whenever nobody holds the
mutex, the shared memory is then the one the finished calls produce one after
the other, and each of these calls is safe where it stands among them. -/
theorem safe_on_every_interleaving
    (failureThreshold successThreshold openDuration windowDuration now : Int)
    (events : List Event) :
    let cb0 := newCircuitBreaker failureThreshold successThreshold openDuration windowDuration
    let s := run cb0 now events
    (s.mu = none → s.cb.atomicState = s.cb.state ∧ s.cb = (ofHistory cb0 s.hist).cb) ∧
      ∀ pre d post, s.hist = pre ++ d :: post → SafeAt (ofHistory cb0 pre) d := by
  intro cb0 s
  have hi : Inv cb0 s := inv_run _ _ _ _ _ _
  constructor
  · intro hmu
    have hl : s.cb = (ofHistory cb0 s.hist).cb := by simpa [Linked, hmu] using hi.linked
    exact ⟨hl ▸ hi.good.shadow, hl⟩
  · intro pre d post hsplit
    have hmeet := hi.history
    rw [hsplit, stepsMeet_append] at hmeet
    obtain ⟨hpre, hd, _⟩ := hmeet
    have hgood : Good cb0 (ofHistory cb0 pre) :=
      run_invariant_of_stepsMeet (fun _ _ hg hadm => hg.step hadm) (good_start _ _ _ _) hpre
    exact hgood.safeAt (windowDuration_pos _ _ _ _) hd

end Sys

end LokiVlProxy.Middleware
