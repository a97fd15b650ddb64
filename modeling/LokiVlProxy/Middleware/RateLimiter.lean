/-
  Middleware/RateLimiter.lean --- the token buckets of the clients.

  Source: internal/middleware/ratelimiter.go: tokenBucket, AllowClient,
  cleanupStaleClients.

  A bucket is refilled when its client calls, up to the burst size, and a call takes a token
  or is refused.  A call finds its bucket first and locks it later; the cleanup tests a bucket
  under its lock and deletes the client's entry after it has released the lock.
-/
import LokiVlProxy.Foundation.KeyMap
import LokiVlProxy.Foundation.Run
import Mathlib.Tactic.Linarith
import Mathlib.Tactic.Ring

namespace LokiVlProxy.Middleware

open Foundation List Option

structure TokenBucket where
  tokens : ℚ
  lastTime : ℚ
  rate : ℚ
  burstSize : Int
  deriving DecidableEq, Repr

/-- The tokens at a later time: the refill, cut off at the burst size. -/
def TokenBucket.refilled (b : TokenBucket) (now : ℚ) : ℚ :=
  let tokens := b.tokens + (now - b.lastTime) * b.rate
  if tokens > b.burstSize then b.burstSize else tokens

/-- The bucket after a call at this time that leaves these tokens. -/
def TokenBucket.used (b : TokenBucket) (tokens now : ℚ) : TokenBucket :=
  { b with tokens := tokens, lastTime := now }

/-- The limiter with the calls and the visit that are under way.  A bucket is addressed by its
client and its number among all buckets made. -/
structure RateLimiter where
  clients : KeyMap String Nat
  buckets : KeyMap (String × Nat) TokenBucket
  made : Nat
  /-- the calls that have found their bucket and do not have its lock yet -/
  calls : List (String × Nat)
  /-- the entry that the cleanup is about to delete, and its cutoff -/
  doomed : Option (String × ℚ)
  ratePerSecond : ℚ
  burstSize : Int
  staleAfter : ℚ

namespace RateLimiter

/-- `NewRateLimiter`. -/
def new (ratePerSecond : ℚ) (burstSize : Int) (staleAfter : ℚ) : RateLimiter :=
  ⟨∅, ∅, 0, [], none, ratePerSecond, burstSize, staleAfter⟩

variable (rl : RateLimiter) (clientID : String)

/-- The bucket in the entry of a client. -/
def bucket : Option TokenBucket :=
  (rl.clients.find? clientID).bind fun number => rl.buckets.find? (clientID, number)

/-- A new bucket of a client, made at `loaded`. -/
def addBucket (loaded : ℚ) : RateLimiter :=
  { rl with
    clients := rl.clients.insert clientID rl.made
    buckets := rl.buckets.insert (clientID, rl.made)
      ⟨rl.burstSize, loaded, rl.ratePerSecond, rl.burstSize⟩
    made := rl.made + 1 }

/-- `AllowClient` up to `LoadOrStore`: the bucket of the entry, or a new one.  Without a rate
the call is let through and touches nothing. -/
def loadOrStore (loaded : ℚ) : RateLimiter :=
  if rl.ratePerSecond ≤ 0 then rl
  else
    match rl.clients.find? clientID with
    | some number => { rl with calls := rl.calls ++ [(clientID, number)] }
    | none => { rl.addBucket clientID loaded with calls := rl.calls ++ [(clientID, rl.made)] }

/-- The rest of `AllowClient`, under the lock of the bucket that the call has found. -/
def takeToken (address : String × Nat) (now : ℚ) : Bool × RateLimiter :=
  match rl.buckets.find? address with
  | none => (false, rl)
  | some bucket =>
      let tokens := bucket.refilled now
      if tokens < 1 then
        (false, { rl with buckets := rl.buckets.insert address (bucket.used tokens now) })
      else (true, { rl with buckets := rl.buckets.insert address (bucket.used (tokens - 1) now) })

/-- The stale test of `cleanupStaleClients`, under the lock; `tick` is the time the loop read. -/
def testStale (tick : ℚ) : RateLimiter :=
  match rl.bucket clientID with
  | none => rl
  | some bucket =>
      if bucket.lastTime < tick - rl.staleAfter then
        { rl with doomed := some (clientID, tick - rl.staleAfter) }
      else rl

/-- `clients.Delete`, for the entry that was found stale. -/
def deleteStale : RateLimiter :=
  match rl.doomed with
  | none => rl
  | some (clientID, _) => { rl with clients := rl.clients.erase clientID, doomed := none }

inductive Event where
  | load (clientID : String) (loaded : ℚ)
  /-- the `i`-th call that waits gets the lock -/
  | take (i : Nat) (now : ℚ)
  | test (clientID : String) (tick : ℚ)
  | delete
  deriving DecidableEq, Repr

namespace Event

/-- The time that an event reads. -/
def time : Event → Option ℚ
  | load _ loaded => some loaded
  | take _ now => some now
  | test _ tick => some tick
  | delete => none

/-- A call that does not read a time before this one; nothing is asked of the other events. -/
def CallsFrom (t : ℚ) : Event → Prop
  | take _ now => t ≤ now
  | _ => True

/-- The latest time that has been read, with this event. -/
def upTo (reached : ℚ) (e : Event) : ℚ := (e.time.map (max reached)).getD reached

theorem le_upTo (reached : ℚ) (e : Event) : reached ≤ e.upTo reached := by
  cases e with
  | load | take | test => exact le_max_left _ _
  | delete => exact le_rfl

theorem upTo_le {reached now : ℚ} {e : Event} (hread : ∀ t ∈ e.time, t ≤ now)
    (hle : reached ≤ now) : e.upTo reached ≤ now := by
  unfold upTo
  cases htime : e.time with
  | none => exact hle
  | some t => exact max_le hle (hread t htime)

/-- Where the event moves the time on, what it reads is the time reached. -/
theorem upTo_le_of_lt {reached now : ℚ} {e : Event} (hread : ∀ t ∈ e.time, t ≤ now)
    (hlt : reached < e.upTo reached) : e.upTo reached ≤ now := by
  unfold upTo at hlt ⊢
  cases htime : e.time with
  | none =>
    rw [htime] at hlt
    exact absurd hlt (lt_irrefl _)
  | some t =>
    rw [htime] at hlt
    have hle : reached ≤ t := ((lt_max_iff.mp hlt).resolve_left (lt_irrefl _)).le
    exact (max_eq_right hle).le.trans (hread t htime)

end Event

def step : Event → RateLimiter
  | .load clientID loaded => rl.loadOrStore clientID loaded
  | .take i now =>
      match rl.calls[i]? with
      | none => rl
      | some address => { (rl.takeToken address now).2 with calls := rl.calls.eraseIdx i }
  | .test clientID tick => rl.testStale clientID tick
  | .delete => rl.deleteStale

/-- A call of the client, between the two times, that is let through. -/
def Admits (t1 t2 : ℚ) : Event → Prop
  | .take i now => t1 ≤ now ∧ now ≤ t2 ∧
      ∃ address ∈ rl.calls[i]?, address.1 = clientID ∧ (rl.takeToken address now).1 = true
  | _ => False

instance (rl : RateLimiter) (clientID : String) (t1 t2 : ℚ) :
    DecidablePred (rl.Admits clientID t1 t2)
  | .take _ _ => inferInstanceAs (Decidable (_ ∧ _ ∧ _))
  | .load _ _ | .test _ _ | .delete => inferInstanceAs (Decidable False)

/-- The calls of the client that a run lets through between the two times. -/
def admitted (clientID : String) (t1 t2 : ℚ) : RateLimiter → List Event → Nat
  | _, [] => 0
  | rl, e :: es =>
      (if rl.Admits clientID t1 t2 e then 1 else 0) + admitted clientID t1 t2 (rl.step e) es

/-- The times of a run, as the clock allows them: what a call reads under the lock is no earlier
than anything read before. -/
def Clocked (es : List Event) : Prop := es.Pairwise fun e e' => ∀ t ∈ e.time, e'.CallsFrom t

/-- The event meets what it was decided on: a call locks the bucket that its client's entry still
holds, and the cleanup deletes a bucket that was not used since it was found stale. -/
def Undisturbed : Event → Prop
  | .take i _ => ∀ address ∈ rl.calls[i]?, rl.clients.find? address.1 = some address.2
  | .delete => ∀ visit ∈ rl.doomed, ∀ b ∈ rl.bucket visit.1, b.lastTime < visit.2
  | _ => True

instance (rl : RateLimiter) : DecidablePred rl.Undisturbed
  | .take i _ => inferInstanceAs
      (Decidable (∀ address ∈ rl.calls[i]?, rl.clients.find? address.1 = some address.2))
  | .delete => inferInstanceAs
      (Decidable (∀ visit ∈ rl.doomed, ∀ b ∈ rl.bucket visit.1, b.lastTime < visit.2))
  | .load _ _ | .test _ _ => inferInstanceAs (Decidable True)

/-! ## The level of a bucket -/

/-- What the bucket of a client holds at a time. -/
def level (t : ℚ) : ℚ := ((rl.bucket clientID).map fun b => b.refilled t).getD rl.burstSize

/-- A bucket of this limiter that was last used no later than `t`. -/
structure Sound (rl : RateLimiter) (b : TokenBucket) (t : ℚ) : Prop where
  nonneg : 0 ≤ b.tokens
  le_burst : b.tokens ≤ rl.burstSize
  rate_eq : b.rate = rl.ratePerSecond
  burst_eq : b.burstSize = rl.burstSize
  last_le : b.lastTime ≤ t

/-- The tokens at an instant, in one formula. -/
theorem refilled_eq_min (b : TokenBucket) (t : ℚ) :
    b.refilled t = min (b.burstSize : ℚ) (b.tokens + (t - b.lastTime) * b.rate) := by
  rw [TokenBucket.refilled]
  split
  · rename_i hfull
    exact (min_eq_left hfull.le).symm
  · rename_i hfull
    exact (min_eq_right (not_lt.mp hfull)).symm

section Level

variable {rl : RateLimiter} {b : TokenBucket} {s t : ℚ}

theorem Sound.refilled_nonneg (hrate : 0 < rl.ratePerSecond) (h : Sound rl b t) :
    0 ≤ b.refilled t := by
  have hgain : 0 ≤ (t - b.lastTime) * b.rate :=
    mul_nonneg (sub_nonneg.mpr h.last_le) (h.rate_eq ▸ hrate.le)
  have hburst : (0 : ℚ) ≤ b.burstSize := by
    rw [h.burst_eq]
    exact h.nonneg.trans h.le_burst
  rw [refilled_eq_min]
  exact le_min hburst (by linarith [h.nonneg])

theorem refilled_le_burst (b : TokenBucket) (t : ℚ) : b.refilled t ≤ b.burstSize := by
  rw [refilled_eq_min]
  exact min_le_left _ _

/-- Time refills at the rate and not faster. -/
theorem refilled_le_add (hrate : 0 ≤ b.rate) (hst : s ≤ t) :
    b.refilled t ≤ b.refilled s + b.rate * (t - s) := by
  have hgain : 0 ≤ b.rate * (t - s) := mul_nonneg hrate (sub_nonneg.mpr hst)
  rw [refilled_eq_min, refilled_eq_min, ← min_add_add_right]
  refine min_le_min ?_ (le_of_eq ?_)
  · linarith
  · ring

/-- Refilling in two steps is refilling in one. -/
theorem refilled_refilled (hrate : 0 ≤ b.rate) (hst : s ≤ t) :
    (b.used (b.refilled s) s).refilled t = b.refilled t := by
  have hgain : 0 ≤ (t - s) * b.rate := mul_nonneg (sub_nonneg.mpr hst) hrate
  rw [refilled_eq_min, refilled_eq_min b t, refilled_eq_min b s]
  simp only [TokenBucket.used]
  rw [← min_add_add_right, ← min_assoc]
  congr 1
  · exact min_eq_left (by linarith)
  · ring

theorem refilled_used_le (b : TokenBucket) (x t : ℚ) : (b.used x t).refilled t ≤ x := by
  rw [refilled_eq_min]
  exact (min_le_right _ _).trans (by simp only [TokenBucket.used]; linarith)

theorem refilled_taken_le (b : TokenBucket) (x s t : ℚ) :
    (b.used (x - 1) s).refilled t ≤ (b.used x s).refilled t := by
  rw [refilled_eq_min, refilled_eq_min]
  exact min_le_min le_rfl (by simp only [TokenBucket.used]; linarith)

end Level

/-! ## What a step does -/

section Step

variable {rl : RateLimiter} {clientID : String}

/-- A step leaves the configuration as it is. -/
theorem step_config (rl : RateLimiter) (e : Event) :
    (rl.step e).ratePerSecond = rl.ratePerSecond ∧ (rl.step e).burstSize = rl.burstSize ∧
      (rl.step e).staleAfter = rl.staleAfter := by
  cases e with
  | load c loaded =>
    simp only [step, loadOrStore]
    split_ifs
    · exact ⟨rfl, rfl, rfl⟩
    · split <;> exact ⟨rfl, rfl, rfl⟩
  | take i now =>
    simp only [step]
    split
    · exact ⟨rfl, rfl, rfl⟩
    · simp only [takeToken]
      split
      · exact ⟨rfl, rfl, rfl⟩
      · split_ifs <;> exact ⟨rfl, rfl, rfl⟩
  | test c tick =>
    simp only [step, testStale]
    split
    · exact ⟨rfl, rfl, rfl⟩
    · split_ifs <;> exact ⟨rfl, rfl, rfl⟩
  | delete =>
    simp only [step, deleteStale]
    split <;> exact ⟨rfl, rfl, rfl⟩

@[simp]
theorem step_ratePerSecond (rl : RateLimiter) (e : Event) :
    (rl.step e).ratePerSecond = rl.ratePerSecond :=
  (rl.step_config e).1

@[simp]
theorem step_burstSize (rl : RateLimiter) (e : Event) : (rl.step e).burstSize = rl.burstSize :=
  (rl.step_config e).2.1

@[simp]
theorem step_staleAfter (rl : RateLimiter) (e : Event) : (rl.step e).staleAfter = rl.staleAfter :=
  (rl.step_config e).2.2

/-- What an undisturbed step does to the bucket of a client: nothing, its making, a call that is
let through or refused, or its deletion. -/
inductive Change (rl : RateLimiter) (clientID : String) : Event → Prop
  | same {e : Event} (hbucket : (rl.step e).bucket clientID = rl.bucket clientID)
      (hnot : ∀ t1 t2, ¬ rl.Admits clientID t1 t2 e) : Change rl clientID e
  | made {loaded : ℚ} (hhad : rl.bucket clientID = none)
      (hbucket : (rl.step (.load clientID loaded)).bucket clientID =
        some ⟨rl.burstSize, loaded, rl.ratePerSecond, rl.burstSize⟩) :
      Change rl clientID (.load clientID loaded)
  | refused {i : Nat} {now : ℚ} {b : TokenBucket} (hhad : rl.bucket clientID = some b)
      (hnot : ∀ t1 t2, ¬ rl.Admits clientID t1 t2 (.take i now))
      (hbucket : (rl.step (.take i now)).bucket clientID = some (b.used (b.refilled now) now)) :
      Change rl clientID (.take i now)
  | taken {i : Nat} {now : ℚ} {b : TokenBucket} (hhad : rl.bucket clientID = some b)
      (henough : 1 ≤ b.refilled now)
      (hbucket : (rl.step (.take i now)).bucket clientID =
        some (b.used (b.refilled now - 1) now)) :
      Change rl clientID (.take i now)
  | deleted {b : TokenBucket} {cutoff : ℚ} (hdoomed : rl.doomed = some (clientID, cutoff))
      (hhad : rl.bucket clientID = some b) (hstale : b.lastTime < cutoff)
      (hbucket : (rl.step .delete).bucket clientID = none) : Change rl clientID .delete

/-- A call of another client leaves the bucket alone. -/
theorem bucket_takeToken_of_ne {address : String × Nat} (hne : address.1 ≠ clientID) (now : ℚ) :
    (rl.takeToken address now).2.bucket clientID = rl.bucket clientID := by
  have hother : ∀ number, (clientID, number) ≠ address := by
    rintro number rfl
    exact hne rfl
  unfold takeToken
  split
  · rfl
  · dsimp only
    split_ifs <;> simp only [bucket, KeyMap.find?_insert, if_neg (hother _)]

/-- What a load does to the bucket of a client. -/
theorem change_load (hrate : 0 < rl.ratePerSecond) (clientID c : String) (loaded : ℚ) :
    Change rl clientID (.load c loaded) := by
  have hpos : ¬ rl.ratePerSecond ≤ 0 := not_le.mpr hrate
  cases hc : rl.clients.find? c with
  | some number =>
    refine .same ?_ fun _ _ => id
    simp only [step, loadOrStore, if_neg hpos, hc]
    rfl
  | none =>
    have hstep : (rl.step (.load c loaded)).bucket clientID =
        (rl.addBucket c loaded).bucket clientID := by
      simp only [step, loadOrStore, if_neg hpos, hc]
      rfl
    by_cases heq : c = clientID
    · subst heq
      refine .made (by rw [bucket, hc]; rfl) ?_
      rw [hstep]
      simp [bucket, addBucket]
    · refine .same ?_ fun _ _ => id
      have hother : ∀ number, (clientID, number) ≠ (c, rl.made) := by
        rintro number h
        exact heq (Prod.mk.inj h).1.symm
      rw [hstep]
      simp only [bucket, addBucket, KeyMap.find?_insert, if_neg (Ne.symm heq), if_neg (hother _)]

/-- What a take does to the bucket of a client. -/
theorem change_take {i : Nat} {now : ℚ} (hok : rl.Undisturbed (.take i now)) (clientID : String) :
    Change rl clientID (.take i now) := by
  cases hcall : rl.calls[i]? with
  | none =>
    refine .same ?_ ?_
    · simp only [step, hcall]
    · rintro t1 t2 ⟨-, -, address, haddress, -⟩
      rw [hcall] at haddress
      cases haddress
  | some address =>
    have hentry := hok address hcall
    have hstep : (rl.step (.take i now)).bucket clientID =
        (rl.takeToken address now).2.bucket clientID := by
      simp only [step, hcall]
      rfl
    have hadmits : ∀ t1 t2, rl.Admits clientID t1 t2 (.take i now) →
        address.1 = clientID ∧ (rl.takeToken address now).1 = true := by
      rintro t1 t2 ⟨-, -, address', haddress, hclient⟩
      rw [hcall] at haddress
      exact Option.some.inj haddress ▸ hclient
    by_cases hc : address.1 = clientID
    · -- the call locks the bucket of its client's entry
      obtain ⟨c, number⟩ := address
      obtain rfl : c = clientID := hc
      have hbucket : rl.bucket c = rl.buckets.find? (c, number) := by rw [bucket, hentry]; rfl
      cases hb : rl.buckets.find? (c, number) with
      | none =>
        refine .same ?_ fun t1 t2 h => ?_
        · rw [hstep, takeToken, hb]
        · have htrue := (hadmits t1 t2 h).2
          rw [takeToken, hb] at htrue
          cases htrue
      | some b =>
        rw [hb] at hbucket
        by_cases hlow : b.refilled now < 1
        · refine .refused hbucket (fun t1 t2 h => ?_) ?_
          · have htrue := (hadmits t1 t2 h).2
            simp only [takeToken, hb, if_pos hlow] at htrue
            cases htrue
          · rw [hstep]
            simp only [takeToken, hb, if_pos hlow, bucket, hentry, bind_some,
              KeyMap.find?_insert, if_true]
        · refine .taken hbucket (not_lt.mp hlow) ?_
          rw [hstep]
          simp only [takeToken, hb, if_neg hlow, bucket, hentry, bind_some, KeyMap.find?_insert,
            if_true]
    · refine .same ?_ fun t1 t2 h => hc (hadmits t1 t2 h).1
      rw [hstep, bucket_takeToken_of_ne hc]

/-- What the end of a cleanup does to the bucket of a client. -/
theorem change_delete (hok : rl.Undisturbed .delete) (clientID : String) :
    Change rl clientID .delete := by
  cases hdoomed : rl.doomed with
  | none =>
    refine .same ?_ fun _ _ => id
    simp only [step, deleteStale, hdoomed]
  | some visit =>
    obtain ⟨c, cutoff⟩ := visit
    have hstep : (rl.step .delete).bucket clientID = ((rl.clients.erase c).find? clientID).bind
        fun number => rl.buckets.find? (clientID, number) := by
      simp only [step, deleteStale, hdoomed]
      rfl
    rw [KeyMap.find?_erase] at hstep
    by_cases hc : c = clientID
    · subst hc
      rw [if_pos rfl] at hstep
      cases hb : rl.bucket c with
      | none => exact .same (hstep.trans hb.symm) fun _ _ => id
      | some b => exact .deleted hdoomed hb (hok _ hdoomed b hb) hstep
    · rw [if_neg (Ne.symm hc)] at hstep
      exact .same hstep fun _ _ => id

/-- What one event does to the bucket of a client. -/
theorem change_step (hrate : 0 < rl.ratePerSecond) {e : Event} (hok : rl.Undisturbed e)
    (clientID : String) : Change rl clientID e := by
  cases e with
  | load c loaded => exact change_load hrate clientID c loaded
  | take i now => exact change_take hok clientID
  | test c tick =>
    refine .same ?_ fun _ _ => id
    simp only [step, testStale]
    split
    · rfl
    · split_ifs <;> rfl
  | delete => exact change_delete hok clientID

/-- The entry that is to be deleted was found stale by a test at this step, or before. -/
theorem doomed_step {e : Event} {visit : String × ℚ} (h : visit ∈ (rl.step e).doomed) :
    visit ∈ rl.doomed ∨ ∃ tick ∈ e.time, visit.2 = tick - rl.staleAfter := by
  cases e with
  | load c loaded =>
    simp only [step, loadOrStore] at h
    split_ifs at h
    · exact .inl h
    · split at h <;> exact .inl h
  | take i now =>
    simp only [step] at h
    split at h
    · exact .inl h
    · simp only [takeToken] at h
      split at h
      · exact .inl h
      · split_ifs at h <;> exact .inl h
  | test c tick =>
    simp only [step, testStale] at h
    split at h
    · exact .inl h
    · split_ifs at h
      · exact .inr ⟨tick, rfl, by rw [← Option.some.inj h]⟩
      · exact .inl h
  | delete =>
    simp only [step, deleteStale] at h
    split at h
    · exact .inl h
    · cases h

end Step

/-! ## Runs -/

/-- A limiter whose configuration is that of the bound. -/
structure Configured (rl : RateLimiter) : Prop where
  rate_pos : 0 < rl.ratePerSecond
  burst_pos : 1 ≤ rl.burstSize
  stale_full : (rl.burstSize : ℚ) ≤ rl.ratePerSecond * rl.staleAfter

/-- What holds for a client at the time reached: its bucket is sound, no later call reads a time
before its last use, and the cutoff of the cleanup has passed. -/
structure BucketReady (reached : ℚ) (es : List Event) : Prop where
  sound : ∀ b, rl.bucket clientID = some b → Sound rl b reached
  calls : ∀ b, rl.bucket clientID = some b → ∀ e ∈ es, e.CallsFrom b.lastTime
  passed : ∀ visit ∈ rl.doomed, visit.2 + rl.staleAfter ≤ reached

section Runs

variable {rl : RateLimiter} {clientID : String} {reached t1 t2 : ℚ} {e : Event} {es : List Event}

/-- Every event keeps the configuration. -/
theorem Configured.step (h : Configured rl) (e : Event) : Configured (rl.step e) where
  rate_pos := by rw [step_ratePerSecond]; exact h.rate_pos
  burst_pos := by rw [step_burstSize]; exact h.burst_pos
  stale_full := by
    rw [step_burstSize, step_ratePerSecond, step_staleAfter]
    exact h.stale_full

theorem Configured.burst_nonneg (h : Configured rl) : (0 : ℚ) ≤ rl.burstSize := by
  have hpos := h.burst_pos
  exact_mod_cast (by omega : (0 : Int) ≤ rl.burstSize)

theorem Sound.used {b : TokenBucket} {x now : ℚ} (h : Sound rl b now) (hx : 0 ≤ x)
    (hle : x ≤ rl.burstSize) (hreached : now ≤ reached) (e : Event) :
    Sound (rl.step e) (b.used x now) reached where
  nonneg := hx
  le_burst := by rw [step_burstSize]; exact hle
  rate_eq := by rw [step_ratePerSecond]; exact h.rate_eq
  burst_eq := by rw [step_burstSize]; exact h.burst_eq
  last_le := hreached

theorem Sound.refilled_le {b : TokenBucket} {now : ℚ} (h : Sound rl b now) :
    b.refilled now ≤ rl.burstSize := by
  rw [← h.burst_eq]
  exact refilled_le_burst b now

/-- A bucket stays sound as time passes. -/
theorem Sound.step {b : TokenBucket} {t t' : ℚ} (h : Sound rl b t) (ht : t ≤ t') (e : Event) :
    Sound (rl.step e) b t' where
  nonneg := h.nonneg
  le_burst := by rw [step_burstSize]; exact h.le_burst
  rate_eq := by rw [step_ratePerSecond]; exact h.rate_eq
  burst_eq := by rw [step_burstSize]; exact h.burst_eq
  last_le := h.last_le.trans ht

/-- A call that comes next finds its bucket sound at the time it reads. -/
theorem BucketReady.sound_take {i : Nat} {now : ℚ}
    (h : BucketReady rl clientID reached (.take i now :: es)) {b : TokenBucket}
    (hb : rl.bucket clientID = some b) : Sound rl b now :=
  { h.sound b hb with last_le := h.calls b hb _ mem_cons_self }

/-- An undisturbed event keeps the bucket of the client ready for the rest of the run. -/
theorem BucketReady.step (hcfg : Configured rl) (hok : rl.Undisturbed e)
    (hclock : Clocked (e :: es)) (h : BucketReady rl clientID reached (e :: es)) :
    BucketReady (rl.step e) clientID (e.upTo reached) es := by
  have hlater := (pairwise_cons.mp hclock).1
  have hboth : ∀ b, (rl.step e).bucket clientID = some b →
      Sound (rl.step e) b (e.upTo reached) ∧ ∀ e' ∈ es, e'.CallsFrom b.lastTime := by
    intro b hb
    cases change_step hcfg.rate_pos hok clientID with
    | same hbucket _ =>
      rw [hbucket] at hb
      exact ⟨(h.sound b hb).step (e.le_upTo reached) e,
        fun e' he' => h.calls b hb e' (mem_cons_of_mem _ he')⟩
    | @made loaded _ hbucket =>
      obtain rfl := Option.some.inj (hbucket.symm.trans hb)
      refine ⟨⟨hcfg.burst_nonneg, ?_, ?_, ?_, le_max_right _ _⟩,
        fun e' he' => hlater e' he' loaded rfl⟩
      · rw [step_burstSize]
      · rw [step_ratePerSecond]
      · rw [step_burstSize]
    | @refused i now b' hhad _ hbucket =>
      obtain rfl := Option.some.inj (hbucket.symm.trans hb)
      have hsound := h.sound_take hhad
      exact ⟨hsound.used (hsound.refilled_nonneg hcfg.rate_pos) hsound.refilled_le
        (le_max_right _ _) _, fun e' he' => hlater e' he' now rfl⟩
    | @taken i now b' hhad henough hbucket =>
      obtain rfl := Option.some.inj (hbucket.symm.trans hb)
      have hsound := h.sound_take hhad
      have hle := hsound.refilled_le
      exact ⟨hsound.used (sub_nonneg.mpr henough) (by linarith) (le_max_right _ _) _,
        fun e' he' => hlater e' he' now rfl⟩
    | deleted _ _ _ hbucket =>
      rw [hbucket] at hb
      cases hb
  refine ⟨fun b hb => (hboth b hb).1, fun b hb => (hboth b hb).2, fun visit hvisit => ?_⟩
  rw [step_staleAfter]
  obtain hold | ⟨tick, htick, hcutoff⟩ := doomed_step hvisit
  · exact (h.passed visit hold).trans (e.le_upTo reached)
  · have hreached : tick ≤ e.upTo reached := by
      rw [Event.upTo, Option.mem_def.mp htick]
      exact le_max_right _ _
    linarith

theorem BucketReady.level_nonneg (hcfg : Configured rl)
    (h : BucketReady rl clientID reached es) : 0 ≤ rl.level clientID reached := by
  rw [level]
  cases hb : rl.bucket clientID with
  | some b => exact (h.sound b hb).refilled_nonneg hcfg.rate_pos
  | none => exact hcfg.burst_nonneg

theorem BucketReady.level_le_add (hcfg : Configured rl) (h : BucketReady rl clientID reached es)
    {t : ℚ} (ht : reached ≤ t) :
    rl.level clientID t ≤ rl.level clientID reached + rl.ratePerSecond * (t - reached) := by
  rw [level, level]
  cases hb : rl.bucket clientID with
  | some b =>
    have hrate := (h.sound b hb).rate_eq
    have hrise := refilled_le_add (hrate ▸ hcfg.rate_pos.le) ht
    rw [hrate] at hrise
    exact hrise
  | none =>
    have hgain : 0 ≤ rl.ratePerSecond * (t - reached) :=
      mul_nonneg hcfg.rate_pos.le (sub_nonneg.mpr ht)
    simp only [map_none, getD_none]
    linarith

/-- A bucket that has been left alone for `staleAfter` is full. -/
theorem Sound.refilled_stale (hcfg : Configured rl) {b : TokenBucket} {s t : ℚ}
    (h : Sound rl b s) (hlong : rl.staleAfter ≤ t - b.lastTime) : b.refilled t = rl.burstSize := by
  have hgain : rl.ratePerSecond * rl.staleAfter ≤ rl.ratePerSecond * (t - b.lastTime) :=
    mul_le_mul_of_nonneg_left hlong hcfg.rate_pos.le
  rw [refilled_eq_min, h.burst_eq, h.rate_eq]
  refine min_eq_left ?_
  linarith [hcfg.stale_full, h.nonneg]

/-- No step raises the level from its time on, and a call that is let through takes a token
off the level at its time. -/
theorem level_step (hcfg : Configured rl) (hok : rl.Undisturbed e)
    (h : BucketReady rl clientID reached (e :: es)) {t : ℚ} (htime : e.upTo reached ≤ t)
    (hnow : rl.Admits clientID t1 t2 e → e.time = some t) :
    (if rl.Admits clientID t1 t2 e then 1 else 0) + (rl.step e).level clientID t ≤
      rl.level clientID t := by
  cases change_step hcfg.rate_pos hok clientID with
  | same hbucket hnot =>
    rw [if_neg (hnot t1 t2), level, hbucket, step_burstSize, level, zero_add]
  | @made loaded hhad hbucket =>
    -- a new bucket holds no more than no bucket
    have hnot : ¬ rl.Admits clientID t1 t2 (.load clientID loaded) := id
    rw [if_neg hnot, zero_add, level, hbucket, level, hhad, map_some, getD_some, map_none, getD_none,
      refilled_eq_min]
    exact min_le_left _ _
  | @refused i now b hhad hnot hbucket =>
    have hrate := (h.sound b hhad).rate_eq ▸ hcfg.rate_pos.le
    have hle : now ≤ t := (le_max_right reached now).trans htime
    rw [if_neg (hnot t1 t2), zero_add, level, hbucket, level, hhad, map_some, map_some, getD_some,
      getD_some, refilled_refilled hrate hle]
  | @taken i now b hhad henough hbucket =>
    have hrate := (h.sound b hhad).rate_eq ▸ hcfg.rate_pos.le
    have hle : now ≤ t := (le_max_right reached now).trans htime
    rw [level, hbucket, level, hhad, map_some, map_some, getD_some, getD_some]
    split
    · rename_i hadmits
      -- at the time of the call nothing has come in yet
      obtain rfl : now = t := Option.some.inj (hnow hadmits)
      linarith [refilled_used_le b (b.refilled now - 1) now]
    · rw [zero_add, ← refilled_refilled hrate hle]
      exact refilled_taken_le _ _ _ _
  | @deleted b cutoff hdoomed hhad hstale hbucket =>
    have hpassed := h.passed _ hdoomed
    have hfull := (h.sound b hhad).refilled_stale hcfg (t := t) (by
      have hreached : reached ≤ t := htime
      dsimp only at hpassed
      linarith)
    have hnot : ¬ rl.Admits clientID t1 t2 .delete := id
    rw [if_neg hnot, zero_add, level, hbucket, step_burstSize, level, hhad, map_some, getD_some,
      map_none, getD_none, hfull]

theorem admitted_eq_zero (hlate : ∀ e ∈ es, e.CallsFrom reached) (hend : t2 < reached)
    (rl : RateLimiter) : admitted clientID t1 t2 rl es = 0 := by
  induction es generalizing rl with
  | nil => rfl
  | cons e es ih =>
    have hnot : ¬ rl.Admits clientID t1 t2 e := by
      intro hadmits
      have hcall := hlate e mem_cons_self
      cases e with
      | take i now =>
        have hle : now ≤ t2 := hadmits.2.1
        have hge : reached ≤ now := hcall
        linarith
      | load | test | delete => exact hadmits
    rw [admitted, if_neg hnot, zero_add, ih fun e' he' => hlate e' (mem_cons_of_mem _ he')]

/-- A call that is let through in a span reads the time that the run has then reached. -/
theorem time_of_admits (hadmits : rl.Admits clientID t1 t2 e)
    (hlate : reached ≤ t1 ∨ e.CallsFrom reached) :
    e.time = some (e.upTo reached) ∧ e.upTo reached ≤ t2 := by
  cases e with
  | take i now =>
    have hle : reached ≤ now := by
      rcases hlate with hfirst | hcalls
      · exact hfirst.trans hadmits.1
      · exact hcalls
    have hup : (Event.take i now).upTo reached = now := max_eq_right hle
    rw [hup]
    exact ⟨rfl, hadmits.2.1⟩
  | load | test | delete => exact absurd hadmits id

/-- Past the start of the span, further calls respect the time that an event reaches. -/
theorem callsFrom_upTo (hclock : Clocked (e :: es))
    (hlate : reached ≤ t1 ∨ ∀ e' ∈ es, e'.CallsFrom reached) :
    e.upTo reached ≤ t1 ∨ ∀ e' ∈ es, e'.CallsFrom (e.upTo reached) := by
  rcases le_or_gt (e.upTo reached) t1 with hle | hgt
  · exact .inl hle
  · refine .inr fun e' he' => ?_
    cases e' with
    | load | test | delete => trivial
    | take i now =>
      have hread : ∀ t ∈ e.time, t ≤ now := fun t ht => (pairwise_cons.mp hclock).1 _ he' t ht
      rcases hlate with hfirst | hcalls
      · exact Event.upTo_le_of_lt hread (lt_of_le_of_lt hfirst hgt)
      · exact Event.upTo_le hread (hcalls _ he')

/-- From a time on, no more calls of a client are let through than its bucket holds and is
given.  `reached` is the start of the span or a later time that all further calls respect. -/
theorem admitted_le_level (hcfg : Configured rl) (hok : StepsMeet step Undisturbed rl es)
    (hclock : Clocked es) (h : BucketReady rl clientID reached es) (hstart : t1 ≤ reached)
    (hlate : reached ≤ t1 ∨ ∀ e ∈ es, e.CallsFrom reached) (hend : reached ≤ t2) :
    (admitted clientID t1 t2 rl es : ℚ) ≤
      rl.level clientID reached + rl.ratePerSecond * (t2 - reached) := by
  induction es generalizing rl reached with
  | nil =>
    have hrest : 0 ≤ rl.ratePerSecond * (t2 - reached) :=
      mul_nonneg hcfg.rate_pos.le (sub_nonneg.mpr hend)
    rw [admitted, Nat.cast_zero]
    linarith [h.level_nonneg hcfg]
  | cons e es ih =>
    have hcall : rl.Admits clientID t1 t2 e →
        e.time = some (e.upTo reached) ∧ e.upTo reached ≤ t2 := fun hadmits =>
      time_of_admits hadmits (hlate.imp_right fun hcalls => hcalls e mem_cons_self)
    have hnext := callsFrom_upTo hclock
      (hlate.imp_right fun hcalls e' he' => hcalls e' (mem_cons_of_mem _ he'))
    rw [admitted, Nat.cast_add]
    rcases le_or_gt (e.upTo reached) t2 with hin | hout
    · have hrest := ih (hcfg.step e) hok.2 (pairwise_cons.mp hclock).2 (h.step hcfg hok.1 hclock)
        (hstart.trans (e.le_upTo reached)) hnext hin
      have htaken := level_step hcfg hok.1 h le_rfl fun hadmits => (hcall hadmits).1
      have hrise := h.level_le_add hcfg (e.le_upTo reached)
      rw [step_ratePerSecond] at hrest
      push_cast
      linarith
    · have hnot : ¬ rl.Admits clientID t1 t2 e := fun hadmits =>
        absurd (hcall hadmits).2 (not_le.mpr hout)
      have hzero : admitted clientID t1 t2 (rl.step e) es = 0 := by
        rcases hnext with hle | hcalls
        · exact absurd (hle.trans (hstart.trans hend)) (not_le.mpr hout)
        · exact admitted_eq_zero hcalls hout _
      have hrest : 0 ≤ rl.ratePerSecond * (t2 - reached) :=
        mul_nonneg hcfg.rate_pos.le (sub_nonneg.mpr hend)
      rw [if_neg hnot, hzero, Nat.cast_zero, add_zero]
      linarith [h.level_nonneg hcfg]

/-- An undisturbed run keeps the bucket of the client ready. -/
theorem exists_bucketReady (hcfg : Configured rl) {rest : List Event}
    (hok : StepsMeet step Undisturbed rl es) (hclock : Clocked (es ++ rest))
    (h : BucketReady rl clientID reached (es ++ rest)) :
    (es.foldl step rl).burstSize = rl.burstSize ∧
      ∃ t, BucketReady (es.foldl step rl) clientID t rest := by
  induction es generalizing rl reached with
  | nil => exact ⟨rfl, reached, h⟩
  | cons e es ih =>
    obtain ⟨hburst, hready⟩ := ih (hcfg.step e) hok.2 (pairwise_cons.mp hclock).2
      (h.step hcfg hok.1 hclock)
    exact ⟨hburst.trans (step_burstSize rl e), hready⟩

/-- A new limiter is ready for every run. -/
theorem bucketReady_new (r : ℚ) (burst : Int) (staleAfter t : ℚ) (es : List Event) :
    BucketReady (new r burst staleAfter) clientID t es where
  sound := nofun
  calls := nofun
  passed := nofun

end Runs

/-- In every run in which no call loses its bucket to the cleanup and the cleanup deletes no
bucket in use, with calls of any clients in any order that the clock allows: between any two
times a client is let through at most as often as the burst and the rate allow, and its bucket
holds at all times between nothing and the burst. -/
theorem admitted_le {r staleAfter : ℚ} {burst : Int} (hr : 0 < r) (hburst : 1 ≤ burst)
    (hstale : (burst : ℚ) ≤ r * staleAfter) {es : List Event} (hclock : Clocked es)
    (hok : StepsMeet step Undisturbed (new r burst staleAfter) es) (clientID : String) :
    (∀ t1 t2, t1 ≤ t2 →
        (admitted clientID t1 t2 (new r burst staleAfter) es : ℚ) ≤ burst + r * (t2 - t1)) ∧
      ∀ done rest, es = done ++ rest → ∀ b,
        (done.foldl step (new r burst staleAfter)).bucket clientID = some b →
          0 ≤ b.tokens ∧ b.tokens ≤ burst := by
  have hcfg : Configured (new r burst staleAfter) := ⟨hr, hburst, hstale⟩
  constructor
  · intro t1 t2 hle
    exact admitted_le_level hcfg hok hclock (bucketReady_new r burst staleAfter t1 es) le_rfl
      (.inl le_rfl) hle
  · intro done rest hes b hb
    rw [hes] at hclock hok
    obtain ⟨hsize, t, hready⟩ := exists_bucketReady hcfg (stepsMeet_append.mp hok).1 hclock
      (bucketReady_new r burst staleAfter 0 (done ++ rest))
    have hsound := hready.sound b hb
    refine ⟨hsound.nonneg, ?_⟩
    have hle := hsound.le_burst
    rw [hsize] at hle
    exact hle

/-- Three calls of one client, with a visit of the cleanup that deletes its bucket. -/
theorem admitted_le_cleanup :
    let es := [Event.load "10.0.1.42" 0, .take 0 0, .load "10.0.1.42" 1, .take 0 1,
      .test "10.0.1.42" 700, .delete, .load "10.0.1.42" 701, .take 0 701]
    (∀ t1 t2 : ℚ, t1 ≤ t2 →
        (admitted "10.0.1.42" t1 t2 (new 1 5 600) es : ℚ) ≤ (5 : Int) + 1 * (t2 - t1)) ∧
      ∀ done rest, es = done ++ rest → ∀ b,
        (done.foldl step (new 1 5 600)).bucket "10.0.1.42" = some b →
          0 ≤ b.tokens ∧ b.tokens ≤ (5 : Int) := by
  have hclock : Clocked [Event.load "10.0.1.42" 0, .take 0 0, .load "10.0.1.42" 1, .take 0 1,
      .test "10.0.1.42" 700, .delete, .load "10.0.1.42" 701, .take 0 701] := by
    simp [Clocked, Event.CallsFrom, Event.time]
    norm_num
  exact admitted_le (by norm_num) (by norm_num) (by norm_num) hclock
    (by simp only [StepsMeet]; decide +kernel) "10.0.1.42"

/-- With a burst of one: the cleanup finds the bucket stale, a call uses it, the cleanup deletes
it, and at the same instant the next call gets a full one. -/
theorem burst_twice_at_one_instant :
    let es := [Event.load "a" 0, .take 0 0, .test "a" 2, .load "a" 2, .take 0 2, .delete,
      .load "a" 2, .take 0 2]
    Clocked es ∧ (1 : ℚ) ≤ 1 * 1 ∧ admitted "a" 2 2 (new 1 1 1) es = 2 := by
  refine ⟨?_, by norm_num, by decide +kernel⟩
  simp [Clocked, Event.CallsFrom, Event.time]

end RateLimiter

end LokiVlProxy.Middleware
