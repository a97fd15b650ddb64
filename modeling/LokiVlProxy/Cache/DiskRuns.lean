/-
  Cache/DiskRuns.lean --- interleavings of the disk tier's atomic steps.

  Source: internal/cache/disk.go: getWithTTL, Set, Flush, Purge.

  `Flush` is two steps: the swap of the write buffer and the commit of its transaction.
-/
import LokiVlProxy.Cache.DiskContents
import LokiVlProxy.Foundation.Run

namespace LokiVlProxy.Cache

open Foundation List DiskCache Option

namespace DiskCache

/-- The first half of `Purge`. -/
def resetBuffer (dc : DiskCache) : DiskCache := { dc with writeBuf := ∅ }

/-- The second half of `Purge`, when its transaction commits; one that fails leaves the records. -/
def recreateBucket (dc : DiskCache) : DiskCache := { dc with db := ∅ }

end DiskCache

/-- The disk tier and the clock. -/
structure DiskRun where
  dc : DiskCache
  now : Int

inductive DiskStep where
  | advance (d : Nat)
  | set (key : String) (value : Bytes) (ttl : Int)
  | read (key : String) (allowStale : Bool)
  | runDelete (i : Nat)
  | beginFlush
  | endFlush (i : Nat) (tx : Tx)
  | resetBuffer
  | recreateBucket
  deriving Repr

namespace DiskRun

def step (s : DiskRun) : DiskStep → DiskRun
  | .advance d => { s with now := s.now + d }
  | .set key value ttl =>
      if s.dc.Refuses ttl then s else { s with dc := s.dc.buffer s.now key value ttl }
  | .read key allowStale => { s with dc := (s.dc.getWithTTL s.now key allowStale).2 }
  | .runDelete i => { s with dc := s.dc.runDelete i }
  | .beginFlush => { s with dc := s.dc.beginFlush }
  | .endFlush i tx => { s with dc := s.dc.endFlush s.now i tx }
  | .resetBuffer => { s with dc := s.dc.resetBuffer }
  | .recreateBucket => { s with dc := s.dc.recreateBucket }

def run (s : DiskRun) (steps : List DiskStep) : DiskRun := steps.foldl step s

theorem run_append (s : DiskRun) (steps steps' : List DiskStep) :
    s.run (steps ++ steps') = (s.run steps).run steps' := foldl_append

/-! ## Scheduled deletes -/

theorem step_read (s : DiskRun) (key : String) (allowStale : Bool) :
    ∃ deletes, s.step (.read key allowStale) = { s with dc := { s.dc with deletes := deletes } } := by
  have hsame : ∃ deletes, (s.dc.getWithTTL s.now key allowStale).2 =
      { s.dc with deletes := deletes } := by
    unfold getWithTTL
    split
    · split <;> exact ⟨s.dc.deletes, rfl⟩
    · split
      · exact ⟨s.dc.deletes, rfl⟩
      · split
        · exact ⟨s.dc.deletes ++ [key], rfl⟩
        · exact ⟨s.dc.deletes, rfl⟩
  obtain ⟨deletes, hdc⟩ := hsame
  exact ⟨deletes, by rw [step, hdc]⟩

/-- The read found an expired record of the key and scheduled its delete. -/
def Observes (s : DiskRun) (key : String) : Prop :=
  (s.dc.getWithTTL s.now key false).2.deletes = s.dc.deletes ++ [key]
  deriving Decidable

/-- The step commits a batch that holds an entry of the key. -/
def CommitsKey (key : String) (s : DiskRun) : DiskStep → Prop
  | .endFlush i _ => ∃ buf, s.dc.inflight[i]? = some buf ∧ (buf.find? key).isSome = true
  | _ => False

/-- The step commits a batch and leaves this record of the batch on the disk. -/
def Commits (key : String) (record : Bytes) (s : DiskRun) (e : DiskStep) : Prop :=
  s.CommitsKey key e ∧ (s.step e).dc.db.find? key = some record

variable {key : String} {s : DiskRun} {e : DiskStep} {steps : List DiskStep} {old : Nat}

/-- A step that does not commit the key leaves its record or removes it. -/
theorem find?_step (h : ¬ s.CommitsKey key e) :
    (s.step e).dc.db.find? key = none ∨ (s.step e).dc.db.find? key = s.dc.db.find? key := by
  cases e with
  | advance d | beginFlush | resetBuffer => exact .inr rfl
  | set k value ttl =>
    rw [step]
    split <;> exact .inr rfl
  | read k allowStale =>
    obtain ⟨deletes, hstep⟩ := step_read s k allowStale
    rw [hstep]
    exact .inr rfl
  | runDelete i =>
    simp only [step, runDelete]
    split
    · exact .inr rfl
    · simp only [KeyMap.find?_erase]
      split
      · exact .inl rfl
      · exact .inr rfl
  | endFlush i tx =>
    simp only [step, endFlush]
    split
    · exact .inr rfl
    · rename_i buf hbuf
      have hnone : buf.find? key = none := by
        cases hfind : buf.find? key with
        | none => rfl
        | some entry => exact absurd ⟨buf, hbuf, by rw [hfind]; rfl⟩ h
      rcases swept_transact_of_notMem s.now s.dc tx hnone with hsame | hgone
      · exact .inr hsame
      · exact .inl hgone.1
  | recreateBucket => exact .inl rfl

/-- A run of such steps leaves the record of the key or removes it. -/
theorem find?_run (h : StepsMeet step (fun s e => ¬ s.CommitsKey key e) s steps) :
    (s.run steps).dc.db.find? key = none ∨
      (s.run steps).dc.db.find? key = s.dc.db.find? key := by
  induction steps generalizing s with
  | nil => exact .inr rfl
  | cons e steps ih =>
    rcases ih h.2 with hnone | hsame
    · exact .inl hnone
    · rcases find?_step h.1 with hnone | hstep
      · exact .inl (hsame.trans hnone)
      · exact .inr (hsame.trans hstep)

/-- The run between the read and the delete commits this record of the key. -/
def CommitsBetween (s : DiskRun) (key : String) (between : List DiskStep) (record : Bytes) : Prop :=
  ∃ before e after, between = before ++ e :: after ∧
    Commits key record ((s.step (.read key false)).run before) e

/-- A record of the key that a flush has committed since the read, and that is on the disk
when the delete runs, is still there afterwards. -/
def KeepsCommitted (s : DiskRun) (key : String) (between : List DiskStep) (i : Nat) : Prop :=
  ∀ record, s.CommitsBetween key between record →
    ((s.step (.read key false)).run between).dc.db.find? key = some record →
      (((s.step (.read key false)).run between).step (.runDelete i)).dc.db.find? key = some record

theorem find?_runDelete {i : Nat} (h : s.dc.deletes[i]? = some key) :
    (s.step (.runDelete i)).dc.db.find? key = none := by
  simp only [step, runDelete, h, KeyMap.find?_erase, if_true]

/-- A delete that a read has scheduled keeps what has been committed since exactly when none of
that is on the disk any more.  In every run in which no entry of its key is committed before
it, all it can remove is the record that the read saw. -/
theorem delete_keeps_committed_iff (s : DiskRun) (key : String) (between : List DiskStep) (i : Nat)
    (hdelete : ((s.step (.read key false)).run between).dc.deletes[i]? = some key) :
    (s.KeepsCommitted key between i ↔
        ∀ record, s.CommitsBetween key between record →
          ((s.step (.read key false)).run between).dc.db.find? key ≠ some record) ∧
      (StepsMeet step (fun s e => ¬ s.CommitsKey key e) (s.step (.read key false)) between →
        s.KeepsCommitted key between i ∧
          (((s.step (.read key false)).run between).dc.db.find? key = none ∨
            ((s.step (.read key false)).run between).dc.db.find? key = s.dc.db.find? key)) := by
  refine ⟨⟨?_, ?_⟩, ?_⟩
  · intro hkeeps record hcommits hthere
    have hstays := hkeeps record hcommits hthere
    rw [find?_runDelete hdelete] at hstays
    cases hstays
  · intro hgone record hcommits hthere
    exact absurd hthere (hgone record hcommits)
  · intro hnone
    have hrecord : (s.step (.read key false)).dc.db.find? key = s.dc.db.find? key := by
      obtain ⟨deletes, hstep⟩ := step_read s key false
      rw [hstep]
    refine ⟨?_, hrecord ▸ find?_run hnone⟩
    intro record hcommits
    obtain ⟨before, e, after, hbetween, hcommit⟩ := hcommits
    rw [hbetween, stepsMeet_append] at hnone
    exact absurd hcommit.1 hnone.2.1

/-- An uncompressed disk tier. -/
def plainDisk : DiskRun := ⟨DiskCache.new .stored false 100 0 0, 0⟩

/-- The steps that leave an expired record of a key on the disk. -/
def untilExpired : List DiskStep := [.set "k" [1] 5, .beginFlush, .endFlush 0 .quiet, .advance 10]

/-- With a flush of another key in between, the delete removes the record that the read saw. -/
theorem delete_keeps_committed_alone :
    let s := plainDisk.run untilExpired
    let between := [DiskStep.set "j" [2] 100, .beginFlush, .endFlush 0 .quiet]
    (s.KeepsCommitted "k" between 0 ↔
        ∀ record, s.CommitsBetween "k" between record →
          ((s.step (.read "k" false)).run between).dc.db.find? "k" ≠ some record) ∧
      s.KeepsCommitted "k" between 0 ∧
      (((s.step (.read "k" false)).run between).dc.db.find? "k" = none ∨
        ((s.step (.read "k" false)).run between).dc.db.find? "k" = s.dc.db.find? "k") := by
  intro s between
  have hiff := delete_keeps_committed_iff s "k" between 0 (by decide)
  refine ⟨hiff.1, hiff.2 ⟨id, id, ?_, trivial⟩⟩
  -- the batch that the flush commits holds the other key only
  rintro ⟨buf, hbuf, hkey⟩
  have hnone : ∀ buf ∈ (((s.step (.read "k" false)).step (.set "j" [2] 100)).step
      .beginFlush).dc.inflight[0]?, (buf.find? "k").isSome = false := by decide
  rw [hnone buf hbuf] at hkey
  cases hkey

/-- A value that is set and flushed after the read is removed by the delete. -/
theorem not_delete_keeps_committed :
    (plainDisk.run untilExpired).Observes "k" ∧
      (((plainDisk.run untilExpired).step (.read "k" false)).run
        [.set "k" [2] 100, .beginFlush, .endFlush 0 .quiet]).dc.deletes[0]? = some "k" ∧
      ¬ (plainDisk.run untilExpired).KeepsCommitted "k"
        [.set "k" [2] 100, .beginFlush, .endFlush 0 .quiet] 0 := by
  refine ⟨by decide, by decide, ?_⟩
  intro hkeeps
  have hcommits : (plainDisk.run untilExpired).CommitsBetween "k"
      [.set "k" [2] 100, .beginFlush, .endFlush 0 .quiet] [0, 0, 0, 0, 0, 0, 0, 110, 2] :=
    ⟨[.set "k" [2] 100, .beginFlush], .endFlush 0 .quiet, [], rfl, ⟨_, rfl, by decide⟩, by decide⟩
  have hstays := hkeeps _ hcommits (by decide)
  rw [find?_runDelete (by decide)] at hstays
  cases hstays

/-! ## Purges -/

/-- The entry that a step stores. -/
def storedBy (s : DiskRun) : DiskStep → List (String × DiskEntry)
  | .set key value ttl =>
      if s.dc.Refuses ttl then [] else [(key, ⟨value, unixNano (s.now + ttl)⟩)]
  | _ => []

/-- The entries that a run stores. -/
def stores : DiskRun → List DiskStep → List (String × DiskEntry)
  | _, [] => []
  | s, e :: steps => s.storedBy e ++ stores (s.step e) steps

theorem stores_append (s : DiskRun) (steps steps' : List DiskStep) :
    s.stores (steps ++ steps') = s.stores steps ++ (s.run steps).stores steps' := by
  induction steps generalizing s with
  | nil => rfl
  | cons e steps ih =>
    rw [cons_append, stores, ih, stores, append_assoc]
    rfl

/-- Of the first `old` flushes under way, how many are left after the run; later flushes come
behind them. -/
def oldLeft : Nat → List DiskStep → Nat
  | old, [] => old
  | old, .endFlush i _ :: steps => oldLeft (if i < old then old - 1 else old) steps
  | old, _ :: steps => oldLeft old steps

/-- Everything but the database and the first `old` flushes under way has the property. -/
structure NewHolds (P : String → DiskEntry → Prop) (old : Nat) (dc : DiskCache) : Prop where
  buffered : ∀ k e, dc.writeBuf.find? k = some e → P k e
  swapped : ∀ buf ∈ dc.inflight.drop old, ∀ k e, buf.find? k = some e → P k e

theorem mem_drop_eraseIdx {α : Type} {xs : List α} {i : Nat} {x : α}
    (h : x ∈ (xs.eraseIdx i).drop (if i < old then old - 1 else old)) : x ∈ xs.drop old := by
  generalize hleft : (if i < old then old - 1 else old) = left at h
  obtain ⟨j, hj⟩ := mem_iff_getElem?.mp h
  rw [getElem?_drop, getElem?_eraseIdx] at hj
  obtain ⟨n, hn, hx⟩ : ∃ n, old ≤ n ∧ xs[n]? = some x := by
    split at hj
    · exact ⟨_, by split at hleft <;> omega, hj⟩
    · exact ⟨_, by split at hleft <;> omega, hj⟩
  rw [← Nat.add_sub_cancel' hn, ← getElem?_drop] at hx
  exact mem_of_getElem? hx

/-- The end of a flush takes one buffer off the waiting ones. -/
theorem endFlush_waiting (now : Int) (dc : DiskCache) (i : Nat) (tx : Tx) :
    (dc.endFlush now i tx).writeBuf = dc.writeBuf ∧
      (dc.endFlush now i tx).inflight = dc.inflight.eraseIdx i := by
  rw [endFlush]
  cases hbuf : dc.inflight[i]? with
  | none =>
    rw [eraseIdx_of_length_le (List.getElem?_eq_none_iff.mp hbuf)]
    exact ⟨rfl, rfl⟩
  | some buf => exact ⟨rfl, rfl⟩

open DiskRun

variable {P : String → DiskEntry → Prop}

/-- What is buffered since the start of a run was stored by its steps. -/
theorem NewHolds.step (hnew : ∀ ke ∈ s.storedBy e, P ke.1 ke.2)
    (h : NewHolds P old s.dc) : NewHolds P (oldLeft old [e]) (s.step e).dc := by
  cases e with
  | advance d => exact h
  | set key value ttl =>
    simp only [step, oldLeft]
    split
    · exact h
    · rename_i haccept
      refine ⟨?_, h.swapped⟩
      intro k entry hk
      simp only [buffer, KeyMap.find?_insert] at hk
      split at hk
      · rename_i hkey
        obtain rfl := some.inj hk
        rw [hkey]
        exact hnew (key, _) (by rw [storedBy, if_neg haccept]; exact mem_singleton_self _)
      · exact h.buffered k entry hk
  | read k allowStale =>
    obtain ⟨deletes, hstep⟩ := step_read s k allowStale
    rw [hstep]
    exact ⟨h.buffered, h.swapped⟩
  | runDelete i =>
    simp only [step, runDelete, oldLeft]
    split
    · exact h
    · exact ⟨h.buffered, h.swapped⟩
  | beginFlush =>
    refine ⟨fun k entry hk => by simp [step, beginFlush] at hk, ?_⟩
    intro buf hbuf k entry hk
    simp only [step, beginFlush, oldLeft, drop_append] at hbuf
    rcases mem_append.mp hbuf with hbuf | hbuf
    · exact h.swapped buf hbuf k entry hk
    · rw [mem_singleton.mp (mem_of_mem_drop hbuf)] at hk
      exact h.buffered k entry hk
  | endFlush i tx =>
    obtain ⟨hbuffer, hinflight⟩ := endFlush_waiting s.now s.dc i tx
    refine ⟨?_, ?_⟩
    · rw [step, hbuffer]
      exact h.buffered
    · intro buf hbuf
      rw [step, hinflight] at hbuf
      exact h.swapped buf (mem_drop_eraseIdx hbuf)
  | resetBuffer =>
    exact ⟨fun k entry hk => by simp [step, resetBuffer] at hk, h.swapped⟩
  | recreateBucket => exact ⟨h.buffered, h.swapped⟩

theorem oldLeft_cons (old : Nat) (e : DiskStep) (steps : List DiskStep) :
    oldLeft old (e :: steps) = oldLeft (oldLeft old [e]) steps := by
  cases e <;> rfl

/-- What is buffered since the start of a run was stored in it. -/
theorem NewHolds.run (hnew : ∀ ke ∈ s.stores steps, P ke.1 ke.2)
    (h : NewHolds P old s.dc) : NewHolds P (oldLeft old steps) (s.run steps).dc := by
  induction steps generalizing s old with
  | nil => exact h
  | cons e steps ih =>
    rw [oldLeft_cons]
    rw [stores] at hnew
    exact ih (fun ke hke => hnew ke (mem_append_right _ hke))
      (h.step fun ke hke => hnew ke (mem_append_left _ hke))

/-- Every entry of the tier was stored by a step or was there before. -/
theorem holds_step (hnew : ∀ ke ∈ s.storedBy e, P ke.1 ke.2)
    (h : s.dc.Holds P) : (s.step e).dc.Holds P := by
  have hothers : NewHolds P 0 s.dc := ⟨h.buffered, h.swapped⟩
  have hwaiting := hothers.step hnew
  rw [show oldLeft 0 [e] = 0 by cases e <;> simp [oldLeft]] at hwaiting
  refine ⟨hwaiting.buffered, hwaiting.swapped, ?_⟩
  cases e with
  | advance | beginFlush | resetBuffer => exact h.recorded
  | set key value ttl =>
    simp only [step]
    split <;> exact h.recorded
  | read k allowStale =>
    obtain ⟨deletes, hstep⟩ := step_read s k allowStale
    rw [hstep]
    exact h.recorded
  | runDelete i => exact (h.runDelete i).recorded
  | endFlush i tx => exact (h.endFlush s.now i tx).recorded
  | recreateBucket => exact fun k record hk => by simp [step, recreateBucket] at hk

/-- Every entry after a run was stored in it or was there before. -/
theorem holds_run (hnew : ∀ ke ∈ s.stores steps, P ke.1 ke.2)
    (h : s.dc.Holds P) : (s.run steps).dc.Holds P := by
  induction steps generalizing s with
  | nil => exact h
  | cons e steps ih =>
    rw [stores] at hnew
    exact ih (fun ke hke => hnew ke (mem_append_right _ hke))
      (holds_step (fun ke hke => hnew ke (mem_append_left _ hke)) h)

theorem found_of_getWithTTL {dc : DiskCache} {now rest : Int} {allowStale : Bool} {value : Bytes}
    (h : (dc.getWithTTL now key allowStale).1 = some (value, rest)) :
    ∃ e, dc.found key = some e ∧ e.value = value := by
  unfold getWithTTL at h
  rw [found]
  cases hbuf : dc.writeBuf.find? key with
  | some entry =>
    rw [hbuf] at h
    refine ⟨entry, rfl, ?_⟩
    simp only at h
    split at h
    · cases h
    · exact congrArg Prod.fst (some.inj h)
  | none =>
    rw [hbuf] at h
    cases hdisk : (dc.db.find? key).bind dc.unpack with
    | none =>
      rw [hdisk] at h
      cases h
    | some entry =>
      rw [hdisk] at h
      refine ⟨entry, rfl, ?_⟩
      simp only at h
      split at h
      · cases h
      · exact congrArg Prod.fst (some.inj h)

/-- The value was stored by a step of the run. -/
def StoredIn (s : DiskRun) (steps : List DiskStep) (key : String) (value : Bytes) : Prop :=
  ∃ e, (key, e) ∈ s.stores steps ∧ e.value = value

/-- A purge whose two halves stand before and behind `during`: after it, at any time, reads
return only what was stored since it began. -/
def PurgeIsFinal (s : DiskRun) (during : List DiskStep) : Prop :=
  ∀ after key allowStale value rest,
    let steps := during ++ .recreateBucket :: after
    let s' := (s.step .resetBuffer).run steps
    (s'.dc.getWithTTL s'.now key allowStale).1 = some (value, rest) →
      (s.step .resetBuffer).StoredIn steps key value

/-- A purge is final when every flush that was under way at its start has been committed
before the bucket is recreated. -/
theorem purge_is_final (s : DiskRun) (during : List DiskStep)
    (hflushes : oldLeft s.dc.inflight.length during = 0) : s.PurgeIsFinal during := by
  intro after key allowStale value rest steps s' hread
  obtain ⟨s₀, hs₀⟩ : ∃ s₀, s.step .resetBuffer = s₀ := ⟨_, rfl⟩
  have hend : s' = ((s₀.run during).step .recreateBucket).run after :=
    hs₀ ▸ run_append _ during _
  obtain ⟨e, hfound, hvalue⟩ := found_of_getWithTTL hread
  refine ⟨e, hs₀ ▸ ?_, hvalue⟩
  have hall : s₀.stores steps = s₀.stores during ++
      (s₀.run during).stores (.recreateBucket :: after) := stores_append _ during _
  -- when the bucket is recreated, all that is left was stored since the start
  have hstart : NewHolds (fun k e => (k, e) ∈ s₀.stores steps) s.dc.inflight.length s₀.dc := by
    rw [← hs₀]
    refine ⟨fun k entry hk => by simp [DiskRun.step, DiskCache.resetBuffer] at hk, ?_⟩
    intro buf hbuf
    simp [DiskRun.step, DiskCache.resetBuffer] at hbuf
  have hduring : NewHolds _ _ (s₀.run during).dc := hstart.run fun ke hke => by
    rw [hall]
    exact mem_append_left _ hke
  rw [hflushes] at hduring
  have hrecreated : ((s₀.run during).step .recreateBucket).dc.Holds
      fun k e => (k, e) ∈ s₀.stores steps :=
    ⟨hduring.buffered, hduring.swapped, fun k record hk => by
      simp [DiskRun.step, DiskCache.recreateBucket] at hk⟩
  have hlater : ∀ ke ∈ ((s₀.run during).step .recreateBucket).stores after, ke ∈ s₀.stores steps := by
    intro ke hke
    rw [hall, stores]
    exact mem_append_right _ (mem_append_right _ hke)
  rw [hend] at hfound
  exact (holds_run hlater hrecreated).found hfound

/-- A flush that ends between the halves of the purge. -/
theorem purge_is_final_after_flush :
    (plainDisk.run [.set "k" [1] 100, .beginFlush]).PurgeIsFinal [.endFlush 0 .quiet] :=
  purge_is_final _ _ (by decide)

/-- A flush that has swapped the buffer before the purge and commits after it brings the old
value back. -/
theorem not_purge_is_final :
    ¬ (plainDisk.run [.set "k" [1] 100, .beginFlush]).PurgeIsFinal [] := by
  intro hfinal
  obtain ⟨e, hmem, -⟩ := hfinal [.endFlush 0 .quiet] "k" false [1] 100 (by decide)
  exact absurd hmem not_mem_nil

/-- In every run from an empty disk tier a read returns only what the run stored for its key. -/
theorem read_was_stored {gzip : Gzip} {compression : Bool} {flushSize minTTL maxBytes : Int}
    (allowStale : Bool) {value : Bytes} (rest : Int)
    (hnew : s.dc = DiskCache.new gzip compression flushSize minTTL maxBytes)
    (hread : ((s.run steps).dc.getWithTTL (s.run steps).now key allowStale).1 = some (value, rest)) :
    s.StoredIn steps key value := by
  have hstart : s.dc.Holds fun k e => (k, e) ∈ s.stores steps := hnew ▸ Holds.new ..
  obtain ⟨e, hfound, hvalue⟩ := found_of_getWithTTL hread
  exact ⟨e, (holds_run (fun _ => id) hstart).found hfound, hvalue⟩

/-- A value stored and flushed is read back. -/
theorem read_was_stored_after_flush :
    plainDisk.StoredIn [.set "k" [1] 100, .beginFlush, .endFlush 0 .quiet] "k" [1] :=
  read_was_stored false 100 rfl (by decide)

end DiskRun

end LokiVlProxy.Cache
