/-
  Cache/Lifetime.lean --- no value outlives the store that brought it in.

  A node without peers is run together with the list of the stores made so far.
-/
import LokiVlProxy.Cache.Fetch

namespace LokiVlProxy.Cache

open Foundation Option DiskCache

/-- Some store of the value under the key allows it to live until `expiry`. -/
def Born (writes : List Write) (key : String) (value : Bytes) (expiry : Int) : Prop :=
  ∃ w ∈ writes, w.key = key ∧ w.value = value ∧ expiry ≤ w.time + w.ttl

variable {writes : List Write}

theorem Born.append {key : String} {value : Bytes} {expiry : Int} (h : Born writes key value expiry)
    (more : List Write) : Born (writes ++ more) key value expiry := by
  obtain ⟨w, hw, hrest⟩ := h
  exact ⟨w, List.mem_append_left _ hw, hrest⟩

theorem Born.earlier {key : String} {value : Bytes} {expiry expiry' : Int}
    (h : Born writes key value expiry) (hle : expiry' ≤ expiry) :
    Born writes key value expiry' := by
  obtain ⟨w, hw, hk, hv, hx⟩ := h
  exact ⟨w, hw, hk, hv, Int.le_trans hle hx⟩

namespace Node

/-- A `Get` that misses memory, finds a live value on disk and can keep it in memory finds
at least the default TTL left. -/
def PromotesWithinLife (n : Node) : Op → Prop
  | .get key _ _ =>
      n.cache.toL1.peek n.now key = none → ∀ dc ∈ n.cache.l2, ∀ e ∈ dc.found key,
        0 < DiskCache.remaining n.now e → ¬ n.cache.Oversized e.value →
        n.cache.defaultTTL ≤ DiskCache.remaining n.now e
  | _ => True

instance (n : Node) : (op : Op) → Decidable (n.PromotesWithinLife op)
  | .get _ _ _ => inferInstanceAs (Decidable (_ → ∀ _ ∈ _, ∀ _ ∈ _, _))
  | .setWithTTL _ _ _ _ | .setShadowWithTTL _ _ _ _ | .set _ _ _ | .setLocalOnlyWithTTL _ _ _
  | .setLocalAndDiskWithTTL _ _ _ _ | .getWithTTL _ | .getSharedWithTTL _ _ | .invalidate _
  | .invalidatePrefix _ | .runPromoter | .cleanup | .flush _ | .beginFlush | .endFlush _ _
  | .runDelete _ | .advance _ => inferInstanceAs (Decidable True)

end Node

/-! ## The disk tier of a tiered cache -/

namespace TieredCache

/-- Everything on disk satisfies `P`. -/
def DiskHolds (P : String → DiskEntry → Prop) (c : TieredCache) : Prop :=
  ∀ dc, c.l2 = some dc → DiskCache.Holds P dc

variable {P : String → DiskEntry → Prop} {c : TieredCache}

theorem DiskHolds.map (h : DiskHolds P c) {f : DiskCache → DiskCache}
    (hf : ∀ dc, DiskCache.Holds P dc → DiskCache.Holds P (f dc)) {dc : DiskCache}
    (hdc : c.l2.map f = some dc) : DiskCache.Holds P dc := by
  obtain ⟨dc', hdc', rfl⟩ := map_eq_some_iff.mp hdc
  exact hf dc' (h dc' hdc')

variable {key : String}

/-- A store puts one entry on disk. -/
theorem DiskHolds.setWithTTLPropagate (h : DiskHolds P c) (now : Int) {value : Bytes} {ttl : Int}
    (propagateL3 : Bool) (tx : Tx) (hnew : ¬ c.Oversized value → 0 < c.shadowTTL key ttl →
      P key ⟨value, unixNano (now + c.shadowTTL key ttl)⟩) :
    DiskHolds P (c.setWithTTLPropagate now key value ttl propagateL3 tx) := by
  unfold TieredCache.setWithTTLPropagate
  split
  · exact h
  · rename_i hsize
    intro dc hdc
    simp only [storeAll] at hdc
    split at hdc
    · exact h dc hdc
    · refine h.map (fun dc' hdc' => hdc'.set now tx fun haccept => hnew hsize ?_) hdc
      exact Int.not_le.mp fun hle => haccept (.inl hle)

theorem DiskHolds.setLocalAndDiskWithTTL (h : DiskHolds P c) (now : Int) {value : Bytes} {ttl : Int}
    (tx : Tx) (hnew : ¬ c.Oversized value → 0 < ttl → P key ⟨value, unixNano (now + ttl)⟩) :
    DiskHolds P (c.setLocalAndDiskWithTTL now key value ttl tx) := by
  unfold TieredCache.setLocalAndDiskWithTTL
  split
  · exact h
  · rename_i hsize
    intro dc hdc
    simp only at hdc
    split at hdc
    · exact h dc hdc
    · refine h.map (fun dc' hdc' => hdc'.set now tx fun haccept => hnew hsize ?_) hdc
      exact Int.not_le.mp fun hle => haccept (.inl hle)

/-- A fetch puts nothing on disk but what it promotes. -/
theorem DiskHolds.fetched (h : DiskHolds P c) {now : Int} {inMemory : Option Bytes}
    {promoted : DiskEntry → TieredCache} {reply : Option Bytes} {c' : TieredCache}
    (hfetch : Fetched now c key inMemory promoted reply c')
    (hpromoted : ∀ dc e, inMemory = none → c.l2 = some dc → dc.found key = some e →
      0 < remaining now e → DiskHolds P (promoted e)) : DiskHolds P c' := by
  cases hfetch with
  | memory _ | noDisk _ _ => exact h
  | disk hm hdc hf hr => exact hpromoted _ _ hm hdc hf hr
  | miss hm hdc hf deletes =>
    intro dc hdc'
    obtain rfl := some.inj hdc'
    have hdisk := h _ hdc
    exact ⟨hdisk.buffered, hdisk.swapped, hdisk.recorded⟩

end TieredCache

namespace Logged

/-- An entry of the disk tier lives no longer than some store allows. -/
def BornOnDisk (writes : List Write) (k : String) (e : DiskEntry) : Prop :=
  Born writes k e.value e.expiresAt.toInt

/-- Every copy of a value lives no longer than some store of it allows. -/
structure Inv (l : Logged) : Prop where
  clock : 0 ≤ l.node.now
  peers : l.node.cache.l3 = none
  indexed : l.node.cache.toL1.Indexed
  memory : ∀ k e, l.node.cache.entries.find? k = some e → Born l.writes k e.value e.expiresAt
  disk : l.node.cache.DiskHolds (BornOnDisk l.writes)

variable {l : Logged}

/-- Nothing is cached at the start. -/
theorem Inv.start (t0 : Nat) (ttl maxEntries maxBytes : Int) (gzip : Gzip) (compression : Bool)
    (flushSize minTTL diskBytes : Int) :
    Inv (start t0 ttl maxEntries maxBytes
      (new gzip compression flushSize minTTL diskBytes)) where
  clock := Int.natCast_nonneg t0
  peers := rfl
  indexed := L1.Indexed.new ttl maxEntries maxBytes
  memory := fun k e hk => by
    simp [Logged.start, Node.start, TieredCache.newWithMaxBytes, L1.newWithMaxBytes] at hk
  disk := fun dc hdc => by
    obtain rfl := some.inj hdc
    exact DiskCache.Holds.new _ gzip compression flushSize minTTL diskBytes

variable {op : Op} {key : String} {value : Bytes}

theorem born_written {w : Write} (hw : l.node.written op = some w) :
    Born (l.step op).writes w.key w.value (w.time + w.ttl) :=
  ⟨w, by simp [Logged.step, hw], rfl, rfl, Int.le_refl _⟩

theorem Born.step {expiry : Int} (h : Born l.writes key value expiry) (op : Op) :
    Born (l.step op).writes key value expiry :=
  h.append _

theorem Inv.born_found (h : Inv l) {dc : DiskCache} (hdc : l.node.cache.l2 = some dc)
    {e : DiskEntry} (hf : dc.found key = some e) {ttl : Int}
    (hle : ttl ≤ remaining l.node.now e) :
    Born l.writes key e.value (l.node.now + ttl) := by
  have hborn : Born l.writes key e.value e.expiresAt.toInt := (h.disk dc hdc).found hf
  refine hborn.earlier ?_
  simp only [remaining] at hle
  omega

section

variable (h : Inv l) (hok : l.node.PromotesWithinLife op)

include h hok

/-- What an operation stores in memory was written before, and does not outlive it. -/
theorem Inv.born_action {k : String} {ttl : Int} (ha : l.node.action op = some (.set k value ttl))
    (hsize : ¬ l.node.cache.Oversized value) :
    Born (l.step op).writes k value (l.node.now + ttl) := by
  cases hw : l.node.written op with
  | some w =>
    obtain ⟨ha', htime⟩ := Node.action_of_written h.peers hw
    rw [ha'] at ha
    cases ha
    rw [← htime]
    exact born_written hw
  | none =>
    obtain ⟨dc, e, hdc, hf, hr, rfl, hwhy⟩ := Node.found_of_read h.peers hw ha
    refine Born.step (h.born_found hdc hf ?_) op
    rcases hwhy with ⟨peer, tx, rfl, hm, rfl⟩ | ⟨peer, -, -, rfl⟩
    · exact hok hm dc hdc e hf hr hsize
    · exact Int.le_refl _

/-- Whatever an operation leaves on disk is born. -/
theorem Inv.disk_step : (l.step op).node.cache.DiskHolds (BornOnDisk (l.step op).writes) := by
  have hold : l.node.cache.DiskHolds (BornOnDisk (l.step op).writes) := fun dc hdc =>
    (h.disk dc hdc).mono fun k e he => Born.step he op
  -- a store that reaches the disk carries an expiry that memory could carry too
  have hnew : ∀ {k : String} {value : Bytes} {ttl : Int},
      Born (l.step op).writes k value (l.node.now + ttl) → 0 < ttl →
      BornOnDisk (l.step op).writes k ⟨value, unixNano (l.node.now + ttl)⟩ := by
    intro k value ttl hborn hpos
    refine hborn.earlier (toInt_unixNano_le ?_)
    have := h.clock
    omega
  have hwritten : ∀ {w : Write}, l.node.written op = some w →
      Born (l.step op).writes w.key w.value (l.node.now + w.ttl) := by
    intro w hw
    rw [← (Node.action_of_written h.peers hw).2]
    exact born_written hw
  cases op with
  | setWithTTL key value ttl tx | setShadowWithTTL key value ttl tx | set key value tx =>
    refine hold.setWithTTLPropagate l.node.now _ tx ?_
    rw [TieredCache.shadowTTL_of_no_peers h.peers]
    exact fun _ hpos => hnew (hwritten rfl) hpos
  | setLocalAndDiskWithTTL key value ttl tx =>
    exact hold.setLocalAndDiskWithTTL l.node.now tx fun _ hpos => hnew (hwritten rfl) hpos
  | get key peer tx =>
    refine hold.fetched (TieredCache.fetched_get l.node.now h.peers key peer tx) ?_
    intro dc e hm hdc hf hr
    refine hold.setWithTTLPropagate l.node.now true tx ?_
    rw [TieredCache.shadowTTL_of_no_peers h.peers]
    intro hsize hpos
    have hleft := hok (map_eq_none_iff.mp hm) dc hdc e hf hr hsize
    exact hnew (Born.step (h.born_found hdc hf hleft) _) hpos
  | getSharedWithTTL key peer =>
    exact hold.fetched (TieredCache.fetched_getSharedWithTTL l.node.now h.peers key peer)
      fun _ _ _ _ _ _ => hold
  | getWithTTL key =>
    simp only [Logged.step, Node.step, TieredCache.getWithTTL]
    split <;> exact hold
  | flush tx => exact fun dc hdc => hold.map (fun _ hd => hd.flush l.node.now tx) hdc
  | beginFlush => exact fun dc hdc => hold.map (fun _ hd => hd.beginFlush) hdc
  | endFlush i tx => exact fun dc hdc => hold.map (fun _ hd => hd.endFlush l.node.now i tx) hdc
  | runDelete i => exact fun dc hdc => hold.map (fun _ hd => hd.runDelete i) hdc
  | _ => exact hold

/-- Every operation keeps the invariant. -/
theorem Inv.step : Inv (l.step op) where
  clock := by
    have := h.clock
    cases op <;> simp only [Logged.step, Node.step, Node.onMemory, Node.onDisk] <;> omega
  peers := Node.step_l3 h.peers op
  indexed := by
    rw [show (l.step op).node.cache.toL1 = _ from l.node.step_toL1 op]
    exact h.indexed.actOpt l.node.now (l.node.action op)
  memory := by
    intro k e hk
    rw [show (l.step op).node.cache.toL1 = _ from l.node.step_toL1 op] at hk
    rcases h.indexed.find?_actOpt hk with hthere | ⟨value, ttl, ha, hsize, rfl⟩
    · exact Born.step (h.memory k e hthere) op
    · exact h.born_action hok ha hsize
  disk := h.disk_step hok

end

theorem Inv.born_peekWithTTL (h : Inv l) {hit : Bytes × Int}
    (hp : l.node.cache.toL1.peekWithTTL l.node.now key = some hit) :
    Born l.writes key hit.1 l.node.now := by
  obtain ⟨e, he, hlive, hvalue⟩ := L1.find?_of_peekWithTTL hp
  exact hvalue ▸ (h.memory key e he).earlier hlive

/-- A value that the disk still shows was written and has not run out. -/
theorem Inv.born_disk (h : Inv l) {dc : DiskCache} (hdc : l.node.cache.l2 = some dc) {e : DiskEntry}
    (hf : dc.found key = some e) (hr : 0 < remaining l.node.now e) :
    Born l.writes key e.value l.node.now := by
  have hborn := h.born_found hdc hf (Int.le_of_lt hr)
  rwa [Int.add_zero] at hborn

/-- What a read returns is still within the life of a store of that value. -/
theorem Inv.served (h : Inv l) (hs : l.node.served op = some (key, value)) :
    Born l.writes key value l.node.now := by
  cases op with
  | get k peer tx =>
    obtain ⟨v, hv, heq⟩ := map_eq_some_iff.mp hs
    cases heq
    have hfetch := TieredCache.fetched_get l.node.now h.peers key peer tx
    rw [hv] at hfetch
    generalize (l.node.cache.get l.node.now key peer tx).2 = c' at hfetch
    cases hfetch with
    | memory hm =>
      obtain ⟨e, he, rfl⟩ := map_eq_some_iff.mp hm
      obtain ⟨hfind, hlive⟩ := L1.find?_of_peek he
      exact (h.memory key e hfind).earlier hlive
    | disk _ hdc hf hr => exact h.born_disk hdc hf hr
  | getSharedWithTTL k peer =>
    obtain ⟨hit, hhit, heq⟩ := map_eq_some_iff.mp hs
    obtain ⟨rfl, hvalue⟩ := Prod.mk.inj heq
    have hfetch := TieredCache.fetched_getSharedWithTTL l.node.now h.peers k peer
    rw [hhit, map_some, hvalue] at hfetch
    generalize (l.node.cache.getSharedWithTTL l.node.now k peer).2 = c' at hfetch
    cases hfetch with
    | memory hm =>
      obtain ⟨hit', hp, rfl⟩ := map_eq_some_iff.mp hm
      exact h.born_peekWithTTL hp
    | disk _ hdc hf hr => exact h.born_disk hdc hf hr
  | getWithTTL k =>
    obtain ⟨hit, hhit, heq⟩ := map_eq_some_iff.mp hs
    cases heq
    unfold TieredCache.getWithTTL at hhit
    split at hhit
    · rename_i hp
      obtain rfl := some.inj hhit
      exact h.born_peekWithTTL hp
    · cases hhit
  | _ => cases hs

/-- Along a run of a node without peers, in which every `Get` that promotes a value from
disk finds at least the default TTL left, whatever a read returns is still within the life
of an earlier store of that value, and every copy in memory expires within such a life. -/
theorem reads_within_life (t0 : Nat) (ttl maxEntries maxBytes : Int) (gzip : Gzip)
    (compression : Bool) (flushSize minTTL diskBytes : Int) (ops : List Op)
    (hok : StepsMeet step (fun l op => l.node.PromotesWithinLife op)
      (start t0 ttl maxEntries maxBytes
        (DiskCache.new gzip compression flushSize minTTL diskBytes)) ops)
    (pre rest : List Op) (hpre : ops = pre ++ rest) :
    let l := (start t0 ttl maxEntries maxBytes
      (DiskCache.new gzip compression flushSize minTTL diskBytes)).run pre
    (∀ op key value, l.node.served op = some (key, value) →
        ∃ w ∈ l.writes, w.key = key ∧ w.value = value ∧ l.node.now ≤ w.time + w.ttl) ∧
      ∀ k e, l.node.cache.entries.find? k = some e →
        ∃ w ∈ l.writes, w.key = k ∧ w.value = e.value ∧ e.expiresAt ≤ w.time + w.ttl := by
  intro l
  rw [hpre, stepsMeet_append] at hok
  have h : Inv l := by
    refine run_invariant_of_stepsMeet (fun _ _ hi ho => hi.step ho) ?_ hok.1
    exact Inv.start t0 ttl maxEntries maxBytes gzip compression flushSize minTTL diskBytes
  exact ⟨fun op key value hs => h.served hs, h.memory⟩

/-- A store, its eviction from memory by another key, and a promotion that finds more than
the default TTL left. -/
theorem reads_within_life_after_promotion :
    let l := (start 0 5 1 100 (DiskCache.new .stored false 100 0 0)).run
      [.setWithTTL "k" [1] 10 .quiet, .setWithTTL "other" [2] 10 .quiet, .get "k" none .quiet,
        .advance 4]
    l.node.served (.get "k" none .quiet) = some ("k", [1]) ∧
      ∃ w ∈ l.writes, w.key = "k" ∧ w.value = [1] ∧ l.node.now ≤ w.time + w.ttl := by
  intro l
  have hserved : l.node.served (.get "k" none .quiet) = some ("k", [1]) := by decide
  refine ⟨hserved, ?_⟩
  refine (reads_within_life 0 5 1 100 .stored false 100 0 0 _ ?_
    [.setWithTTL "k" [1] 10 .quiet, .setWithTTL "other" [2] 10 .quiet, .get "k" none .quiet,
      .advance 4] [] rfl).1 _ _ _ hserved
  exact ⟨by decide, by decide, by decide, by decide, trivial⟩

/-- A value stored for 10 is returned at 29: evicted from memory, it was promoted from the
write buffer at 9 and got the default TTL of 60 on the way. -/
theorem promotion_extends_life :
    let l := (start 0 60 1 100 (DiskCache.new .stored false 100 0 0)).run
      [.setWithTTL "k" [1] 10 .quiet, .setWithTTL "other" [2] 10 .quiet, .advance 9,
        .get "k" none .quiet, .advance 20]
    l.node.served (.get "k" none .quiet) = some ("k", [1]) ∧
      ¬ ∃ w ∈ l.writes, w.key = "k" ∧ w.value = [1] ∧ l.node.now ≤ w.time + w.ttl := by
  decide

end Logged

end LokiVlProxy.Cache
