/-
  Cache/Fetch.lean --- reads and stores of a node without peers.

  `Get` and `GetSharedWithTTL` differ in how they look at memory and in how they
  promote what they find on disk; otherwise they run the same way.
-/
import LokiVlProxy.Cache.DiskContents
import LokiVlProxy.Cache.MemoryRuns

namespace LokiVlProxy.Cache

open Foundation DiskCache Option

namespace DiskCache

variable {now : Int} {dc : DiskCache} {key : String}

theorem getWithTTL_snd_of_hit {hit : Bytes × Int} (h : (dc.getWithTTL now key false).1 = some hit) :
    (dc.getWithTTL now key false).2 = dc := by
  unfold getWithTTL at h ⊢
  split
  · split <;> rfl
  · split
    · rfl
    · split
      · rename_i hb _ _ hd hr
        simp [hb, hd, hr] at h
      · rfl

theorem getWithTTL_snd (now : Int) (dc : DiskCache) (key : String) :
    ∃ deletes, (dc.getWithTTL now key false).2 = { dc with deletes := deletes } := by
  unfold getWithTTL
  split
  · split <;> exact ⟨dc.deletes, rfl⟩
  · split
    · exact ⟨dc.deletes, rfl⟩
    · split
      · exact ⟨_, rfl⟩
      · exact ⟨dc.deletes, rfl⟩

/-- A hit is the newest entry of the key, still alive. -/
theorem found_of_hit {hit : Bytes × Int} (h : (dc.getWithTTL now key false).1 = some hit) :
    ∃ e, dc.found key = some e ∧ 0 < remaining now e ∧ hit = (e.value, remaining now e) := by
  rw [getWithTTL_eq] at h
  obtain ⟨e, hfilter, rfl⟩ := Option.map_eq_some_iff.mp h
  obtain ⟨hfound, hlive⟩ := Option.filter_eq_some_iff.mp hfilter
  exact ⟨e, hfound, by simpa using hlive, rfl⟩

/-- On a miss the newest entry has expired. -/
theorem expired_of_miss (h : (dc.getWithTTL now key false).1 = none) {e : DiskEntry}
    (he : dc.found key = some e) : remaining now e ≤ 0 := by
  rw [getWithTTL_eq, he, Option.map_eq_none_iff, Option.filter_some] at h
  by_contra hlive
  simp [Int.not_le.mp hlive] at h

end DiskCache

/-- The outcomes of a read of `key` without peers: `inMemory` is what the memory lookup
gives, `promoted` the cache after a disk hit has been promoted. -/
inductive Fetched (now : Int) (c : TieredCache) (key : String) (inMemory : Option Bytes)
    (promoted : DiskEntry → TieredCache) : Option Bytes → TieredCache → Prop
  | memory {value : Bytes} (h : inMemory = some value) :
      Fetched now c key inMemory promoted (some value)
        { c with toL1 := c.toL1.requestPromotion key }
  | disk {dc : DiskCache} {e : DiskEntry} (hm : inMemory = none) (hdc : c.l2 = some dc)
      (hf : dc.found key = some e) (hr : 0 < DiskCache.remaining now e) :
      Fetched now c key inMemory promoted (some e.value) (promoted e)
  | noDisk (hm : inMemory = none) (hdc : c.l2 = none) :
      Fetched now c key inMemory promoted none c
  /-- an expired record may start the goroutine that deletes it -/
  | miss {dc : DiskCache} (hm : inMemory = none) (hdc : c.l2 = some dc)
      (hf : ∀ e, dc.found key = some e → DiskCache.remaining now e ≤ 0) (deletes : List String) :
      Fetched now c key inMemory promoted none
        { c with l2 := some { dc with deletes := deletes } }

namespace TieredCache

variable {c : TieredCache}

/-- The disk lookup hits and changes nothing, or there is no disk, or it misses and may
leave a delete pending. -/
theorem l2Get_cases (now : Int) (c : TieredCache) (key : String) :
    (∃ dc e, c.l2 = some dc ∧ dc.found key = some e ∧ 0 < remaining now e ∧
        c.l2Get now key = (some (e.value, remaining now e), c)) ∨
      (c.l2 = none ∧ c.l2Get now key = (none, c)) ∨
      ∃ dc deletes, c.l2 = some dc ∧
        (∀ e, dc.found key = some e → remaining now e ≤ 0) ∧
        c.l2Get now key = (none, { c with l2 := some { dc with deletes := deletes } }) := by
  cases hdc : c.l2 with
  | none => exact .inr (.inl ⟨rfl, by simp only [l2Get, hdc]⟩)
  | some dc =>
    cases hget : (dc.getWithTTL now key false).1 with
    | some hit =>
      obtain ⟨e, hf, hr, rfl⟩ := found_of_hit hget
      have hsame : ({ c with l2 := some dc } : TieredCache) = c := by rw [← hdc]
      refine .inl ⟨dc, e, rfl, hf, hr, ?_⟩
      simp only [l2Get, hdc, hget, getWithTTL_snd_of_hit hget, hsame]
    | none =>
      obtain ⟨deletes, hdel⟩ := getWithTTL_snd now dc key
      refine .inr (.inr ⟨dc, deletes, rfl, ?_, ?_⟩)
      · intro e he
        exact expired_of_miss hget he
      · simp only [l2Get, hdc, hget, hdel]

/-- `Get` looks into the memory, then on disk, then asks the owner. -/
theorem fetched_get (now : Int) (hpeers : c.l3 = none) (key : String)
    (peer : Option (Bytes × Int)) (tx : Tx) :
    Fetched now c key ((c.toL1.peek now key).map Entry.value)
      (fun e => c.set now key e.value tx) (c.get now key peer tx).1 (c.get now key peer tx).2 := by
  unfold get
  cases hm : c.toL1.peek now key with
  | some e => exact .memory rfl
  | none =>
    rcases l2Get_cases now c key with ⟨dc, e, hdc, hf, hr, heq⟩ | ⟨hdc, heq⟩ |
      ⟨dc, deletes, hdc, hf, heq⟩
    · rw [heq]
      exact .disk rfl hdc hf hr
    · simp only [heq, l3Get, hpeers]
      exact .noDisk rfl hdc
    · simp only [heq, l3Get, hpeers]
      exact hpeers ▸ .miss rfl hdc hf deletes

/-- `GetSharedWithTTL` looks in the same places. -/
theorem fetched_getSharedWithTTL (now : Int) (hpeers : c.l3 = none) (key : String)
    (peer : Option (Bytes × Int)) :
    Fetched now c key ((c.toL1.peekWithTTL now key).map Prod.fst)
      (fun e => c.setLocalOnlyWithTTL now key e.value (remaining now e))
      ((c.getSharedWithTTL now key peer).1.map Prod.fst)
      (c.getSharedWithTTL now key peer).2 := by
  unfold getSharedWithTTL
  cases hm : c.toL1.peekWithTTL now key with
  | some hit => exact .memory rfl
  | none =>
    rcases l2Get_cases now c key with ⟨dc, e, hdc, hf, hr, heq⟩ | ⟨hdc, heq⟩ |
      ⟨dc, deletes, hdc, hf, heq⟩
    · rw [heq]
      exact .disk rfl hdc hf hr
    · simp only [heq, l3Get, hpeers]
      exact .noDisk rfl hdc
    · simp only [heq, l3Get, hpeers]
      exact hpeers ▸ .miss rfl hdc hf deletes

theorem shadowTTL_of_no_peers (hpeers : c.l3 = none) (key : String) (ttl : Int) :
    c.shadowTTL key ttl = ttl := by
  simp [shadowTTL, isShadow, hpeers]

theorem l3Get_of_no_peers (hpeers : c.l3 = none) (key : String) (peer : Option (Bytes × Int)) :
    c.l3Get key peer = none := by
  simp [l3Get, hpeers]

theorem setWithTTLPropagate_l3 (hpeers : c.l3 = none) (now : Int) (key : String) (value : Bytes)
    (ttl : Int) (propagateL3 : Bool) (tx : Tx) :
    (c.setWithTTLPropagate now key value ttl propagateL3 tx).l3 = none := by
  unfold setWithTTLPropagate
  split
  · exact hpeers
  · simp [storeAll, hpeers]

end TieredCache

theorem Fetched.l3 {now : Int} {c c' : TieredCache} {key : String} {inMemory reply : Option Bytes}
    {promoted : DiskEntry → TieredCache} (h : Fetched now c key inMemory promoted reply c')
    (hpeers : c.l3 = none) (hpromoted : ∀ e, (promoted e).l3 = none) : c'.l3 = none := by
  cases h with
  | disk => exact hpromoted _
  | _ => exact hpeers

/-- A node without peers stays without. -/
theorem Node.step_l3 {n : Node} (hpeers : n.cache.l3 = none) (op : Op) :
    (n.step op).cache.l3 = none := by
  cases op with
  | setWithTTL | setShadowWithTTL | set =>
    exact TieredCache.setWithTTLPropagate_l3 hpeers _ _ _ _ _ _
  | setLocalAndDiskWithTTL | getWithTTL =>
    simp only [Node.step, TieredCache.setLocalAndDiskWithTTL, TieredCache.getWithTTL]
    split <;> exact hpeers
  | get key peer tx =>
    refine (TieredCache.fetched_get n.now hpeers key peer tx).l3 hpeers ?_
    exact fun e => TieredCache.setWithTTLPropagate_l3 hpeers _ _ _ _ _ _
  | getSharedWithTTL key peer =>
    exact (TieredCache.fetched_getSharedWithTTL n.now hpeers key peer).l3 hpeers fun _ => hpeers
  | _ => exact hpeers

/-! ## Runs with the stores made so far -/

/-- A store as its caller asked for it. -/
structure Write where
  key : String
  value : Bytes
  time : Int
  ttl : Int
  deriving DecidableEq, Repr

namespace Node

/-- The store that an operation asks for. -/
def written (n : Node) : Op → Option Write
  | .setWithTTL key value ttl _ => some ⟨key, value, n.now, ttl⟩
  | .setShadowWithTTL key value ttl _ => some ⟨key, value, n.now, ttl⟩
  | .set key value _ => some ⟨key, value, n.now, n.cache.defaultTTL⟩
  | .setLocalOnlyWithTTL key value ttl => some ⟨key, value, n.now, ttl⟩
  | .setLocalAndDiskWithTTL key value ttl _ => some ⟨key, value, n.now, ttl⟩
  | _ => none

variable {n : Node}

/-- A write that is logged is a store in memory, now. -/
theorem action_of_written (hpeers : n.cache.l3 = none) {op : Op} {w : Write}
    (hw : n.written op = some w) :
    n.action op = some (.set w.key w.value w.ttl) ∧ w.time = n.now := by
  cases op with
  | setWithTTL | setShadowWithTTL | set =>
    obtain rfl := some.inj hw
    exact ⟨by simp only [Node.action, TieredCache.shadowTTL_of_no_peers hpeers], rfl⟩
  | setLocalOnlyWithTTL | setLocalAndDiskWithTTL =>
    obtain rfl := some.inj hw
    exact ⟨rfl, rfl⟩
  | _ => cases hw

/-- A read that stores in memory has found a live entry on disk, and stores it for the
default TTL (`Get`) or for the time it has left (`GetSharedWithTTL`). -/
theorem found_of_read (hpeers : n.cache.l3 = none) {op : Op} (hw : n.written op = none)
    {k : String} {value : Bytes} {ttl : Int} (ha : n.action op = some (.set k value ttl)) :
    ∃ dc e, n.cache.l2 = some dc ∧ dc.found k = some e ∧
      0 < remaining n.now e ∧ value = e.value ∧
      ((∃ peer tx, op = .get k peer tx ∧ n.cache.toL1.peek n.now k = none ∧
          ttl = n.cache.defaultTTL) ∨
        ∃ peer, op = .getSharedWithTTL k peer ∧ n.cache.toL1.peekWithTTL n.now k = none ∧
          ttl = remaining n.now e) := by
  cases op with
  | get key peer | getSharedWithTTL key peer =>
    simp only [Node.action, TieredCache.getAction, TieredCache.getSharedAction] at ha
    split at ha
    · cases ha
    · rename_i hm
      rcases TieredCache.l2Get_cases n.now n.cache key with
        ⟨dc, e, hdc, hf, hr, heq⟩ | ⟨-, heq⟩ | ⟨dc, deletes, -, -, heq⟩
      · simp only [heq, TieredCache.shadowTTL_of_no_peers hpeers, some.injEq,
          L1.Action.set.injEq] at ha
        obtain ⟨rfl, rfl, rfl⟩ := ha
        exact ⟨dc, e, hdc, hf, hr, rfl, by simp [hm]⟩
      all_goals simp [heq, TieredCache.l3Get_of_no_peers hpeers] at ha
  | getWithTTL key =>
    simp only [Node.action] at ha
    cases hm : n.cache.toL1.peekWithTTL n.now key <;> simp [hm] at ha
  | setWithTTL | setShadowWithTTL | set | setLocalOnlyWithTTL | setLocalAndDiskWithTTL => cases hw
  | _ => cases ha

end Node

/-- A node with the stores its callers have asked for. -/
structure Logged where
  node : Node
  writes : List Write

namespace Logged

def step (l : Logged) (op : Op) : Logged where
  node := l.node.step op
  writes := l.writes ++ (l.node.written op).toList

def run (l : Logged) (ops : List Op) : Logged := ops.foldl step l

/-- A node with an empty memory tier on an empty disk, without peers, started at some
time after the epoch. -/
def start (t0 : Nat) (ttl maxEntries maxBytes : Int) (dc : DiskCache) : Logged where
  node := Node.start t0 ttl maxEntries maxBytes (some dc) none
  writes := []

end Logged

end LokiVlProxy.Cache
