/-
  Cache/MemoryRuns.lean --- the memory tier along whole runs of a node.

  Every operation of a node is at most one action on the memory tier, so the
  invariants of the tier hold along every run: map, index and recency list agree, the
  number of entries is bounded, and eviction follows the order of last use.
-/
import LokiVlProxy.Cache.L1Bytes
import LokiVlProxy.Cache.Tiers
import LokiVlProxy.Foundation.Run

namespace LokiVlProxy.Cache

open Foundation TieredCache

/-! ## Operations as actions -/

namespace TieredCache

variable (now : Int) (c : TieredCache) (key : String)

@[simp] theorem l2Get_toL1 : (c.l2Get now key).2.toL1 = c.toL1 := by
  unfold l2Get; split <;> rfl

@[simp] theorem l2Get_l3 : (c.l2Get now key).2.l3 = c.l3 := by
  unfold l2Get; split <;> rfl

theorem setWithTTLPropagate_toL1 (value : Bytes) (ttl : Int) (propagateL3 : Bool)
    (tx : Tx) : (c.setWithTTLPropagate now key value ttl propagateL3 tx).toL1 =
      c.toL1.act now (.set key value (c.shadowTTL key ttl)) := by
  simp only [setWithTTLPropagate, L1.act, L1.setLocalOnlyWithTTL]
  split <;> rfl

theorem setLocalAndDiskWithTTL_toL1 (value : Bytes) (ttl : Int) (tx : Tx) :
    (c.setLocalAndDiskWithTTL now key value ttl tx).toL1 =
      c.toL1.act now (.set key value ttl) := by
  simp only [setLocalAndDiskWithTTL, L1.act, L1.setLocalOnlyWithTTL]
  split <;> rfl

/-- What a `Get` does to the memory tier. -/
def getAction (peer : Option (Bytes × Int)) : Option L1.Action :=
  match c.toL1.peek now key with
  | some _ => some (.requestPromotion key)
  | none =>
      match (c.l2Get now key).1 with
      | some (value, _) => some (.set key value (c.shadowTTL key c.defaultTTL))
      | none => (c.l3Get key peer).map fun hit =>
          .set key hit.1 (c.shadowTTL key (peerTTL hit.2))

/-- What a `GetSharedWithTTL` does to the memory tier. -/
def getSharedAction (peer : Option (Bytes × Int)) : Option L1.Action :=
  match c.toL1.peekWithTTL now key with
  | some _ => some (.requestPromotion key)
  | none =>
      match (c.l2Get now key).1 with
      | some (value, ttl) => some (.set key value ttl)
      | none => (c.l3Get key peer).map fun hit => .set key hit.1 (peerTTL hit.2)

end TieredCache

/-- The memory tier after an optional action. -/
def L1.actOpt (now : Int) (c : L1) : Option L1.Action → L1
  | none => c
  | some a => c.act now a

theorem L1.Indexed.actOpt {c : L1} (h : c.Indexed) (now : Int) (a : Option L1.Action) :
    (c.actOpt now a).Indexed := by
  cases a with
  | none => exact h
  | some a => exact (L1.moved_act now c a).indexed h

theorem L1.Indexed.find?_actOpt {c : L1} (h : c.Indexed) {now : Int} {a : Option L1.Action}
    {k : String} {e : Entry} (hk : (c.actOpt now a).entries.find? k = some e) :
    c.entries.find? k = some e ∨
      ∃ value ttl, a = some (.set k value ttl) ∧ ¬ c.Oversized value ∧
        e = ⟨value, now + ttl, value.length⟩ := by
  cases a with
  | none => exact .inl hk
  | some a =>
    rcases (L1.moved_act now c a).find? h hk with hthere | ⟨value, ttl, hset, hsize, he⟩
    · exact .inl hthere
    · exact .inr ⟨value, ttl, congrArg some hset, hsize, he⟩

namespace TieredCache

variable (now : Int) (c : TieredCache)

theorem shadowTTL_congr {c c' : TieredCache} (h : c'.l3 = c.l3) (key : String) (ttl : Int) :
    c'.shadowTTL key ttl = c.shadowTTL key ttl := by
  have hshadow : c'.isShadow key = c.isShadow key := by rw [isShadow, isShadow, h]
  rw [shadowTTL, shadowTTL, hshadow]

theorem l3Get_congr {c c' : TieredCache} (h : c'.l3 = c.l3) (key : String)
    (peer : Option (Bytes × Int)) : c'.l3Get key peer = c.l3Get key peer := by
  simp only [l3Get, h]

theorem get_toL1 (key : String) (peer : Option (Bytes × Int)) (tx : Tx) :
    (c.get now key peer tx).2.toL1 = c.toL1.actOpt now (c.getAction now key peer) := by
  unfold get getAction
  cases c.toL1.peek now key with
  | some e => rfl
  | none =>
    rcases hl2 : c.l2Get now key with ⟨hit, c'⟩
    have hmem : c'.toL1 = c.toL1 := by simpa [hl2] using l2Get_toL1 now c key
    have hpeer : c'.l3 = c.l3 := by simpa [hl2] using l2Get_l3 now c key
    rcases hit with _ | ⟨value, _⟩
    · simp only [l3Get_congr hpeer]
      cases c.l3Get key peer with
      | none => exact hmem
      | some hit =>
        simp only [setWithTTL, setWithTTLPropagate_toL1, hmem, shadowTTL_congr hpeer]
        rfl
    · simp only [set, setWithTTL, setWithTTLPropagate_toL1, hmem, shadowTTL_congr hpeer]
      rfl

theorem getSharedWithTTL_toL1 (key : String) (peer : Option (Bytes × Int)) :
    (c.getSharedWithTTL now key peer).2.toL1 =
      c.toL1.actOpt now (c.getSharedAction now key peer) := by
  unfold getSharedWithTTL getSharedAction
  cases c.toL1.peekWithTTL now key with
  | some hit => rfl
  | none =>
    rcases hl2 : c.l2Get now key with ⟨hit, c'⟩
    have hmem : c'.toL1 = c.toL1 := by simpa [hl2] using l2Get_toL1 now c key
    have hpeer : c'.l3 = c.l3 := by simpa [hl2] using l2Get_l3 now c key
    rcases hit with _ | ⟨value, _⟩
    · simp only [l3Get_congr hpeer]
      cases c.l3Get key peer with
      | none => exact hmem
      | some hit =>
        simp only [setLocalOnlyWithTTL, hmem]
        rfl
    · simp only [setLocalOnlyWithTTL, hmem]
      rfl

end TieredCache

namespace Node

/-- The action of an operation on the memory tier. -/
def action (n : Node) : Op → Option L1.Action
  | .setWithTTL key value ttl _ => some (.set key value (n.cache.shadowTTL key ttl))
  | .setShadowWithTTL key value ttl _ => some (.set key value (n.cache.shadowTTL key ttl))
  | .set key value _ => some (.set key value (n.cache.shadowTTL key n.cache.defaultTTL))
  | .setLocalOnlyWithTTL key value ttl => some (.set key value ttl)
  | .setLocalAndDiskWithTTL key value ttl _ => some (.set key value ttl)
  | .get key peer _ => n.cache.getAction n.now key peer
  | .getWithTTL key =>
      (n.cache.toL1.peekWithTTL n.now key).map fun _ => .requestPromotion key
  | .getSharedWithTTL key peer => n.cache.getSharedAction n.now key peer
  | .invalidate key => some (.invalidate key)
  | .invalidatePrefix p => some (.invalidatePrefix p)
  | .runPromoter => some .runPromoter
  | .cleanup => some .cleanup
  | .flush _ | .beginFlush | .endFlush _ _ | .runDelete _ | .advance _ => none

/-- The memory of a node makes one move for each operation. -/
theorem step_toL1 (n : Node) (op : Op) :
    (n.step op).cache.toL1 = n.cache.toL1.actOpt n.now (n.action op) := by
  cases op with
  | setWithTTL key value ttl tx | setShadowWithTTL key value ttl tx | set key value tx =>
    exact setWithTTLPropagate_toL1 n.now n.cache key value _ _ tx
  | setLocalAndDiskWithTTL key value ttl tx =>
    exact setLocalAndDiskWithTTL_toL1 n.now n.cache key value ttl tx
  | get key peer tx => exact get_toL1 n.now n.cache key peer tx
  | getSharedWithTTL key peer => exact getSharedWithTTL_toL1 n.now n.cache key peer
  | getWithTTL key =>
    simp only [step, action, getWithTTL]
    cases n.cache.toL1.peekWithTTL n.now key <;> rfl
  | _ => rfl

end Node

/-! ## The byte counter along runs -/

namespace Node

/-- A node with an empty cache. -/
def start (t0 : Int) (ttl maxEntries maxBytes : Int) (l2 : Option DiskCache)
    (l3 : Option PeerCache) : Node where
  cache := TieredCache.newWithMaxBytes ttl maxEntries maxBytes l2 l3
  now := t0

/-- The operation is a store that takes its key's old size off twice: the key is present,
room has to be made, and the key's own entry has expired or is the only one allowed. -/
def DoubleCounts (n : Node) (op : Op) : Prop :=
  ∃ a ∈ n.action op, n.cache.toL1.DoubleCountsBy n.now a
  deriving Decidable

/-- Every operation keeps the memory sane. -/
theorem sane_step (n : Node) (op : Op) (h : n.cache.toL1.Sane) : (n.step op).cache.toL1.Sane := by
  rw [step_toL1]
  cases n.action op with
  | none => exact h
  | some a => exact h.act n.now a

/-- The byte counter stays right exactly if the operation counts no entry twice. -/
theorem accounted_step_iff (n : Node) (op : Op) (h : n.cache.toL1.Sane)
    (hacc : n.cache.toL1.Accounted) :
    (n.step op).cache.toL1.Accounted ↔ ¬ n.DoubleCounts op := by
  rw [step_toL1, DoubleCounts]
  cases n.action op with
  | none => simpa [L1.actOpt] using hacc
  | some a =>
    rw [L1.actOpt, (L1.moved_act n.now n.cache.toL1 a).accounted_iff h hacc]
    simp

/-- Along a run from an empty cache the byte counter is exact, and the stored bytes are
within the budget, in every state, exactly when no operation of the run is a store that
counts its key's old entry twice. -/
theorem bytes_accounted_iff (t0 ttl maxEntries maxBytes : Int) (l2 : Option DiskCache)
    (l3 : Option PeerCache) (hbudget : 0 ≤ maxBytes) (ops : List Op) :
    (∀ pre, pre <+: ops →
        ((start t0 ttl maxEntries maxBytes l2 l3).run pre).cache.toL1.Accounted) ↔
      StepsMeet step (fun n op => ¬ n.DoubleCounts op) (start t0 ttl maxEntries maxBytes l2 l3)
        ops :=
  forall_prefix_iff_stepsMeet sane_step accounted_step_iff (L1.Sane.new ttl maxEntries hbudget)
    (L1.Accounted.new ttl maxEntries hbudget) ops

/-- Two stores, a read and an overwrite of a live key: every state is accounted for. -/
theorem bytes_accounted_after_live_overwrite :
    (0 : Int) ≤ 100 ∧
      ∀ pre, pre <+: [Op.setWithTTL "a" [1] 10 .quiet, .setWithTTL "b" [2, 2] 100 .quiet,
          .get "a" none .quiet, .advance 5, .setWithTTL "a" [3, 3, 3] 10 .quiet] →
        ((start 0 60 2 100 none none).run pre).cache.toL1.Accounted := by
  refine ⟨by decide, ?_⟩
  apply (bytes_accounted_iff 0 60 2 100 none none (by decide) _).mpr
  exact ⟨by decide, by decide, by decide, by decide, by decide, trivial⟩

/-- With two entries allowed, overwriting a key after it has expired takes its byte off
twice: the expiry pass removes the entry whose size was already given back. -/
theorem bytes_drift_after_expired_overwrite :
    ((start 0 60 2 100 none none).run [.setWithTTL "a" [1] 10 .quiet,
        .setWithTTL "b" [2] 100 .quiet, .advance 11,
        .setWithTTL "a" [3] 10 .quiet]).cache.toL1.curBytes = 1 ∧
      ((start 0 60 2 100 none none).run [.setWithTTL "a" [1] 10 .quiet,
        .setWithTTL "b" [2] 100 .quiet, .advance 11,
        .setWithTTL "a" [3] 10 .quiet]).cache.toL1.storedBytes = 2 := by
  decide

end Node

/-! ## Index and eviction order along runs -/

/-- The three structures of the memory tier describe the same keys, each once. -/
structure L1.Consistent (c : L1) : Prop where
  /-- the map and the index have the same keys -/
  indexKeys : ∀ k, k ∈ c.lruIndex.keys ↔ k ∈ c.entries.keys
  /-- the list holds exactly these keys, as a multiset -/
  listKeys : c.recency.Perm c.entries.keys
  noRepeats : c.recency.Nodup
  /-- the index leads to the element that holds the key -/
  elements : ∀ k i, c.lruIndex.find? k = some i → (⟨i, k⟩ : Element String) ∈ c.lruList
  size : (c.entries.size : Int) ≤ max 1 c.maxEntries

/-- List, index and map of an indexed memory have the same keys. -/
theorem L1.Indexed.consistent {c : L1} (h : c.Indexed)
    (hsize : (c.entries.size : Int) ≤ max 1 c.maxEntries) : c.Consistent where
  indexKeys := fun k => by rw [KeyMap.mem_keys, KeyMap.mem_keys, h.keys]
  listKeys := by
    refine (List.perm_ext_iff_of_nodup h.linked.nodup_keys c.entries.nodup_keys).mpr fun k => ?_
    rw [h.mem_list_iff, KeyMap.mem_keys]
  noRepeats := h.linked.nodup_keys
  elements := fun k i hk => (h.linked.index k i).mp hk
  size := hsize

/-- A node with a record of use: `lastUse` is the number of the last operation that stored
or promoted the key. -/
structure Tracked where
  node : Node
  tick : Nat
  lastUse : String → Nat

namespace Tracked

/-- The key an operation stores or promotes. -/
def touched (t : Tracked) (op : Op) : Option String :=
  (t.node.action op).bind t.node.cache.toL1.touchedBy

def step (t : Tracked) (op : Op) : Tracked where
  node := t.node.step op
  tick := t.tick + 1
  lastUse := match t.touched op with
    | some key => Function.update t.lastUse key t.tick
    | none => t.lastUse

def run (t : Tracked) (ops : List Op) : Tracked := ops.foldl step t

variable (t0 ttl maxEntries maxBytes : Int) (l2 : Option DiskCache) (l3 : Option PeerCache)

/-- Tracking a node from its empty start. -/
def start : Tracked where
  node := Node.start t0 ttl maxEntries maxBytes l2 l3
  tick := 0
  lastUse := fun _ => 0

/-- What every operation keeps. -/
structure Inv (t : Tracked) : Prop where
  indexed : t.node.cache.toL1.Indexed
  size : (t.node.cache.entries.size : Int) ≤ max 1 t.node.cache.maxEntries
  order : L1.InOrder t.lastUse t.tick t.node.cache.toL1.recency

theorem Inv.start :
    Inv (start t0 ttl maxEntries maxBytes l2 l3) where
  indexed := L1.Indexed.new ttl maxEntries maxBytes
  size := Int.le_trans (by decide : (0 : Int) ≤ 1) (Int.le_max_left _ _)
  order := ⟨List.Pairwise.nil, by simp [Tracked.start, Node.start, newWithMaxBytes,
    L1.newWithMaxBytes, L1.recency]⟩

variable {t : Tracked}

/-- Every operation keeps list, map and order of use in step. -/
theorem Inv.step (h : Inv t) (op : Op) : Inv (t.step op) := by
  have hmem := t.node.step_toL1 op
  cases ha : t.node.action op with
  | none =>
    rw [ha] at hmem
    have htouch : t.touched op = none := by rw [touched, ha]; rfl
    refine ⟨?_, ?_, ?_⟩ <;> simp only [Tracked.step, hmem, L1.actOpt, htouch]
    · exact h.indexed
    · exact h.size
    · exact h.order.sublist (List.Sublist.refl _)
  | some a =>
    rw [ha] at hmem
    have hmoved := L1.moved_act t.node.now t.node.cache.toL1 a
    have htouch : t.touched op = t.node.cache.toL1.touchedBy a := by rw [touched, ha]; rfl
    obtain ⟨hfront, hkeep⟩ := hmoved.recency h.indexed
    refine ⟨?_, ?_, ?_⟩ <;> simp only [Tracked.step, hmem, L1.actOpt, htouch]
    · exact hmoved.indexed h.indexed
    · rw [(hmoved.limits h.indexed).2.1]
      exact hmoved.size_le h.indexed h.size
    · cases hk : t.node.cache.toL1.touchedBy a with
      | none => exact h.order.sublist (hkeep hk)
      | some key =>
        obtain ⟨ks, hks, hfresh, hsub⟩ := hfront key hk
        rw [hks]
        exact h.order.touch hsub hfresh

/-- So does every run. -/
theorem inv_run (ops : List Op) : Inv ((start t0 ttl maxEntries maxBytes l2 l3).run ops) :=
  run_invariant (fun _ op h => h.step op) (Inv.start t0 ttl maxEntries maxBytes l2 l3) ops

/-- A store that evicts a live key takes it from behind every other key that stays. -/
theorem Inv.evicts_from_back (h : Inv t) {key : String} {value : Bytes} {ttl : Int} {k j : String}
    {e : Entry} (hk : t.node.cache.entries.find? k = some e)
    (hlive : L1.expired t.node.now e = false)
    (hgone : (t.node.cache.toL1.storeLocalLocked t.node.now key value ttl
      value.length).entries.find? k = none)
    (hj : j ∈ (t.node.cache.toL1.storeLocalLocked t.node.now key value ttl
      value.length).entries.keys)
    (hjkey : j ≠ key) : [j, k].Sublist t.node.cache.toL1.recency := by
  have hev := L1.evicted_retire t.node.now value.length h.indexed key
  rw [L1.storeLocalLocked, L1.insertEntry_entries] at hgone hj
  have hkey : k ≠ key := by
    rintro rfl
    simp at hgone
  rw [KeyMap.find?_insert, if_neg hkey] at hgone
  rw [KeyMap.mem_keys, KeyMap.find?_insert, if_neg hjkey] at hj
  have hjr := (hev.drops.indexed (h.indexed.retire key)).mem_list_iff.mpr hj
  have hsub := hev.order k e (by rw [L1.retire_entries]; exact hk) hlive hgone j hjr
  -- both keys keep their places when `key` comes to the front
  cases hc : t.node.cache.entries.find? key with
  | none => simpa [L1.retire, hc] using hsub
  | some old =>
    obtain ⟨ks, hks, _, hkssub⟩ := L1.recency_retire h.indexed hc
    rw [hks, List.sublist_cons_iff] at hsub
    rcases hsub with hsub | ⟨ks', hks', _⟩
    · exact hsub.trans hkssub
    · exact absurd (List.cons.inj hks').1 hjkey

/-- The stored key apart, every key that stays was in front of the evicted live key and
used more recently. -/
theorem Inv.evicts_in_order (h : Inv t) {op : Op} {key : String} {value : Bytes} {ttl : Int}
    (hop : t.node.action op = some (.set key value ttl)) {k j : String} {e : Entry}
    (hk : t.node.cache.entries.find? k = some e) (hlive : L1.expired t.node.now e = false)
    (hgone : (t.step op).node.cache.entries.find? k = none)
    (hj : j ∈ (t.step op).node.cache.entries.keys) :
    (j ≠ key → [j, k].Sublist t.node.cache.toL1.recency) ∧
      (t.step op).lastUse k < (t.step op).lastUse j := by
  have hmem := t.node.step_toL1 op
  rw [hop] at hmem
  by_cases hsize : t.node.cache.Oversized value
  · -- nothing is stored, so nothing is gone
    have hsame : (t.step op).node.cache.toL1 = t.node.cache.toL1 := by
      simpa [Tracked.step, L1.actOpt, L1.act, L1.setLocalOnlyWithTTL, hsize] using hmem
    rw [hsame, hk] at hgone
    cases hgone
  · have hstore : (t.step op).node.cache.toL1 =
        t.node.cache.toL1.storeLocalLocked t.node.now key value ttl value.length := by
      simpa [Tracked.step, L1.actOpt, L1.act, L1.setLocalOnlyWithTTL, hsize] using hmem
    rw [hstore] at hgone hj
    have hlast : (t.step op).lastUse = Function.update t.lastUse key t.tick := by
      simp [Tracked.step, touched, hop, L1.touchedBy, hsize]
    have hkey : k ≠ key := by
      rintro rfl
      simp [L1.storeLocalLocked] at hgone
    refine ⟨fun hjkey => h.evicts_from_back hk hlive hgone hj hjkey, ?_⟩
    rw [hlast, Function.update_of_ne hkey]
    by_cases hjkey : j = key
    · subst hjkey
      rw [Function.update_self]
      exact h.order.2 k (h.indexed.mem_list_iff.mpr (by rw [hk]; rfl))
    · rw [Function.update_of_ne hjkey]
      exact List.pairwise_iff_forall_sublist.mp h.order.1
        (h.evicts_from_back hk hlive hgone hj hjkey)

/-- In every state that a node reaches from an empty cache, by any operations with any
tiers below, the map, the index and the recency list hold the same keys, each once, and
there are at most `max 1 maxEntries` of them.  Whatever the next operation is, when it
evicts a live key to store another, every key that stays was in front of the evicted one
in the list and was used more recently. -/
theorem index_consistent_and_eviction_ordered (t0 ttl maxEntries maxBytes : Int)
    (l2 : Option DiskCache) (l3 : Option PeerCache) (ops : List Op) :
    let t := (start t0 ttl maxEntries maxBytes l2 l3).run ops
    t.node.cache.toL1.Consistent ∧
      ∀ (op : Op) (key : String) (value : Bytes) (ttl : Int) (k j : String) (e : Entry),
        t.node.action op = some (.set key value ttl) →
        t.node.cache.entries.find? k = some e → L1.expired t.node.now e = false →
        (t.step op).node.cache.entries.find? k = none →
        j ∈ (t.step op).node.cache.entries.keys →
        (j ≠ key → [j, k].Sublist t.node.cache.toL1.recency) ∧
          (t.step op).lastUse k < (t.step op).lastUse j := by
  intro t
  have h := inv_run t0 ttl maxEntries maxBytes l2 l3 ops
  exact ⟨h.indexed.consistent h.size, fun op key value ttl k j e hop hk hlive hgone hj =>
    h.evicts_in_order hop hk hlive hgone hj⟩

/-- With room for two, the promotion of `a` makes `b` the key that goes when `c` comes. -/
theorem promoted_key_outlasts_eviction :
    let t := (start 0 60 2 100 none none).run [.setWithTTL "a" [1] 10 .quiet,
      .setWithTTL "b" [2] 10 .quiet, .get "a" none .quiet, .runPromoter]
    t.node.cache.toL1.Consistent ∧
      (t.step (.setWithTTL "c" [3] 10 .quiet)).lastUse "b" <
        (t.step (.setWithTTL "c" [3] 10 .quiet)).lastUse "a" := by
  intro t
  obtain ⟨hcons, horder⟩ := index_consistent_and_eviction_ordered 0 60 2 100 none none
    [.setWithTTL "a" [1] 10 .quiet, .setWithTTL "b" [2] 10 .quiet, .get "a" none .quiet,
      .runPromoter]
  exact ⟨hcons, (horder (.setWithTTL "c" [3] 10 .quiet) "c" [3] 10 "b" "a" ⟨[2], 10, 1⟩
    (by decide) (by decide) (by decide) (by decide) (by decide)).2⟩

end Tracked

end LokiVlProxy.Cache
