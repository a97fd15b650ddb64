/-
  Cache/Fleet.lean --- several nodes that share one hash ring.

  Source: internal/cache/peer.go: Get, pushToOwner, serveGet, serveSet; and the L3
  branch of Get in internal/cache/cache.go.

  Each node is a cache with its view of the peers.  In every state the owner's copy of a key
  should expire when the latest `SetWithTTL` that reached the owner says.
-/
import LokiVlProxy.Cache.MemoryRuns
import LokiVlProxy.Foundation.Text

namespace LokiVlProxy.Cache

open Foundation

/-! ## The peer endpoints -/

/-- `strings.TrimSpace`. -/
def trimKey (key : String) : String := String.ofList (trimSpace key.toList)

def minUsableTTL : Int := 5 * 1000000000

def maxPeerSetBodyBytes : Nat := 8 * 2 ^ 20

/-- A duration sent as whole milliseconds. -/
def truncated (ttl : Int) : Int := ttl.tdiv millisecond * millisecond

namespace TieredCache

variable (now : Int) (c : TieredCache) (key : String)

/-- `Get` as far as it stays on its own node: memory, then disk. -/
def getLocal (tx : Tx) : Option Bytes × TieredCache :=
  match c.toL1.peek now key with
  | some e => (some e.value, { c with toL1 := c.toL1.requestPromotion key })
  | none =>
      match c.l2Get now key with
      | (some (value, _), c) => (some value, c.set now key value tx)
      | (none, c) => (none, c)

/-- `serveGet`: an entry about to expire is not handed out. -/
def serveGet : Option (Bytes × Int) × TieredCache :=
  if key = "" then (none, c)
  else
    match c.getWithTTL now key with
    | (some (value, remaining), c) =>
        if remaining < minUsableTTL then (none, c) else (some (value, truncated remaining), c)
    | (none, c) => (none, c)

/-- The TTL that `serveSet` reads from `ttl_ms`. -/
def pushedTTL (ttlMs : Int) : Int := if ttlMs > 0 then ttlMs * millisecond else halfMinute

def serveSet (p : Push) (tx : Tx) : TieredCache :=
  if trimKey p.key = "" ∨ p.value.length > maxPeerSetBodyBytes ∨ p.value = [] then c
  else c.setWithTTL now (trimKey p.key) p.value (pushedTTL p.ttlMs) tx

/-- This node owns the key. -/
def owns : Bool := c.l3.all fun pc => pc.isOwner key

/-- The other node that owns the key. -/
def asks : Option String := c.l3.bind fun pc => pc.remoteOwner key

/-- The peers whose breakers are open on this node. -/
def refused : List String := (c.l3.map PeerCache.refused).getD []

/-- The breaker of the other node that owns the key is open. -/
def CutOff : Prop := ∃ owner ∈ c.asks key, owner ∈ c.refused
  deriving Decidable

/-- The pushes that have been started and not handed to the network. -/
def started : List Push := (c.l3.map PeerCache.pushes).getD []

/-- The node after its pushes have been handed over. -/
def drained : TieredCache := { c with l3 := c.l3.map fun pc => { pc with pushes := [] } }

end TieredCache

/-! ## The fleet -/

/-- A push under way; `origin` is the TTL of the `SetWithTTL` it was started for, none if a
read started it. -/
structure Sent where
  push : Push
  origin : Option Int

/-- A `/_cache/get` request under way. -/
structure Request where
  asker : String
  owner : String
  key : String

/-- The answer to a request; an answer that there is nothing is not kept. -/
structure Reply where
  asker : String
  key : String
  value : Bytes
  remaining : Int

structure Fleet where
  now : Int
  node : String → TieredCache
  pushes : List Sent
  requests : List Request
  replies : List Reply
  /-- the expiry that the owner's copy of a key should have -/
  due : String → Option Int

/-- What all nodes agree on: the ring, the peers it was built from, the write-through
threshold. -/
structure FleetConfig where
  ring : HashRing
  peers : List String
  wtMinTTL : Int
  peers_ne_nil : peers ≠ []

/-- A node's view of the fleet, with nothing to push. -/
def FleetConfig.peerCache (cfg : FleetConfig) (self : String) (refused : List String) :
    PeerCache where
  ring := cfg.ring
  selfAddr := self
  peers := cfg.peers
  writeThrough := true
  wtMinTTL := cfg.wtMinTTL
  refused := refused
  pushes := []

inductive FleetEvent where
  | setWithTTL (node key : String) (value : Bytes) (ttl : Int) (tx : Tx)
  | get (node key : String) (tx : Tx)
  /-- the `i`-th request reaches the owner -/
  | serveGet (i : Nat)
  /-- the `i`-th reply reaches the node that asked -/
  | reply (i : Nat) (tx : Tx)
  /-- the `i`-th push reaches the owner -/
  | serveSet (i : Nat) (tx : Tx)
  | invalidate (node key : String)
  | runPromoter (node : String)
  | cleanup (node : String)
  | flush (node : String) (tx : Tx)
  /-- the breakers of a node move: failed and answered calls, and time, may open any set of them -/
  | breakers (node : String) (refused : List String)
  | advance (d : Nat)

namespace Fleet

/-- Every node is empty in memory and sees the same fleet. -/
def start (cfg : FleetConfig) (t0 : Int) (ttl maxEntries maxBytes : String → Int)
    (l2 : String → Option DiskCache) : Fleet where
  now := t0
  node := fun n =>
    TieredCache.newWithMaxBytes (ttl n) (maxEntries n) (maxBytes n) (l2 n) 
      (some (cfg.peerCache n []))
  pushes := []
  requests := []
  replies := []
  due := fun _ => none

variable (f : Fleet)

/-- A node has moved on, and the pushes it started are on their way. -/
def put (node : String) (c : TieredCache) (origin : Option Int) : Fleet :=
  { f with
    node := Function.update f.node node c.drained
    pushes := f.pushes ++ c.started.map fun p => ⟨p, origin⟩ }

@[simp] theorem put_node_self (n : String) (c : TieredCache) (origin : Option Int) :
    (f.put n c origin).node n = c.drained :=
  Function.update_self n _ _

theorem put_node_of_ne {n m : String} (h : m ≠ n) (c : TieredCache)
    (origin : Option Int) : (f.put n c origin).node m = f.node m :=
  Function.update_of_ne h _ _

def step : FleetEvent → Fleet
  | .setWithTTL node key value ttl tx =>
      { f.put node ((f.node node).setWithTTL f.now key value ttl tx) (some ttl) with
        due := if (f.node node).owns key ∧ ¬ (f.node node).Oversized value then
          Function.update f.due key (some (f.now + ttl)) else f.due }
  | .get node key tx =>
      { f.put node ((f.node node).getLocal f.now key tx).2 none with
        requests := f.requests ++ (if ((f.node node).getLocal f.now key tx).1.isSome then []
          else (((f.node node).asks key).map fun owner => ⟨node, owner, key⟩).toList) }
  | .serveGet i =>
      match f.requests[i]? with
      | none => f
      | some r =>
          { f.put r.owner ((f.node r.owner).serveGet f.now r.key).2 none with
            requests := f.requests.eraseIdx i
            replies := f.replies ++ (((f.node r.owner).serveGet f.now r.key).1.map
              fun hit => ⟨r.asker, r.key, hit.1, hit.2⟩).toList }
  | .reply i tx =>
      match f.replies[i]? with
      | none => f
      | some r =>
          { f.put r.asker ((f.node r.asker).setWithTTL f.now r.key r.value
              (TieredCache.peerTTL r.remaining) tx) none with
            replies := f.replies.eraseIdx i }
  | .serveSet i tx =>
      match f.pushes[i]? with
      | none => f
      | some s =>
          { { f with pushes := f.pushes.eraseIdx i }.put s.push.owner
              ((f.node s.push.owner).serveSet f.now s.push tx) none with
            due := match s.origin with
              | none => f.due
              | some ttl => Function.update f.due s.push.key (some (f.now + truncated ttl)) }
  | .invalidate node key =>
      f.put node { f.node node with toL1 := (f.node node).toL1.invalidate key } none
  | .runPromoter node => f.put node { f.node node with toL1 := (f.node node).toL1.runPromoter } none
  | .cleanup node => f.put node { f.node node with toL1 := (f.node node).toL1.cleanup f.now } none
  | .flush node tx =>
      f.put node { f.node node with
        l2 := (f.node node).l2.map fun dc => dc.flush f.now tx } none
  | .breakers node refused =>
      f.put node { f.node node with
        l3 := (f.node node).l3.map fun pc => { pc with refused := refused } } none
  | .advance d => { f with now := f.now + d }

def run (events : List FleetEvent) : Fleet := events.foldl step f

end Fleet

open List PeerCache Option FleetConfig

/-! ## One node -/

/-- The push that a `SetWithTTL` starts, if any. -/
def PeerCache.pushFor (pc : PeerCache) (key : String) (value : Bytes) (ttl : Int) : Option Push :=
  if pc.KeepsToItself value ttl then none
  else ((pc.remoteOwner key).filter fun owner => owner ∉ pc.refused).map fun owner =>
    ⟨owner, key, value, PeerCache.ttlMs ttl⟩

/-- A store starts at most one push. -/
theorem PeerCache.setWithTTL_eq (pc : PeerCache) (key : String) (value : Bytes) (ttl : Int) :
    pc.setWithTTL key value ttl =
      { pc with pushes := pc.pushes ++ (pc.pushFor key value ttl).toList } := by
  unfold setWithTTL pushFor
  split
  · simp
  · cases pc.remoteOwner key with
    | none => simp
    | some owner =>
      by_cases howner : owner ∈ pc.refused
      · simp [Option.filter, howner]
      · simp [Option.filter, howner]

namespace TieredCache

variable {c : TieredCache} {pc : PeerCache}

/-- Which push a store of a tiered cache starts. -/
theorem started_setWithTTL (hl3 : c.l3 = some pc) (hempty : pc.pushes = []) (now : Int)
    (key : String) (value : Bytes) (ttl : Int) (tx : Tx) :
    (c.setWithTTL now key value ttl tx).started =
      if c.Oversized value then [] else (pc.pushFor key value (c.shadowTTL key ttl)).toList := by
  unfold setWithTTL setWithTTLPropagate
  split
  · simp [started, hl3, hempty]
  · simp [started, storeAll, hl3, hempty, setWithTTL_eq]

theorem drained_setWithTTL (hl3 : c.l3 = some pc) (hempty : pc.pushes = []) (now : Int)
    (key : String) (value : Bytes) (ttl : Int) (tx : Tx) :
    (c.setWithTTL now key value ttl tx).drained.l3 = some pc := by
  have hpc : ({ pc with pushes := [] } : PeerCache) = pc := by rw [← hempty]
  unfold setWithTTL setWithTTLPropagate
  split
  · simp [drained, hl3, hpc]
  · simp [drained, storeAll, hl3, setWithTTL_eq, hpc]

theorem serveGet_snd (now : Int) (c : TieredCache) (key : String) :
    (c.serveGet now key).2 = c ∨
      (c.serveGet now key).2 = { c with toL1 := c.toL1.requestPromotion key } := by
  unfold serveGet getWithTTL
  split
  · exact .inl rfl
  · cases c.toL1.peekWithTTL now key with
    | none => exact .inl rfl
    | some hit =>
      refine .inr ?_
      simp only
      split <;> rfl

theorem getLocal_snd {now : Int} {key : String} (tx : Tx)
    (h : c.toL1.peek now key = none → (c.l2Get now key).1 = none) :
    (c.getLocal now key tx).2 = { c with toL1 := c.toL1.requestPromotion key } ∨
      ((c.getLocal now key tx).2.toL1 = c.toL1 ∧ (c.getLocal now key tx).2.l3 = c.l3) := by
  unfold getLocal
  cases hm : c.toL1.peek now key with
  | some e => exact .inl rfl
  | none =>
    have hmem := l2Get_toL1 now c key
    have hpeer := l2Get_l3 now c key
    have hmiss := h hm
    rcases hl2 : c.l2Get now key with ⟨hit, c'⟩
    rw [hl2] at hmem hpeer hmiss
    cases hmiss
    exact .inr ⟨hmem, hpeer⟩

end TieredCache

namespace FleetConfig

variable {cfg : FleetConfig} {c : TieredCache} {n : String} {refused : List String}

theorem refused_eq (hl3 : c.l3 = some (cfg.peerCache n refused)) : c.refused = refused := by
  rw [TieredCache.refused, hl3]
  rfl

/-- A node owns the keys that the ring gives to it. -/
theorem owns_iff (hl3 : c.l3 = some (cfg.peerCache n refused)) (key : String) :
    c.owns key = true ↔ cfg.ring.get key = n := by
  simp [TieredCache.owns, hl3, isOwner, peerCache, cfg.peers_ne_nil]

variable {key : String}

theorem shadowTTL_owner (hl3 : c.l3 = some (cfg.peerCache n refused)) (howner : cfg.ring.get key = n)
    (ttl : Int) : c.shadowTTL key ttl = ttl := by
  have hshadow : c.isShadow key = false := by
    simp [TieredCache.isShadow, hl3, isOwner, peerCache, cfg.peers_ne_nil, howner]
  simp [TieredCache.shadowTTL, hshadow]

theorem shadowTTL_short {ttl : Int} (hle : ttl ≤ nonOwnerShadowMaxTTL) :
    c.shadowTTL key ttl = ttl := by
  rw [TieredCache.shadowTTL, if_neg]
  rintro ⟨-, hgt⟩
  omega

theorem remoteOwner_eq_some {owner : String}
    (h : (cfg.peerCache n refused).remoteOwner key = some owner) :
    owner = cfg.ring.get key ∧ cfg.ring.get key ≠ n := by
  have hpeers : (cfg.peerCache n refused).peers ≠ [] := cfg.peers_ne_nil
  rw [remoteOwner, if_neg hpeers] at h
  split at h
  · cases h
  · rename_i hne
    exact ⟨(some.inj h).symm, fun heq => hne (.inl heq)⟩

/-- A push goes to the owner, which is another node. -/
theorem pushFor_eq_some {value : Bytes} {ttl : Int} {p : Push}
    (h : (cfg.peerCache n refused).pushFor key value ttl = some p) :
    ¬ (cfg.peerCache n refused).KeepsToItself value ttl ∧ cfg.ring.get key ≠ n ∧
      cfg.ring.get key ∉ refused ∧ p = ⟨cfg.ring.get key, key, value, ttlMs ttl⟩ := by
  unfold pushFor at h
  split at h
  · cases h
  · rename_i hkeeps
    obtain ⟨owner, howner, rfl⟩ := map_eq_some_iff.mp h
    obtain ⟨howner, hallowed⟩ := filter_eq_some_iff.mp howner
    obtain ⟨rfl, hne⟩ := remoteOwner_eq_some howner
    exact ⟨hkeeps, hne, of_decide_eq_true hallowed, rfl⟩

/-- A node pushes nothing to an owner that it is cut off from. -/
theorem not_cutOff (hl3 : c.l3 = some (cfg.peerCache n refused))
    (howner : cfg.ring.get key ∉ refused) : ¬ c.CutOff key := by
  rintro ⟨owner, hasks, hrefused⟩
  rw [TieredCache.asks, hl3, Option.mem_def, bind_some] at hasks
  rw [refused_eq hl3, (remoteOwner_eq_some hasks).1] at hrefused
  exact howner hrefused

end FleetConfig

/-! ## Events that keep the full TTL -/

namespace Fleet

/-- The event gives the owner no other TTL than a caller asked for.
  * A store on a node that does not own the key is not over half a minute, and carries at
    least a millisecond if it is pushed; or it is not pushed at all.
  * A `Get` is not answered by the disk, which would store the value again for the default
    TTL; and storing the owner's answer starts no push.
  * A push arrives under the key it was sent for, and the owner can hold it. -/
def KeepsFullTTL (f : Fleet) : FleetEvent → Prop
  | .setWithTTL node key value ttl _ =>
      (f.node node).owns key ∨ (f.node node).Oversized value ∨ value = [] ∨
        (f.node node).CutOff key ∨ (ttl ≤ nonOwnerShadowMaxTTL ∧
          (millisecond ≤ ttl ∨ ∀ pc ∈ (f.node node).l3, pc.KeepsToItself value ttl))
  | .get node key _ =>
      (f.node node).toL1.peek f.now key = none → ((f.node node).l2Get f.now key).1 = none
  | .reply i _ => ∀ r ∈ f.replies[i]?, (f.node r.asker).Oversized r.value ∨
      (f.node r.asker).CutOff r.key ∨ ∀ pc ∈ (f.node r.asker).l3, pc.KeepsToItself r.value
        ((f.node r.asker).shadowTTL r.key (TieredCache.peerTTL r.remaining))
  | .serveSet i _ => ∀ s ∈ f.pushes[i]?,
      trimKey s.push.key = s.push.key ∧ s.push.key ≠ "" ∧
        s.push.value.length ≤ maxPeerSetBodyBytes ∧ ¬ (f.node s.push.owner).Oversized s.push.value
  | _ => True

/-- A push that carries the TTL its caller asked for, to the owner of its key. -/
def SentInFull (cfg : FleetConfig) (s : Sent) : Prop :=
  s.push.owner = cfg.ring.get s.push.key ∧ s.push.value ≠ [] ∧
    ∃ ttl, s.origin = some ttl ∧ millisecond ≤ ttl ∧ s.push.ttlMs = ttl.tdiv millisecond

/-- The owner's copies have the expiry they are due to have, and nothing under way will
change that: pushes carry the TTL of a caller, and only other nodes wait for replies. -/
structure Faithful (cfg : FleetConfig) (f : Fleet) : Prop where
  peers : ∀ n, (f.node n).l3 = some (cfg.peerCache n (f.node n).refused)
  indexed : ∀ n, (f.node n).toL1.Indexed
  sent : ∀ s ∈ f.pushes, SentInFull cfg s
  asked : ∀ r ∈ f.requests, cfg.ring.get r.key ≠ r.asker
  replied : ∀ r ∈ f.replies, cfg.ring.get r.key ≠ r.asker
  copies : ∀ key e, (f.node (cfg.ring.get key)).entries.find? key = some e →
    f.due key = some e.expiresAt

variable {cfg : FleetConfig} {f : Fleet} {n : String} {c : TieredCache} {a : Option L1.Action}

/-- A fleet starts without copies. -/
theorem Faithful.start (cfg : FleetConfig) (t0 : Int) (ttl maxEntries maxBytes : String → Int)
    (l2 : String → Option DiskCache) :
    Faithful cfg (Fleet.start cfg t0 ttl maxEntries maxBytes l2) where
  peers := fun _ => rfl
  indexed := fun n => L1.Indexed.new (ttl n) (maxEntries n) (maxBytes n)
  sent := fun s hs => by cases hs
  asked := fun r hr => by cases hr
  replied := fun r hr => by cases hr
  copies := fun key e he => by
    simp [Fleet.start, TieredCache.newWithMaxBytes, L1.newWithMaxBytes] at he

/-- The node `n` becomes `c` through the action `a` on its memory tier. -/
structure Moves (cfg : FleetConfig) (f : Fleet) (n : String) (a : Option L1.Action)
    (c : TieredCache) : Prop where
  memory : c.toL1 = (f.node n).toL1.actOpt f.now a
  view : c.drained.l3 = some (cfg.peerCache n c.drained.refused)

theorem Moves.indexed (hmove : Moves cfg f n a c) (h : Faithful cfg f) : c.toL1.Indexed := by
  rw [hmove.memory]
  exact (h.indexed n).actOpt f.now a

variable {due : String → Option Int} {key : String} {e : Entry} {value : Bytes} {ttl : Int}
  {tx : Tx} {i : Nat}

theorem Faithful.copies_put (h : Faithful cfg f)
    (hsame : ∀ key, cfg.ring.get key ≠ n → due key = f.due key)
    (hown : ∀ key e, cfg.ring.get key = n → c.entries.find? key = some e →
      due key = some e.expiresAt)
    (origin : Option Int) (key : String) (e : Entry)
    (he : ((f.put n c origin).node (cfg.ring.get key)).entries.find? key = some e) :
    due key = some e.expiresAt := by
  by_cases hn : cfg.ring.get key = n
  · rw [hn, put_node_self] at he
    exact hown key e hn he
  · rw [put_node_of_ne f hn] at he
    rw [hsame key hn]
    exact h.copies key e he

theorem Moves.copies_kept (hmove : Moves cfg f n a c) (h : Faithful cfg f)
    (hother : ∀ k v t, a = some (.set k v t) → cfg.ring.get k ≠ n ∨ (f.node n).Oversized v)
    (hn : cfg.ring.get key = n) (he : c.entries.find? key = some e) :
    f.due key = some e.expiresAt := by
  have hold : (f.node n).entries.find? key = some e := by
    rw [hmove.memory] at he
    rcases (h.indexed n).find?_actOpt he with hthere | ⟨value, ttl, ha, hsize, -⟩
    · exact hthere
    · rcases hother key value ttl ha with hne | hover
      · exact absurd hn hne
      · exact absurd hover hsize
  subst hn
  exact h.copies key e hold

theorem Moves.copies_stored (hmove : Moves cfg f n (some (.set key value ttl)) c)
    (h : Faithful cfg f) (hsize : ¬ (f.node n).Oversized value) {k : String}
    (hn : cfg.ring.get k = n) (he : c.entries.find? k = some e) :
    Function.update f.due key (some (f.now + ttl)) k = some e.expiresAt := by
  rw [hmove.memory] at he
  by_cases hk : k = key
  · subst hk
    rw [L1.actOpt, L1.find?_act_set f.now hsize] at he
    rw [Function.update_self, ← some.inj he]
  · rw [Function.update_of_ne hk]
    rcases (h.indexed n).find?_actOpt he with hthere | ⟨value', ttl', hset, -, -⟩
    · subst hn
      exact h.copies k e hthere
    · exact absurd (L1.Action.set.inj (some.inj hset)).1.symm hk

/-- A move of one node keeps the invariant if its copies and its pushes do. -/
theorem Faithful.put (h : Faithful cfg f) (hmove : Moves cfg f n a c) (origin : Option Int)
    {pushes : List Sent} (hpushes : ∀ s ∈ pushes, SentInFull cfg s) {requests : List Request}
    (hrequests : ∀ r ∈ requests, cfg.ring.get r.key ≠ r.asker) {replies : List Reply}
    (hreplies : ∀ r ∈ replies, cfg.ring.get r.key ≠ r.asker)
    (hsame : ∀ key, cfg.ring.get key ≠ n → due key = f.due key)
    (hown : ∀ key e, cfg.ring.get key = n → c.entries.find? key = some e →
      due key = some e.expiresAt) :
    Faithful cfg { f.put n c origin with
      pushes := pushes, requests := requests, replies := replies, due := due } where
  peers := by
    intro m
    by_cases hm : m = n
    · subst hm
      simp only [put_node_self]
      exact hmove.view
    · simp only [put_node_of_ne f hm]
      exact h.peers m
  indexed := by
    intro m
    by_cases hm : m = n
    · subst hm
      simp only [put_node_self]
      exact hmove.indexed h
    · simp only [put_node_of_ne f hm]
      exact h.indexed m
  sent := hpushes
  asked := hrequests
  replied := hreplies
  copies := h.copies_put hsame hown origin

/-! ## Each event -/

section

variable (h : Faithful cfg f)

include h

theorem Faithful.started (hl3 : c.l3 = (f.node n).l3) : c.started = [] := by
  simp [TieredCache.started, hl3, h.peers n, peerCache]

theorem Faithful.moves (hl3 : c.l3 = (f.node n).l3)
    (hmem : c.toL1 = (f.node n).toL1.actOpt f.now a) : Moves cfg f n a c where
  memory := hmem
  view := by
    have hview : c.drained.l3 = some (cfg.peerCache n (f.node n).refused) := by
      rw [TieredCache.drained, hl3, h.peers n]
      rfl
    rw [refused_eq hview, hview]

theorem Faithful.quiet (hl3 : c.l3 = (f.node n).l3) (hmem : c.toL1 = (f.node n).toL1.actOpt f.now a)
    (hset : ∀ k v t, a ≠ some (.set k v t)) : Faithful cfg (f.put n c none) := by
  have hmove := h.moves hl3 hmem
  refine h.put hmove none ?_ h.asked h.replied (fun _ _ => rfl) ?_
  · rw [h.started hl3, map_nil, append_nil]
    exact h.sent
  · intro key e hn he
    exact hmove.copies_kept h (fun k v t ha => absurd ha (hset k v t)) hn he

theorem Faithful.moves_setWithTTL (n key : String) (value : Bytes) (ttl : Int) (tx : Tx) :
    Moves cfg f n (some (.set key value ((f.node n).shadowTTL key ttl)))
      ((f.node n).setWithTTL f.now key value ttl tx) where
  memory := TieredCache.setWithTTLPropagate_toL1 f.now (f.node n) key value ttl true tx
  view := by
    have hview := TieredCache.drained_setWithTTL (h.peers n) rfl f.now key value ttl tx
    rw [refused_eq hview, hview]

/-- Under the condition on stores, what a store on a node pushes carries its full TTL. -/
theorem Faithful.sent_setWithTTL (hok : f.KeepsFullTTL (.setWithTTL n key value ttl tx)) :
    ∀ s ∈ ((f.node n).setWithTTL f.now key value ttl tx).started.map
      (fun p => (⟨p, some ttl⟩ : Sent)), SentInFull cfg s := by
  intro s hs
  obtain ⟨p, hp, rfl⟩ := mem_map.mp hs
  rw [TieredCache.started_setWithTTL (h.peers n) rfl] at hp
  split at hp
  · cases hp
  · rename_i hsize
    obtain ⟨hkeeps, hne, hallowed, rfl⟩ := pushFor_eq_some (mem_toList.mp hp)
    have hvalue : value ≠ [] := fun hnil => hkeeps (.inr (.inl hnil))
    have howns : (f.node n).owns key ≠ true := fun ho =>
      hne ((owns_iff (h.peers n) key).mp ho)
    -- what is left of the condition: no clamp, and at least a millisecond
    obtain ⟨hle, hms⟩ := (((hok.resolve_left howns).resolve_left hsize).resolve_left
      hvalue).resolve_left (not_cutOff (h.peers n) hallowed)
    rw [shadowTTL_short hle] at hkeeps ⊢
    have hms : millisecond ≤ ttl := by
      rcases hms with hms | hkept
      · exact hms
      · exact absurd (hkept _ (h.peers n)) hkeeps
    refine ⟨rfl, hvalue, ttl, rfl, hms, ?_⟩
    have hpos : ttl > 0 := Int.lt_of_lt_of_le (by decide) hms
    simp only [ttlMs, if_pos hpos]

/-- A store keeps the invariant. -/
theorem Faithful.setWithTTL (hok : f.KeepsFullTTL (.setWithTTL n key value ttl tx)) :
    Faithful cfg (f.step (.setWithTTL n key value ttl tx)) := by
  have hmove := h.moves_setWithTTL n key value ttl tx
  have howns := owns_iff (h.peers n) key
  have hsent : ∀ s ∈ (f.put n ((f.node n).setWithTTL f.now key value ttl tx) (some ttl)).pushes,
      SentInFull cfg s := by
    intro s hs
    rcases mem_append.mp hs with hs | hs
    · exact h.sent s hs
    · exact h.sent_setWithTTL hok s hs
  refine h.put hmove (some ttl) hsent h.asked h.replied ?_ ?_
  · intro k hk
    split
    · rename_i hdue
      refine Function.update_of_ne ?_ _ _
      rintro rfl
      exact hk (howns.mp hdue.1)
    · rfl
  · intro k e hn he
    split
    · rename_i hdue
      rw [shadowTTL_owner (h.peers n) (howns.mp hdue.1)] at hmove
      exact hmove.copies_stored h hdue.2 hn he
    · rename_i hdue
      refine hmove.copies_kept h ?_ hn he
      intro k' v t hset
      obtain ⟨rfl, rfl, -⟩ := L1.Action.set.inj (some.inj hset)
      by_cases howner : cfg.ring.get key = n
      · exact .inr (Classical.not_not.mp fun hsize => hdue ⟨howns.mpr howner, hsize⟩)
      · exact .inl howner

/-- Storing the owner's answer to a read. -/
theorem Faithful.reply (hok : f.KeepsFullTTL (.reply i tx)) :
    Faithful cfg (f.step (.reply i tx)) := by
  cases hr : f.replies[i]? with
  | none =>
    simp only [Fleet.step, hr]
    exact h
  | some r =>
    simp only [Fleet.step, hr]
    have hmove := h.moves_setWithTTL r.asker r.key r.value (TieredCache.peerTTL r.remaining) tx
    -- the condition: there is nothing to push
    have hstarted : ((f.node r.asker).setWithTTL f.now r.key r.value
        (TieredCache.peerTTL r.remaining) tx).started = [] := by
      rw [TieredCache.started_setWithTTL (h.peers r.asker) rfl]
      rcases hok r hr with hsize | hcut | hkeeps
      · rw [if_pos hsize]
      · cases hp : pushFor _ _ _ _ with
        | none => simp
        | some p => exact absurd hcut (not_cutOff (h.peers r.asker) (pushFor_eq_some hp).2.2.1)
      · rw [pushFor, if_pos (hkeeps _ (h.peers r.asker))]
        simp
    have hother : cfg.ring.get r.key ≠ r.asker := h.replied r (mem_of_getElem? hr)
    refine h.put hmove none ?_ h.asked ?_ (fun _ _ => rfl) ?_
    · simp only [Fleet.put, hstarted, map_nil, append_nil]
      exact h.sent
    · intro r' hr'
      exact h.replied r' (mem_of_mem_eraseIdx hr')
    · intro key e hn he
      refine hmove.copies_kept h ?_ hn he
      intro k v t hset
      obtain ⟨rfl, -, -⟩ := L1.Action.set.inj (some.inj hset)
      exact .inl hother

/-- A push that arrives is stored with the TTL it carries. -/
theorem Faithful.serveSet_eq {s : Sent} (hs : f.pushes[i]? = some s)
    (hok : f.KeepsFullTTL (.serveSet i tx)) :
    ∃ ttl, s.origin = some ttl ∧ (f.node s.push.owner).serveSet f.now s.push tx =
      (f.node s.push.owner).setWithTTL f.now s.push.key s.push.value (truncated ttl) tx := by
  obtain ⟨-, hvalue, ttl, horigin, hms, httl⟩ := h.sent s (mem_of_getElem? hs)
  obtain ⟨htrim, hkey, hlen, -⟩ := hok s hs
  have hpos : 0 < ttl.tdiv millisecond := by
    simp only [millisecond] at hms ⊢
    rw [Int.tdiv_eq_ediv_of_nonneg (by omega)]
    omega
  refine ⟨ttl, horigin, ?_⟩
  rw [TieredCache.serveSet, if_neg, htrim, httl, TieredCache.pushedTTL, if_pos hpos, truncated]
  rintro (hempty | hlong | hnil)
  · exact hkey (htrim ▸ hempty)
  · omega
  · exact hvalue hnil

theorem Faithful.started_owner (hn : n = cfg.ring.get key) (value : Bytes) (ttl : Int) (tx : Tx) :
    ((f.node n).setWithTTL f.now key value ttl tx).started = [] := by
  rw [TieredCache.started_setWithTTL (h.peers n) rfl]
  split
  · rfl
  · cases hp : pushFor _ key value ((f.node n).shadowTTL key ttl) with
    | none => rfl
    | some p => exact absurd hn.symm (pushFor_eq_some hp).2.1

/-- The arrival of a push keeps the invariant. -/
theorem Faithful.serveSet (hok : f.KeepsFullTTL (.serveSet i tx)) :
    Faithful cfg (f.step (.serveSet i tx)) := by
  cases hs : f.pushes[i]? with
  | none =>
    simp only [Fleet.step, hs]
    exact h
  | some s =>
    obtain ⟨ttl, horigin, hserve⟩ := h.serveSet_eq hs hok
    have howner : s.push.owner = cfg.ring.get s.push.key :=
      (h.sent s (mem_of_getElem? hs)).1
    have hmove := h.moves_setWithTTL s.push.owner s.push.key s.push.value (truncated ttl) tx
    rw [shadowTTL_owner (h.peers _) howner.symm] at hmove
    simp only [Fleet.step, hs, hserve, horigin]
    refine h.put hmove none ?_ h.asked h.replied ?_ ?_
    · simp only [Fleet.put, h.started_owner howner, map_nil, append_nil]
      intro s' hs'
      exact h.sent s' (mem_of_mem_eraseIdx hs')
    · intro k hk
      refine Function.update_of_ne ?_ _ _
      rintro rfl
      exact hk howner.symm
    · intro k e hn he
      exact hmove.copies_stored h (hok s hs).2.2.2 hn he

/-- A read keeps the invariant. -/
theorem Faithful.get (hok : f.KeepsFullTTL (.get n key tx)) :
    Faithful cfg (f.step (.get n key tx)) := by
  have hquiet : Faithful cfg (f.put n ((f.node n).getLocal f.now key tx).2 none) := by
    rcases TieredCache.getLocal_snd tx hok with heq | ⟨hmem, hl3⟩
    · rw [heq]
      exact h.quiet (a := some (.requestPromotion key)) rfl rfl fun _ _ _ ha => by cases ha
    · exact h.quiet (a := none) hl3 hmem fun _ _ _ ha => by cases ha
  refine ⟨hquiet.peers, hquiet.indexed, hquiet.sent, ?_, hquiet.replied, hquiet.copies⟩
  intro r hr
  rcases mem_append.mp hr with hr | hr
  · exact h.asked r hr
  · split at hr
    · cases hr
    · obtain ⟨owner, howner, rfl⟩ := map_eq_some_iff.mp (mem_toList.mp hr)
      rw [TieredCache.asks, h.peers n, bind_some] at howner
      exact (remoteOwner_eq_some howner).2

theorem Faithful.serveGet (i : Nat) : Faithful cfg (f.step (.serveGet i)) := by
  cases hr : f.requests[i]? with
  | none =>
    simp only [Fleet.step, hr]
    exact h
  | some r =>
    have hquiet : Faithful cfg
        (f.put r.owner ((f.node r.owner).serveGet f.now r.key).2 none) := by
      rcases TieredCache.serveGet_snd f.now (f.node r.owner) r.key with heq | heq
      · rw [heq]
        exact h.quiet (a := none) rfl rfl fun _ _ _ ha => by cases ha
      · rw [heq]
        exact h.quiet (a := some (.requestPromotion r.key)) rfl rfl fun _ _ _ ha => by cases ha
    simp only [Fleet.step, hr]
    refine ⟨hquiet.peers, hquiet.indexed, hquiet.sent, ?_, ?_, hquiet.copies⟩
    · intro r' hr'
      exact h.asked r' (mem_of_mem_eraseIdx hr')
    · intro r' hr'
      rcases mem_append.mp hr' with hr' | hr'
      · exact h.replied r' hr'
      · obtain ⟨hit, -, rfl⟩ := map_eq_some_iff.mp (mem_toList.mp hr')
        exact h.asked r (mem_of_getElem? hr)

/-- What breakers do on a node starts no push and leaves its memory. -/
theorem Faithful.breakers (n : String) (refused : List String) :
    Faithful cfg (f.step (.breakers n refused)) := by
  have hview : (f.node n).l3.map (fun pc => { pc with refused := refused }) =
      some (cfg.peerCache n refused) := by
    rw [h.peers n]
    rfl
  have hmove : Moves cfg f n none { f.node n with
      l3 := (f.node n).l3.map fun pc => { pc with refused := refused } } := by
    rw [hview]
    exact ⟨rfl, rfl⟩
  refine h.put hmove none ?_ h.asked h.replied (fun _ _ => rfl) ?_
  · rw [TieredCache.started, hview]
    simpa [peerCache] using h.sent
  · intro key e hn he
    exact hmove.copies_kept h (fun k v t ha => nomatch ha) hn he

/-- Every event that gives the owner no other TTL keeps the invariant. -/
theorem Faithful.step {event : FleetEvent} (hok : f.KeepsFullTTL event) :
    Faithful cfg (f.step event) := by
  cases event with
  | setWithTTL node key value ttl tx => exact h.setWithTTL hok
  | get node key tx => exact h.get hok
  | serveGet i => exact h.serveGet i
  | reply i tx => exact h.reply hok
  | serveSet i tx => exact h.serveSet hok
  | invalidate node key =>
    exact h.quiet (a := some (.invalidate key)) rfl rfl fun _ _ _ ha => by cases ha
  | runPromoter node =>
    exact h.quiet (a := some .runPromoter) rfl rfl fun _ _ _ ha => by cases ha
  | cleanup node => exact h.quiet (a := some .cleanup) rfl rfl fun _ _ _ ha => by cases ha
  | flush node tx => exact h.quiet (a := none) rfl rfl fun _ _ _ ha => by cases ha
  | breakers node refused => exact h.breakers node refused
  | advance d => exact ⟨h.peers, h.indexed, h.sent, h.asked, h.replied, h.copies⟩

/-- A store over the threshold, on a node that does not own the key, is on its way to the
owner with its full TTL. -/
theorem Faithful.pushed {owner : String} (hok : f.KeepsFullTTL (.setWithTTL n key value ttl tx))
    (howner : (f.node n).asks key = some owner) (hallowed : owner ∉ (f.node n).refused)
    (hsize : ¬ (f.node n).Oversized value) (hvalue : value ≠ []) (hmin : cfg.wtMinTTL ≤ ttl) :
    (⟨⟨owner, key, value, ttl.tdiv millisecond⟩, some ttl⟩ : Sent) ∈
      (f.step (.setWithTTL n key value ttl tx)).pushes := by
  rw [TieredCache.asks, h.peers n, bind_some] at howner
  obtain ⟨rfl, hne⟩ := remoteOwner_eq_some howner
  have howns : (f.node n).owns key ≠ true := fun ho =>
    hne ((owns_iff (h.peers n) key).mp ho)
  have hkeeps : ¬ (cfg.peerCache n (f.node n).refused).KeepsToItself value ttl := by
    rintro (hoff | hnil | ⟨-, hlt⟩)
    · cases hoff
    · exact hvalue hnil
    · exact absurd hmin (Int.not_le.mpr hlt)
  obtain ⟨hle, hms⟩ := (((hok.resolve_left howns).resolve_left hsize).resolve_left
    hvalue).resolve_left (not_cutOff (h.peers n) hallowed)
  have hms : millisecond ≤ ttl := hms.resolve_right fun hkept => hkeeps (hkept _ (h.peers n))
  have hpos : ttl > 0 := Int.lt_of_lt_of_le (by decide) hms
  refine mem_append_right _ ?_
  rw [TieredCache.started_setWithTTL (h.peers n) rfl, if_neg hsize, pushFor,
    shadowTTL_short hle, if_neg hkeeps, howner, ttlMs, if_pos hpos]
  simp [Option.filter, peerCache, hallowed]

/-- What arrives at the owner is stored for the TTL of the caller. -/
theorem Faithful.stored {s : Sent} (hs : f.pushes[i]? = some s)
    (hok : f.KeepsFullTTL (.serveSet i tx)) :
    ∃ ttl, s.origin = some ttl ∧
      ((f.step (.serveSet i tx)).node s.push.owner).entries.find? s.push.key =
        some ⟨s.push.value, f.now + truncated ttl, s.push.value.length⟩ := by
  obtain ⟨ttl, horigin, hserve⟩ := h.serveSet_eq hs hok
  have howner : cfg.ring.get s.push.key = s.push.owner :=
    (h.sent s (mem_of_getElem? hs)).1.symm
  refine ⟨ttl, horigin, ?_⟩
  simp only [Fleet.step, hs, hserve, put_node_self]
  have hmem := (h.moves_setWithTTL s.push.owner s.push.key s.push.value (truncated ttl) tx).memory
  rw [shadowTTL_owner (h.peers _) howner] at hmem
  rw [show (TieredCache.drained _).toL1 = _ from hmem]
  exact L1.find?_act_set f.now (hok s hs).2.2.2 _ _

end

/-- The three parts of a `Get` that another node answers. -/
def isRead : FleetEvent → Bool
  | .get _ _ _ | .serveGet _ | .reply _ _ => true
  | _ => false

/-- A read changes no expiry of an owner's copy. -/
theorem Faithful.read (h : Faithful cfg f) {event : FleetEvent} (hok : f.KeepsFullTTL event)
    (hread : isRead event = true) {e' : Entry}
    (he : (f.node (cfg.ring.get key)).entries.find? key = some e)
    (he' : ((f.step event).node (cfg.ring.get key)).entries.find? key = some e') :
    e'.expiresAt = e.expiresAt := by
  have hdue : (f.step event).due = f.due := by
    cases event with
    | get => rfl
    | serveGet i | reply i tx =>
      simp only [Fleet.step]
      split <;> rfl
    | _ => cases hread
  have hafter := (h.step hok).copies key e' he'
  rw [hdue, h.copies key e he] at hafter
  exact (some.inj hafter).symm

/-- Along a run of events that give the owner no other TTL than a caller asked for: the owner's copy
of a key expires when the latest `SetWithTTL` that reached it says; a store over the threshold on
another node whose breaker for the owner is closed is pushed with its full TTL; a push that arrives
is stored for that TTL, in whole milliseconds, from then on; and reads change no expiry. -/
theorem owner_keeps_full_ttl (cfg : FleetConfig) (t0 : Int)
    (defaultTTL maxEntries maxBytes : String → Int) (l2 : String → Option DiskCache)
    (events : List FleetEvent)
    (hok : StepsMeet step KeepsFullTTL (start cfg t0 defaultTTL maxEntries maxBytes l2) events)
    (pre rest : List FleetEvent) (hpre : events = pre ++ rest) :
    let f := (start cfg t0 defaultTTL maxEntries maxBytes l2).run pre
    (∀ key e, (f.node (cfg.ring.get key)).entries.find? key = some e →
        f.due key = some e.expiresAt) ∧
      (∀ n key owner value ttl tx, f.KeepsFullTTL (.setWithTTL n key value ttl tx) →
        (f.node n).asks key = some owner → owner ∉ (f.node n).refused →
        ¬ (f.node n).Oversized value → value ≠ [] → cfg.wtMinTTL ≤ ttl →
        (⟨⟨owner, key, value, ttl.tdiv millisecond⟩, some ttl⟩ : Sent) ∈
          (f.step (.setWithTTL n key value ttl tx)).pushes) ∧
      (∀ (i : Nat) s tx, f.pushes[i]? = some s → f.KeepsFullTTL (.serveSet i tx) →
        ∃ ttl, s.origin = some ttl ∧
          ((f.step (.serveSet i tx)).node s.push.owner).entries.find? s.push.key =
            some ⟨s.push.value, f.now + truncated ttl, s.push.value.length⟩) ∧
      ∀ event, f.KeepsFullTTL event → isRead event = true → ∀ key e e',
        (f.node (cfg.ring.get key)).entries.find? key = some e →
        ((f.step event).node (cfg.ring.get key)).entries.find? key = some e' →
        e'.expiresAt = e.expiresAt := by
  intro f
  rw [hpre, stepsMeet_append] at hok
  have h : Faithful cfg f := run_invariant_of_stepsMeet (fun _ _ hi ho => hi.step ho)
    (Faithful.start cfg t0 defaultTTL maxEntries maxBytes l2) hok.1
  refine ⟨h.copies, ?_, ?_, ?_⟩
  · intro n key owner value ttl tx hset howner hallowed hsize hvalue hmin
    exact h.pushed hset howner hallowed hsize hvalue hmin
  · intro i s tx hs hserve
    exact h.stored hs hserve
  · intro event hevent hread key e e' he he'
    exact h.read hevent hread he he'

/-- Two nodes whose hash puts every key on the second. -/
def twoNodes (wtMinTTL : Int) : FleetConfig where
  ring := ((PeerCache.new (fun _ => 0) "a" true wtMinTTL).updatePeers ["a", "b"]).ring
  peers := ["a", "b"]
  wtMinTTL := wtMinTTL
  peers_ne_nil := by decide

/-- A store for 20 seconds on the other node, delivered after a millisecond. -/
theorem owner_keeps_pushed_ttl :
    ∃ f, f = (start (twoNodes 10000000000) 0 (fun _ => halfMinute) (fun _ => 10) (fun _ => 100)
        fun _ => none).run
        [.setWithTTL "a" "k" [1] 20000000000 .quiet, .advance 1000000, .serveSet 0 .quiet] ∧
      (f.node ((twoNodes 10000000000).ring.get "k")).entries.find? "k" =
        some ⟨[1], 20001000000, 1⟩ ∧
      f.due "k" = some 20001000000 := by
  have hmeet : StepsMeet step KeepsFullTTL
      (start (twoNodes 10000000000) 0 (fun _ => halfMinute) (fun _ => 10) (fun _ => 100)
        fun _ => none)
      [.setWithTTL "a" "k" [1] 20000000000 .quiet, .advance 1000000, .serveSet 0 .quiet] := by
    refine ⟨.inr (.inr (.inr (.inr ⟨by decide, .inl (by decide)⟩))), trivial, ?_, trivial⟩
    simp only [KeepsFullTTL]
    decide +kernel
  obtain ⟨hcopies, -⟩ := owner_keeps_full_ttl (twoNodes 10000000000) 0 (fun _ => halfMinute)
    (fun _ => 10) (fun _ => 100) (fun _ => none) _ hmeet _ [] (append_nil _).symm
  refine ⟨_, rfl, ?_, hcopies "k" ⟨[1], 20001000000, 1⟩ ?_⟩ <;> decide +kernel

/-- A store for a minute on the other node reaches the owner as a store for half a minute. -/
theorem owner_copy_cut_to_half_minute :
    let f := (start (twoNodes halfMinute) 0 (fun _ => halfMinute) (fun _ => 10) (fun _ => 100)
      fun _ => none).run [.setWithTTL "a" "k" [1] 60000000000 .quiet, .serveSet 0 .quiet]
    (f.node ((twoNodes halfMinute).ring.get "k")).entries.find? "k" =
        some ⟨[1], 30000000000, 1⟩ ∧
      f.due "k" = some 60000000000 := by
  decide +kernel

end Fleet

end LokiVlProxy.Cache
