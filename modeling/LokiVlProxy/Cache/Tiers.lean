/-
  Cache/Tiers.lean --- the response cache with its three tiers.

  Source: internal/cache/cache.go: setWithTTL and its callers, SetLocalAndDiskWithTTL,
  Get, GetWithTTL, GetSharedWithTTL.

  Memory is searched first, then the disk, then the peer that owns the key.
-/
import LokiVlProxy.Cache.Disk
import LokiVlProxy.Cache.Peer

namespace LokiVlProxy.Cache

open Foundation

/-- `Cache`: the memory tier with an optional disk tier and optional peers. -/
structure TieredCache extends L1 where
  l2 : Option DiskCache
  l3 : Option PeerCache

/-- `skipL2WriteForKey`: pattern keys are persisted elsewhere. -/
def skipL2WriteForKey (key : String) : Bool := L1.hasPrefix "patterns:" key

def nonOwnerShadowMaxTTL : Int := halfMinute

namespace TieredCache

def newWithMaxBytes (ttl maxEntries maxBytes : Int) (l2 : Option DiskCache)
    (l3 : Option PeerCache) : TieredCache where
  toL1 := L1.newWithMaxBytes ttl maxEntries maxBytes
  l2 := l2
  l3 := l3

/-! ## Setters -/

/-- Write-through is on and another node owns the key: this node keeps a shadow. -/
def isShadow (c : TieredCache) (key : String) : Bool :=
  c.l3.any fun pc => pc.writeThrough && !pc.isOwner key

/-- The TTL a setter goes on with: at most half a minute for a shadow. -/
def shadowTTL (c : TieredCache) (key : String) (ttl : Int) : Int :=
  if c.isShadow key ∧ ttl > nonOwnerShadowMaxTTL then nonOwnerShadowMaxTTL else ttl

variable (now : Int) (c : TieredCache) (key : String) (value : Bytes) (ttl : Int)

/-- `setWithTTL`, after the TTL has been clamped: memory, then disk, then the owner. -/
def storeAll (propagateL3 : Bool) (tx : Tx) : TieredCache where
  toL1 := c.toL1.storeLocalLocked now key value ttl value.length
  l2 := if skipL2WriteForKey key || c.isShadow key then c.l2
    else c.l2.map fun dc => dc.set now key value ttl tx
  l3 := if propagateL3 then c.l3.map fun pc => pc.setWithTTL key value ttl else c.l3

/-- `setWithTTL`. -/
def setWithTTLPropagate (propagateL3 : Bool) (tx : Tx) : TieredCache :=
  if c.Oversized value then c
  else c.storeAll now key value (c.shadowTTL key ttl) propagateL3 tx

def setWithTTL (tx : Tx) : TieredCache :=
  c.setWithTTLPropagate now key value ttl true tx

def setShadowWithTTL (tx : Tx) : TieredCache :=
  c.setWithTTLPropagate now key value ttl false tx

def set (tx : Tx) : TieredCache :=
  c.setWithTTL now key value c.defaultTTL tx

def setLocalOnlyWithTTL : TieredCache :=
  { c with toL1 := c.toL1.setLocalOnlyWithTTL now key value ttl }

def setLocalAndDiskWithTTL (tx : Tx) : TieredCache :=
  if c.Oversized value then c
  else { c with
    toL1 := c.toL1.storeLocalLocked now key value ttl value.length
    l2 := if skipL2WriteForKey key then c.l2 else c.l2.map fun dc => dc.set now key value ttl tx }

/-! ## Reads -/

/-- The disk lookup of a read. -/
def l2Get : Option (Bytes × Int) × TieredCache :=
  match c.l2 with
  | none => (none, c)
  | some dc => ((dc.getWithTTL now key false).1,
      { c with l2 := some (dc.getWithTTL now key false).2 })

variable (peer : Option (Bytes × Int))

/-- The peer lookup of a read, where the owner, if it is another node, answers `peer`. -/
def l3Get : Option (Bytes × Int) :=
  match c.l3 with
  | none => none
  | some pc => if (pc.remoteOwner key).isSome then peer else none

/-- The TTL of a copy made from a peer's answer: what the owner says is left. -/
def peerTTL (remaining : Int) : Int := if remaining ≤ 0 then halfMinute else remaining

/-- `Get`: a memory hit up to and including the expiry, or a disk hit stored again by
`Set`, or a peer's value stored by `SetWithTTL`. -/
def get (tx : Tx) : Option Bytes × TieredCache :=
  match c.toL1.peek now key with
  | some e => (some e.value, { c with toL1 := c.toL1.requestPromotion key })
  | none =>
      match c.l2Get now key with
      | (some (value, _), c) => (some value, c.set now key value tx)
      | (none, c) =>
          match c.l3Get key peer with
          | some (value, remaining) =>
              (some value, c.setWithTTL now key value (peerTTL remaining) tx)
          | none => (none, c)

/-- `GetWithTTL`: memory only. -/
def getWithTTL : Option (Bytes × Int) × TieredCache :=
  match c.toL1.peekWithTTL now key with
  | some hit => (some hit, { c with toL1 := c.toL1.requestPromotion key })
  | none => (none, c)

/-- `GetSharedWithTTL`: what is found below memory is stored in memory only, for the
time it has left. -/
def getSharedWithTTL : Option (Bytes × Int) × TieredCache :=
  match c.toL1.peekWithTTL now key with
  | some hit => (some hit, { c with toL1 := c.toL1.requestPromotion key })
  | none =>
      match c.l2Get now key with
      | (some (value, ttl), c) => (some (value, ttl), c.setLocalOnlyWithTTL now key value ttl)
      | (none, c) =>
          match c.l3Get key peer with
          | some (value, remaining) =>
              (some (value, peerTTL remaining),
                c.setLocalOnlyWithTTL now key value (peerTTL remaining))
          | none => (none, c)

end TieredCache

/-! ## Runs of one node -/

/-- A node's cache and its clock. -/
structure Node where
  cache : TieredCache
  now : Int

/-- The operations.  `peer` is what the owning peer would answer, `tx` what a flush
that the operation causes would meet. -/
inductive Op where
  | setWithTTL (key : String) (value : Bytes) (ttl : Int) (tx : Tx)
  | setShadowWithTTL (key : String) (value : Bytes) (ttl : Int) (tx : Tx)
  | set (key : String) (value : Bytes) (tx : Tx)
  | setLocalOnlyWithTTL (key : String) (value : Bytes) (ttl : Int)
  | setLocalAndDiskWithTTL (key : String) (value : Bytes) (ttl : Int) (tx : Tx)
  | get (key : String) (peer : Option (Bytes × Int)) (tx : Tx)
  | getWithTTL (key : String)
  | getSharedWithTTL (key : String) (peer : Option (Bytes × Int))
  | invalidate (key : String)
  | invalidatePrefix (p : String)
  | runPromoter
  | cleanup
  | flush (tx : Tx)
  | beginFlush
  | endFlush (i : Nat) (tx : Tx)
  | runDelete (i : Nat)
  | advance (d : Nat)

namespace Node

variable (n : Node)

/-- An update of the disk tier, if there is one. -/
def onDisk (f : DiskCache → DiskCache) : Node :=
  { n with cache := { n.cache with l2 := n.cache.l2.map f } }

/-- An update of the memory tier. -/
def onMemory (a : L1.Action) : Node :=
  { n with cache := { n.cache with toL1 := n.cache.toL1.act n.now a } }

def step : Op → Node
  | .setWithTTL key value ttl tx =>
      { n with cache := n.cache.setWithTTL n.now key value ttl tx }
  | .setShadowWithTTL key value ttl tx =>
      { n with cache := n.cache.setShadowWithTTL n.now key value ttl tx }
  | .set key value tx => { n with cache := n.cache.set n.now key value tx }
  | .setLocalOnlyWithTTL key value ttl =>
      { n with cache := n.cache.setLocalOnlyWithTTL n.now key value ttl }
  | .setLocalAndDiskWithTTL key value ttl tx =>
      { n with cache := n.cache.setLocalAndDiskWithTTL n.now key value ttl tx }
  | .get key peer tx => { n with cache := (n.cache.get n.now key peer tx).2 }
  | .getWithTTL key => { n with cache := (n.cache.getWithTTL n.now key).2 }
  | .getSharedWithTTL key peer => { n with cache := (n.cache.getSharedWithTTL n.now key peer).2 }
  | .invalidate key => n.onMemory (.invalidate key)
  | .invalidatePrefix p => n.onMemory (.invalidatePrefix p)
  | .runPromoter => n.onMemory .runPromoter
  | .cleanup => n.onMemory .cleanup
  | .flush tx => n.onDisk fun dc => dc.flush n.now tx
  | .beginFlush => n.onDisk DiskCache.beginFlush
  | .endFlush i tx => n.onDisk fun dc => dc.endFlush n.now i tx
  | .runDelete i => n.onDisk fun dc => dc.runDelete i
  | .advance d => { n with now := n.now + d }

def run (ops : List Op) : Node := ops.foldl step n

/-- The value that a read returns. -/
def served : Op → Option (String × Bytes)
  | .get key peer tx => (n.cache.get n.now key peer tx).1.map fun v => (key, v)
  | .getWithTTL key => (n.cache.getWithTTL n.now key).1.map fun hit => (key, hit.1)
  | .getSharedWithTTL key peer =>
      (n.cache.getSharedWithTTL n.now key peer).1.map fun hit => (key, hit.1)
  | _ => none

end Node

end LokiVlProxy.Cache
