/-
  Cache/Peer.lean --- the hash ring and one node's view of its peers.

  Source: internal/cache/peer.go: hashRing, updatePeers, IsOwner, the routing of Get,
  SetWithTTL and pushToOwner.

  `hashKey` (the first four bytes of SHA-256) is an arbitrary function to 32-bit
  values.
-/
import LokiVlProxy.Cache.L1
import Mathlib.Data.List.Sort

namespace LokiVlProxy.Cache

open Foundation

/-! ## The ring -/

structure HashRing where
  hashKey : String → UInt32
  vnodes : Nat
  ring : List UInt32
  nodeMap : KeyMap UInt32 String

namespace HashRing

/-- `newHashRing`. -/
def new (hashKey : String → UInt32) (vnodes : Nat) : HashRing where
  hashKey := hashKey
  vnodes := vnodes
  ring := []
  nodeMap := ∅

/-- One virtual node of `add`. -/
def addPoint (addr : String) (hr : HashRing) (i : Nat) : HashRing :=
  let h := hr.hashKey (addr ++ "#" ++ toString i)
  { hr with ring := hr.ring ++ [h], nodeMap := hr.nodeMap.insert h addr }

/-- `add`: the virtual nodes are appended, then the ring is sorted. -/
def add (hr : HashRing) (addr : String) : HashRing :=
  let hr := (List.range hr.vnodes).foldl (addPoint addr) hr
  { hr with ring := hr.ring.insertionSort (· ≤ ·) }

/-- `get`: the first point at or after the key's hash, or the first of all. -/
def get (hr : HashRing) (key : String) : String :=
  match (hr.ring.find? (· ≥ hr.hashKey key)).or hr.ring.head? with
  | none => ""
  | some point => (hr.nodeMap.find? point).getD ""

end HashRing

/-! ## A node's peers -/

/-- A started `pushToOwner`: what its POST to `/_cache/set` carries. -/
structure Push where
  owner : String
  key : String
  value : Bytes
  ttlMs : Int
  deriving DecidableEq, Repr

structure PeerCache where
  ring : HashRing
  selfAddr : String
  peers : List String
  writeThrough : Bool
  wtMinTTL : Int
  /-- the peers that `peerAllowed` refuses: five failures in a row, the last within ten seconds -/
  refused : List String
  pushes : List Push

/-- `30 * time.Second`. -/
def halfMinute : Int := 30 * 1000000000

def millisecond : Int := 1000000

namespace PeerCache

/-- `NewPeerCache` before any peer is known. -/
def new (hashKey : String → UInt32) (selfAddr : String) (writeThrough : Bool) (minTTL : Int) :
    PeerCache where
  ring := HashRing.new hashKey 150
  selfAddr := selfAddr
  peers := []
  writeThrough := writeThrough
  wtMinTTL := if minTTL ≤ 0 then halfMinute else minTTL
  refused := []
  pushes := []

variable (pc : PeerCache)

def updatePeers (peers : List String) : PeerCache :=
  { pc with peers := peers, ring := peers.foldl HashRing.add (HashRing.new pc.ring.hashKey 150) }

variable (key : String)

def isOwner : Bool :=
  if pc.peers = [] then true else pc.ring.get key = pc.selfAddr

/-- The peer that `Get` and `SetWithTTL` turn to: the owner, if it is another node. -/
def remoteOwner : Option String :=
  if pc.peers = [] then none
  else if pc.ring.get key = pc.selfAddr ∨ pc.ring.get key = "" then none
  else some (pc.ring.get key)

/-- The `ttl_ms` of a push: `ttl.Milliseconds()`, or 0 without a TTL. -/
def ttlMs (ttl : Int) : Int := if ttl > 0 then ttl.tdiv millisecond else 0

/-- The guards of `SetWithTTL`: write-through is off, there is nothing to push, or the
value will not live long enough. -/
def KeepsToItself (value : Bytes) (ttl : Int) : Prop :=
  pc.writeThrough = false ∨ value = [] ∨ (ttl > 0 ∧ ttl < pc.wtMinTTL)
  deriving Decidable

/-- `SetWithTTL`: a push to the owner is started, unless the owner's breaker is open. -/
def setWithTTL (value : Bytes) (ttl : Int) : PeerCache :=
  if pc.KeepsToItself value ttl then pc
  else
    match pc.remoteOwner key with
    | none => pc
    | some owner =>
        if owner ∈ pc.refused then pc
        else { pc with pushes := pc.pushes ++ [⟨owner, key, value, ttlMs ttl⟩] }

end PeerCache

end LokiVlProxy.Cache
