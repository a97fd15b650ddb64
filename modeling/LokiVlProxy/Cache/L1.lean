/-
  Cache/L1.lean --- the in-memory tier of the response cache.

  Source: internal/cache/cache.go, the fields of `Cache` guarded by `mu` and the
  functions that write them: storeLocalLocked, evictIfNeeded, Invalidate,
  InvalidatePrefix, cleanup, runPromoter, and the promotion request of the reads.

  Each of these runs as one critical section of `mu`, so a run of the tier is a list
  of actions.
-/
import LokiVlProxy.Foundation.LinkedList

namespace LokiVlProxy.Cache

open Foundation

abbrev Bytes : Type := List UInt8

structure Entry where
  value : Bytes
  expiresAt : Int
  sizeBytes : Int
  deriving DecidableEq, Repr

/-- The in-memory fields of `Cache`.  The front of `lruList` is the most recently
used key; `nextElem` is the identity the next list element gets. -/
structure L1 where
  entries : KeyMap String Entry
  defaultTTL : Int
  maxEntries : Int
  maxBytes : Int
  curBytes : Int
  lruList : List (Element String)
  lruIndex : KeyMap String Nat
  nextElem : Nat
  promoteBuf : List String

/-- The capacity of the channel of deferred promotions. -/
def promoteBufCap : Nat := 512

namespace L1

def newWithMaxBytes (ttl maxEntries maxBytes : Int) : L1 where
  entries := ∅
  defaultTTL := ttl
  maxEntries := maxEntries
  maxBytes := maxBytes
  curBytes := 0
  lruList := []
  lruIndex := ∅
  nextElem := 0
  promoteBuf := []

/-! ## Removing entries -/

variable (c : L1) (key : String)

/-- Take the key's element out of the list and of the index, if it has one. -/
def unlink : L1 :=
  match c.lruIndex.find? key with
  | some elem =>
      { c with lruList := LinkedList.remove c.lruList elem, lruIndex := c.lruIndex.erase key }
  | none => c

/-- The removal that `Invalidate`, `InvalidatePrefix`, the expiry pass of
`evictIfNeeded` and `cleanup` write out for a key they found with entry `e`. -/
def dropEntry (e : Entry) : L1 :=
  { c with curBytes := c.curBytes - e.sizeBytes, entries := c.entries.erase key }.unlink key

/-- A `range` loop over the map that removes the doomed entries.  Go visits each
entry present at the start once; deleting the visited one is allowed. -/
def sweep (doomed : String → Entry → Bool) : L1 :=
  c.entries.toList.foldl
    (fun c kv => if doomed kv.1 kv.2 then c.dropEntry kv.1 kv.2 else c) c

variable (now : Int)

/-- `now.After(e.expiresAt)`. -/
def expired (e : Entry) : Bool := e.expiresAt < now

def removeExpired (c : L1) : L1 := c.sweep fun _ e => expired now e

def invalidate : L1 :=
  match c.entries.find? key with
  | some e => c.dropEntry key e
  | none => c

/-- `len(k) >= len(p) && k[:len(p)] == p`. -/
def hasPrefix (p k : String) : Bool := p.toList.isPrefixOf k.toList

def invalidatePrefix (p : String) : L1 := c.sweep fun k _ => hasPrefix p k

/-- One tick of `cleanup`. -/
def cleanup (c : L1) : L1 := c.removeExpired now

/-! ## Eviction -/

/-- The condition of both passes of `evictIfNeeded`. -/
def NeedsEviction (incomingSize : Int) : Prop :=
  (c.entries.size : Int) ≥ c.maxEntries ∨ c.curBytes + incomingSize > c.maxBytes
  deriving Decidable

/-- The body of the second pass: the element at the back leaves the list, and its
key leaves the map if it is there. -/
def evictBack (back : Element String) : L1 :=
  let kept := match c.entries.find? back.value with
    | some e =>
        { c with curBytes := c.curBytes - e.sizeBytes, entries := c.entries.erase back.value }
    | none => c
  { kept with
    lruList := LinkedList.remove kept.lruList back.id
    lruIndex := kept.lruIndex.erase back.value }

/-- The second pass.  Every round shortens the list, so the length of the list
bounds the rounds. -/
def evictLoop (incomingSize : Int) : Nat → L1 → L1
  | 0, c => c
  | rounds + 1, c =>
      if c.NeedsEviction incomingSize then
        match c.lruList.getLast? with
        | none => c
        | some back => evictLoop incomingSize rounds (c.evictBack back)
      else c

def evictIfNeeded (c : L1) (incomingSize : Int) : L1 :=
  let c := if c.NeedsEviction incomingSize then c.removeExpired now else c
  evictLoop incomingSize c.lruList.length c

/-! ## Storing -/

/-- Move the key's element to the front, if it has one. -/
def promote : L1 :=
  match c.lruIndex.find? key with
  | some elem => { c with lruList := LinkedList.moveToFront c.lruList elem }
  | none => c

/-- The first statement of `storeLocalLocked`: a present key gives its bytes back and
becomes the most recently used, but its entry stays in the map. -/
def retire : L1 :=
  match c.entries.find? key with
  | some old => { c with curBytes := c.curBytes - old.sizeBytes }.promote key
  | none => c

/-- Give a key without a list element one at the front. -/
def link : L1 :=
  match c.lruIndex.find? key with
  | some _ => c
  | none => { c with
      lruList := ⟨c.nextElem, key⟩ :: c.lruList
      lruIndex := c.lruIndex.insert key c.nextElem
      nextElem := c.nextElem + 1 }

/-- The last statements of `storeLocalLocked`. -/
def insertEntry (e : Entry) : L1 :=
  { c with entries := c.entries.insert key e, curBytes := c.curBytes + e.sizeBytes }.link key

def storeLocalLocked (c : L1) (key : String) (value : Bytes) (ttl size : Int) : L1 :=
  ((c.retire key).evictIfNeeded now size).insertEntry key ⟨value, now + ttl, size⟩

/-- No value above a tenth of the byte budget is kept. -/
def Oversized (value : Bytes) : Prop := (value.length : Int) > c.maxBytes.tdiv 10
  deriving Decidable

/-- The memory part of every setter: the size check, then `storeLocalLocked`.
`SetLocalOnlyWithTTL` writes the statements of `storeLocalLocked` out again. -/
def setLocalOnlyWithTTL (c : L1) (key : String) (value : Bytes) (ttl : Int) : L1 :=
  if c.Oversized value then c else c.storeLocalLocked now key value ttl value.length

/-! ## Reads and deferred promotion -/

/-- A hit sends the key to the promoter; a full channel drops it. -/
def requestPromotion : L1 :=
  if c.promoteBuf.length < promoteBufCap then { c with promoteBuf := c.promoteBuf ++ [key] } else c

/-- The promoter takes one key from the channel and applies it. -/
def runPromoter : L1 :=
  match c.promoteBuf with
  | [] => c
  | key :: rest => { c with promoteBuf := rest }.promote key

/-- The memory lookup of `Get`: an entry is served up to and including its expiry. -/
def peek (c : L1) (key : String) : Option Entry :=
  (c.entries.find? key).filter fun e => !expired now e

/-- The memory lookup of `GetWithTTL` and `GetSharedWithTTL`: the remaining time has
to be positive. -/
def peekWithTTL (c : L1) (key : String) : Option (Bytes × Int) :=
  match c.entries.find? key with
  | some e => if e.expiresAt - now > 0 then some (e.value, e.expiresAt - now) else none
  | none => none

theorem find?_of_peek {now : Int} {c : L1} {key : String} {e : Entry}
    (h : c.peek now key = some e) : c.entries.find? key = some e ∧ now ≤ e.expiresAt := by
  obtain ⟨hfind, hlive⟩ := Option.filter_eq_some_iff.mp h
  exact ⟨hfind, by simpa [expired] using hlive⟩

theorem find?_of_peekWithTTL {now : Int} {c : L1} {key : String} {hit : Bytes × Int}
    (h : c.peekWithTTL now key = some hit) :
    ∃ e, c.entries.find? key = some e ∧ now ≤ e.expiresAt ∧ e.value = hit.1 := by
  unfold peekWithTTL at h
  split at h
  · rename_i e he
    split at h
    · obtain rfl := Option.some.inj h
      exact ⟨e, he, by omega, rfl⟩
    · cases h
  · cases h

/-! ## Actions -/

/-- The critical sections of the memory tier. -/
inductive Action where
  | set (key : String) (value : Bytes) (ttl : Int)
  | requestPromotion (key : String)
  | runPromoter
  | invalidate (key : String)
  | invalidatePrefix (p : String)
  | cleanup
  deriving DecidableEq, Repr

def act (c : L1) : Action → L1
  | .set key value ttl => c.setLocalOnlyWithTTL now key value ttl
  | .requestPromotion key => c.requestPromotion key
  | .runPromoter => c.runPromoter
  | .invalidate key => c.invalidate key
  | .invalidatePrefix p => c.invalidatePrefix p
  | .cleanup => c.cleanup now

end L1

end LokiVlProxy.Cache
