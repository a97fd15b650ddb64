/-
  Cache/Disk.lean --- the disk tier of the response cache.

  Source: internal/cache/disk.go: Set, getWithTTL, Flush, sweepExpired,
  encodeDiskEntry.

  A flush swaps the write buffer out under `writeMu` and then runs a bbolt write
  transaction.
-/
import LokiVlProxy.Cache.L1
import LokiVlProxy.Foundation.BigEndian

namespace LokiVlProxy.Cache

open Foundation Option

/-! ## Records -/

/-- A buffered entry; `expiresAt` is an `int64` of nanoseconds. -/
structure DiskEntry where
  value : Bytes
  expiresAt : BitVec 64
  deriving DecidableEq, Repr

/-- `Time.UnixNano`: an instant outside the `int64` range wraps around. -/
def unixNano (t : Int) : BitVec 64 := BitVec.ofInt 64 t

theorem toInt_unixNano_le {t : Int} (h : 0 ≤ t) : (unixNano t).toInt ≤ t := by
  rw [unixNano, BitVec.toInt_ofInt, Int.bmod_def]
  split <;> omega

theorem toInt_unixNano {t : Int} (h0 : 0 ≤ t) (h : t < 2 ^ 63) : (unixNano t).toInt = t := by
  rw [unixNano, BitVec.toInt_ofInt, Int.bmod_def]
  split <;> omega

def maxInt : Nat := 2 ^ 63 - 1

/-- `encodeDiskEntry`: eight bytes of expiry, then the value. -/
def encodeDiskEntry (entry : DiskEntry) : Option Bytes :=
  if entry.value.length > maxInt - 8 then none
  else some (BigEndian.encode 8 entry.expiresAt.toNat ++ entry.value)

/-- The gzip codec.  `header` reads the first eight bytes of the compressed data, as
the expiry sweep does; the two laws are what the cache relies on. -/
structure Gzip where
  compress : Bytes → Option Bytes
  decompress : Bytes → Option Bytes
  header : Bytes → Option Bytes
  decompress_compress : ∀ {a b : Bytes}, compress a = some b → decompress b = some a
  header_compress : ∀ {a b : Bytes}, compress a = some b → 8 ≤ a.length →
    header b = some (a.take 8)

/-- The codec that stores data as it is. -/
def Gzip.stored : Gzip where
  compress := some
  decompress := some
  header := fun b => some (b.take 8)
  decompress_compress := fun h => by simpa using h.symm
  header_compress := fun h _ => by simpa using congrArg (List.take 8) (some.inj h).symm

/-- What a write transaction meets: the order of Go's range over the buffer (keys not
named come first), the records the bounded sweep visits, the bytes in use in the leaf
pages, and whether the transaction is refused. -/
structure Tx where
  order : List String
  visited : List String
  leafInuse : Int
  fails : Bool
  deriving Repr

/-- A transaction that sweeps nothing, counts nothing and is not refused. -/
def Tx.quiet : Tx := ⟨[], [], 0, false⟩

structure DiskCache where
  gzip : Gzip
  compression : Bool
  flushSize : Int
  minTTL : Int
  maxBytes : Int
  writeBuf : KeyMap String DiskEntry
  inflight : List (KeyMap String DiskEntry)
  db : KeyMap String Bytes
  deletes : List String

namespace DiskCache

/-- `NewDiskCache` on an empty database file. -/
def new (gzip : Gzip) (compression : Bool) (flushSize minTTL maxBytes : Int) : DiskCache where
  gzip := gzip
  compression := compression
  flushSize := if flushSize = 0 then 100 else flushSize
  minTTL := minTTL
  maxBytes := maxBytes
  writeBuf := ∅
  inflight := []
  db := ∅
  deletes := []

variable (dc : DiskCache)

/-- The record written for an entry. -/
def pack (entry : DiskEntry) : Option Bytes :=
  (encodeDiskEntry entry).bind fun encoded =>
    if dc.compression then dc.gzip.compress encoded else some encoded

/-- The entry read from a record. -/
def unpack (record : Bytes) : Option DiskEntry :=
  (if dc.compression then dc.gzip.decompress record else some record).bind fun raw =>
    if raw.length < 8 then none
    else some ⟨raw.drop 8, BitVec.ofNat 64 (BigEndian.decode (raw.take 8))⟩

/-- The expiry the sweep reads, without inflating the whole record. -/
def headerExpiry (record : Bytes) : Option (BitVec 64) :=
  (if dc.compression then dc.gzip.header record
    else if record.length ≥ 8 then some (record.take 8) else none).map
      fun header => BitVec.ofNat 64 (BigEndian.decode header)

/-! ## Reads -/

variable (now : Int)

/-- `time.Unix(0, ExpiresAt).Sub(now)`. -/
def remaining (entry : DiskEntry) : Int := entry.expiresAt.toInt - now

variable (dc : DiskCache)

def getWithTTL (key : String) (allowStale : Bool) : Option (Bytes × Int) × DiskCache :=
  match dc.writeBuf.find? key with
  | some entry =>
      if remaining now entry ≤ 0 ∧ ¬ allowStale then (none, dc)
      else (some (entry.value, remaining now entry), dc)
  | none =>
      match (dc.db.find? key).bind dc.unpack with
      | none => (none, dc)
      | some entry =>
          if remaining now entry ≤ 0 ∧ ¬ allowStale then
            (none, { dc with deletes := dc.deletes ++ [key] })
          else (some (entry.value, remaining now entry), dc)

/-- The goroutine started by a read that found an expired record. -/
def runDelete (i : Nat) : DiskCache :=
  match dc.deletes[i]? with
  | none => dc
  | some key => { dc with deletes := dc.deletes.eraseIdx i, db := dc.db.erase key }

/-! ## Writes -/

/-- A sweep at `now` keeps the record: its header is readable and names a later time. -/
def outlives (record : Bytes) : Bool :=
  (dc.headerExpiry record).any fun e => e.toInt > now

variable (s : KeyMap String Bytes × Int)

/-- One record of the expiry sweep, with the bytes reclaimed so far. -/
def sweepRecord (key : String) : KeyMap String Bytes × Int :=
  match s.1.find? key with
  | none => s
  | some record =>
      if dc.outlives now record then s
      else (s.1.erase key, s.2 + (key.utf8ByteSize + record.length))

def sweepExpired (visited : List String) : KeyMap String Bytes × Int :=
  visited.foldl (dc.sweepRecord now) (dc.db, 0)

/-- The bytes counted so far, without those of the key's present record. -/
def candidateBytes (key : String) : Int :=
  s.2 - ((s.1.find? key).map fun record => (record.length : Int)).getD 0

/-- One buffered entry of the transaction, with the bytes counted so far.  An entry
over the cap is skipped; the record its key has stays. -/
def putEntry (e : String × DiskEntry) : KeyMap String Bytes × Int :=
  match dc.pack e.2 with
  | none => s
  | some encoded =>
      if dc.maxBytes > 0 then
        if candidateBytes s e.1 + encoded.length > dc.maxBytes then s
        else (s.1.insert e.1 encoded, candidateBytes s e.1 + encoded.length)
      else (s.1.insert e.1 encoded, s.2 + encoded.length)

/-- The buffer in the order the transaction ranges over it. -/
def ranged (buf : KeyMap String DiskEntry) (order : List String) : List (String × DiskEntry) :=
  (buf.keys ++ order).dedup.filterMap fun key => (buf.find? key).map fun entry => (key, entry)

/-- The database after the write transaction of a flush of `buf`. -/
def transact (buf : KeyMap String DiskEntry) (tx : Tx) : KeyMap String Bytes :=
  if tx.fails then dc.db
  else
    let swept := dc.sweepExpired now tx.visited
    let currentBytes := max 0 ((if dc.maxBytes > 0 then tx.leafInuse else 0) - swept.2)
    ((ranged buf tx.order).foldl dc.putEntry (swept.1, currentBytes)).1

/-- `Flush`, with nothing in between its two halves. -/
def flush (tx : Tx) : DiskCache :=
  { dc with writeBuf := ∅, db := dc.transact now dc.writeBuf tx }

/-- The first half of a background `Flush`: the buffer is swapped out. -/
def beginFlush : DiskCache :=
  { dc with writeBuf := ∅, inflight := dc.inflight ++ [dc.writeBuf] }

/-- The second half of the `i`-th flush under way: its transaction. -/
def endFlush (i : Nat) (tx : Tx) : DiskCache :=
  match dc.inflight[i]? with
  | none => dc
  | some buf => { dc with inflight := dc.inflight.eraseIdx i, db := dc.transact now buf tx }

/-- The guards of `Set`: no life, or less than the configured minimum. -/
def Refuses (ttl : Int) : Prop :=
  ttl ≤ 0 ∨ (dc.minTTL > 0 ∧ ttl < dc.minTTL)
  deriving Decidable

/-- `writeBuf[key] = …`. -/
def buffer (key : String) (value : Bytes) (ttl : Int) : DiskCache :=
  { dc with writeBuf := dc.writeBuf.insert key ⟨value, unixNano (now + ttl)⟩ }

/-- `Set`: a buffer that is full is flushed at once. -/
def set (key : String) (value : Bytes) (ttl : Int) (tx : Tx) : DiskCache :=
  if dc.Refuses ttl then dc
  else if ((dc.buffer now key value ttl).writeBuf.size : Int) ≥ dc.flushSize then
    (dc.buffer now key value ttl).flush now tx
  else dc.buffer now key value ttl

/-! ## Records read back -/

variable {entry : DiskEntry}

/-- A record is the expiry in eight bytes and the value behind it. -/
theorem encodeDiskEntry_spec {encoded : Bytes} (h : encodeDiskEntry entry = some encoded) :
    8 ≤ encoded.length ∧ encoded.drop 8 = entry.value ∧
      BitVec.ofNat 64 (BigEndian.decode (encoded.take 8)) = entry.expiresAt := by
  unfold encodeDiskEntry at h
  split at h
  · cases h
  · obtain rfl := some.inj h
    have hlen := BigEndian.length_encode 8 entry.expiresAt.toNat
    refine ⟨by rw [List.length_append, hlen]; omega, List.drop_left' hlen, ?_⟩
    rw [List.take_left' hlen, BigEndian.decode_encode]
    have hlt : entry.expiresAt.toNat < 256 ^ 8 := entry.expiresAt.isLt
    rw [Nat.mod_eq_of_lt hlt, BitVec.ofNat_toNat, BitVec.setWidth_eq]

/-- What is packed is read back. -/
theorem unpack_pack {dc : DiskCache} {record : Bytes} (h : dc.pack entry = some record) :
    dc.unpack record = some entry := by
  obtain ⟨encoded, henc, hrec⟩ := Option.bind_eq_some_iff.mp h
  obtain ⟨hlen, hval, hexp⟩ := encodeDiskEntry_spec henc
  have hraw : (if dc.compression then dc.gzip.decompress record else some record)
      = some encoded := by
    split at hrec
    · rename_i hc
      rw [if_pos hc]
      exact dc.gzip.decompress_compress hrec
    · rename_i hc
      rw [if_neg hc, ← hrec]
  rw [unpack, hraw, Option.bind_some, if_neg (Nat.not_lt.mpr hlen), hexp, hval]

/-- The sweep reads the expiry of a record without its value. -/
theorem headerExpiry_pack {dc : DiskCache} {record : Bytes} (h : dc.pack entry = some record) :
    dc.headerExpiry record = some entry.expiresAt := by
  obtain ⟨encoded, henc, hrec⟩ := Option.bind_eq_some_iff.mp h
  obtain ⟨hlen, -, hexp⟩ := encodeDiskEntry_spec henc
  split at hrec
  · rename_i hc
    rw [headerExpiry, if_pos hc, dc.gzip.header_compress hrec hlen, Option.map_some, hexp]
  · rename_i hc
    obtain rfl := some.inj hrec
    rw [headerExpiry, if_neg hc, if_pos hlen, Option.map_some, hexp]

end DiskCache

end LokiVlProxy.Cache
