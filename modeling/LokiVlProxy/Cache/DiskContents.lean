/-
  Cache/DiskContents.lean --- what the disk tier can hold and return.

  A transaction leaves at every key either the record that was there or a record of
  the flushed buffer (`find?_transact`); when nothing is refused, it leaves exactly the
  buffer's record (`find?_transact_of_mem`).
-/
import LokiVlProxy.Cache.Disk
import Mathlib.Data.List.Dedup

namespace LokiVlProxy.Cache.DiskCache

open Foundation List KeyMap

/-! ## The expiry sweep -/

/-- Between two databases, the record of `k` was kept or, having expired, removed. -/
def Swept (now : Int) (dc : DiskCache) (k : String) (db db' : KeyMap String Bytes) : Prop :=
  db'.find? k = db.find? k ∨
    (db'.find? k = none ∧ ∃ record, db.find? k = some record ∧ dc.outlives now record = false)

variable (now : Int) (dc : DiskCache)

theorem swept_sweepRecord (s : KeyMap String Bytes × Int) (key k : String) :
    Swept now dc k s.1 (dc.sweepRecord now s key).1 := by
  unfold sweepRecord
  cases hs : s.1.find? key with
  | none => exact .inl rfl
  | some record =>
    cases hlive : dc.outlives now record with
    | true => exact .inl (by simp [hlive])
    | false =>
      simp only [hlive, Bool.false_eq_true, if_false, Swept]
      rw [find?_erase]
      split
      · rename_i hk
        subst hk
        exact .inr ⟨rfl, record, hs, hlive⟩
      · exact .inl rfl

/-- A sweep leaves a record alone or drops an expired one, whatever it visits. -/
theorem swept_foldl (k : String) (visited : List String) (s : KeyMap String Bytes × Int) :
    Swept now dc k s.1 (visited.foldl (dc.sweepRecord now) s).1 := by
  induction visited generalizing s with
  | nil => exact .inl rfl
  | cons key visited ih =>
    rw [foldl_cons]
    rcases ih (dc.sweepRecord now s key) with hkept | ⟨hgone, record, hrec, hdead⟩
    · rw [Swept, hkept]
      exact swept_sweepRecord now dc s key k
    · rcases swept_sweepRecord now dc s key k with hkept' | ⟨hgone', -⟩
      · exact .inr ⟨hgone, record, hkept' ▸ hrec, hdead⟩
      · rw [hgone'] at hrec
        cases hrec

theorem swept_sweepExpired (visited : List String) (k : String) :
    Swept now dc k dc.db (dc.sweepExpired now visited).1 :=
  swept_foldl now dc k visited (dc.db, 0)

/-! ## The writes of a transaction -/

variable {buf : KeyMap String DiskEntry} {k : String} {e : DiskEntry}

theorem mem_ranged {order : List String} : (k, e) ∈ ranged buf order ↔ buf.find? k = some e := by
  simp only [ranged, mem_filterMap, mem_dedup, mem_append]
  constructor
  · rintro ⟨k', -, hk'⟩
    obtain ⟨e', he', heq⟩ := Option.map_eq_some_iff.mp hk'
    cases heq
    exact he'
  · intro hk
    exact ⟨k, .inl (mem_keys.mpr (by rw [hk]; rfl)), by rw [hk]; rfl⟩

theorem nodup_ranged (buf : KeyMap String DiskEntry) (order : List String) :
    ((ranged buf order).map Prod.fst).Nodup := by
  rw [ranged, map_filterMap]
  refine List.Nodup.filterMap (fun k k' b hb hb' => ?_) (nodup_dedup _)
  have hkey : ∀ key, b ∈ ((buf.find? key).map fun entry => (key, entry)).map Prod.fst →
      b = key := by
    intro key hmem
    simp only [Option.map_map, Option.mem_def, Option.map_eq_some_iff] at hmem
    obtain ⟨-, -, rfl⟩ := hmem
    rfl
  rw [← hkey k hb, ← hkey k' hb']

variable (l : List (String × DiskEntry)) (s : KeyMap String Bytes × Int)

theorem find?_putEntry_of_ne (e : String × DiskEntry) (hk : k ≠ e.1) :
    (dc.putEntry s e).1.find? k = s.1.find? k := by
  unfold putEntry
  split
  · rfl
  · split
    · split
      · rfl
      · rw [find?_insert, if_neg hk]
    · rw [find?_insert, if_neg hk]

theorem find?_putEntry_self (e : String × DiskEntry) :
    (dc.putEntry s e).1.find? e.1 = s.1.find? e.1 ∨
      ∃ record, dc.pack e.2 = some record ∧ (dc.putEntry s e).1.find? e.1 = some record := by
  unfold putEntry
  cases hp : dc.pack e.2 with
  | none => exact .inl rfl
  | some record =>
    simp only
    split
    · split
      · exact .inl rfl
      · exact .inr ⟨record, rfl, find?_insert_self _ _ _⟩
    · exact .inr ⟨record, rfl, find?_insert_self _ _ _⟩

theorem find?_puts_of_notMem (hk : ∀ e, (k, e) ∉ l) :
    (l.foldl dc.putEntry s).1.find? k = s.1.find? k := by
  induction l generalizing s with
  | nil => rfl
  | cons e l ih =>
    rw [foldl_cons, ih]
    · refine find?_putEntry_of_ne dc s e ?_
      rintro rfl
      exact hk e.2 (by simp)
    · intro e' he'
      exact hk e' (mem_cons_of_mem _ he')

/-- Each key of the database has its old record or that of an entry put. -/
theorem find?_puts (k : String) :
    (l.foldl dc.putEntry s).1.find? k = s.1.find? k ∨
      ∃ e record, (k, e) ∈ l ∧ dc.pack e = some record ∧
        (l.foldl dc.putEntry s).1.find? k = some record := by
  induction l generalizing s with
  | nil => exact .inl rfl
  | cons e l ih =>
    rw [foldl_cons]
    rcases ih (dc.putEntry s e) with hsame | ⟨e', record, hmem, hpack, hfind⟩
    · rw [hsame]
      by_cases hk : k = e.1
      · subst hk
        rcases find?_putEntry_self dc s e with hs | ⟨record, hpack, hfind⟩
        · exact .inl hs
        · exact .inr ⟨e.2, record, by simp, hpack, hfind⟩
      · exact .inl (find?_putEntry_of_ne dc s e hk)
    · exact .inr ⟨e', record, mem_cons_of_mem _ hmem, hpack, hfind⟩

/-- A transaction sweeps a key's record or writes the one of the buffer. -/
theorem find?_transact (buf : KeyMap String DiskEntry) (tx : Tx) (k : String) :
    Swept now dc k dc.db (dc.transact now buf tx) ∨
      ∃ e record, buf.find? k = some e ∧ dc.pack e = some record ∧
        (dc.transact now buf tx).find? k = some record := by
  unfold transact
  split
  · exact .inl (.inl rfl)
  · simp only
    rcases find?_puts dc (ranged buf tx.order) _ k with hsame | ⟨e, record, hmem, hpack, hfind⟩
    · refine .inl ?_
      rw [Swept, hsame]
      exact swept_sweepExpired now dc tx.visited k
    · exact .inr ⟨e, record, mem_ranged.mp hmem, hpack, hfind⟩

/-! ## A transaction that refuses nothing -/

/-- The bytes of the record written for an entry. -/
def packedBytes (dc : DiskCache) (e : DiskEntry) : Int :=
  ((dc.pack e).map fun record => (record.length : Int)).getD 0

/-- Nothing of the buffer is refused: bbolt accepts the transaction, every entry can be
encoded, and under a byte cap the whole buffer fits on top of what is in use. -/
structure Fits (dc : DiskCache) (buf : KeyMap String DiskEntry) (tx : Tx) : Prop where
  accepted : tx.fails = false
  encodable : ∀ ke ∈ buf.toList, (dc.pack ke.2).isSome
  room : 0 < dc.maxBytes → max 0 tx.leafInuse + buf.total dc.packedBytes ≤ dc.maxBytes

theorem Fits.pack_eq_some {dc : DiskCache} {tx : Tx} (h : Fits dc buf tx)
    (hk : buf.find? k = some e) : ∃ record, dc.pack e = some record :=
  Option.isSome_iff_exists.mp (h.encodable (k, e) (mem_toList.mpr hk))

theorem sum_packedBytes_ranged (buf : KeyMap String DiskEntry) (order : List String) :
    ((ranged buf order).map fun e => dc.packedBytes e.2).sum = buf.total dc.packedBytes := by
  have hperm : (ranged buf order).Perm buf.toList := by
    apply (perm_ext_iff_of_nodup (nodup_ranged buf order).of_map buf.nodup_toList).mpr
    rintro ⟨k, e⟩
    rw [mem_ranged, mem_toList]
  exact (hperm.map _).sum_eq

/-- An entry for which there is room is written. -/
theorem putEntry_of_room {s : KeyMap String Bytes × Int} {e : String × DiskEntry} {record : Bytes}
    (hpack : dc.pack e.2 = some record)
    (hroom : 0 < dc.maxBytes → s.2 + dc.packedBytes e.2 ≤ dc.maxBytes) :
    (dc.putEntry s e).1.find? e.1 = some record ∧
      (dc.putEntry s e).2 ≤ s.2 + dc.packedBytes e.2 := by
  have hbytes : dc.packedBytes e.2 = record.length := by simp [packedBytes, hpack]
  have hcand : candidateBytes s e.1 ≤ s.2 := by
    simp only [candidateBytes]
    cases s.1.find? e.1 <;> simp
  simp only [putEntry, hpack]
  split
  · rename_i hcap
    rw [if_neg]
    · refine ⟨find?_insert_self _ _ _, ?_⟩
      simp only
      omega
    · have := hroom hcap
      omega
  · refine ⟨find?_insert_self _ _ _, ?_⟩
    simp only
    omega

theorem find?_puts_of_mem (hnodup : (l.map Prod.fst).Nodup)
    (hpack : ∀ e ∈ l, ∃ record, dc.pack e.2 = some record)
    (hroom : 0 < dc.maxBytes → s.2 + (l.map fun e => dc.packedBytes e.2).sum ≤ dc.maxBytes)
    (hk : (k, e) ∈ l) : (l.foldl dc.putEntry s).1.find? k = dc.pack e := by
  induction l generalizing s with
  | nil => cases hk
  | cons head l ih =>
    obtain ⟨hfresh, hnodup'⟩ := nodup_cons.mp hnodup
    obtain ⟨record, hrecord⟩ := hpack head (by simp)
    have hrest : 0 ≤ (l.map fun e => dc.packedBytes e.2).sum := by
      refine sum_nonneg ?_
      intro x hx
      obtain ⟨e', -, rfl⟩ := mem_map.mp hx
      simp only [packedBytes]
      cases dc.pack e'.2 <;> simp
    have hput := putEntry_of_room dc hrecord (s := s) (by
      intro hcap
      have := hroom hcap
      simp only [map_cons, sum_cons] at this
      omega)
    rw [foldl_cons]
    rcases mem_cons.mp hk with heq | htail
    · -- its own write is the last one to touch the key
      obtain rfl : head = (k, e) := heq.symm
      rw [find?_puts_of_notMem, hput.1, hrecord]
      intro e' he'
      exact hfresh (mem_map.mpr ⟨(k, e'), he', rfl⟩)
    · refine ih _ hnodup' (fun e' he' => hpack e' (mem_cons_of_mem _ he')) ?_ htail
      intro hcap
      have := hroom hcap
      simp only [map_cons, sum_cons] at this
      have := hput.2
      omega

theorem sweepExpired_nonneg (visited : List String) : 0 ≤ (dc.sweepExpired now visited).2 := by
  have hfold : ∀ s : KeyMap String Bytes × Int, 0 ≤ s.2 →
      0 ≤ (visited.foldl (dc.sweepRecord now) s).2 := by
    induction visited with
    | nil => exact fun s hs => hs
    | cons key visited ih =>
      intro s hs
      rw [foldl_cons]
      refine ih _ ?_
      unfold sweepRecord
      split
      · exact hs
      · split
        · exact hs
        · simp only
          omega
  exact hfold (dc.db, 0) (Int.le_refl 0)

/-- A transaction that fits writes every entry of the buffer. -/
theorem find?_transact_of_mem {now : Int} {dc : DiskCache} {tx : Tx} (h : Fits dc buf tx)
    (hk : buf.find? k = some e) : (dc.transact now buf tx).find? k = dc.pack e := by
  unfold transact
  rw [if_neg (by simp [h.accepted])]
  refine find?_puts_of_mem dc _ _ (nodup_ranged buf tx.order) ?_ ?_ (mem_ranged.mpr hk)
  · rintro ⟨k', e'⟩ hmem
    exact h.pack_eq_some (mem_ranged.mp hmem)
  · intro hcap
    rw [sum_packedBytes_ranged]
    have := h.room hcap
    have := sweepExpired_nonneg now dc tx.visited
    simp only [hcap, if_true]
    omega

/-- What is not in the buffer is at most swept. -/
theorem swept_transact_of_notMem (tx : Tx) (hk : buf.find? k = none) :
    Swept now dc k dc.db (dc.transact now buf tx) := by
  rcases find?_transact now dc buf tx k with hswept | ⟨e, -, he, -⟩
  · exact hswept
  · rw [hk] at he
    cases he

/-! ## A property of everything that is stored -/

/-- Every entry in the buffer, in a flush under way or in the database satisfies `P`, and
every record of the database was written for an entry. -/
structure Holds (P : String → DiskEntry → Prop) (dc : DiskCache) : Prop where
  buffered : ∀ k e, dc.writeBuf.find? k = some e → P k e
  swapped : ∀ buf ∈ dc.inflight, ∀ k e, buf.find? k = some e → P k e
  recorded : ∀ k record, dc.db.find? k = some record → ∃ e, dc.pack e = some record ∧ P k e

namespace Holds

variable {P : String → DiskEntry → Prop} {dc : DiskCache}

theorem new (P : String → DiskEntry → Prop) (gzip : Gzip) (compression : Bool)
    (flushSize minTTL maxBytes : Int) :
    Holds P (DiskCache.new gzip compression flushSize minTTL maxBytes) where
  buffered := fun k e h => by simp [DiskCache.new] at h
  swapped := fun buf h => by simp [DiskCache.new] at h
  recorded := fun k record h => by simp [DiskCache.new] at h

section

variable (h : Holds P dc)

include h

theorem mono {Q : String → DiskEntry → Prop} (hPQ : ∀ k e, P k e → Q k e) :
    Holds Q dc where
  buffered := fun k e hk => hPQ k e (h.buffered k e hk)
  swapped := fun buf hb k e hk => hPQ k e (h.swapped buf hb k e hk)
  recorded := by
    intro k record hk
    obtain ⟨e, hpack, he⟩ := h.recorded k record hk
    exact ⟨e, hpack, hPQ k e he⟩

theorem transact (now : Int) {buf : KeyMap String DiskEntry}
    (hbuf : ∀ k e, buf.find? k = some e → P k e) (tx : Tx) {k : String} {record : Bytes}
    (hk : (dc.transact now buf tx).find? k = some record) :
    ∃ e, dc.pack e = some record ∧ P k e := by
  rcases find?_transact now dc buf tx k with (hsame | ⟨hgone, -⟩) | ⟨e, record', he, hpack, hfind⟩
  · rw [hsame] at hk
    exact h.recorded k record hk
  · rw [hgone] at hk
    cases hk
  · rw [hfind] at hk
    cases hk
    exact ⟨e, hpack, hbuf k e he⟩

/-- A flush moves entries and makes none. -/
theorem flush (now : Int) (tx : Tx) : Holds P (dc.flush now tx) where
  buffered := fun k e hk => by simp [DiskCache.flush] at hk
  swapped := h.swapped
  recorded := fun _ _ hk => h.transact now h.buffered tx hk

theorem beginFlush : Holds P dc.beginFlush where
  buffered := fun k e hk => by simp [DiskCache.beginFlush] at hk
  swapped := by
    intro buf hb k e hk
    rcases mem_append.mp hb with hb | hb
    · exact h.swapped buf hb k e hk
    · obtain rfl := mem_singleton.mp hb
      exact h.buffered k e hk
  recorded := h.recorded

theorem endFlush (now : Int) (i : Nat) (tx : Tx) : Holds P (dc.endFlush now i tx) := by
  unfold DiskCache.endFlush
  split
  · exact h
  · rename_i buf hbuf
    have hmem : buf ∈ dc.inflight := mem_of_getElem? hbuf
    exact {
      buffered := h.buffered
      swapped := fun buf' hb => h.swapped buf' (mem_of_mem_eraseIdx hb)
      recorded := fun _ _ hk => h.transact now (h.swapped buf hmem) tx hk }

theorem runDelete (i : Nat) : Holds P (dc.runDelete i) := by
  unfold DiskCache.runDelete
  split
  · exact h
  · refine { buffered := h.buffered, swapped := h.swapped, recorded := ?_ }
    intro k record hk
    simp only [find?_erase] at hk
    split at hk
    · cases hk
    · exact h.recorded k record hk

/-- A store adds one entry, and may flush. -/
theorem set (now : Int) {key : String} {value : Bytes} {ttl : Int} (tx : Tx)
    (hnew : ¬ dc.Refuses ttl → P key ⟨value, unixNano (now + ttl)⟩) :
    Holds P (dc.set now key value ttl tx) := by
  unfold DiskCache.set
  split
  · exact h
  · rename_i haccept
    have hbuf : Holds P (dc.buffer now key value ttl) := by
      refine { buffered := ?_, swapped := h.swapped, recorded := h.recorded }
      intro k e hk
      simp only [buffer, find?_insert] at hk
      split at hk
      · rename_i hkey
        subst hkey
        cases hk
        exact hnew haccept
      · exact h.buffered k e hk
    split
    · exact hbuf.flush now tx
    · exact hbuf

end

end Holds

/-- What a read finds: the buffered entry, or the one in the database. -/
def found (dc : DiskCache) (key : String) : Option DiskEntry :=
  (dc.writeBuf.find? key).or ((dc.db.find? key).bind dc.unpack)

/-- A read gives the newest entry of the key while it lives. -/
theorem getWithTTL_eq (dc : DiskCache) (key : String) :
    (dc.getWithTTL now key false).1 =
      ((dc.found key).filter fun e => remaining now e > 0).map
        fun e => (e.value, remaining now e) := by
  unfold DiskCache.getWithTTL found
  cases dc.writeBuf.find? key with
  | some e => by_cases hr : remaining now e ≤ 0 <;> simp [hr, Option.filter_some]
  | none =>
    simp only [Option.none_or]
    cases (dc.db.find? key).bind dc.unpack with
    | none => rfl
    | some e => by_cases hr : remaining now e ≤ 0 <;> simp [hr, Option.filter_some]

/-- What a read finds is one of the entries held. -/
theorem Holds.found {P : String → DiskEntry → Prop} {dc : DiskCache} (h : Holds P dc)
    {key : String} {e : DiskEntry} (he : dc.found key = some e) : P key e := by
  unfold DiskCache.found at he
  cases hb : dc.writeBuf.find? key with
  | some e' =>
    rw [hb] at he
    cases he
    exact h.buffered key e hb
  | none =>
    rw [hb, Option.none_or] at he
    obtain ⟨record, hrec, hunpack⟩ := Option.bind_eq_some_iff.mp he
    obtain ⟨e', hpack, he'⟩ := h.recorded key record hrec
    rw [unpack_pack hpack] at hunpack
    cases hunpack
    exact he'

/-! ## The tier as one map -/

/-- The entry of the youngest of these buffers that has one. -/
def newest : List (KeyMap String DiskEntry) → String → Option DiskEntry
  | [], _ => none
  | buf :: younger, k => (newest younger k).or (buf.find? k)

theorem newest_append (bufs bufs' : List (KeyMap String DiskEntry)) (k : String) :
    newest (bufs ++ bufs') k = (newest bufs' k).or (newest bufs k) := by
  induction bufs with
  | nil => simp [newest]
  | cons buf bufs ih => rw [List.cons_append, newest, ih, newest, Option.or_assoc]

/-- The newest entry of a key, wherever it is. -/
def onDisk (dc : DiskCache) (k : String) : Option DiskEntry :=
  ((dc.writeBuf.find? k).or (newest dc.inflight k)).or ((dc.db.find? k).bind dc.unpack)

variable {dc : DiskCache} {k : String} {now : Int}

/-- Buffers being written hide only what they are about to replace. -/
theorem found_eq_onDisk (h : dc.writeBuf.find? k = none → newest dc.inflight k = none) :
    dc.found k = dc.onDisk k := by
  unfold found onDisk
  cases hb : dc.writeBuf.find? k with
  | some e => rfl
  | none => rw [h hb]; rfl

/-- The newest entry of `k` is the same, or it has expired by `now` and is gone. -/
def AgesAt (now : Int) (k : String) (dc dc' : DiskCache) : Prop :=
  dc'.onDisk k = dc.onDisk k ∨
    (dc'.onDisk k = none ∧ ∃ e, dc.onDisk k = some e ∧ e.expiresAt.toInt ≤ now)

/-- The map is the same, up to entries that have expired by `now`. -/
def Ages (now : Int) (dc dc' : DiskCache) : Prop := ∀ k, AgesAt now k dc dc'

theorem Ages.trans {dc' dc'' : DiskCache} (h : Ages now dc dc') (h' : Ages now dc' dc'') :
    Ages now dc dc'' := by
  intro k
  rcases h' k with hsame | ⟨hgone, e, he, hdead⟩
  · rw [AgesAt, hsame]
    exact h k
  · rcases h k with hsame | ⟨hgone', -⟩
    · exact .inr ⟨hgone, e, hsame ▸ he, hdead⟩
    · rw [hgone'] at he
      cases he

/-! ## Buffering and swapping out -/

theorem onDisk_beginFlush (dc : DiskCache) (k : String) : dc.beginFlush.onDisk k = dc.onDisk k := by
  have hempty : (∅ : KeyMap String DiskEntry).find? k = none := rfl
  simp only [onDisk, beginFlush, newest_append, newest, hempty, Option.none_or]
  rfl

theorem onDisk_buffer (now : Int) (dc : DiskCache) (key : String) (value : Bytes) (ttl : Int)
    (k : String) :
    (dc.buffer now key value ttl).onDisk k =
      if k = key then some ⟨value, unixNano (now + ttl)⟩ else dc.onDisk k := by
  simp only [onDisk, buffer, KeyMap.find?_insert]
  split <;> rfl

/-! ## Losing an expired record -/

/-- Every record of the database was written for an entry. -/
def Packed (dc : DiskCache) : Prop := Holds (fun _ _ => True) dc

theorem Packed.unpack (h : Packed dc) {record : Bytes} (hrec : dc.db.find? k = some record) :
    ∃ e, dc.pack e = some record ∧ (dc.db.find? k).bind dc.unpack = some e := by
  obtain ⟨e, hpack, -⟩ := h.recorded k record hrec
  exact ⟨e, hpack, by rw [hrec]; exact unpack_pack hpack⟩

/-- The database record of `k` is the same, or it has expired by `now` and is gone. -/
def RecordAges (now : Int) (k : String) (dc : DiskCache) (db : KeyMap String Bytes) : Prop :=
  db.find? k = dc.db.find? k ∨ (db.find? k = none ∧
    ∃ e, (dc.db.find? k).bind dc.unpack = some e ∧ e.expiresAt.toInt ≤ now)

theorem RecordAges.agesAt {dc' : DiskCache} (h : RecordAges now k dc dc'.db)
    (hunpack : dc'.unpack = dc.unpack) (habove : (dc'.writeBuf.find? k).or (newest dc'.inflight k) =
      (dc.writeBuf.find? k).or (newest dc.inflight k)) : AgesAt now k dc dc' := by
  unfold AgesAt onDisk
  rw [habove, hunpack]
  rcases h with hsame | ⟨hgone, e, he, hdead⟩
  · exact .inl (by rw [hsame])
  · cases (dc.writeBuf.find? k).or (newest dc.inflight k) with
    | some e' => exact .inl rfl
    | none => exact .inr ⟨by rw [hgone]; rfl, e, by rw [he]; rfl, hdead⟩

/-- A swept record was there before or had expired. -/
theorem Packed.recordAges (h : Packed dc) {db : KeyMap String Bytes} (hs : Swept now dc k dc.db db) :
    RecordAges now k dc db := by
  rcases hs with hsame | ⟨hgone, record, hrec, hdead⟩
  · exact .inl hsame
  · obtain ⟨e, hpack, hunpack⟩ := h.unpack hrec
    refine .inr ⟨hgone, e, hunpack, ?_⟩
    rw [outlives, headerExpiry_pack hpack] at hdead
    simpa using hdead

/-- A scheduled delete of an expired record changes nothing that can be read. -/
theorem ages_runDelete (h : Packed dc) {i : Nat}
    (hexp : ∀ key ∈ dc.deletes[i]?, ∀ e ∈ (dc.db.find? key).bind dc.unpack, e.expiresAt.toInt ≤ now) :
    Ages now dc (dc.runDelete i) := by
  intro k
  unfold runDelete
  split
  · exact .inl rfl
  · rename_i key hkey
    refine RecordAges.agesAt ?_ rfl rfl
    unfold RecordAges
    simp only [KeyMap.find?_erase]
    split
    · rename_i hk
      subst hk
      cases hrec : dc.db.find? k with
      | none => exact .inl rfl
      | some record =>
        obtain ⟨e, -, hunpack⟩ := h.unpack hrec
        exact .inr ⟨rfl, e, hrec ▸ hunpack, hexp k hkey e hunpack⟩
    · exact .inl rfl

/-! ## The transaction of a flush -/

/-- The flush of `buf` loses nothing: it refuses no entry, and no flush that started
earlier, and would come to write over it, has a key of `buf`. -/
structure FlushKeeps (dc : DiskCache) (buf : KeyMap String DiskEntry)
    (earlier : List (KeyMap String DiskEntry)) (tx : Tx) : Prop where
  fits : Fits dc buf tx
  inOrder : ∀ ke ∈ buf.toList, newest earlier ke.1 = none

theorem newest_eraseIdx {bufs : List (KeyMap String DiskEntry)} {i : Nat}
    {buf : KeyMap String DiskEntry} (hbuf : bufs[i]? = some buf)
    (hfirst : ∀ e, buf.find? k = some e → newest (bufs.take i) k = none) :
    newest bufs k = (newest (bufs.eraseIdx i) k).or (buf.find? k) := by
  obtain ⟨hi, rfl⟩ := List.getElem?_eq_some_iff.mp hbuf
  have hsplit : bufs = bufs.take i ++ (bufs[i] :: bufs.drop (i + 1)) := by simp
  have hall : newest bufs k =
      ((newest (bufs.drop (i + 1)) k).or (bufs[i].find? k)).or (newest (bufs.take i) k) := by
    conv_lhs => rw [hsplit]
    rw [newest_append, newest]
  rw [hall, List.eraseIdx_eq_take_drop_succ, newest_append, Option.or_assoc, Option.or_assoc]
  congr 1
  cases hk : bufs[i].find? k with
  | none => simp
  | some e => rw [hfirst e hk]; rfl

/-- The second half of a flush that loses nothing moves its buffer into the database. -/
theorem ages_endFlush (h : Packed dc) {i : Nat} {tx : Tx}
    (hkeeps : ∀ buf ∈ dc.inflight[i]?, FlushKeeps dc buf (dc.inflight.take i) tx) :
    Ages now dc (dc.endFlush now i tx) := by
  intro k
  unfold endFlush
  split
  · exact .inl rfl
  · rename_i buf hbuf
    have hflush := hkeeps buf hbuf
    have hnewest : newest dc.inflight k =
        (newest (dc.inflight.eraseIdx i) k).or (buf.find? k) :=
      newest_eraseIdx hbuf fun e he => hflush.inOrder (k, e) (KeyMap.mem_toList.mpr he)
    cases hk : buf.find? k with
    | none =>
      rw [hk, Option.or_none] at hnewest
      refine RecordAges.agesAt ?_ rfl (by rw [hnewest])
      exact h.recordAges (swept_transact_of_notMem now dc tx hk)
    | some e =>
      -- the entry is found one layer further down
      obtain ⟨record, hpack⟩ := hflush.fits.pack_eq_some hk
      have hrec : (dc.transact now buf tx).find? k = dc.pack e :=
        find?_transact_of_mem hflush.fits hk
      refine .inl ?_
      simp only [onDisk]
      rw [hrec, hpack, hnewest, hk, Option.bind_some]
      have hread : dc.unpack record = some e := unpack_pack hpack
      cases dc.writeBuf.find? k with
      | some e' => rfl
      | none =>
        cases newest (dc.inflight.eraseIdx i) k with
        | some e' => rfl
        | none => exact hread

theorem flush_eq (now : Int) (dc : DiskCache) (tx : Tx) :
    dc.flush now tx = dc.beginFlush.endFlush now dc.inflight.length tx := by
  have hlast : (dc.inflight ++ [dc.writeBuf])[dc.inflight.length]? = some dc.writeBuf := by simp
  have hrest : (dc.inflight ++ [dc.writeBuf]).eraseIdx dc.inflight.length = dc.inflight := by
    rw [List.eraseIdx_append_of_length_le (Nat.le_refl _)]
    simp
  simp only [endFlush, beginFlush, hlast, hrest]
  rfl

/-- A flush that keeps its entries changes nothing that can be read. -/
theorem ages_flush (h : Packed dc) {tx : Tx} (hkeeps : FlushKeeps dc dc.writeBuf dc.inflight tx) :
    Ages now dc (dc.flush now tx) := by
  rw [flush_eq]
  refine Ages.trans (fun k => .inl (onDisk_beginFlush dc k)) ?_
  refine ages_endFlush h.beginFlush fun buf hbuf => ?_
  obtain rfl : dc.writeBuf = buf := by simpa [beginFlush] using hbuf
  refine ⟨⟨hkeeps.fits.accepted, hkeeps.fits.encodable, hkeeps.fits.room⟩, ?_⟩
  simpa [beginFlush] using hkeeps.inOrder

/-- A store changes the entry of its own key only. -/
theorem ages_set (h : Packed dc) {key : String} {value : Bytes} {ttl : Int} {tx : Tx}
    (haccept : ¬ dc.Refuses ttl)
    (hkeeps : ((dc.buffer now key value ttl).writeBuf.size : Int) ≥ dc.flushSize →
      FlushKeeps (dc.buffer now key value ttl) (dc.buffer now key value ttl).writeBuf
        dc.inflight tx) : Ages now (dc.buffer now key value ttl) (dc.set now key value ttl tx) := by
  have hbuf : Packed (dc.buffer now key value ttl) :=
    { buffered := fun _ _ _ => trivial, swapped := fun _ _ _ _ _ => trivial
      recorded := h.recorded }
  rw [DiskCache.set, if_neg haccept]
  split
  · rename_i hfull
    exact ages_flush hbuf (hkeeps hfull)
  · exact fun k => .inl rfl

end LokiVlProxy.Cache.DiskCache
