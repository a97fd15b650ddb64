/-
  Cache/Superseded.lean --- a superseded value is not served again.

  The last store of a key decides what may be read: its value until its expiry, and
  nothing afterwards.
-/
import LokiVlProxy.Cache.Fetch

namespace LokiVlProxy.Cache

open Foundation List Option

def Write.expiry (w : Write) : Int := w.time + w.ttl

/-- The last store of a key. -/
def latest (writes : List Write) (k : String) : Option Write :=
  writes.reverse.find? fun w => w.key = k

theorem latest_append (writes : List Write) (w : Write) (k : String) :
    latest (writes ++ [w]) k = if w.key = k then some w else latest writes k := by
  rw [latest, reverse_append, reverse_singleton, singleton_append, find?_cons]
  by_cases hk : w.key = k <;> simp [hk, latest]

/-! ## Operations that keep the last store in view -/

namespace Node

variable (n : Node)

/-- A full buffer is flushed without loss. -/
def FlushesSafely (dc : DiskCache) (key : String) (value : Bytes) (ttl : Int) (tx : Tx) :
    Prop :=
  ((dc.buffer n.now key value ttl).writeBuf.size : Int) ≥ dc.flushSize →
    (dc.buffer n.now key value ttl).FlushKeeps (dc.buffer n.now key value ttl).writeBuf
      dc.inflight tx

/-- A store that no tier turns down: memory can hold the value, the disk tier takes the key
and the TTL, and the expiry is a 64-bit instant. -/
structure Supersedes (n : Node) (key : String) (value : Bytes) (ttl : Int) (tx : Tx) : Prop where
  inMemory : ¬ n.cache.Oversized value
  onDisk : skipL2WriteForKey key = false
  instant : n.now + ttl < 2 ^ 63
  accepted : ∀ dc ∈ n.cache.l2, ¬ dc.Refuses ttl
  flushed : ∀ dc ∈ n.cache.l2, n.FlushesSafely dc key value ttl tx

theorem Supersedes.of_room {n : Node} {dc : DiskCache} (hdc : n.cache.l2 = some dc) {key : String}
    {value : Bytes} {ttl : Int} {tx : Tx} (hsize : ¬ n.cache.Oversized value)
    (hdisk : skipL2WriteForKey key = false) (hinstant : n.now + ttl < 2 ^ 63)
    (haccept : ¬ dc.Refuses ttl)
    (hroom : ((dc.buffer n.now key value ttl).writeBuf.size : Int) < dc.flushSize) :
    n.Supersedes key value ttl tx where
  inMemory := hsize
  onDisk := hdisk
  instant := hinstant
  accepted := by
    intro dc' hdc'
    obtain rfl : dc = dc' := some.inj (hdc.symm.trans hdc')
    exact haccept
  flushed := by
    intro dc' hdc' hfull
    obtain rfl : dc = dc' := some.inj (hdc.symm.trans hdc')
    exact absurd hfull (Int.not_le.mpr hroom)

/-- No flush under way holds a newer entry of the key than the read finds. -/
def SeesNewest (key : String) : Prop :=
  ∀ dc ∈ n.cache.l2, dc.writeBuf.find? key = none → DiskCache.newest dc.inflight key = none

/-- A `Get` that promotes a live value from disk leaves its expiry: the default TTL is the
time left, or it is no longer than that and the disk does not take it. -/
def PromotesInPlace (key : String) (tx : Tx) : Prop :=
  ∀ dc ∈ n.cache.l2, ∀ e ∈ dc.found key, 0 < DiskCache.remaining n.now e →
    ¬ n.cache.Oversized e.value →
      (n.cache.defaultTTL = DiskCache.remaining n.now e ∧
        n.FlushesSafely dc key e.value n.cache.defaultTTL tx) ∨
      (n.cache.defaultTTL ≤ DiskCache.remaining n.now e ∧ dc.Refuses n.cache.defaultTTL)

/-- The operation does not bring an older store of a key back into view. -/
def KeepsLatest : Op → Prop
  | .setWithTTL key value ttl tx => n.Supersedes key value ttl tx
  | .setShadowWithTTL key value ttl tx => n.Supersedes key value ttl tx
  | .set key value tx => n.Supersedes key value n.cache.defaultTTL tx
  -- leaves what the disk has of the key
  | .setLocalOnlyWithTTL _ _ _ => False
  | .setLocalAndDiskWithTTL key value ttl tx => n.Supersedes key value ttl tx
  | .get key _ tx =>
      n.cache.toL1.peek n.now key = none → n.SeesNewest key ∧ n.PromotesInPlace key tx
  | .getSharedWithTTL key _ => n.cache.toL1.peekWithTTL n.now key = none → n.SeesNewest key
  | .flush tx => ∀ dc ∈ n.cache.l2, dc.FlushKeeps dc.writeBuf dc.inflight tx
  | .endFlush i tx =>
      ∀ dc ∈ n.cache.l2, ∀ buf ∈ dc.inflight[i]?, dc.FlushKeeps buf (dc.inflight.take i) tx
  -- the record was not replaced by a live one since the read that found it expired
  | .runDelete i =>
      ∀ dc ∈ n.cache.l2, ∀ key ∈ dc.deletes[i]?, ∀ e ∈ (dc.db.find? key).bind dc.unpack,
        e.expiresAt.toInt ≤ n.now
  | _ => True

end Node

/-! ## What the disk tier shows -/

/-- An entry of the disk tier against the last store of its key. -/
inductive Shows (now : Int) : Option Write → Option DiskEntry → Prop
  | never : Shows now none none
  | held {w : Write} {e : DiskEntry} (hvalue : e.value = w.value)
      (hexpiry : e.expiresAt.toInt = w.expiry) : Shows now (some w) (some e)
  | gone {w : Write} (hexpired : w.expiry ≤ now) : Shows now (some w) none

/-- What ages shows the same write, or nothing. -/
theorem Shows.ages {now : Int} {w : Option Write} {k : String} {dc dc' : DiskCache}
    (h : Shows now w (dc.onDisk k)) (hages : dc.AgesAt now k dc') : Shows now w (dc'.onDisk k) := by
  rcases hages with hsame | ⟨hgone, e, he, hdead⟩
  · rw [hsame]
    exact h
  · rw [he] at h
    rw [hgone]
    cases h with
    | held hvalue hexpiry => exact .gone (hexpiry ▸ hdead)

theorem Shows.later {now now' : Int} {w : Option Write} {e : Option DiskEntry}
    (h : Shows now w e) (hle : now ≤ now') : Shows now' w e := by
  cases h with
  | never => exact .never
  | held hvalue hexpiry => exact .held hvalue hexpiry
  | gone hexpired => exact .gone (Int.le_trans hexpired hle)

/-- The disk tier shows the last store of every key. -/
structure DiskShows (now : Int) (writes : List Write) (dc : DiskCache) : Prop where
  packed : dc.Packed
  entry : ∀ k, Shows now (latest writes k) (dc.onDisk k)

namespace DiskShows

variable {now : Int} {writes : List Write} {dc : DiskCache}

theorem new (now : Int) (gzip : Gzip) (compression : Bool) (flushSize minTTL maxBytes : Int) :
    DiskShows now [] (DiskCache.new gzip compression flushSize minTTL maxBytes) where
  packed := DiskCache.Holds.new _ gzip compression flushSize minTTL maxBytes
  entry := fun _ => .never

theorem ages {dc' : DiskCache} (h : DiskShows now writes dc) (hages : dc.Ages now dc')
    (hpacked : dc'.Packed) : DiskShows now writes dc' where
  packed := hpacked
  entry := fun k => (h.entry k).ages (hages k)

theorem later {now' : Int} (h : DiskShows now writes dc) (hle : now ≤ now') :
    DiskShows now' writes dc where
  packed := h.packed
  entry := fun k => (h.entry k).later hle

variable {n : Node} {key : String}

section

variable (h : DiskShows n.now writes dc)

include h

/-- A store that the cache accepts shows what it wrote. -/
theorem set {writes' : List Write} {value : Bytes} {ttl : Int} {tx : Tx}
    (haccept : ¬ dc.Refuses ttl) (hflush : n.FlushesSafely dc key value ttl tx)
    (hnew : Shows n.now (latest writes' key) (some ⟨value, unixNano (n.now + ttl)⟩))
    (hother : ∀ k, k ≠ key → latest writes' k = latest writes k) :
    DiskShows n.now writes' (dc.set n.now key value ttl tx) where
  packed := h.packed.set n.now tx fun _ => trivial
  entry := by
    intro k
    refine Shows.ages ?_ (DiskCache.ages_set h.packed haccept hflush k)
    rw [DiskCache.onDisk_buffer]
    split
    · rename_i hk
      rw [hk]
      exact hnew
    · rename_i hk
      rw [hother k hk]
      exact h.entry k

/-- A write supersedes what the disk had of its key. -/
theorem supersede (hclock : 0 ≤ n.now) (hdc : n.cache.l2 = some dc) {value : Bytes} {ttl : Int}
    {tx : Tx} (hs : n.Supersedes key value ttl tx) :
    DiskShows n.now (writes ++ [⟨key, value, n.now, ttl⟩]) (dc.set n.now key value ttl tx) := by
  have haccept := hs.accepted dc hdc
  have hpos : 0 < ttl := Int.not_le.mp fun hle => haccept (.inl hle)
  refine h.set haccept (hs.flushed dc hdc) ?_ ?_
  · rw [latest_append, if_pos rfl]
    exact .held rfl (toInt_unixNano (by omega) hs.instant)
  · intro k hk
    rw [latest_append, if_neg fun heq => hk heq.symm]

/-- What is found on disk is the latest write. -/
theorem found (hdc : n.cache.l2 = some dc) (hsees : n.SeesNewest key) {e : DiskEntry}
    (he : dc.found key = some e) :
    ∃ w, latest writes key = some w ∧ e.value = w.value ∧ e.expiresAt.toInt = w.expiry := by
  rw [DiskCache.found_eq_onDisk (hsees dc hdc)] at he
  have hshows := h.entry key
  rw [he] at hshows
  cases hw : latest writes key with
  | none =>
    rw [hw] at hshows
    cases hshows
  | some w =>
    rw [hw] at hshows
    cases hshows with
    | held hvalue hexpiry => exact ⟨w, rfl, hvalue, hexpiry⟩

theorem promote (hdc : n.cache.l2 = some dc) {tx : Tx} (hsees : n.SeesNewest key)
    (hplace : n.PromotesInPlace key tx) {e : DiskEntry} (he : dc.found key = some e)
    (hr : 0 < DiskCache.remaining n.now e) (hsize : ¬ n.cache.Oversized e.value) :
    DiskShows n.now writes (dc.set n.now key e.value n.cache.defaultTTL tx) := by
  rcases hplace dc hdc e he hr hsize with ⟨hsame, hflush⟩ | ⟨-, hrefuse⟩
  · by_cases hrefuse : dc.Refuses n.cache.defaultTTL
    · rw [DiskCache.set, if_pos hrefuse]
      exact h
    · refine h.set hrefuse hflush ?_ fun _ _ => rfl
      -- now + default TTL is the expiry found
      have hsum : n.now + n.cache.defaultTTL = e.expiresAt.toInt := by
        rw [hsame, DiskCache.remaining]
        omega
      have hbits : unixNano (n.now + n.cache.defaultTTL) = e.expiresAt := by
        rw [hsum, unixNano, BitVec.ofInt_toInt]
      obtain ⟨w, hw, hvalue, hexpiry⟩ := h.found hdc hsees he
      rw [hw, hbits]
      exact .held hvalue hexpiry
  · rw [DiskCache.set, if_pos hrefuse]
    exact h

end

end DiskShows

/-! ## Runs -/

/-- Every tier shows the last store of every key: memory its value, until its expiry at the
latest, and the disk tier exactly that store unless it has expired. -/
structure Current (l : Logged) (dc : DiskCache) : Prop where
  clock : 0 ≤ l.node.now
  peers : l.node.cache.l3 = none
  indexed : l.node.cache.toL1.Indexed
  tier : l.node.cache.l2 = some dc
  memory : ∀ k e, l.node.cache.entries.find? k = some e →
    ∃ w, latest l.writes k = some w ∧ e.value = w.value ∧ e.expiresAt ≤ w.expiry
  disk : DiskShows l.node.now l.writes dc

theorem Node.KeepsLatest.fitsMemory {n : Node} {op : Op} (hok : n.KeepsLatest op) {w : Write}
    (hw : n.written op = some w) : ¬ n.cache.Oversized w.value := by
  cases op with
  | setWithTTL | setShadowWithTTL | set | setLocalAndDiskWithTTL =>
    obtain rfl := some.inj hw
    exact hok.inMemory
  | setLocalOnlyWithTTL => exact hok.elim
  | _ => cases hw

namespace Current

variable {l : Logged} {dc : DiskCache} {op : Op}

theorem start (t0 : Nat) (ttl maxEntries maxBytes : Int) (gzip : Gzip) (compression : Bool)
    (flushSize minTTL diskBytes : Int) :
    Current (Logged.start t0 ttl maxEntries maxBytes
      (DiskCache.new gzip compression flushSize minTTL diskBytes))
      (DiskCache.new gzip compression flushSize minTTL diskBytes) where
  clock := Int.natCast_nonneg t0
  peers := rfl
  indexed := L1.Indexed.new ttl maxEntries maxBytes
  tier := rfl
  memory := fun k e hk => by
    simp [Logged.start, Node.start, TieredCache.newWithMaxBytes, L1.newWithMaxBytes] at hk
  disk := DiskShows.new _ gzip compression flushSize minTTL diskBytes

theorem indexed_step (h : Current l dc) : (l.step op).node.cache.toL1.Indexed := by
  rw [show (l.step op).node.cache.toL1 = _ from l.node.step_toL1 op]
  exact h.indexed.actOpt l.node.now (l.node.action op)

variable {k key : String} {e : Entry}

section

variable (h : Current l dc)

include h

theorem memory_store (hok : l.node.KeepsLatest op) {w : Write} (hw : l.node.written op = some w)
    (hk : (l.step op).node.cache.entries.find? k = some e) :
    ∃ w, latest (l.step op).writes k = some w ∧ e.value = w.value ∧ e.expiresAt ≤ w.expiry := by
  obtain ⟨haction, htime⟩ := Node.action_of_written h.peers hw
  have hwrites : (l.step op).writes = l.writes ++ [w] := by simp [Logged.step, hw]
  rw [show (l.step op).node.cache.toL1 = _ from l.node.step_toL1 op, haction] at hk
  rw [hwrites, latest_append]
  by_cases hkey : w.key = k
  · subst hkey
    rw [L1.actOpt, L1.find?_act_set l.node.now (hok.fitsMemory hw)] at hk
    obtain rfl := some.inj hk
    rw [if_pos rfl]
    exact ⟨w, rfl, rfl, by rw [Write.expiry, htime]⟩
  · rw [if_neg hkey]
    rcases h.indexed.find?_actOpt hk with hthere | ⟨value, ttl, hset, -, -⟩
    · exact h.memory k e hthere
    · exact absurd (L1.Action.set.inj (some.inj hset)).1 hkey

/-- Any other operation leaves in memory what was there, or the last store of a key, found on
disk and kept no longer than its expiry. -/
theorem memory_other (hok : l.node.KeepsLatest op) (hw : l.node.written op = none)
    (hk : (l.step op).node.cache.entries.find? k = some e) :
    ∃ w, latest l.writes k = some w ∧ e.value = w.value ∧ e.expiresAt ≤ w.expiry := by
  rw [show (l.step op).node.cache.toL1 = _ from l.node.step_toL1 op] at hk
  rcases h.indexed.find?_actOpt hk with hthere | ⟨value, ttl, ha, hsize, rfl⟩
  · exact h.memory k e hthere
  · obtain ⟨dc', d, hdc, hf, hr, rfl, hwhy⟩ := Node.found_of_read h.peers hw ha
    obtain rfl : dc = dc' := some.inj (h.tier.symm.trans hdc)
    -- both reads look at the newest entry and keep it no longer than it has left
    obtain ⟨hsees, hle⟩ : l.node.SeesNewest k ∧ ttl ≤ DiskCache.remaining l.node.now d := by
      rcases hwhy with ⟨peer, tx, rfl, hm, rfl⟩ | ⟨peer, rfl, hm, rfl⟩
      · obtain ⟨hsees, hplace⟩ := hok hm
        refine ⟨hsees, ?_⟩
        rcases hplace dc hdc d hf hr hsize with ⟨hsame, -⟩ | ⟨hle, -⟩
        · exact Int.le_of_eq hsame
        · exact hle
      · exact ⟨hok hm, Int.le_refl _⟩
    obtain ⟨w, hlatest, hvalue, hexpiry⟩ := h.disk.found hdc hsees hf
    refine ⟨w, hlatest, hvalue, ?_⟩
    rw [DiskCache.remaining] at hle
    simp only
    omega

/-- An entry in memory is the latest write of its key and does not outlive it. -/
theorem memory_step (hok : l.node.KeepsLatest op)
    (hk : (l.step op).node.cache.entries.find? k = some e) :
    ∃ w, latest (l.step op).writes k = some w ∧ e.value = w.value ∧ e.expiresAt ≤ w.expiry := by
  cases hw : l.node.written op with
  | some w => exact h.memory_store hok hw hk
  | none =>
    have hwrites : (l.step op).writes = l.writes := by simp [Logged.step, hw]
    rw [hwrites]
    exact h.memory_other hok hw hk

theorem l2_setWithTTLPropagate {value : Bytes} (ttl : Int) (propagateL3 : Bool) (tx : Tx)
    (hsize : ¬ l.node.cache.Oversized value) (hdisk : skipL2WriteForKey key = false) :
    (l.node.cache.setWithTTLPropagate l.node.now key value ttl propagateL3 tx).l2 =
      some (dc.set l.node.now key value ttl tx) := by
  have hshadow : l.node.cache.isShadow key = false := by simp [TieredCache.isShadow, h.peers]
  rw [TieredCache.setWithTTLPropagate, if_neg hsize, TieredCache.shadowTTL_of_no_peers h.peers]
  simp [TieredCache.storeAll, hdisk, hshadow, h.tier]

theorem disk_promoted {tx : Tx} (hsees : l.node.SeesNewest key)
    (hplace : l.node.PromotesInPlace key tx) {e : DiskEntry} (he : dc.found key = some e)
    (hr : 0 < DiskCache.remaining l.node.now e) :
    ∃ dc', (l.node.cache.set l.node.now key e.value tx).l2 = some dc' ∧
      DiskShows l.node.now l.writes dc' := by
  by_cases hsize : l.node.cache.Oversized e.value
  · refine ⟨dc, ?_, h.disk⟩
    rw [TieredCache.set, TieredCache.setWithTTL, TieredCache.setWithTTLPropagate, if_pos hsize]
    exact h.tier
  · cases hskip : skipL2WriteForKey key with
    | false =>
      exact ⟨_, h.l2_setWithTTLPropagate _ true tx hsize hskip,
        h.disk.promote h.tier hsees hplace he hr hsize⟩
    | true =>
      refine ⟨dc, ?_, h.disk⟩
      rw [TieredCache.set, TieredCache.setWithTTL, TieredCache.setWithTTLPropagate, if_neg hsize]
      simp [TieredCache.storeAll, hskip, h.tier]

theorem disk_deletes (deletes : List String) :
    DiskShows l.node.now l.writes { dc with deletes := deletes } :=
  h.disk.ages (fun _ => .inl rfl) ⟨h.disk.packed.buffered, h.disk.packed.swapped,
    h.disk.packed.recorded⟩

theorem disk_fetched {inMemory reply : Option Bytes} {promoted : DiskEntry → TieredCache}
    {c' : TieredCache} (hfetch : Fetched l.node.now l.node.cache key inMemory promoted reply c')
    (hpromoted : ∀ e, inMemory = none → dc.found key = some e →
      0 < DiskCache.remaining l.node.now e →
      ∃ dc', (promoted e).l2 = some dc' ∧ DiskShows l.node.now l.writes dc') :
    ∃ dc', c'.l2 = some dc' ∧ DiskShows l.node.now l.writes dc' := by
  cases hfetch with
  | memory _ | noDisk _ _ => exact ⟨dc, h.tier, h.disk⟩
  | disk hm hdc hf hr =>
    obtain rfl : dc = _ := some.inj (h.tier.symm.trans hdc)
    exact hpromoted _ hm hf hr
  | miss _ hdc _ deletes =>
    obtain rfl : dc = _ := some.inj (h.tier.symm.trans hdc)
    exact ⟨_, rfl, h.disk_deletes deletes⟩

/-- So is what the disk shows. -/
theorem disk_step (hok : l.node.KeepsLatest op) :
    ∃ dc', (l.step op).node.cache.l2 = some dc' ∧
      DiskShows (l.step op).node.now (l.step op).writes dc' := by
  -- an update of the disk tier alone
  have hupdate : ∀ {f : DiskCache → DiskCache}, dc.Ages l.node.now (f dc) → (f dc).Packed →
      ∃ dc', l.node.cache.l2.map f = some dc' ∧ DiskShows l.node.now (l.writes ++ []) dc' := by
    intro f hages hpacked
    rw [h.tier, append_nil]
    exact ⟨f dc, rfl, h.disk.ages hages hpacked⟩
  have hsame : ∃ dc', l.node.cache.l2 = some dc' ∧ DiskShows l.node.now (l.writes ++ []) dc' := by
    rw [append_nil]
    exact ⟨dc, h.tier, h.disk⟩
  cases op with
  | setWithTTL key value ttl tx | setShadowWithTTL key value ttl tx | set key value tx =>
    exact ⟨_, h.l2_setWithTTLPropagate _ _ tx hok.inMemory hok.onDisk,
      h.disk.supersede h.clock h.tier hok⟩
  | setLocalOnlyWithTTL => exact hok.elim
  | setLocalAndDiskWithTTL key value ttl tx =>
    refine ⟨_, ?_, h.disk.supersede h.clock h.tier hok⟩
    simp [Logged.step, Node.step, TieredCache.setLocalAndDiskWithTTL, hok.inMemory, hok.onDisk,
      h.tier]
  | get key peer tx =>
    simp only [Logged.step, Node.written, toList_none, append_nil]
    refine h.disk_fetched (TieredCache.fetched_get l.node.now h.peers key peer tx) ?_
    intro e hm he hr
    obtain ⟨hsees, hplace⟩ := hok (map_eq_none_iff.mp hm)
    exact h.disk_promoted hsees hplace he hr
  | getSharedWithTTL key peer =>
    simp only [Logged.step, Node.written, toList_none, append_nil]
    refine h.disk_fetched (TieredCache.fetched_getSharedWithTTL l.node.now h.peers key peer) ?_
    exact fun e _ _ _ => ⟨dc, h.tier, h.disk⟩
  | getWithTTL key =>
    simp only [Logged.step, Node.step, TieredCache.getWithTTL]
    split <;> exact hsame
  | flush tx =>
    exact hupdate (DiskCache.ages_flush h.disk.packed (hok dc h.tier))
      (h.disk.packed.flush l.node.now tx)
  | beginFlush =>
    exact hupdate (fun k => .inl (DiskCache.onDisk_beginFlush dc k)) h.disk.packed.beginFlush
  | endFlush i tx =>
    exact hupdate (DiskCache.ages_endFlush h.disk.packed (hok dc h.tier))
      (h.disk.packed.endFlush l.node.now i tx)
  | runDelete i =>
    exact hupdate (DiskCache.ages_runDelete h.disk.packed (hok dc h.tier))
      (h.disk.packed.runDelete i)
  | advance d =>
    obtain ⟨dc', hdc, hshows⟩ := hsame
    exact ⟨dc', hdc, hshows.later (Int.le_add_of_nonneg_right (Int.natCast_nonneg d))⟩
  | _ => exact hsame

/-- Every operation that meets the condition keeps both tiers current. -/
theorem step (hok : l.node.KeepsLatest op) : ∃ dc', Current (l.step op) dc' := by
  obtain ⟨dc', hdc, hshows⟩ := h.disk_step hok
  refine ⟨dc', ?_, Node.step_l3 h.peers op, h.indexed_step, hdc,
    fun _ _ hk => h.memory_step hok hk, hshows⟩
  have := h.clock
  cases op <;> simp only [Logged.step, Node.step, Node.onMemory, Node.onDisk] <;> omega

/-- A `Get` returns the last store of its key, within its life, or misses because there is
none or it has expired. -/
theorem get {peer : Option (Bytes × Int)} {tx : Tx} (hok : l.node.KeepsLatest (.get key peer tx)) :
    (∃ w, latest l.writes key = some w ∧ l.node.now ≤ w.expiry ∧
        (l.node.cache.get l.node.now key peer tx).1 = some w.value) ∨
      ((l.node.cache.get l.node.now key peer tx).1 = none ∧
        ∀ w, latest l.writes key = some w → w.expiry ≤ l.node.now) := by
  have hfetch := TieredCache.fetched_get l.node.now h.peers key peer tx
  generalize (l.node.cache.get l.node.now key peer tx).2 = c' at hfetch
  generalize (l.node.cache.get l.node.now key peer tx).1 = reply at hfetch ⊢
  cases hfetch with
  | memory hm =>
    obtain ⟨e, he, rfl⟩ := map_eq_some_iff.mp hm
    obtain ⟨hfind, hlive⟩ := L1.find?_of_peek he
    obtain ⟨w, hw, hvalue, hexpiry⟩ := h.memory key e hfind
    exact .inl ⟨w, hw, Int.le_trans hlive hexpiry, by rw [hvalue]⟩
  | disk hm hdc hf hr =>
    obtain rfl : dc = _ := some.inj (h.tier.symm.trans hdc)
    obtain ⟨hsees, -⟩ := hok (map_eq_none_iff.mp hm)
    obtain ⟨w, hw, hvalue, hexpiry⟩ := h.disk.found hdc hsees hf
    rw [DiskCache.remaining] at hr
    exact .inl ⟨w, hw, by omega, by rw [hvalue]⟩
  | noDisk _ hdc =>
    rw [h.tier] at hdc
    cases hdc
  | miss hm hdc hf deletes =>
    obtain rfl : dc = _ := some.inj (h.tier.symm.trans hdc)
    obtain ⟨hsees, -⟩ := hok (map_eq_none_iff.mp hm)
    refine .inr ⟨rfl, fun w hw => ?_⟩
    have hshows := h.disk.entry key
    rw [hw, ← DiskCache.found_eq_onDisk (hsees dc hdc)] at hshows
    cases hd : dc.found key with
    | none =>
      rw [hd] at hshows
      cases hshows with
      | gone hexpired => exact hexpired
    | some e =>
      rw [hd] at hshows
      have hdead := hf e hd
      rw [DiskCache.remaining] at hdead
      cases hshows with
      | held _ hexpiry => omega

end

end Current

namespace Logged

/-- Along a run of operations that keep the last store in view, a `Get` returns the value of
the last store of its key while that is live, misses afterwards, and never returns another
value; a key that was never stored is missed. -/
theorem get_returns_latest (t0 : Nat) (ttl maxEntries maxBytes : Int) (gzip : Gzip)
    (compression : Bool) (flushSize minTTL diskBytes : Int) (ops : List Op)
    (hok : StepsMeet step (fun l op => l.node.KeepsLatest op)
      (start t0 ttl maxEntries maxBytes
        (DiskCache.new gzip compression flushSize minTTL diskBytes)) ops)
    (pre rest : List Op) (key : String) (peer : Option (Bytes × Int)) (tx : Tx)
    (hpre : ops = pre ++ .get key peer tx :: rest) :
    let l := (start t0 ttl maxEntries maxBytes
      (DiskCache.new gzip compression flushSize minTTL diskBytes)).run pre
    (∀ w, latest l.writes key = some w →
        (l.node.now < w.expiry → l.node.served (.get key peer tx) = some (key, w.value)) ∧
        (w.expiry < l.node.now → l.node.served (.get key peer tx) = none) ∧
        ∀ v, l.node.served (.get key peer tx) = some (key, v) → v = w.value) ∧
      (latest l.writes key = none → l.node.served (.get key peer tx) = none) := by
  intro l
  rw [hpre, stepsMeet_append] at hok
  obtain ⟨dc, h⟩ : ∃ dc, Current l dc := by
    have hstep : ∀ (l : Logged) (op : Op), (∃ dc, Current l dc) → l.node.KeepsLatest op →
        ∃ dc, Current (l.step op) dc := by
      rintro l op ⟨dc, hdc⟩ ho
      exact hdc.step ho
    exact run_invariant_of_stepsMeet hstep ⟨_, Current.start t0 ttl maxEntries maxBytes gzip
      compression flushSize minTTL diskBytes⟩ hok.1
  simp only [Node.served]
  rcases h.get hok.2.1 with ⟨w, hw, hlive, hget⟩ | ⟨hget, hdead⟩
  · rw [hget]
    refine ⟨fun w' hw' => ?_, fun hnone => by rw [hw] at hnone; cases hnone⟩
    obtain rfl : w = w' := Option.some.inj (hw.symm.trans hw')
    refine ⟨fun _ => rfl, fun hlt => absurd hlive (Int.not_le.mpr hlt), fun v hv => ?_⟩
    simpa using hv.symm
  · rw [hget]
    refine ⟨fun w hw => ⟨fun hlt => absurd (hdead w hw) (Int.not_le.mpr hlt), fun _ => rfl,
      fun v hv => by cases hv⟩, fun _ => rfl⟩

/-- Two stores of a key, each flushed: the second is read from disk once memory has lost
it. -/
theorem get_returns_second_store :
    let l := (start 0 5 1 100 (DiskCache.new .stored false 100 0 20)).run
      [.setWithTTL "k" [1] 100 .quiet, .flush .quiet, .setWithTTL "k" [2] 10 .quiet,
        .flush .quiet, .setWithTTL "other" [3] 10 .quiet, .advance 5]
    latest l.writes "k" = some ⟨"k", [2], 0, 10⟩ ∧
      l.node.served (.get "k" none .quiet) = some ("k", [2]) := by
  intro l
  have hlatest : latest l.writes "k" = some ⟨"k", [2], 0, 10⟩ := by decide
  refine ⟨hlatest, ?_⟩
  refine ((get_returns_latest 0 5 1 100 .stored false 100 0 20 _ ?_
    [.setWithTTL "k" [1] 100 .quiet, .flush .quiet, .setWithTTL "k" [2] 10 .quiet,
      .flush .quiet, .setWithTTL "other" [3] 10 .quiet, .advance 5] [] "k" none .quiet rfl).1 _
        hlatest).1 (by decide)
  -- no store fills the buffer, and both flushes stay below the cap
  have hflush : ∀ {n : Node} {dc : DiskCache}, n.cache.l2 = some dc →
      dc.FlushKeeps dc.writeBuf dc.inflight .quiet → n.KeepsLatest (.flush .quiet) := by
    intro n dc hdc hkeeps dc' hdc'
    obtain rfl : dc = dc' := Option.some.inj (hdc.symm.trans hdc')
    exact hkeeps
  refine ⟨.of_room rfl (by decide) (by decide) (by decide) (by decide) (by decide),
    hflush rfl ⟨⟨by decide, by decide, by decide⟩, by decide⟩,
    .of_room rfl (by decide) (by decide) (by decide) (by decide) (by decide),
    hflush rfl ⟨⟨by decide, by decide, by decide⟩, by decide⟩,
    .of_room rfl (by decide) (by decide) (by decide) (by decide) (by decide), trivial, ?_, trivial⟩
  -- the read finds exactly the default TTL left
  intro _
  refine ⟨fun dc hdc _ => by obtain rfl := Option.some.inj hdc; rfl, ?_⟩
  intro dc hdc e he _ _
  obtain rfl := Option.some.inj hdc
  obtain rfl := Option.some.inj he
  exact .inl ⟨by decide, fun hfull => absurd hfull (by decide)⟩

/-- A record over the byte cap is refused by the flush, and the record it should replace is
served once the new value has expired in memory. -/
theorem refused_flush_revives_old_value :
    let l := (start 0 5 10 300 (DiskCache.new .stored false 100 0 20)).run
      [.setWithTTL "k" [1] 100 .quiet, .flush .quiet,
        .setWithTTL "k" (List.replicate 30 2) 5 .quiet, .flush .quiet,
        .advance 6]
    latest l.writes "k" = some ⟨"k", List.replicate 30 2, 0, 5⟩ ∧
      l.node.served (.get "k" none .quiet) = some ("k", [1]) := by
  decide

end Logged

end LokiVlProxy.Cache
