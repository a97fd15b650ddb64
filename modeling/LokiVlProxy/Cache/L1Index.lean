/-
  Cache/L1Index.lean --- map, index and recency list of the memory tier agree.

  Every removal of the tier, whichever function writes it out, drops one present
  entry from all three structures (`Drops`), so what a removal keeps is proved once
  for one drop.
-/
import LokiVlProxy.Cache.L1

namespace LokiVlProxy.Cache.L1

open Foundation List KeyMap LinkedList

/-! ## What the small updates leave alone -/

variable (c : L1) (k : String) (e : Entry)

@[simp] theorem unlink_entries : (c.unlink k).entries = c.entries := by
  unfold unlink; split <;> rfl

@[simp] theorem unlink_curBytes : (c.unlink k).curBytes = c.curBytes := by
  unfold unlink; split <;> rfl

@[simp] theorem promote_entries : (c.promote k).entries = c.entries := by
  unfold promote; split <;> rfl

@[simp] theorem promote_curBytes : (c.promote k).curBytes = c.curBytes := by
  unfold promote; split <;> rfl

@[simp] theorem link_entries : (c.link k).entries = c.entries := by
  unfold link; split <;> rfl

@[simp] theorem link_curBytes : (c.link k).curBytes = c.curBytes := by
  unfold link; split <;> rfl

@[simp] theorem dropEntry_entries : (c.dropEntry k e).entries = c.entries.erase k := by
  simp [dropEntry]

@[simp] theorem dropEntry_curBytes : (c.dropEntry k e).curBytes = c.curBytes - e.sizeBytes := by
  simp [dropEntry]

@[simp] theorem insertEntry_entries : (c.insertEntry k e).entries = c.entries.insert k e := by
  simp [insertEntry]

@[simp] theorem insertEntry_curBytes : (c.insertEntry k e).curBytes = c.curBytes + e.sizeBytes := by
  simp [insertEntry]

@[simp] theorem retire_entries : (c.retire k).entries = c.entries := by
  unfold retire; split <;> simp

/-- The limits, which no operation writes. -/
def SameLimits (c c' : L1) : Prop :=
  c'.defaultTTL = c.defaultTTL ∧ c'.maxEntries = c.maxEntries ∧ c'.maxBytes = c.maxBytes

theorem SameLimits.trans {c c' c'' : L1} (h : SameLimits c c') (h' : SameLimits c' c'') :
    SameLimits c c'' :=
  ⟨h'.1.trans h.1, h'.2.1.trans h.2.1, h'.2.2.trans h.2.2⟩

theorem sameLimits_dropEntry : SameLimits c (c.dropEntry k e) := by
  unfold dropEntry unlink; split <;> exact ⟨rfl, rfl, rfl⟩

theorem sameLimits_promote : SameLimits c (c.promote k) := by
  unfold promote; split <;> exact ⟨rfl, rfl, rfl⟩

theorem sameLimits_retire : SameLimits c (c.retire k) := by
  unfold retire
  split
  · exact sameLimits_promote _ k
  · exact ⟨rfl, rfl, rfl⟩

theorem sameLimits_insertEntry : SameLimits c (c.insertEntry k e) := by
  unfold insertEntry link; split <;> exact ⟨rfl, rfl, rfl⟩

/-! ## The invariant -/

/-- List and index describe the same elements, and their keys are the keys of the map. -/
structure Indexed (c : L1) : Prop where
  linked : Linked c.nextElem c.lruList c.lruIndex
  keys : ∀ k, (c.lruIndex.find? k).isSome = (c.entries.find? k).isSome

namespace Indexed

variable {c : L1}

theorem new (ttl maxEntries maxBytes : Int) : Indexed (newWithMaxBytes ttl maxEntries maxBytes) where
  linked := Linked.empty
  keys := fun k => by simp [newWithMaxBytes]

variable {k : String}

section

variable (h : Indexed c)

include h

theorem mem_list_iff : k ∈ c.lruList.map Element.value ↔ (c.entries.find? k).isSome := by
  rw [h.linked.mem_keys_iff, h.keys]

theorem lookup_eq_none_iff : c.entries.find? k = none ↔ k ∉ c.lruList.map Element.value := by
  rw [h.mem_list_iff]
  cases c.entries.find? k <;> simp

theorem element {e : Entry} (hk : c.entries.find? k = some e) :
    ∃ i, c.lruIndex.find? k = some i := by
  have := h.keys k
  rw [hk] at this
  exact Option.isSome_iff_exists.mp (by simpa using this)

theorem dropEntry {e : Entry} (hk : c.entries.find? k = some e) : Indexed (c.dropEntry k e) := by
  obtain ⟨i, hi⟩ := h.element hk
  simp only [L1.dropEntry, unlink, hi]
  exact {
    linked := h.linked.remove hi
    keys := fun k' => by
      simp only [find?_erase]
      split
      · rfl
      · exact h.keys k' }

theorem bookkeeping (bytes : Int) (buf : List String) :
    Indexed { c with curBytes := bytes, promoteBuf := buf } :=
  { linked := h.linked, keys := h.keys }

theorem promote (k : String) : Indexed (c.promote k) := by
  unfold L1.promote
  split
  · rename_i i hi
    exact { linked := h.linked.moveToFront hi, keys := h.keys }
  · exact h

theorem retire (k : String) : Indexed (c.retire k) := by
  unfold L1.retire
  split
  · exact (h.bookkeeping _ c.promoteBuf).promote k
  · exact h

theorem insertEntry (k : String) (e : Entry) : Indexed (c.insertEntry k e) := by
  unfold L1.insertEntry link
  cases hi : c.lruIndex.find? k with
  | some i =>
    refine { linked := h.linked, keys := fun k' => ?_ }
    simp only [find?_insert]
    split
    · rename_i hk
      simp [hk, hi]
    · exact h.keys k'
  | none =>
    refine { linked := h.linked.pushFront hi, keys := fun k' => ?_ }
    simp only [find?_insert]
    split
    · rfl
    · exact h.keys k'

end

end Indexed

/-! ## Runs of drops -/

/-- `c'` is `c` after dropping some of its entries, one after the other. -/
inductive Drops (c : L1) : L1 → Prop
  | refl : Drops c c
  | drop {c' : L1} {k : String} {e : Entry} (h : Drops c c')
      (hk : c'.entries.find? k = some e) : Drops c (c'.dropEntry k e)

theorem dropEntry_sublist (c : L1) (k : String) (e : Entry) :
    (c.dropEntry k e).lruList.Sublist c.lruList := by
  unfold dropEntry unlink
  split
  · exact remove_sublist _ _
  · exact List.Sublist.refl _

namespace Drops

variable {c c' c'' : L1}

theorem trans (h : Drops c c') (h' : Drops c' c'') : Drops c c'' := by
  induction h' with
  | refl => exact h
  | drop _ hk ih => exact ih.drop hk

theorem indexed (h : Drops c c') (hi : Indexed c) : Indexed c' := by
  induction h with
  | refl => exact hi
  | drop _ hk ih => exact ih.dropEntry hk

theorem sublist (h : Drops c c') : c'.lruList.Sublist c.lruList := by
  induction h with
  | refl => exact List.Sublist.refl _
  | drop _ _ ih => exact (dropEntry_sublist _ _ _).trans ih

theorem limits (h : Drops c c') : SameLimits c c' := by
  induction h with
  | refl => exact ⟨rfl, rfl, rfl⟩
  | drop _ _ ih => exact ih.trans (sameLimits_dropEntry _ _ _)

theorem lookup (h : Drops c c') {k : String} {e : Entry} (hk : c'.entries.find? k = some e) :
    c.entries.find? k = some e := by
  induction h with
  | refl => exact hk
  | drop _ _ ih =>
    rw [dropEntry_entries, find?_erase] at hk
    split at hk
    · simp at hk
    · exact ih hk

theorem size_le (h : Drops c c') : c'.entries.size ≤ c.entries.size := by
  induction h with
  | refl => exact Nat.le_refl _
  | drop _ _ ih =>
    rw [dropEntry_entries]
    exact (size_erase_le _ _).trans ih

end Drops

/-! ## The range loop -/

theorem drops_foldl (doomed : String → Entry → Bool) (l : List (String × Entry)) (c : L1)
    (hl : (l.map Prod.fst).Nodup) (hc : ∀ kv ∈ l, c.entries.find? kv.1 = some kv.2) :
    Drops c (l.foldl (fun c kv => if doomed kv.1 kv.2 then c.dropEntry kv.1 kv.2 else c) c) := by
  induction l generalizing c with
  | nil => exact .refl
  | cons kv l ih =>
    have hhead : c.entries.find? kv.1 = some kv.2 := hc kv (by simp)
    obtain ⟨hfresh, hl'⟩ := nodup_cons.mp hl
    rw [foldl_cons]
    by_cases hd : doomed kv.1 kv.2
    · rw [if_pos hd]
      refine (Drops.refl.drop hhead).trans (ih _ hl' fun kv' hkv' => ?_)
      have hne : kv'.1 ≠ kv.1 := fun h => hfresh (h ▸ mem_map_of_mem hkv')
      rw [dropEntry_entries, find?_erase, if_neg hne]
      exact hc kv' (mem_cons_of_mem _ hkv')
    · rw [if_neg hd]
      exact ih c hl' fun kv' hkv' => hc kv' (mem_cons_of_mem _ hkv')

/-- A sweep only drops entries. -/
theorem drops_sweep (c : L1) (doomed : String → Entry → Bool) : Drops c (c.sweep doomed) :=
  drops_foldl doomed _ c c.entries.nodup_keys fun _ hkv => mem_toList.mp hkv

theorem find?_foldl (doomed : String → Entry → Bool) (l : List (String × Entry)) (c : L1)
    (k : String) :
    (l.foldl (fun c kv => if doomed kv.1 kv.2 then c.dropEntry kv.1 kv.2 else c) c).entries.find? k
      = if l.any fun kv => kv.1 = k && doomed kv.1 kv.2 then none else c.entries.find? k := by
  induction l generalizing c with
  | nil => rfl
  | cons kv l ih =>
    rw [foldl_cons, ih, any_cons]
    cases hd : doomed kv.1 kv.2 with
    | false => simp only [Bool.and_false, Bool.false_or, Bool.false_eq_true, if_false]
    | true =>
      rw [if_pos rfl, dropEntry_entries, find?_erase]
      by_cases hk : kv.1 = k
      · simp [hk]
      · simp only [Ne.symm hk, hk, if_false, decide_false, Bool.false_and, Bool.false_or]

theorem find?_sweep (c : L1) (doomed : String → Entry → Bool) (k : String) :
    (c.sweep doomed).entries.find? k = (c.entries.find? k).filter fun e => !doomed k e := by
  have hany : (c.entries.toList.any fun kv => kv.1 = k && doomed kv.1 kv.2) =
      (c.entries.find? k).any (doomed k) := by
    rw [Bool.eq_iff_iff, any_eq_true, Option.any_eq_true]
    constructor
    · rintro ⟨⟨k', e⟩, hmem, hboth⟩
      obtain ⟨rfl, hd⟩ : k' = k ∧ doomed k' e := by simpa using hboth
      exact ⟨e, mem_toList.mp hmem, hd⟩
    · rintro ⟨e, hk, hd⟩
      exact ⟨(k, e), mem_toList.mpr hk, by simpa using hd⟩
  rw [sweep, find?_foldl, hany]
  cases c.entries.find? k with
  | none => rfl
  | some e => cases hd : doomed k e <;> simp [Option.filter_some, hd]

/-! ## Eviction -/

/-- The keys of the recency list, most recently used first. -/
def recency (c : L1) : List String := c.lruList.map Element.value

theorem Drops.recency {c c' : L1} (h : Drops c c') : c'.recency.Sublist c.recency :=
  h.sublist.map _

variable {back : Element String}

theorem evictBack_eq_dropEntry {c : L1} (h : Indexed c) (hb : back ∈ c.lruList) :
    ∃ e, c.entries.find? back.value = some e ∧ c.evictBack back = c.dropEntry back.value e := by
  have hi := h.linked.lookup_of_mem hb
  obtain ⟨e, he⟩ : ∃ e, c.entries.find? back.value = some e := by
    rw [← Option.isSome_iff_exists, ← h.keys, hi]
    rfl
  exact ⟨e, he, by simp [evictBack, L1.dropEntry, unlink, he, hi]⟩

/-- The entry at the back goes. -/
theorem evictBack_lruList {c : L1} (h : Indexed c) (hb : c.lruList.getLast? = some back) :
    (c.evictBack back).lruList = c.lruList.dropLast := by
  rw [← remove_getLast h.linked.ids hb]
  unfold evictBack
  split <;> rfl

/-- The second pass drops entries from the back of the list until there is room or
nothing is left. -/
theorem evictLoop_spec (size : Int) (rounds : Nat) {c : L1} (h : Indexed c)
    (hrounds : c.lruList.length ≤ rounds) :
    Drops c (evictLoop size rounds c) ∧ (evictLoop size rounds c).lruList <+: c.lruList ∧
      (¬ (evictLoop size rounds c).NeedsEviction size ∨ (evictLoop size rounds c).lruList = []) := by
  induction rounds generalizing c with
  | zero =>
    exact ⟨.refl, prefix_refl _, .inr (length_eq_zero_iff.mp (Nat.le_zero.mp hrounds))⟩
  | succ rounds ih =>
    unfold evictLoop
    by_cases hneed : c.NeedsEviction size
    · rw [if_pos hneed]
      cases hb : c.lruList.getLast? with
      | none => exact ⟨.refl, prefix_refl _, .inr (getLast?_eq_none_iff.mp hb)⟩
      | some back =>
        obtain ⟨e, he, heq⟩ := evictBack_eq_dropEntry h (mem_of_getLast? hb)
        have hlist := evictBack_lruList h hb
        have hdrop : Drops c (c.evictBack back) := heq ▸ Drops.refl.drop he
        have hlen : (c.evictBack back).lruList.length ≤ rounds := by
          rw [hlist, length_dropLast]
          omega
        obtain ⟨hd, hp, hroom⟩ := ih (hdrop.indexed h) hlen
        refine ⟨hdrop.trans hd, hp.trans ?_, hroom⟩
        rw [hlist]
        exact dropLast_prefix _
    · rw [if_neg hneed]
      exact ⟨.refl, prefix_refl _, .inl hneed⟩

/-- What `evictIfNeeded` guarantees. -/
structure Evicted (now size : Int) (c r : L1) : Prop where
  drops : Drops c r
  /-- there is room, or the cache is empty -/
  room : ¬ r.NeedsEviction size ∨ r.lruList = []
  /-- a live entry goes only after everything behind it: each key that stays is in
  front of it -/
  order : ∀ k e, c.entries.find? k = some e → expired now e = false → r.entries.find? k = none →
    ∀ j ∈ r.recency, [j, k].Sublist c.recency

variable (now : Int)

theorem find?_removeExpired (c : L1) (k : String) :
    (c.removeExpired now).entries.find? k = (c.entries.find? k).filter fun e => !expired now e :=
  find?_sweep c _ k

theorem evictIfNeeded_of_room {size : Int} {c : L1} (h : ¬ c.NeedsEviction size) :
    c.evictIfNeeded now size = c := by
  rw [evictIfNeeded, if_neg h]
  cases hlen : c.lruList.length with
  | zero => rfl
  | succ n => simp [evictLoop, h]

/-- An entry that is evicted was used before every one that stays. -/
theorem Drops.in_front {c r : L1} (hd : Drops c r) (h : Indexed c) (hp : r.lruList <+: c.lruList)
    {j k : String} {e : Entry} (hk : c.entries.find? k = some e) (hgone : r.entries.find? k = none)
    (hj : j ∈ r.recency) : [j, k].Sublist c.recency := by
  obtain ⟨rest, hrest⟩ := hp
  have hkin : k ∈ c.recency := h.mem_list_iff.mpr (by rw [hk]; rfl)
  rw [L1.recency, ← hrest, map_append] at hkin ⊢
  have hkrest : k ∈ rest.map Element.value :=
    (mem_append.mp hkin).resolve_left ((hd.indexed h).lookup_eq_none_iff.mp hgone)
  exact (singleton_sublist.mpr hj).append (singleton_sublist.mpr hkrest)

/-- What an eviction does, as one fact for all that follows. -/
theorem evicted (now size : Int) {c : L1} (h : Indexed c) :
    Evicted now size c (c.evictIfNeeded now size) := by
  by_cases hneed : c.NeedsEviction size
  · rw [evictIfNeeded, if_pos hneed]
    have hswept : Drops c (c.removeExpired now) := drops_sweep c _
    have hmid := hswept.indexed h
    obtain ⟨hd, hp, hroom⟩ := evictLoop_spec size _ hmid (Nat.le_refl _)
    refine ⟨hswept.trans hd, hroom, fun k e hk hlive hgone j hj => ?_⟩
    -- a live key outlasts the first pass, so it was the second one that took it
    have hkmid : (c.removeExpired now).entries.find? k = some e := by
      rw [find?_removeExpired, hk, Option.filter_some, hlive]
      rfl
    exact (hd.in_front hmid hp hkmid hgone hj).trans hswept.recency
  · rw [evictIfNeeded_of_room now hneed]
    refine ⟨.refl, .inl hneed, fun k e hk _ hgone => ?_⟩
    rw [hk] at hgone
    cases hgone

/-! ## Storing and promoting -/

/-- The key is now the most recently used one; of the others, some may be gone and
the rest keep their order. -/
def Fronts (key : String) (c c' : L1) : Prop :=
  ∃ ks, c'.recency = key :: ks ∧ key ∉ ks ∧ ks.Sublist c.recency

theorem recency_promote {c : L1} (h : Indexed c) {key : String} {i : Nat}
    (hi : c.lruIndex.find? key = some i) : Fronts key c (c.promote key) := by
  have hmem : (⟨i, key⟩ : Element String) ∈ c.lruList := (h.linked.index key i).mp hi
  have hlist : (c.promote key).lruList = ⟨i, key⟩ :: remove c.lruList i := by
    simp only [promote, hi]
    exact moveToFront_of_mem h.linked.ids hmem
  have hnodup := (h.promote key).linked.nodup_keys
  rw [hlist, map_cons, nodup_cons] at hnodup
  exact ⟨_, by rw [recency, hlist, map_cons], hnodup.1,
    (remove_sublist _ _).map _⟩

theorem recency_retire {c : L1} (h : Indexed c) {key : String} {old : Entry}
    (hk : c.entries.find? key = some old) : Fronts key c (c.retire key) := by
  obtain ⟨i, hi⟩ := h.element hk
  simp only [retire, hk]
  exact recency_promote (h.bookkeeping _ c.promoteBuf) hi

theorem evicted_retire (now size : Int) {c : L1} (h : Indexed c) (key : String) :
    Evicted now size (c.retire key) ((c.retire key).evictIfNeeded now size) :=
  evicted now size (h.retire key)

/-- A store keeps the list and the map in step. -/
theorem indexed_storeLocalLocked {c : L1} (h : Indexed c) (key : String) (value : Bytes)
    (ttl size : Int) : Indexed (c.storeLocalLocked now key value ttl size) :=
  ((evicted_retire now size h key).drops.indexed (h.retire key)).insertEntry _ _

/-- Storing makes the key the most recently used one, whether it was absent, kept
by the eviction or evicted with the others. -/
theorem recency_storeLocalLocked {c : L1} (h : Indexed c) (key : String) (value : Bytes)
    (ttl size : Int) : Fronts key c (c.storeLocalLocked now key value ttl size) := by
  have hev := evicted_retire now size h key
  have hr := hev.drops.indexed (h.retire key)
  have hsub := hev.drops.recency
  simp only [storeLocalLocked]
  generalize (c.retire key).evictIfNeeded now size = r at hr hsub
  have hin : key ∈ r.recency ↔ (r.lruIndex.find? key).isSome := hr.linked.mem_keys_iff
  cases hi : r.lruIndex.find? key with
  | some i =>
    -- the key was present and survived: it is still in front
    have hkr : key ∈ r.recency := by rw [hin, hi]; rfl
    have hkc : (c.entries.find? key).isSome := by
      rw [← retire_entries c key]
      exact (h.retire key).mem_list_iff.mp (hsub.subset hkr)
    obtain ⟨old, hold⟩ := Option.isSome_iff_exists.mp hkc
    obtain ⟨ks, hks, hfresh, hkssub⟩ := recency_retire h hold
    rw [hks, sublist_cons_iff] at hsub
    rcases hsub with hsub | ⟨ks', hks', hsub'⟩
    · exact absurd (hsub.subset hkr) hfresh
    · refine ⟨ks', ?_, fun hmem => hfresh (hsub'.subset hmem), hsub'.trans hkssub⟩
      simpa [insertEntry, link, hi, recency] using hks'
  | none =>
    have hkr : key ∉ r.recency := by rw [hin, hi]; simp
    refine ⟨r.recency, by simp [insertEntry, link, hi, recency], hkr, ?_⟩
    cases hold : c.entries.find? key with
    | none => simpa [retire, hold] using hsub
    | some old =>
      obtain ⟨ks, hks, _, hkssub⟩ := recency_retire h hold
      rw [hks, sublist_cons_iff] at hsub
      rcases hsub with hsub | ⟨ks', hks', _⟩
      · exact hsub.trans hkssub
      · exact absurd (by rw [hks']; simp) hkr

/-- A store leaves at most `maxEntries` entries, or one. -/
theorem size_storeLocalLocked {c : L1} (h : Indexed c) (key : String) (value : Bytes)
    (ttl size : Int) :
    ((c.storeLocalLocked now key value ttl size).entries.size : Int) ≤ max 1 c.maxEntries := by
  have hev := evicted_retire now size h key
  have hr := hev.drops.indexed (h.retire key)
  have hlim := ((sameLimits_retire c key).trans hev.drops.limits).2.1
  have hroom := hev.room
  simp only [storeLocalLocked, insertEntry_entries]
  generalize (c.retire key).evictIfNeeded now size = r at hr hlim hroom
  have hins := size_insert_le r.entries key ⟨value, now + ttl, size⟩
  rcases hroom with hroom | hempty
  · have : (r.entries.size : Int) < r.maxEntries := by
      simp only [NeedsEviction, not_or] at hroom
      omega
    omega
  · have : r.entries.size = 0 := size_eq_zero fun k =>
      hr.lookup_eq_none_iff.mpr (by simp [hempty])
    omega

/-! ## Every action -/

/-- The key that an action promotes or stores, if any. -/
def touchedBy (c : L1) : Action → Option String
  | .set key value _ => if c.Oversized value then none else some key
  | .runPromoter => c.promoteBuf.head?.filter fun key => (c.lruIndex.find? key).isSome
  | _ => none

/-- Everything an action can do to the three structures: it stores a key, it moves a
key to the front, or it only drops entries. -/
inductive Moved (now : Int) (c : L1) : Action → L1 → Prop
  | stored {key : String} {value : Bytes} {ttl : Int} (h : ¬ c.Oversized value) :
      Moved now c (.set key value ttl) (c.storeLocalLocked now key value ttl value.length)
  | promoted {key : String} {rest : List String} {i : Nat} (h : c.promoteBuf = key :: rest)
      (hi : c.lruIndex.find? key = some i) :
      Moved now c .runPromoter ({ c with promoteBuf := rest }.promote key)
  | dropped {a : Action} {c' : L1} (buf : List String) (ht : c.touchedBy a = none)
      (h : Drops c c') : Moved now c a { c' with promoteBuf := buf }

/-- Every action is one of the moves. -/
theorem moved_act (c : L1) (a : Action) : Moved now c a (c.act now a) := by
  cases a with
  | set key value ttl =>
    simp only [act, setLocalOnlyWithTTL]
    split
    · rename_i hsize
      exact .dropped c.promoteBuf (by simp [touchedBy, hsize]) .refl
    · rename_i hsize
      exact .stored hsize
  | requestPromotion key =>
    simp only [act, L1.requestPromotion]
    split
    · exact .dropped _ rfl .refl
    · exact .dropped c.promoteBuf rfl .refl
  | runPromoter =>
    simp only [act, L1.runPromoter]
    cases hbuf : c.promoteBuf with
    | nil => exact .dropped c.promoteBuf (by simp [touchedBy, hbuf]) .refl
    | cons key rest =>
      cases hi : c.lruIndex.find? key with
      | some i => exact .promoted hbuf hi
      | none =>
        simp only [promote, hi]
        exact .dropped rest (by simp [touchedBy, hbuf, Option.filter_some, hi]) .refl
  | invalidate key =>
    simp only [act, L1.invalidate]
    cases hk : c.entries.find? key with
    | none => exact .dropped c.promoteBuf rfl .refl
    | some e => exact .dropped (c.dropEntry key e).promoteBuf rfl (Drops.refl.drop hk)
  | invalidatePrefix p =>
    have hd : Drops c (c.invalidatePrefix p) := drops_sweep c fun k _ => hasPrefix p k
    exact .dropped (c.invalidatePrefix p).promoteBuf rfl hd
  | cleanup =>
    have hd : Drops c (c.cleanup now) := drops_sweep c fun _ e => expired now e
    exact .dropped (c.cleanup now).promoteBuf rfl hd

namespace Moved

variable {now : Int} {c c' : L1} {a : Action}

section

variable (h : Moved now c a c') (hc : Indexed c)

include h hc

theorem indexed : Indexed c' := by
  cases h with
  | stored _ => exact indexed_storeLocalLocked now hc _ _ _ _
  | promoted _ _ => exact (hc.bookkeeping c.curBytes _).promote _
  | dropped buf _ hd => exact (hd.indexed hc).bookkeeping _ buf

theorem limits : SameLimits c c' := by
  cases h with
  | stored _ =>
    exact ((sameLimits_retire c _).trans (evicted_retire now _ hc _).drops.limits).trans
      (sameLimits_insertEntry _ _ _)
  | promoted _ _ => exact sameLimits_promote { c with promoteBuf := _ } _
  | dropped _ _ hd => exact hd.limits

theorem size_le (hsize : (c.entries.size : Int) ≤ max 1 c.maxEntries) :
    (c'.entries.size : Int) ≤ max 1 c.maxEntries := by
  cases h with
  | stored _ => exact size_storeLocalLocked now hc _ _ _ _
  | promoted _ _ => simpa using hsize
  | dropped _ _ hd => exact (Int.ofNat_le.mpr hd.size_le).trans hsize

/-- A move puts the key it touches to the front and keeps the order of the others. -/
theorem recency :
    (∀ key, c.touchedBy a = some key → Fronts key c c') ∧
      (c.touchedBy a = none → c'.recency.Sublist c.recency) := by
  cases h with
  | stored hsize =>
    refine ⟨fun key hk => ?_, fun hnone => by simp [touchedBy, hsize] at hnone⟩
    obtain rfl : _ = key := by simpa [touchedBy, hsize] using hk
    exact recency_storeLocalLocked now hc _ _ _ _
  | promoted hbuf hi =>
    refine ⟨fun key hk => ?_, fun hnone => by
      simp [touchedBy, hbuf, hi, Option.filter_some] at hnone⟩
    obtain rfl : _ = key := by simpa [touchedBy, hbuf, hi, Option.filter_some] using hk
    exact recency_promote (hc.bookkeeping c.curBytes _) hi
  | dropped _ ht hd =>
    refine ⟨fun key hk => ?_, fun _ => hd.recency⟩
    rw [ht] at hk
    cases hk

/-- An entry behind a move was there or is the one stored. -/
theorem find? {k : String} {e : Entry} (hk : c'.entries.find? k = some e) :
    c.entries.find? k = some e ∨
      ∃ value ttl, a = .set k value ttl ∧ ¬ c.Oversized value ∧
        e = ⟨value, now + ttl, value.length⟩ := by
  cases h with
  | @stored key value ttl hsize =>
    rw [storeLocalLocked, insertEntry_entries, find?_insert] at hk
    split at hk
    · rename_i hkey
      subst hkey
      exact .inr ⟨value, ttl, rfl, hsize, (Option.some.inj hk).symm⟩
    · have hthere := (evicted_retire now value.length hc key).drops.lookup hk
      rw [retire_entries] at hthere
      exact .inl hthere
  | promoted _ _ =>
    rw [promote_entries] at hk
    exact .inl hk
  | dropped _ _ hd => exact .inl (hd.lookup hk)

end

end Moved

theorem find?_act_set (now : Int) {c : L1} {value : Bytes} (hsize : ¬ c.Oversized value)
    (key : String) (ttl : Int) :
    (c.act now (.set key value ttl)).entries.find? key =
      some ⟨value, now + ttl, value.length⟩ := by
  simp only [act, setLocalOnlyWithTTL, if_neg hsize, storeLocalLocked, insertEntry_entries]
  exact find?_insert_self _ _ _

/-! ## Recency of use

`lastUse` numbers, for each key, the last action that promoted or stored it. -/

/-- The list is in the order of last use, most recent first. -/
def InOrder (lastUse : String → Nat) (tick : Nat) (ks : List String) : Prop :=
  ks.Pairwise (fun j k => lastUse k < lastUse j) ∧ ∀ k ∈ ks, lastUse k < tick

variable {lastUse : String → Nat}

theorem InOrder.sublist {tick : Nat} {ks ks' : List String} (h : InOrder lastUse tick ks)
    (hs : ks'.Sublist ks) : InOrder lastUse (tick + 1) ks' :=
  ⟨h.1.sublist hs, fun k hk => Nat.lt_succ_of_lt (h.2 k (hs.subset hk))⟩

/-- Touching a key keeps the list in the order of use. -/
theorem InOrder.touch {tick : Nat} {ks ks' : List String} (h : InOrder lastUse tick ks)
    (hs : ks'.Sublist ks) {key : String} (hfresh : key ∉ ks') :
    InOrder (Function.update lastUse key tick) (tick + 1) (key :: ks') := by
  have hother : ∀ k ∈ ks', Function.update lastUse key tick k = lastUse k := fun k hk =>
    Function.update_of_ne (fun heq : k = key => hfresh (heq ▸ hk)) _ _
  refine ⟨pairwise_cons.mpr ⟨fun k hk => ?_, ?_⟩, fun k hk => ?_⟩
  · rw [hother k hk, Function.update_self]
    exact h.2 k (hs.subset hk)
  · refine (h.1.sublist hs).imp_of_mem fun hj hk hlt => ?_
    rw [hother _ hj, hother _ hk]
    exact hlt
  · rcases mem_cons.mp hk with rfl | hk
    · rw [Function.update_self]
      exact Nat.lt_succ_self _
    · rw [hother k hk]
      exact Nat.lt_succ_of_lt (h.2 k (hs.subset hk))

end LokiVlProxy.Cache.L1
