/-
  Cache/L1Bytes.lean --- the byte counter of the memory tier.

  `curBytes` is kept next to the map and updated by hand.
-/
import LokiVlProxy.Cache.L1Index

namespace LokiVlProxy.Cache.L1

open Foundation List KeyMap

/-- The bytes of the entries that are in the map. -/
def storedBytes (c : L1) : Int := c.entries.total Entry.sizeBytes

/-- How far the counter is from the stored bytes. -/
def drift (c : L1) : Int := c.curBytes - c.storedBytes

/-- Every entry carries the length of its value as its size. -/
def Sized (c : L1) : Prop := ∀ k e, c.entries.find? k = some e → e.sizeBytes = e.value.length

variable {c c' : L1} {key : String} {old : Entry} {value : Bytes} {now : Int} {a : Action}

theorem Sized.nonneg (h : Sized c) {k : String} {e : Entry} (hk : c.entries.find? k = some e) :
    0 ≤ e.sizeBytes := by
  rw [h k e hk]
  exact Int.natCast_nonneg _

/-! ## Removals keep the drift -/

/-- Dropping entries keeps the counter as right as it was. -/
theorem Drops.drift (h : Drops c c') : c'.drift = c.drift := by
  induction h with
  | refl => rfl
  | drop _ hk ih =>
    rw [← ih]
    simp only [L1.drift, storedBytes, dropEntry_entries, dropEntry_curBytes,
      total_erase_of_some Entry.sizeBytes hk]
    omega

theorem Drops.sized (h : Drops c c') (hc : Sized c) : Sized c' :=
  fun k e hk => hc k e (h.lookup hk)

theorem Drops.storedBytes_le (h : Drops c c') (hc : Sized c) : c'.storedBytes ≤ c.storedBytes := by
  induction h with
  | refl => exact Int.le_refl _
  | drop hd hk ih =>
    have := (hd.sized hc).nonneg hk
    simp only [storedBytes, dropEntry_entries, total_erase_of_some Entry.sizeBytes hk]
    simp only [storedBytes] at ih
    omega

/-! ## A store -/

theorem drift_retire (hk : c.entries.find? key = some old) :
    (c.retire key).drift = c.drift - old.sizeBytes := by
  simp only [drift, storedBytes, retire_entries]
  simp only [retire, hk, promote_curBytes]
  omega

/-- A store over an entry that is still there counts it twice. -/
theorem drift_insertEntry (c : L1) (key : String) (e : Entry) :
    (c.insertEntry key e).drift =
      c.drift + ((c.entries.find? key).map Entry.sizeBytes).getD 0 := by
  simp only [drift, storedBytes, insertEntry_entries, insertEntry_curBytes, total_insert]
  omega

/-- The store of `value` under `key` takes the old size off twice: the key is present
with a size, room has to be made, and making room removes the key itself, because
its entry has expired or because no second entry fits. -/
def DoubleCounts (now : Int) (c : L1) (key : String) (value : Bytes) : Prop :=
  ∃ old ∈ c.entries.find? key,
    old.sizeBytes ≠ 0 ∧
      ((c.entries.size : Int) ≥ c.maxEntries ∨
        c.curBytes - old.sizeBytes + value.length > c.maxBytes) ∧
      (expired now old = true ∨ c.maxEntries ≤ 1)
  deriving Decidable

/-- The retired key is the most recently used one, so the second pass comes to it
last; with room for two entries it does not come to it at all. -/
theorem evictLoop_keeps {size : Int} (rounds : Nat) (h : Indexed c)
    (hfront : ∃ ks, c.recency = key :: ks) (hold : c.entries.find? key = some old)
    (hdrift : c.drift = - old.sizeBytes) (hmax : 2 ≤ c.maxEntries) (hsize : size ≤ c.maxBytes) :
    (evictLoop size rounds c).entries.find? key = some old := by
  induction rounds generalizing c with
  | zero => exact hold
  | succ rounds ih =>
    unfold evictLoop
    by_cases hneed : c.NeedsEviction size
    · rw [if_pos hneed]
      cases hb : c.lruList.getLast? with
      | none => exact hold
      | some back =>
        obtain ⟨e, he, heq⟩ := evictBack_eq_dropEntry h (mem_of_getLast? hb)
        have hdrop : Drops c (c.evictBack back) := heq ▸ Drops.refl.drop he
        obtain ⟨ks, hks⟩ := hfront
        have hlist : (c.evictBack back).recency = c.recency.dropLast := by
          rw [recency, evictBack_lruList h hb, recency, map_dropLast]
        -- the back is another key: alone, the retired one would leave room
        have hne : ks ≠ [] := by
          rintro rfl
          have honly : ∀ k, (c.entries.erase key).find? k = none := by
            intro k
            rw [find?_erase]
            split
            · rfl
            · rename_i hk
              refine h.lookup_eq_none_iff.mpr ?_
              rw [← recency, hks]
              simpa using hk
          have hzero := size_eq_zero honly
          have hone := size_erase_add_one hold
          have htotal := total_erase_of_some Entry.sizeBytes hold
          rw [total_of_size_zero _ hzero] at htotal
          simp only [drift, storedBytes] at hdrift
          rcases hneed with hneed | hneed <;> omega
        have hfront' : (c.evictBack back).recency = key :: ks.dropLast := by
          rw [hlist, hks, dropLast_cons_of_ne_nil hne]
        have hind := hdrop.indexed h
        have hstay : (c.evictBack back).entries.find? key = some old := by
          have hin : key ∈ (c.evictBack back).recency := by rw [hfront']; simp
          obtain ⟨e', he'⟩ := Option.isSome_iff_exists.mp (hind.mem_list_iff.mp hin)
          rw [he', ← hold, hdrop.lookup he']
        refine ih hind ⟨_, hfront'⟩ hstay (hdrop.drift.trans hdrift) ?_ ?_
        · rw [hdrop.limits.2.1]; exact hmax
        · rw [hdrop.limits.2.2]; exact hsize
    · rw [if_neg hneed]
      exact hold

/-- Making room removes the retired key exactly when there is need for room and the
key's entry has expired or is the only one allowed. -/
theorem evictIfNeeded_keeps_iff (now size : Int) (h : Indexed c)
    (hfront : ∃ ks, c.recency = key :: ks) (hold : c.entries.find? key = some old)
    (hdrift : c.drift = - old.sizeBytes) (hsize : size ≤ c.maxBytes) :
    (c.evictIfNeeded now size).entries.find? key = some old ↔
      ¬ (c.NeedsEviction size ∧ (expired now old = true ∨ c.maxEntries ≤ 1)) := by
  have hev := evicted now size h
  have hr := hev.drops.indexed h
  constructor
  · rintro hkeep ⟨hneed, hexp | hone⟩
    · -- the first pass takes an expired key
      simp only [evictIfNeeded, if_pos hneed] at hkeep
      have hmid := (drops_sweep c fun _ e => expired now e).indexed h
      have hthere := (evictLoop_spec size _ hmid (Nat.le_refl _)).1.lookup hkeep
      have hgone := find?_removeExpired now c key
      rw [hold, Option.filter_some, hexp] at hgone
      rw [removeExpired] at hgone
      simp [hgone] at hthere
    · -- with one entry allowed, room means an empty cache
      have hzero : (c.evictIfNeeded now size).entries.size = 0 := by
        rcases hev.room with hroom | hempty
        · simp only [NeedsEviction, not_or] at hroom
          have := hev.drops.limits.2.1
          omega
        · exact size_eq_zero fun k => hr.lookup_eq_none_iff.mpr (by simp [hempty])
      rw [find?_of_size_zero hzero] at hkeep
      cases hkeep
  · intro hcond
    by_cases hneed : c.NeedsEviction size
    · obtain ⟨hlive, hmax⟩ : expired now old = false ∧ 2 ≤ c.maxEntries := by
        have hboth : ¬ (expired now old = true ∨ c.maxEntries ≤ 1) := fun h' => hcond ⟨hneed, h'⟩
        simp only [not_or, Bool.not_eq_true] at hboth
        exact ⟨hboth.1, by omega⟩
      rw [evictIfNeeded, if_pos hneed]
      have hd : Drops c (c.removeExpired now) := drops_sweep c fun _ e => expired now e
      have hstay : (c.removeExpired now).entries.find? key = some old := by
        rw [find?_removeExpired, hold, Option.filter_some, hlive]
        rfl
      have hin : key ∈ (c.removeExpired now).recency :=
        (hd.indexed h).mem_list_iff.mpr (by rw [hstay]; rfl)
      refine evictLoop_keeps _ (hd.indexed h) ?_ hstay (hd.drift.trans hdrift) ?_ ?_
      · -- the key is still in front: the first pass keeps the order
        obtain ⟨ks, hks⟩ := hfront
        have hsub := hd.recency
        have hnodup := h.linked.nodup_keys
        rw [hks, sublist_cons_iff] at hsub
        rw [← recency, hks, nodup_cons] at hnodup
        rcases hsub with hsub | ⟨ks', hks', _⟩
        · exact absurd (hsub.subset hin) hnodup.1
        · exact ⟨ks', hks'⟩
      · rw [hd.limits.2.1]; exact hmax
      · rw [hd.limits.2.2]; exact hsize
    · rw [evictIfNeeded_of_room now hneed]
      exact hold

theorem length_le_maxBytes (hmax : 0 ≤ c.maxBytes) (h : ¬ c.Oversized value) :
    (value.length : Int) ≤ c.maxBytes := by
  have h' : ¬ (value.length : Int) > c.maxBytes.tdiv 10 := h
  rw [Int.tdiv_eq_ediv_of_nonneg hmax] at h'
  omega

/-- From an exact counter, a store leaves it exact exactly when it does not count the
old entry twice. -/
theorem drift_storeLocalLocked (now : Int) (h : Indexed c) (hdrift : c.drift = 0)
    (hmax : 0 ≤ c.maxBytes) (key : String) (ttl : Int) (hv : ¬ c.Oversized value) :
    (c.storeLocalLocked now key value ttl value.length).drift = 0 ↔
      ¬ c.DoubleCounts now key value := by
  have hev := evicted_retire now value.length h key
  have hsize := length_le_maxBytes hmax hv
  simp only [storeLocalLocked, drift_insertEntry, hev.drops.drift]
  cases hold : c.entries.find? key with
  | none =>
    have hretire : c.retire key = c := by simp [retire, hold]
    have hgone : ((c.retire key).evictIfNeeded now value.length).entries.find? key = none := by
      cases hk : ((c.retire key).evictIfNeeded now value.length).entries.find? key with
      | none => rfl
      | some e =>
        have := hev.drops.lookup hk
        rw [retire_entries, hold] at this
        cases this
    simp [hretire ▸ hgone, hretire, hdrift, DoubleCounts, hold]
  | some old =>
    have hrd := drift_retire hold
    obtain ⟨ks, hks, _, _⟩ := recency_retire h hold
    have hlimits := sameLimits_retire c key
    have hneeds : (c.retire key).NeedsEviction value.length ↔
        ((c.entries.size : Int) ≥ c.maxEntries ∨
          c.curBytes - old.sizeBytes + value.length > c.maxBytes) := by
      simp only [NeedsEviction, hlimits.2.1, hlimits.2.2, retire_entries]
      simp [retire, hold]
    have hkeep := evictIfNeeded_keeps_iff now value.length (h.retire key) ⟨ks, hks⟩
      (by rw [retire_entries]; exact hold) (by rw [hrd, hdrift]; omega)
      (by rw [hlimits.2.2]; exact hsize)
    rw [hneeds, hlimits.2.1] at hkeep
    rw [hrd, hdrift]
    cases hk : ((c.retire key).evictIfNeeded now value.length).entries.find? key with
    | none =>
      have hcond := (not_iff_not.mpr hkeep).mp (by simp [hk])
      rw [not_not] at hcond
      simp [DoubleCounts, hold, hcond]
    | some e =>
      obtain rfl : e = old := by
        have := hev.drops.lookup hk
        rw [retire_entries, hold] at this
        exact (Option.some.inj this).symm
      have hcond := hkeep.mp hk
      simp only [Option.map_some, Option.getD_some]
      refine iff_of_true (by omega) ?_
      rintro ⟨old', hold', -, hneed', hwhy⟩
      rw [hold] at hold'
      cases hold'
      exact hcond ⟨hneed', hwhy⟩

/-- With a right counter the store stays within its bytes. -/
theorem storedBytes_storeLocalLocked (h : Indexed c) (hmax : 0 ≤ c.maxBytes) (key : String)
    (ttl : Int) (hv : ¬ c.Oversized value)
    (hdrift : (c.storeLocalLocked now key value ttl value.length).drift = 0) :
    (c.storeLocalLocked now key value ttl value.length).storedBytes ≤ c.maxBytes := by
  have hev := evicted_retire now value.length h key
  have hr := hev.drops.indexed (h.retire key)
  have hlim := ((sameLimits_retire c key).trans hev.drops.limits).2.2
  have hroom := hev.room
  have hsize := length_le_maxBytes hmax hv
  simp only [storeLocalLocked] at hdrift ⊢
  generalize (c.retire key).evictIfNeeded now value.length = r at hr hlim hroom hdrift
  rcases hroom with hroom | hempty
  · simp only [NeedsEviction, not_or] at hroom
    simp only [drift, insertEntry_curBytes] at hdrift
    omega
  · have hnone : ∀ k, r.entries.find? k = none := fun k =>
      hr.lookup_eq_none_iff.mpr (by simp [hempty])
    have hzero := total_of_size_zero Entry.sizeBytes (size_eq_zero hnone)
    simp only [storedBytes, insertEntry_entries, total_insert, hnone, hzero]
    simpa using hsize

theorem sized_storeLocalLocked (h : Indexed c) (hs : Sized c) (key : String) (value : Bytes)
    (ttl : Int) : Sized (c.storeLocalLocked now key value ttl value.length) := by
  intro k e hk
  rw [storeLocalLocked, insertEntry_entries, find?_insert] at hk
  split at hk
  · cases hk
    rfl
  · refine (evicted_retire now value.length h key).drops.sized ?_ k e hk
    rw [Sized, retire_entries]
    exact hs

/-! ## Every action -/

/-- What every action keeps. -/
structure Sane (c : L1) : Prop where
  indexed : Indexed c
  sized : Sized c
  budget : 0 ≤ c.maxBytes

/-- The counter is exact and the stored bytes are within budget. -/
structure Accounted (c : L1) : Prop where
  exact : c.curBytes = c.storedBytes
  bounded : c.storedBytes ≤ c.maxBytes

/-- The action is a store that counts its key's old entry twice. -/
def DoubleCountsBy (now : Int) (c : L1) : Action → Prop
  | .set key value _ => ¬ c.Oversized value ∧ c.DoubleCounts now key value
  | _ => False

instance (now : Int) (c : L1) : (a : Action) → Decidable (c.DoubleCountsBy now a)
  | .set _ _ _ => inferInstanceAs (Decidable (_ ∧ _))
  | .requestPromotion _ | .runPromoter | .invalidate _ | .invalidatePrefix _ | .cleanup =>
      inferInstanceAs (Decidable False)

theorem Sane.new (ttl maxEntries : Int) {maxBytes : Int} (h : 0 ≤ maxBytes) :
    Sane (newWithMaxBytes ttl maxEntries maxBytes) where
  indexed := Indexed.new ttl maxEntries maxBytes
  sized := fun k e hk => by simp [newWithMaxBytes] at hk
  budget := h

theorem Accounted.new (ttl maxEntries : Int) {maxBytes : Int} (h : 0 ≤ maxBytes) :
    Accounted (newWithMaxBytes ttl maxEntries maxBytes) :=
  ⟨rfl, h⟩

theorem Moved.sized (hm : Moved now c a c') (h : Sane c) : Sized c' := by
  cases hm with
  | stored _ => exact sized_storeLocalLocked h.indexed h.sized _ _ _
  | promoted _ _ =>
    rw [Sized, promote_entries]
    exact h.sized
  | dropped _ _ hd => exact hd.sized h.sized

/-- Every move of the memory keeps it sane. -/
theorem Sane.act (now : Int) (h : Sane c) (a : Action) : Sane (c.act now a) := by
  have hm := moved_act now c a
  exact ⟨hm.indexed h.indexed, hm.sized h, (hm.limits h.indexed).2.2 ▸ h.budget⟩

theorem not_doubleCountsBy (ht : c.touchedBy a = none) : ¬ c.DoubleCountsBy now a := by
  cases a with
  | set key value ttl =>
    rintro ⟨hv, -⟩
    simp [touchedBy, hv] at ht
  | _ => exact id

/-- An action keeps the accounting exactly when it does not count an entry twice. -/
theorem Moved.accounted_iff (hm : Moved now c a c') (h : Sane c) (hacc : Accounted c) :
    Accounted c' ↔ ¬ c.DoubleCountsBy now a := by
  have hzero : c.drift = 0 := by rw [drift, hacc.exact]; exact Int.sub_self _
  have hlimits := (hm.limits h.indexed).2.2
  cases hm with
  | @stored key value ttl hv =>
    have hiff := drift_storeLocalLocked now h.indexed hzero h.budget key ttl hv
    constructor
    · rintro ⟨hexact, -⟩ ⟨-, hdouble⟩
      exact hiff.mp (by rw [drift, hexact]; exact Int.sub_self _) hdouble
    · intro hnot
      have hd := hiff.mpr fun hdouble => hnot ⟨hv, hdouble⟩
      refine ⟨by rw [drift] at hd; omega, ?_⟩
      rw [hlimits]
      exact storedBytes_storeLocalLocked h.indexed h.budget key ttl hv hd
  | promoted _ _ =>
    refine iff_of_true ⟨?_, ?_⟩ id
    · simpa [storedBytes] using hacc.exact
    · rw [hlimits]
      simpa [storedBytes] using hacc.bounded
  | @dropped a c' _ ht hd =>
    have hdrift := hd.drift
    have hle := hd.storedBytes_le h.sized
    refine iff_of_true ⟨?_, ?_⟩ (not_doubleCountsBy ht)
    · rw [hzero, drift] at hdrift
      simp only [storedBytes] at hdrift ⊢
      omega
    · rw [hlimits]
      exact Int.le_trans hle hacc.bounded

end LokiVlProxy.Cache.L1
