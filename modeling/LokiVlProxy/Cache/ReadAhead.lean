/-
  Cache/ReadAhead.lean --- the keys a node fetches from its peers ahead of time.

  Source: internal/cache/peer.go: hotIndexEntry, NewPeerCache (the read-ahead settings),
  selectReadAheadCandidates.

  Two passes over the candidates share the budgets of keys and bytes.
-/
import LokiVlProxy.Foundation.KeyMap

namespace LokiVlProxy.Cache

open Foundation List

structure HotIndexEntry where
  key : String
  tenant : String
  sizeBytes : Int
  remainingTTLMS : Int
  deriving DecidableEq, Repr

/-- The read-ahead fields of `PeerConfig`; durations are in nanoseconds. -/
structure ReadAheadConfig where
  maxKeys : Int
  maxBytes : Int
  minTTL : Int
  maxObjectBytes : Int
  tenantFairShare : Int
  deriving DecidableEq, Repr

namespace ReadAheadConfig

/-- A setting that is not positive is replaced by its default. -/
def orDefault (setting default : Int) : Int := if setting ≤ 0 then default else setting

/-- The settings as `NewPeerCache` stores them. -/
def normalized (cfg : ReadAheadConfig) : ReadAheadConfig where
  maxKeys := orDefault cfg.maxKeys 64
  maxBytes := orDefault cfg.maxBytes (8 * 2 ^ 20)
  minTTL := orDefault cfg.minTTL 30000000000
  maxObjectBytes := orDefault cfg.maxObjectBytes (256 * 2 ^ 10)
  tenantFairShare := min (orDefault cfg.tenantFairShare 50) 100

/-- The keys one tenant may take in the first pass.  The product is an `int` and wraps. -/
def perTenantCap (cfg : ReadAheadConfig) : Int :=
  let cap := (BitVec.ofInt 64 (cfg.maxKeys * cfg.tenantFairShare)).toInt.tdiv 100
  if cap < 1 then 1 else cap

end ReadAheadConfig

/-- The variables that the two passes share. -/
structure Selection where
  remainingKeys : Int
  remainingBytes : Int
  selected : List HotIndexEntry
  seen : List String
  perTenant : KeyMap String Int

namespace Selection

variable (cfg : ReadAheadConfig)

def start : Selection := ⟨cfg.maxKeys, cfg.maxBytes, [], [], ∅⟩

variable (st : Selection)

/-- The keys counted for a tenant. -/
def taken (tenant : String) : Int := (st.perTenant.find? tenant).getD 0

/-- One of the two budgets is used up. -/
def Exhausted : Prop := st.remainingKeys ≤ 0 ∨ st.remainingBytes ≤ 0
  deriving Decidable

variable (e : HotIndexEntry)

/-- The entry is old or large enough to be left out by itself. -/
def TooOldOrLarge : Prop :=
  e.remainingTTLMS < cfg.minTTL.tdiv 1000000 ∨
    (cfg.maxObjectBytes > 0 ∧ e.sizeBytes > cfg.maxObjectBytes)
  deriving Decidable

/-- The state after an entry has been added. -/
def add : Selection where
  remainingKeys := st.remainingKeys - 1
  remainingBytes := st.remainingBytes - e.sizeBytes
  selected := st.selected ++ [e]
  seen := e.key :: st.seen
  perTenant :=
    if e.tenant ≠ "" then st.perTenant.insert e.tenant (st.taken e.tenant + 1) else st.perTenant

/-- `tryAdd`; none where it returns false. -/
def tryAdd (enforceFair : Bool) : Option Selection :=
  if e.key = "" then none
  else if e.key ∈ st.seen then none
  else if TooOldOrLarge cfg e then none
  else if e.sizeBytes ≤ 0 ∨ e.sizeBytes > st.remainingBytes then none
  else if enforceFair ∧ e.tenant ≠ "" ∧ st.taken e.tenant ≥ cfg.perTenantCap then none
  else some (st.add e)

/-- The first pass: the state it leaves and the entries it turns down. -/
def firstPass (cfg : ReadAheadConfig) : Selection → List HotIndexEntry →
    Selection × List HotIndexEntry
  | st, [] => (st, [])
  | st, e :: es =>
      if st.Exhausted then (st, [])
      else
        match st.tryAdd cfg e true with
        | some st' => firstPass cfg st' es
        | none => ((firstPass cfg st es).1, e :: (firstPass cfg st es).2)

/-- The second pass. -/
def secondPass (cfg : ReadAheadConfig) : Selection → List HotIndexEntry → Selection
  | st, [] => st
  | st, e :: es =>
      if st.Exhausted then st
      else secondPass cfg ((st.tryAdd cfg e false).getD st) es

end Selection

open Selection

/-- `selectReadAheadCandidates`, for settings as they are stored. -/
def selectReadAheadCandidates (cfg : ReadAheadConfig) (candidates : List HotIndexEntry) :
    List HotIndexEntry :=
  if candidates = [] ∨ cfg.maxKeys ≤ 0 then []
  else
    let first := firstPass cfg (start cfg) candidates
    (secondPass cfg first.1 first.2).selected

namespace Selection

variable {cfg : ReadAheadConfig}

/-! ## One attempt -/

/-- Why an entry is turned down. -/
inductive Refusal (cfg : ReadAheadConfig) (st : Selection) (e : HotIndexEntry)
    (enforceFair : Bool) : Prop
  | noKey (h : e.key = "")
  | repeated (h : e.key ∈ st.seen)
  | unfit (h : TooOldOrLarge cfg e)
  | noSize (h : e.sizeBytes ≤ 0)
  | noRoom (h : e.sizeBytes > st.remainingBytes)
  | share (hfair : enforceFair = true) (htenant : e.tenant ≠ "")
      (h : st.taken e.tenant ≥ cfg.perTenantCap)

/-- What an entry meets that is added. -/
structure Accepted (cfg : ReadAheadConfig) (st : Selection) (e : HotIndexEntry) : Prop where
  key_ne : e.key ≠ ""
  fresh : e.key ∉ st.seen
  fit : ¬ TooOldOrLarge cfg e
  size_pos : 0 < e.sizeBytes
  room : e.sizeBytes ≤ st.remainingBytes

/-- A candidate is taken within all limits, or one limit refuses it. -/
theorem tryAdd_cases (st : Selection) (e : HotIndexEntry) (enforceFair : Bool) :
    (st.tryAdd cfg e enforceFair = some (st.add e) ∧ Accepted cfg st e) ∨
      (st.tryAdd cfg e enforceFair = none ∧ Refusal cfg st e enforceFair) := by
  rw [tryAdd]
  split
  · rename_i h
    exact .inr ⟨rfl, .noKey h⟩
  split
  · rename_i h
    exact .inr ⟨rfl, .repeated h⟩
  split
  · rename_i h
    exact .inr ⟨rfl, .unfit h⟩
  split
  · rename_i h
    refine .inr ⟨rfl, ?_⟩
    rcases h with hsize | hroom
    · exact .noSize hsize
    · exact .noRoom hroom
  split
  · rename_i h
    exact .inr ⟨rfl, .share h.1 h.2.1 h.2.2⟩
  · rename_i hkey hseen hfit hsize _
    exact .inl ⟨rfl, hkey, hseen, hfit, by omega, by omega⟩

/-! ## The state of a run -/

/-- The keys of a tenant among these entries. -/
def ofTenant (tenant : String) (entries : List HotIndexEntry) : Nat :=
  entries.countP fun e => e.tenant = tenant

/-- What holds of the state after any number of attempts. -/
structure Within (cfg : ReadAheadConfig) (st : Selection) : Prop where
  keys : st.remainingKeys + st.selected.length = cfg.maxKeys
  bytes : st.remainingBytes + (st.selected.map HotIndexEntry.sizeBytes).sum = cfg.maxBytes
  keys_nonneg : 0 ≤ st.remainingKeys
  bytes_nonneg : 0 ≤ st.remainingBytes
  nodup : (st.selected.map HotIndexEntry.key).Nodup
  mem_seen : ∀ k, k ∈ st.seen ↔ k ∈ st.selected.map HotIndexEntry.key
  counted : ∀ t, t ≠ "" → st.taken t = ofTenant t st.selected
  usable : ∀ e ∈ st.selected, e.key ≠ "" ∧ 0 < e.sizeBytes ∧ ¬ TooOldOrLarge cfg e

theorem within_start (hkeys : 0 ≤ cfg.maxKeys) (hbytes : 0 ≤ cfg.maxBytes) :
    Within cfg (start cfg) where
  keys := by simp [start]
  bytes := by simp [start]
  keys_nonneg := hkeys
  bytes_nonneg := hbytes
  nodup := nodup_nil
  mem_seen := fun k => by simp [start]
  counted := fun t _ => rfl
  usable := fun e he => absurd he not_mem_nil

theorem taken_add (st : Selection) (e : HotIndexEntry) {t : String} (ht : t ≠ "") :
    (st.add e).taken t = st.taken t + if e.tenant = t then 1 else 0 := by
  by_cases htenant : e.tenant ≠ ""
  · simp only [taken, add, if_pos htenant, KeyMap.find?_insert]
    by_cases heq : t = e.tenant
    · rw [if_pos heq, if_pos heq.symm, heq]
      rfl
    · rw [if_neg heq, if_neg (Ne.symm heq), add_zero]
  · have hne : e.tenant ≠ t := by
      intro heq
      exact htenant (heq ▸ ht)
    simp only [taken, add, if_neg htenant, if_neg hne, add_zero]

variable {st : Selection}

/-- A candidate that is accepted keeps the limits. -/
theorem Within.add (h : Within cfg st) {e : HotIndexEntry} (hleft : ¬ st.Exhausted)
    (he : Accepted cfg st e) : Within cfg (st.add e) where
  keys := by
    have := h.keys
    simp only [Selection.add, length_append, length_singleton]
    omega
  bytes := by
    have := h.bytes
    simp only [Selection.add, map_append, sum_append, map_cons, map_nil,
      sum_cons, sum_nil]
    omega
  keys_nonneg := by
    have := not_or.mp hleft
    simp only [Selection.add]
    omega
  bytes_nonneg := by
    have := he.room
    simp only [Selection.add]
    omega
  nodup := by
    have hnew : e.key ∉ st.selected.map HotIndexEntry.key := fun hmem =>
      he.fresh ((h.mem_seen _).mpr hmem)
    simp only [Selection.add, map_append, map_cons, map_nil]
    exact List.Nodup.append h.nodup (nodup_singleton _)
      (disjoint_singleton.mpr hnew)
  mem_seen := fun k => by
    simp only [Selection.add, mem_cons, h.mem_seen, map_append, mem_append,
      map_cons, map_nil, not_mem_nil, or_false]
    exact or_comm
  counted := fun t ht => by
    rw [taken_add st e ht, h.counted t ht]
    simp only [Selection.add, ofTenant, countP_append, countP_singleton,
      decide_eq_true_eq]
    split <;> simp
  usable := fun e' he' => by
    rcases mem_append.mp he' with hold | hnew
    · exact h.usable e' hold
    · rw [mem_singleton.mp hnew]
      exact ⟨he.key_ne, he.size_pos, he.fit⟩

/-- Nothing is taken back: what is selected stays, and the room only shrinks. -/
structure Grows (st st' : Selection) : Prop where
  selected : st.selected <+: st'.selected
  bytes : st'.remainingBytes ≤ st.remainingBytes

theorem Grows.refl (st : Selection) : Grows st st := ⟨prefix_rfl, Int.le_refl _⟩

theorem Grows.trans {st' st'' : Selection} (h : Grows st st') (h' : Grows st' st'') :
    Grows st st'' :=
  ⟨h.selected.trans h'.selected, Int.le_trans h'.bytes h.bytes⟩

theorem grows_add {e : HotIndexEntry} (he : Accepted cfg st e) : Grows st (st.add e) := by
  have := he.size_pos
  refine ⟨prefix_append _ _, ?_⟩
  simp only [Selection.add]
  omega

/-! ## The two passes -/

/-- The fair pass stays within the limits and only adds. -/
theorem firstPass_spec (st : Selection) (es : List HotIndexEntry) (h : Within cfg st) :
    Within cfg (firstPass cfg st es).1 ∧ Grows st (firstPass cfg st es).1 := by
  induction es generalizing st with
  | nil => exact ⟨h, Grows.refl st⟩
  | cons e es ih =>
    rw [firstPass]
    split
    · exact ⟨h, Grows.refl st⟩
    · rename_i hleft
      rcases tryAdd_cases st e true with ⟨htry, haccepted⟩ | ⟨htry, -⟩
      · rw [htry]
        obtain ⟨hwithin, hgrows⟩ := ih (st.add e) (h.add hleft haccepted)
        exact ⟨hwithin, (grows_add haccepted).trans hgrows⟩
      · rw [htry]
        exact ih st h

/-- So does the pass over what was left. -/
theorem secondPass_spec (st : Selection) (es : List HotIndexEntry) (h : Within cfg st) :
    Within cfg (secondPass cfg st es) ∧ Grows st (secondPass cfg st es) := by
  induction es generalizing st with
  | nil => exact ⟨h, Grows.refl st⟩
  | cons e es ih =>
    rw [secondPass]
    split
    · exact ⟨h, Grows.refl st⟩
    · rename_i hleft
      rcases tryAdd_cases st e false with ⟨htry, haccepted⟩ | ⟨htry, -⟩
      · rw [htry, Option.getD_some]
        obtain ⟨hwithin, hgrows⟩ := ih (st.add e) (h.add hleft haccepted)
        exact ⟨hwithin, (grows_add haccepted).trans hgrows⟩
      · rw [htry, Option.getD_none]
        exact ih st h

theorem firstPass_of_exhausted (h : st.Exhausted) (es : List HotIndexEntry) :
    firstPass cfg st es = (st, []) := by
  cases es with
  | nil => rfl
  | cons e es => rw [firstPass, if_pos h]

theorem firstPass_append (st : Selection) (front rest : List HotIndexEntry) :
    (firstPass cfg st (front ++ rest)).1 =
      (firstPass cfg (firstPass cfg st front).1 rest).1 := by
  induction front generalizing st with
  | nil => rfl
  | cons e front ih =>
    rw [cons_append, firstPass, firstPass]
    split
    · rename_i hstop
      rw [firstPass_of_exhausted hstop]
    · cases st.tryAdd cfg e true with
      | some st' => exact ih st'
      | none => exact ih st

theorem ofTenant_le_of_prefix {entries entries' : List HotIndexEntry} (h : entries <+: entries')
    (t : String) : ofTenant t entries ≤ ofTenant t entries' :=
  h.sublist.countP_le

end Selection

/-- Where some tenant has more than its share, a candidate of a tenant below its share that
is passed over, though it is of the kind described, did not fit in the bytes left when the
first pass came to it, or repeats a selected key, or the pass had used up a budget. -/
def FairTo (kind : HotIndexEntry → Prop) (cfg : ReadAheadConfig)
    (candidates : List HotIndexEntry) : Prop :=
  (∃ t, cfg.perTenantCap < ofTenant t (selectReadAheadCandidates cfg candidates)) →
    ∀ before e after, candidates = before ++ e :: after → kind e →
      e ∉ selectReadAheadCandidates cfg candidates →
      (ofTenant e.tenant (selectReadAheadCandidates cfg candidates) : Int) < cfg.perTenantCap →
        e.sizeBytes > (firstPass cfg (start cfg) before).1.remainingBytes ∨
          (∃ s ∈ selectReadAheadCandidates cfg candidates, s.key = e.key) ∨
          (firstPass cfg (start cfg) before).1.Exhausted

section Select

variable {cfg : ReadAheadConfig} {candidates : List HotIndexEntry}

/-- The selection is what the second pass ends with, from the first one on. -/
theorem exists_select (candidates : List HotIndexEntry) (hkeys : 0 < cfg.maxKeys)
    (hbytes : 0 ≤ cfg.maxBytes) :
    ∃ st, selectReadAheadCandidates cfg candidates = st.selected ∧ Within cfg st ∧
      Grows (firstPass cfg (start cfg) candidates).1 st := by
  have hstart := within_start (Int.le_of_lt hkeys) hbytes
  by_cases hnone : candidates = []
  · refine ⟨start cfg, ?_, hstart, ?_⟩
    · rw [selectReadAheadCandidates, if_pos (.inl hnone)]
      rfl
    · rw [hnone]
      exact Grows.refl _
  · have hgo : ¬ (candidates = [] ∨ cfg.maxKeys ≤ 0) := by
      rw [not_or]
      exact ⟨hnone, by omega⟩
    obtain ⟨hfirst, -⟩ := firstPass_spec (start cfg) candidates hstart
    obtain ⟨hwithin, hgrows⟩ :=
      secondPass_spec _ (firstPass cfg (start cfg) candidates).2 hfirst
    exact ⟨_, by rw [selectReadAheadCandidates, if_neg hgo], hwithin, hgrows⟩

/-- A candidate that has a key and a size is passed over fairly. -/
theorem fairTo_usable (hkeys : 0 < cfg.maxKeys) (hbytes : 0 ≤ cfg.maxBytes) :
    FairTo (fun e => ¬ TooOldOrLarge cfg e ∧ e.key ≠ "" ∧ 0 < e.sizeBytes) cfg candidates := by
  intro _ before e after hcandidates hkind hnot hbelow
  obtain ⟨st, hselect, hwithin, hgrows⟩ := exists_select candidates hkeys hbytes
  rw [hselect] at hnot hbelow ⊢
  rw [hcandidates, firstPass_append] at hgrows
  obtain ⟨hreached, -⟩ :=
    firstPass_spec (start cfg) before (within_start (Int.le_of_lt hkeys) hbytes)
  -- the state in which the first pass comes to the candidate
  generalize (firstPass cfg (start cfg) before).1 = reached at hgrows hreached ⊢
  by_cases hstop : reached.Exhausted
  · exact .inr (.inr hstop)
  rw [firstPass, if_neg hstop] at hgrows
  rcases tryAdd_cases reached e true with ⟨htry, haccepted⟩ | ⟨htry, hrefusal⟩
  · rw [htry] at hgrows
    have hadded := (firstPass_spec (reached.add e) after (hreached.add hstop haccepted)).2
    have hmem : e ∈ (reached.add e).selected := by simp [Selection.add]
    exact absurd ((hadded.trans hgrows).selected.subset hmem) hnot
  · rw [htry] at hgrows
    have hsofar := (firstPass_spec reached after hreached).2.trans hgrows
    cases hrefusal with
    | noKey h => exact absurd h hkind.2.1
    | repeated h =>
      obtain ⟨s, hs, hkey⟩ := mem_map.mp ((hreached.mem_seen _).mp h)
      exact .inr (.inl ⟨s, hsofar.selected.subset hs, hkey⟩)
    | unfit h => exact absurd h hkind.1
    | noSize h => exact absurd hkind.2.2 (by omega)
    | noRoom h => exact .inl h
    | share _ htenant h =>
      rw [hreached.counted _ htenant] at h
      have hle := ofTenant_le_of_prefix hsofar.selected e.tenant
      omega

theorem normalized_maxKeys_pos (cfg : ReadAheadConfig) : 0 < cfg.normalized.maxKeys := by
  simp only [ReadAheadConfig.normalized, ReadAheadConfig.orDefault]
  split <;> omega

theorem normalized_maxBytes_pos (cfg : ReadAheadConfig) : 0 < cfg.normalized.maxBytes := by
  simp only [ReadAheadConfig.normalized, ReadAheadConfig.orDefault]
  split <;> omega

/-- For every configuration and every list of candidates: the selected keys are distinct and
within the budgets of keys and bytes, every selected entry lives long enough and is not too
large, and the candidates that have a key and a size are passed over fairly. -/
theorem selectReadAheadCandidates_spec (cfg : ReadAheadConfig) (candidates : List HotIndexEntry) :
    let selected := selectReadAheadCandidates cfg.normalized candidates
    (selected.map HotIndexEntry.key).Nodup ∧ (selected.length : Int) ≤ cfg.normalized.maxKeys ∧
      (selected.map HotIndexEntry.sizeBytes).sum ≤ cfg.normalized.maxBytes ∧
      (∀ e ∈ selected, ¬ TooOldOrLarge cfg.normalized e) ∧
      FairTo (fun e => ¬ TooOldOrLarge cfg.normalized e ∧ e.key ≠ "" ∧ 0 < e.sizeBytes)
        cfg.normalized candidates := by
  intro selected
  have hkeys := normalized_maxKeys_pos cfg
  have hbytes := Int.le_of_lt (normalized_maxBytes_pos cfg)
  obtain ⟨st, hselect, hwithin, -⟩ := exists_select candidates hkeys hbytes
  refine ⟨?_, ?_, ?_, ?_, fairTo_usable hkeys hbytes⟩
  · rw [show selected = st.selected from hselect]
    exact hwithin.nodup
  · rw [show selected = st.selected from hselect]
    have := hwithin.keys
    have := hwithin.keys_nonneg
    omega
  · rw [show selected = st.selected from hselect]
    have := hwithin.bytes
    have := hwithin.bytes_nonneg
    omega
  · intro e he
    rw [show selected = st.selected from hselect] at he
    exact (hwithin.usable e he).2.2

/-- An entry without a key is passed over though it fits and its tenant has nothing. -/
theorem not_fairTo_noKey :
    ¬ FairTo (fun e => ¬ TooOldOrLarge (ReadAheadConfig.normalized ⟨4, 100, 0, 0, 25⟩) e)
      (ReadAheadConfig.normalized ⟨4, 100, 0, 0, 25⟩)
      [⟨"a", "t1", 1, 60000⟩, ⟨"", "t2", 1, 60000⟩, ⟨"b", "t1", 1, 60000⟩] := by
  intro hfair
  have hcase := hfair ⟨"t1", by decide⟩ [⟨"a", "t1", 1, 60000⟩] ⟨"", "t2", 1, 60000⟩
    [⟨"b", "t1", 1, 60000⟩] rfl (by decide) (by decide) (by decide)
  rcases hcase with hroom | hrepeats | hstop
  · exact absurd hroom (by decide)
  · exact absurd hrepeats (by decide)
  · exact absurd hstop (by decide)

end Select

end LokiVlProxy.Cache
