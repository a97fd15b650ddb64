/-
  Proxy/StreamDescriptor.lean --- the stream descriptors of one response.

  Source: internal/proxy/stream_processing.go: logQueryStreamDescriptorBytes,
  logQueryStreamDescriptorMiss.

  The rows of a response share a cache of descriptors.
-/
import LokiVlProxy.Foundation.Run
import LokiVlProxy.Proxy.LabelTranslator

namespace LokiVlProxy.Proxy

open Foundation List

/-- `cachedLogQueryStreamDescriptor`. -/
structure Descriptor where
  key : Bytes
  streamLabels : Labels
  rawLabels : Labels
  translatedLabels : Labels
  deriving DecidableEq

/-- What the rows of a response are described with. -/
structure DescriptorState where
  /-- the learned part of the label translator -/
  learned : Learned
  /-- `streamLabelsCache`, of the process -/
  streamLabelsCache : KeyMap Bytes Labels
  /-- `streamLabelCache`, of the response -/
  streamLabelCache : KeyMap Bytes Labels
  descriptorCache : KeyMap Bytes Descriptor

/-- A row, as far as its descriptor goes. -/
structure StreamRow where
  rawStream : Bytes
  level : Bytes

/-- The size of `keyBuf`. -/
def keyBufLen : Nat := 512

/-- The key that `logQueryStreamDescriptorBytes` builds. -/
def StreamRow.cacheKey (row : StreamRow) : Bytes :=
  let stream := row.rawStream.take keyBufLen
  let key := if stream.length < keyBufLen then stream ++ [0] else stream
  let trimmedLevel := trimSpaceBytes row.level
  if trimmedLevel.length ≤ keyBufLen - key.length then key ++ trimmedLevel else key

/-- The labels of a row before translation. -/
def rowLabels (baseLabels : Labels) (level : Bytes) : Labels :=
  ensureSyntheticServiceName
    (ensureDetectedLevel (if level.isEmpty then baseLabels else baseLabels.insert (bytes "level") level))

variable (config : Option TranslatorConfig) (order : LoopOrder) (learned : Learned)

/-- The second half of `logQueryStreamDescriptorMiss`; without a configuration there is no
translator. -/
def describe (baseLabels : Labels) (level : Bytes) : Descriptor × Learned :=
  let rawLabels := rowLabels baseLabels level
  let translated : Labels × Learned :=
    match config with
    | none => (rawLabels, learned)
    | some config =>
        if config.isPassthrough then (rawLabels, learned)
        else
          let t := translateLabelsMap config order learned rawLabels
          (ensureSyntheticServiceName (ensureDetectedLevel t.1), t.2)
  (⟨canonicalLabelsKey translated.1, baseLabels, rawLabels, translated.1⟩, translated.2)

def logQueryStreamDescriptorMiss
    (rawStream level cacheKey : Bytes) (s : DescriptorState) : Descriptor × DescriptorState :=
  match s.streamLabelCache.find? rawStream with
  | some baseLabels =>
      let d := describe config order s.learned baseLabels level
      (d.1, { s with learned := d.2, descriptorCache := s.descriptorCache.insert cacheKey d.1 })
  | none =>
      let parsed := parseStreamLabels s.streamLabelsCache rawStream
      let d := describe config order s.learned parsed.1 level
      (d.1, ⟨d.2, parsed.2, s.streamLabelCache.insert rawStream parsed.1,
        s.descriptorCache.insert cacheKey d.1⟩)

def logQueryStreamDescriptorBytes
    (row : StreamRow) (s : DescriptorState) : Descriptor × DescriptorState :=
  match s.descriptorCache.find? row.cacheKey with
  | some d => (d, s)
  | none =>
      logQueryStreamDescriptorMiss config order row.rawStream (trimSpaceBytes row.level) row.cacheKey s

/-! ## The rows of a response -/

/-- What happens while a response is read: its rows, and what other requests do to the state that
is shared with them. -/
inductive ResponseEvent where
  | row (order : LoopOrder) (row : StreamRow)
  | learn (order : LoopOrder) (fields : List Bytes)
  | parse (rawStream : Bytes)

def responseStep (s : DescriptorState) :
    ResponseEvent → DescriptorState
  | .row order row => (logQueryStreamDescriptorBytes config order row s).2
  | .learn order fields =>
      match config with
      | none => s
      | some config => { s with learned := learnFieldAliases config order s.learned fields }
  | .parse rawStream =>
      { s with streamLabelsCache := (parseStreamLabels s.streamLabelsCache rawStream).2 }

/-- No caches. -/
def DescriptorState.uncached : DescriptorState := ⟨learned, ∅, ∅, ∅⟩

/-- A descriptor that the slow path may give a row when all caches are empty; a loop over the
labels may meet them in any order. -/
def MayDescribe (row : StreamRow) (d : Descriptor) : Prop :=
  ∃ order, d = (logQueryStreamDescriptorMiss config order row.rawStream (trimSpaceBytes row.level)
    row.cacheKey (.uncached learned)).1

/-! ## The condition -/

/-- The stream, the separator and the level fit the buffer, and the stream does not hold the
separator. -/
def StreamRow.Fits (row : StreamRow) : Prop :=
  0 ∉ row.rawStream ∧ row.rawStream.length + 1 + (trimSpaceBytes row.level).length ≤ keyBufLen

/-- A name that no alias is learned for. -/
def TranslatorConfig.Settled (config : TranslatorConfig) (name : Bytes) : Prop :=
  config.style ≠ .underscores ∨ leafOf name = none ∨ (config.vlToLoki.find? name).isSome

/-- The names of the row's labels do not depend on learned aliases. -/
def StreamRow.Settled (row : StreamRow) : Prop :=
  ∀ c ∈ config, c.isPassthrough = true ∨
    ∀ name, ((parseStreamLabelsUncached row.rawStream).find? name).isSome → c.Settled name

/-- Both. -/
def ResponseEvent.Clear : ResponseEvent → Prop
  | .row _ r => r.Fits ∧ r.Settled config
  | _ => True

/-! ## Keys -/

variable {row : StreamRow} {learned learned' : Learned} {order : LoopOrder}

theorem StreamRow.cacheKey_of_fits (h : row.Fits) :
    row.cacheKey = row.rawStream ++ 0 :: trimSpaceBytes row.level := by
  obtain ⟨-, hlen⟩ := h
  have htake : row.rawStream.take keyBufLen = row.rawStream := take_of_length_le (by omega)
  rw [StreamRow.cacheKey, htake, if_pos (show row.rawStream.length < keyBufLen by omega), length_append,
    if_pos (by rw [length_singleton]; omega), append_assoc, singleton_append]

/-- A key that fits determines the stream and the level. -/
theorem StreamRow.cacheKey_inj {row' : StreamRow} (h : row.Fits) (h' : row'.Fits)
    (hkey : row.cacheKey = row'.cacheKey) :
    row.rawStream = row'.rawStream ∧ trimSpaceBytes row.level = trimSpaceBytes row'.level := by
  rw [cacheKey_of_fits h, cacheKey_of_fits h'] at hkey
  exact append_cons_inj_of_notMem h.1 h'.1 hkey

/-! ## Descriptors without caches -/

theorem uncached_descriptor (order : LoopOrder) (learned : Learned) (rawStream level cacheKey : Bytes) :
    (logQueryStreamDescriptorMiss config order rawStream level cacheKey (.uncached learned)).1 =
      (describe config order learned (parseStreamLabelsUncached rawStream) level).1 := rfl

theorem describe_none (order : LoopOrder) (learned : Learned) (baseLabels : Labels) (level : Bytes) :
    (describe none order learned baseLabels level).1 =
      ⟨canonicalLabelsKey (rowLabels baseLabels level), baseLabels, rowLabels baseLabels level,
        rowLabels baseLabels level⟩ := by
  rw [describe]

theorem settled_rowLabels {config : TranslatorConfig} {baseLabels : Labels} {level name : Bytes}
    (hbase : ∀ name, (baseLabels.find? name).isSome → config.Settled name)
    (h : ((rowLabels baseLabels level).find? name).isSome) : config.Settled name := by
  rcases find?_ensureSyntheticServiceName h with h | rfl
  · rcases find?_ensureDetectedLevel h with h | rfl
    · split at h
      · exact hbase name h
      · rw [SortedMap.find?_insert] at h
        split at h
        · next heq =>
          rw [heq]
          exact .inr (.inl (by decide +kernel))
        · exact hbase name h
    · exact .inr (.inl (by decide +kernel))
  · exact .inr (.inl (by decide +kernel))

section

variable (h : learned.LeavesOnly)

include h

theorem toLoki_of_settled {config : TranslatorConfig} {name : Bytes} (hname : config.Settled name) :
    toLoki config learned name = toLoki config .nothing name := by
  rcases hname with hstyle | hleaf | hmapped
  · unfold toLoki
    cases hs : config.style with
    | underscores => exact absurd hs hstyle
    | passthrough | other => rfl
  · exact toLoki_eq_of_leafOf_none h hleaf
  · obtain ⟨mapped, hmapped⟩ := Option.isSome_iff_exists.mp hmapped
    unfold toLoki
    rw [hmapped]

theorem translateLabelsMap_of_settled {config : TranslatorConfig} (h' : learned'.LeavesOnly)
    {labels : Labels} (hlabels : ∀ name, (labels.find? name).isSome → config.Settled name) :
    (translateLabelsMap config order learned labels).1 =
      (translateLabelsMap config order learned' labels).1 := by
  unfold translateLabelsMap
  dsimp only
  split
  · rfl
  · refine foldl_ext _ _ _ fun result e he => ?_
    have hsettled : config.Settled e.1 := by
      rw [(order.perm _).mem_iff, SortedMap.mem_entries_iff] at he
      exact hlabels e.1 (by rw [he]; rfl)
    rw [translateLabel, translateLabel, toLoki_of_settled (h.learnFieldAliases _ _ _) hsettled,
      toLoki_of_settled (h'.learnFieldAliases _ _ _) hsettled]

variable {config : Option TranslatorConfig}

/-- What is learned later does not change the descriptor of a settled row. -/
theorem describe_of_settled (h' : learned'.LeavesOnly)
    (hrow : row.Settled config) (level : Bytes) :
    (describe config order learned (parseStreamLabelsUncached row.rawStream) level).1 =
      (describe config order learned' (parseStreamLabelsUncached row.rawStream) level).1 := by
  cases config with
  | none => rfl
  | some c =>
    unfold describe
    dsimp only
    split
    · rfl
    · next hpass =>
      have hnames := (hrow c rfl).resolve_left hpass
      rw [translateLabelsMap_of_settled h h' fun name => settled_rowLabels hnames]

theorem MayDescribe.relearn (h' : learned'.LeavesOnly)
    (hrow : row.Settled config) {d : Descriptor} (hd : MayDescribe config learned row d) :
    MayDescribe config learned' row d := by
  obtain ⟨order, rfl⟩ := hd
  refine ⟨order, ?_⟩
  rw [uncached_descriptor, uncached_descriptor]
  exact describe_of_settled h h' hrow _

theorem leavesOnly_describe (baseLabels : Labels) (level : Bytes) :
    (describe config order learned baseLabels level).2.LeavesOnly := by
  cases config with
  | none => exact h
  | some c =>
    unfold describe
    dsimp only
    split
    · exact h
    · unfold translateLabelsMap
      dsimp only
      split <;> exact h.learnFieldAliases _ _ _

end

/-! ## The caches -/

/-- The caches hold what the slow path computes without them, for rows that are clear. -/
structure DescriptorState.Consistent (config : Option TranslatorConfig) (s : DescriptorState) :
    Prop where
  leaves : s.learned.LeavesOnly
  process : ParsedOnly s.streamLabelsCache
  streams : ParsedOnly s.streamLabelCache
  descriptors : ∀ key d, s.descriptorCache.find? key = some d →
    ∃ row : StreamRow, row.Fits ∧ row.Settled config ∧ key = row.cacheKey ∧
      MayDescribe config s.learned row d

theorem consistent_uncached : (DescriptorState.uncached .nothing).Consistent config where
  leaves := leavesOnly_nothing
  process := parsedOnly_empty
  streams := parsedOnly_empty
  descriptors key d h := by cases h

namespace DescriptorState.Consistent

variable {config : Option TranslatorConfig} {s : DescriptorState}

section

variable (h : s.Consistent config)

include h

theorem miss (order : LoopOrder) (rawStream level cacheKey : Bytes) :
    ∃ process streams,
      logQueryStreamDescriptorMiss config order rawStream level cacheKey s =
        ((describe config order s.learned (parseStreamLabelsUncached rawStream) level).1,
          ⟨(describe config order s.learned (parseStreamLabelsUncached rawStream) level).2, process,
            streams, s.descriptorCache.insert cacheKey
              (describe config order s.learned (parseStreamLabelsUncached rawStream) level).1⟩) ∧
      ParsedOnly process ∧ ParsedOnly streams := by
  unfold logQueryStreamDescriptorMiss
  split
  · next baseLabels hbase =>
    rw [h.streams rawStream baseLabels hbase]
    exact ⟨s.streamLabelsCache, s.streamLabelCache, rfl, h.process, h.streams⟩
  · obtain ⟨hparsed, hprocess⟩ := parseStreamLabels_eq h.process rawStream
    dsimp only
    rw [hparsed]
    exact ⟨_, _, rfl, hprocess, h.streams.insert rawStream⟩

theorem descriptors_relearn {learned : Learned} (hlearned : learned.LeavesOnly) {key : Bytes}
    {d : Descriptor} (hd : s.descriptorCache.find? key = some d) :
    ∃ row : StreamRow, row.Fits ∧ row.Settled config ∧ key = row.cacheKey ∧
      MayDescribe config learned row d := by
  obtain ⟨row, hfits, hsettled, hkey, hmay⟩ := h.descriptors key d hd
  exact ⟨row, hfits, hsettled, hkey, hmay.relearn h.leaves hlearned hsettled⟩

/-- A consistent state answers with a descriptor of the row. -/
theorem answer (order : LoopOrder) {row : StreamRow} (hfits : row.Fits) :
    MayDescribe config s.learned row (logQueryStreamDescriptorBytes config order row s).1 := by
  unfold logQueryStreamDescriptorBytes
  split
  · next d hd =>
    -- the entry was stored for a row with this stream and this level
    obtain ⟨row', hfits', -, hkey, order', rfl⟩ := h.descriptors _ d hd
    obtain ⟨hstream, hlevel⟩ := StreamRow.cacheKey_inj hfits hfits' hkey
    refine ⟨order', ?_⟩
    rw [uncached_descriptor, uncached_descriptor, hstream, hlevel]
  · obtain ⟨process, streams, hmiss, -, -⟩ := h.miss order row.rawStream (trimSpaceBytes row.level)
      row.cacheKey
    rw [hmiss]
    exact ⟨order, rfl⟩

/-- Answering a settled row keeps the state consistent. -/
theorem rowStep (order : LoopOrder) {row : StreamRow} (hfits : row.Fits)
    (hsettled : row.Settled config) :
    (logQueryStreamDescriptorBytes config order row s).2.Consistent config := by
  unfold logQueryStreamDescriptorBytes
  split
  · exact h
  · obtain ⟨process, streams, hmiss, hprocess, hstreams⟩ := h.miss order row.rawStream
      (trimSpaceBytes row.level) row.cacheKey
    have hleaves : (describe config order s.learned (parseStreamLabelsUncached row.rawStream)
        (trimSpaceBytes row.level)).2.LeavesOnly := leavesOnly_describe h.leaves _ _
    rw [hmiss]
    refine ⟨hleaves, hprocess, hstreams, ?_⟩
    intro key d hd
    dsimp only at hd
    rw [KeyMap.find?_insert] at hd
    split at hd
    · next hkey =>
      refine ⟨row, hfits, hsettled, hkey, ?_⟩
      rw [← Option.some.inj hd]
      exact MayDescribe.relearn h.leaves hleaves hsettled ⟨order, rfl⟩
    · exact h.descriptors_relearn hleaves hd

/-- Every clear event keeps the state consistent. -/
theorem step {e : ResponseEvent} (he : e.Clear config) :
    (responseStep config s e).Consistent config := by
  cases e with
  | row order row => exact h.rowStep order he.1 he.2
  | learn order fields =>
    cases config with
    | none => exact h
    | some c =>
      have hleaves := h.leaves.learnFieldAliases c order fields
      exact ⟨hleaves, h.process, h.streams, fun key d hd => h.descriptors_relearn hleaves hd⟩
  | parse rawStream =>
    exact ⟨h.leaves, (parseStreamLabels_eq h.process rawStream).2, h.streams, h.descriptors⟩

end

end DescriptorState.Consistent

/-- In a response whose rows are all clear, every row gets a descriptor that the slow path gives
it with empty caches, and only rows with the same stream and trimmed level share an entry. -/
theorem descriptor_cache_transparent (config : Option TranslatorConfig)
    (events : List ResponseEvent) (hclear : ∀ e ∈ events, e.Clear config) :
    (∀ before order row behind, events = before ++ .row order row :: behind →
      let s := before.foldl (responseStep config) (.uncached .nothing)
      MayDescribe config s.learned row (logQueryStreamDescriptorBytes config order row s).1) ∧
    ∀ order order' row row', .row order row ∈ events → .row order' row' ∈ events →
      row.cacheKey = row'.cacheKey →
      row.rawStream = row'.rawStream ∧ trimSpaceBytes row.level = trimSpaceBytes row'.level := by
  refine ⟨?_, ?_⟩
  · rintro before order row behind rfl
    have hbefore : ∀ e ∈ before, e.Clear config := fun e he =>
      hclear e (mem_append_left _ he)
    have hs : (before.foldl (responseStep config) (.uncached .nothing)).Consistent config :=
      run_invariant_of_forall (fun _ _ hs he => hs.step he) (consistent_uncached config) hbefore
    have hrow := hclear (.row order row) (mem_append_right _ mem_cons_self)
    exact hs.answer order hrow.1
  · intro order order' row row' hmem hmem'
    exact StreamRow.cacheKey_inj (hclear _ hmem).1 (hclear _ hmem').1

/-- A stream with one label behind `n` opening braces, which parsing drops. -/
def bracedStream (n : Nat) (value : Char) : Bytes :=
  List.replicate n (byte '\x7b') ++ bytes "a=\"" ++ [byte value] ++ bytes "\"\x7d"

/-- Two rows of one stream at two levels. -/
def twoLevels : List ResponseEvent :=
  [.row .listed ⟨bracedStream 1 'y', bytes "info"⟩, .row .listed ⟨bracedStream 1 'y', bytes " warn"⟩]

theorem descriptor_cache_transparent_two_levels :
    (∀ e ∈ twoLevels, e.Clear none) ∧
      ∃ s : DescriptorState, MayDescribe none s.learned ⟨bracedStream 1 'y', bytes " warn"⟩
        (logQueryStreamDescriptorBytes none .listed ⟨bracedStream 1 'y', bytes " warn"⟩ s).1 ∧
        s.descriptorCache.size = 1 := by
  have hsettled : ∀ row : StreamRow, row.Settled none := by
    intro row c hc
    cases hc
  have hclear : ∀ e ∈ twoLevels, e.Clear none := by
    intro e he
    rcases mem_pair.mp he with rfl | rfl
    all_goals exact ⟨⟨by decide +kernel, by decide +kernel⟩, hsettled _⟩
  have hall := descriptor_cache_transparent none twoLevels hclear
  exact ⟨hclear, _, hall.1 [_] .listed _ [] rfl, by decide +kernel⟩

/-- The state behind the first row of a response. -/
def afterRow (row : StreamRow) : DescriptorState :=
  responseStep none (.uncached .nothing) (.row .listed row)

/-- A row whose stream differs from an earlier one only behind its first 512 bytes, and a row
whose level does not fit: both get the earlier row's labels. -/
theorem descriptor_cache_mixes_rows :
    ¬ MayDescribe none (afterRow ⟨bracedStream 512 'y', []⟩).learned ⟨bracedStream 512 'z', []⟩
      (logQueryStreamDescriptorBytes none .listed ⟨bracedStream 512 'z', []⟩
        (afterRow ⟨bracedStream 512 'y', []⟩)).1 ∧
    ¬ MayDescribe none (afterRow ⟨bracedStream 1 'y', []⟩).learned
      ⟨bracedStream 1 'y', List.replicate 512 (byte 'e')⟩
      (logQueryStreamDescriptorBytes none .listed ⟨bracedStream 1 'y', List.replicate 512 (byte 'e')⟩
        (afterRow ⟨bracedStream 1 'y', []⟩)).1 := by
  refine ⟨?_, ?_⟩
  all_goals
    rintro ⟨order, h⟩
    rw [uncached_descriptor, describe_none] at h
    revert h
    decide +kernel

end LokiVlProxy.Proxy
