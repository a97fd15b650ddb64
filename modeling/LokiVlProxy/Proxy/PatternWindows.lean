/-
  Proxy/PatternWindows.lean --- patterns mined window by window.

  Source: internal/proxy/patterns.go: patternWindowedSamplingConfig,
  fetchPatternsFromWindows, mergePatternResultEntries, tokenizePatternResultPattern,
  bestMergedPatternBucket, patternResultEntriesFromMaps; internal/proxy/postprocess.go:
  extractLogPatternsStreamWithStats, buildPatternResponse.

  Each window is mined on its own, and the entries of the windows are merged in the order in
  which they come in.
-/
import LokiVlProxy.Foundation.QueryEncoding
import LokiVlProxy.Proxy.PatternMiner
import LokiVlProxy.Proxy.QueryWindows

namespace LokiVlProxy.Proxy

open Foundation List KeyMap

/-! ## The windows -/

/-- The choices of `patternWindowedSamplingConfig` for a range in nanoseconds and a step in
seconds: the interval of the windows, the limit of each and the number of second passes. -/
def patternWindowedSamplingConfig (startNs endNs stepSeconds sourceLimit : Int) (dense : Bool) :
    Option (Int × Int × Int) :=
  let minute : Int := 60 * 10 ^ 9
  let span := endNs - startNs
  if sourceLimit ≤ 0 ∨ endNs ≤ startNs ∨ span < 20 * minute then none
  else
    let target := if dense then 45 * minute else 20 * minute
    let maxSource : Int := if dense then 4000 else 1000
    let minSource : Int := if dense ∧ 24 * 60 * minute ≤ span then maxSource else 200
    let maxSamples : Int := if dense then 64 else 96
    let stepNs := stepSeconds * 10 ^ 9
    let byStep (count : Int) : Int := if 0 < stepNs then max count (span.tdiv stepNs + 1) else count
    let short := dense ∧ 0 < stepSeconds ∧ span ≤ 6 * 60 * minute
    let count := span.tdiv target + 1
    let count := if short then min (byStep count) 20 else if dense then count else byStep count
    let count := min (max count 2) maxSamples
    let interval := span.tdiv count
    if interval ≤ 0 then none
    else some (interval, min (max (sourceLimit.tdiv count) minSource) maxSource,
      if short then 4 else 8)

variable (windows : List Window) (stepSeconds : Int)

/-- The end of what is read of a window.  The window that the list ends with is read one step
further. -/
def patternReadEnd (w : Window) : Int :=
  let endNs := w.endNs.toInt
  if windows.getLast?.map Window.endNs = some w.endNs then
    let stepNs := if stepSeconds * 10 ^ 9 ≤ 0 then 1 else stepSeconds * 10 ^ 9
    if 2 ^ 63 - 1 - endNs < stepNs then 2 ^ 63 - 1 else endNs + stepNs
  else endNs

/-- The bucket of a time. -/
def patternBucketOf (stepSeconds t : Int) : Int :=
  let unixSeconds := t / 10 ^ 9
  if 0 < stepSeconds then unixSeconds.tdiv stepSeconds * stepSeconds else unixSeconds

/-! ## Entries -/

/-- `patternResultEntry`. -/
structure PatternEntry where
  pattern : Bytes
  level : Bytes
  samples : List (Int × Nat)

/-- The count of a bucket. -/
def PatternEntry.countIn (e : PatternEntry) (bucket : Int) : Nat :=
  ((e.samples.find? fun s => s.1 = bucket).map Prod.snd).getD 0

/-- The samples of a map of counts, in the order of their times. -/
def patternSamples (counts : KeyMap Int Nat) : List (Int × Nat) :=
  counts.toList.insertionSort fun a b => a.1 ≤ b.1

theorem find?_patternSamples (counts : KeyMap Int Nat) (bucket : Int) :
    ((patternSamples counts).find? fun s => s.1 = bucket).map Prod.snd = counts.find? bucket := by
  have hmem : ∀ s, s ∈ patternSamples counts ↔ counts.find? s.1 = some s.2 := by
    intro s
    rw [patternSamples, mem_insertionSort]
    exact mem_toList
  cases hfound : (patternSamples counts).find? fun s => s.1 = bucket with
  | none =>
    have hnone := find?_eq_none.mp hfound
    cases hcount : counts.find? bucket with
    | none => rfl
    | some n => exact absurd (hnone (bucket, n) ((hmem _).mpr hcount)) (by simp)
  | some s =>
    have hs := (hmem s).mp (mem_of_find?_eq_some hfound)
    have hbucket : s.1 = bucket := by simpa using find?_some hfound
    rw [hbucket] at hs
    exact hs.symm

/-- The order of a response: larger totals first, then by level and by text. -/
def responseBefore (a b : Nat × Bytes × Bytes) : Prop :=
  b.1 < a.1 ∨ (a.1 = b.1 ∧ (a.2.1 < b.2.1 ∨ (a.2.1 = b.2.1 ∧ a.2.2 ≤ b.2.2)))
  deriving Decidable

/-- The limit of `buildPatternResponse`. -/
def patternResponseLimit (limit : Int) : Nat := if limit ≤ 0 then 50 else min limit.toNat 1000

section Entries

variable (classes : CharClasses)

def buildPatternResponse (miner : PatternMiner) (limit : Int) : List PatternEntry :=
  let sorted := miner.allClusters.insertionSort fun a b =>
    responseBefore (a.total, a.level, joinTokens a.tokens a.spacesAfter)
      (b.total, b.level, joinTokens b.tokens b.spacesAfter)
  (sorted.take (patternResponseLimit limit)).map fun c =>
    ⟨joinTokens c.tokens c.spacesAfter, c.level, patternSamples c.buckets⟩

/-- `extractLogPatternsStreamWithStats`, then `patternResultEntriesFromMaps`: what is mined
from the lines of a window. -/
def minedEntries (limit : Int) (observations : List Observation) : List PatternEntry :=
  (buildPatternResponse (observeAll classes observations) limit).filterMap fun e =>
    if trimSpaceBytes e.pattern = [] then none
    else some ⟨trimSpaceBytes e.pattern, trimSpaceBytes e.level, e.samples⟩

def patternResultPlaceholderSentinel : Bytes := bytes "__lvp_pattern_placeholder__"

/-- `strings.ReplaceAll` with the holes of a text. -/
def replaceHoles (by' : Bytes) : Bytes → Bytes
  | 60 :: 95 :: 62 :: text => by' ++ replaceHoles by' text
  | c :: text => c :: replaceHoles by' text
  | [] => []

def tokenizePatternResultPattern (pattern : Bytes) : Option (List Bytes × List Int) :=
  (tokenize classes (replaceHoles patternResultPlaceholderSentinel pattern)).map fun p =>
    (p.1.map fun t => if t = patternResultPlaceholderSentinel then patternVarPlaceholder else t, p.2)

structure MergedPatternBucket where
  level : Bytes
  tokens : List Bytes
  spacesAfter : List Int
  samples : KeyMap Int Nat
  total : Nat

/-- A sample is taken over where it is larger. -/
def MergedPatternBucket.addSample (b : MergedPatternBucket) (sample : Int × Nat) :
    MergedPatternBucket :=
  let old := (b.samples.find? sample.1).getD 0
  if old < sample.2 then
    { b with samples := b.samples.insert sample.1 sample.2, total := b.total + (sample.2 - old) }
  else b

def bestMergedPatternBucket (candidates : List MergedPatternBucket) (tokens : List Bytes) :
    Option Nat :=
  bestTemplate classes (candidates.map MergedPatternBucket.tokens) tokens

/-- The merged buckets by level and number of tokens. -/
abbrev MergedPatterns : Type := KeyMap (Bytes × Nat) (List MergedPatternBucket)

/-- The closure `add` of `mergePatternResultEntries`, for one item. -/
def addEntry (merged : MergedPatterns) (item : PatternEntry) : MergedPatterns :=
  let pattern := trimSpaceBytes item.pattern
  if pattern = [] then merged
  else
    let (tokens, spacesAfter) := (tokenizePatternResultPattern classes pattern).getD ([pattern], [])
    let level := trimSpaceBytes item.level
    let candidates := (merged.find? (level, tokens.length)).getD []
    merged.insert (level, tokens.length) <|
      match bestMergedPatternBucket classes candidates tokens with
      | none =>
        candidates ++ [item.samples.foldl MergedPatternBucket.addSample ⟨level, tokens, spacesAfter, ∅, 0⟩]
      | some i => candidates.modify i fun b => item.samples.foldl MergedPatternBucket.addSample
          { b with tokens := mergePatternTemplate classes b.tokens tokens }

def mergePatternResultEntries (base extra : List PatternEntry) : List PatternEntry :=
  if base = [] then extra
  else if extra = [] then base
  else
    let items := ((base ++ extra).foldl (addEntry classes) ∅).toList.flatMap Prod.snd
    let sorted := items.insertionSort fun a b =>
      responseBefore (a.total, a.level, joinTokens a.tokens a.spacesAfter)
        (b.total, b.level, joinTokens b.tokens b.spacesAfter)
    sorted.map fun b => ⟨joinTokens b.tokens b.spacesAfter, b.level, patternSamples b.samples⟩

/-- `fetchPatternsFromWindows`: the lines of the windows, in the order in which the fetches
complete, all of them without an error and below their limits. -/
def fetchPatternsFromWindows (limit : Int) (completed : List (List Observation)) :
    List PatternEntry :=
  completed.foldl (fun collected lines =>
    mergePatternResultEntries classes collected (minedEntries classes limit lines)) []

end Entries

/-! ## Lines of one text -/

/-- A text as the miner gets it, and a level: both are trimmed and the text is not blank. -/
structure MinedText where
  text : Bytes
  level : Bytes
  trimmed : trimSpaceBytes text = text
  front : text.head? ≠ some 32
  ne_nil : text ≠ []
  level_trimmed : trimSpaceBytes level = level

/-- A text in which nothing looks like a placeholder, and what it is cut into. -/
structure PlainText (classes : CharClasses) (text : Bytes) (tokens : List Bytes)
    (spaces : List Int) : Prop where
  tokenized : tokenize classes text = some (tokens, spaces)
  noHole : ¬ hole <:+: text
  noPlaceholder : ∀ t ∈ tokens, isPatternPlaceholder t = false
  noSentinel : ∀ t ∈ tokens, t ≠ patternResultPlaceholderSentinel

theorem replaceHoles_of_noHole (by' : Bytes) {text : Bytes} (h : ¬ hole <:+: text) :
    replaceHoles by' text = text := by
  fun_induction replaceHoles by' text with
  | case1 text _ => exact absurd ⟨[], text, rfl⟩ h
  | case2 c text _ ih =>
    rw [ih fun hrest => h (hrest.trans (suffix_cons c text).isInfix)]
  | case3 => rfl

theorem dedupHoles_of_noHole {text : Bytes} (h : ¬ hole <:+: text) : dedupHoles text = text := by
  induction text with
  | nil => rw [dedupHoles]
  | cons c text ih =>
    rw [dedupHoles_cons fun hfirst => h hfirst.isInfix,
      ih fun hrest => h (hrest.trans (suffix_cons c text).isInfix)]

theorem layout_of_noPlaceholder {tokens : List Bytes}
    (h : ∀ t ∈ tokens, isPatternPlaceholder t = false) (i : Int) (spaces : List Int) :
    layout joinedToken i tokens spaces = layout id i tokens spaces := by
  induction tokens generalizing i spaces with
  | nil => rfl
  | cons t tokens ih =>
    rw [layout, layout, ih (fun u hu => h u (mem_cons_of_mem t hu)), joinedToken,
      if_neg (by simp [h t mem_cons_self]), id]

section Same

variable {classes : CharClasses} {mined : MinedText} {tokens : List Bytes} {spaces : List Int}

section

variable (h : PlainText classes mined.text tokens spaces)

include h

/-- The pattern of a text without placeholders is the text. -/
theorem joinTokens_plain : joinTokens tokens spaces = mined.text := by
  have hlayout := layout_tokenize mined.front h.tokenized
  rw [joinTokens]
  split_ifs with hnil
  · rw [hnil] at hlayout
    exact hlayout
  · rw [layout_of_noPlaceholder h.noPlaceholder, hlayout, dedupHoles_of_noHole h.noHole]

theorem tokenizePatternResultPattern_plain :
    tokenizePatternResultPattern classes mined.text = some (tokens, spaces) := by
  have hmap : tokens.map (fun t =>
      if t = patternResultPlaceholderSentinel then patternVarPlaceholder else t) = tokens := by
    conv_rhs => rw [← map_id tokens]
    exact map_congr_left fun t ht => if_neg (h.noSentinel t ht)
  rw [tokenizePatternResultPattern, replaceHoles_of_noHole _ h.noHole, h.tokenized, Option.map_some,
    hmap]

end

theorem tokens_ne_nil (h : tokenize classes mined.text = some (tokens, spaces)) : tokens ≠ [] := by
  rintro rfl
  have hlayout := layout_tokenize mined.front h
  exact mined.ne_nil hlayout.symm

theorem mem_dedupHoles {text : Bytes} (h : 60 ∈ text) : 60 ∈ dedupHoles text := by
  fun_induction dedupHoles text with
  | case1 pattern ih => exact mem_append_left _ mem_cons_self
  | case2 c pattern _ ih =>
    rcases mem_cons.mp h with rfl | h
    · exact mem_cons_self
    · exact mem_cons_of_mem c (ih h)
  | case3 => exact h

theorem mem_layout_joinedToken {t : Bytes} (ht : isPatternPlaceholder t = true) (hmem : t ∈ tokens)
    (i : Int) (spaces : List Int) : 60 ∈ layout joinedToken i tokens spaces := by
  induction tokens generalizing i spaces with
  | nil => exact absurd hmem not_mem_nil
  | cons u tokens ih =>
    rw [layout]
    rcases mem_cons.mp hmem with rfl | hmem
    · rw [joinedToken, if_pos ht]
      exact mem_append_left _ (by decide)
    · exact mem_append_right _ (mem_append_right _ (ih hmem _ _))

/-- What a line is written as has something in it: a placeholder, or the line itself. -/
theorem joinTokens_notBlank (h : tokenize classes mined.text = some (tokens, spaces)) :
    trimSpaceBytes (joinTokens tokens spaces) ≠ [] := by
  rw [joinTokens, if_neg (tokens_ne_nil h)]
  by_cases hplaceholder : ∃ t ∈ tokens, isPatternPlaceholder t = true
  · obtain ⟨t, hmem, ht⟩ := hplaceholder
    exact trimSpaceBytes_ne_nil (mem_dedupHoles (mem_layout_joinedToken ht hmem 0 spaces)) rfl
  · have hnone : ∀ t ∈ tokens, isPatternPlaceholder t = false := by simpa using hplaceholder
    rw [layout_of_noPlaceholder hnone, layout_tokenize mined.front h]
    by_cases hhole : hole <:+: mined.text
    · exact trimSpaceBytes_ne_nil (mem_dedupHoles (hhole.subset mem_cons_self)) rfl
    · rw [dedupHoles_of_noHole hhole, mined.trimmed]
      exact mined.ne_nil

theorem mem_zip_self {t u : Bytes} {tokens : List Bytes} (h : (t, u) ∈ tokens.zip tokens) :
    t = u ∧ t ∈ tokens := by
  rw [zip_eq_zipWith, zipWith_self, mem_map] at h
  obtain ⟨v, hv, heq⟩ := h
  obtain ⟨rfl, rfl⟩ := Prod.mk.inj heq
  exact ⟨rfl, hv⟩

theorem not_matches_self {t : Bytes} (h : isPatternPlaceholder t = false) :
    patternPlaceholderMatchesToken classes t t = false := by
  have hne : ∀ p ∈ patternPlaceholders, t ≠ p := by
    rintro p hp rfl
    rw [isPatternPlaceholder, contains_iff_mem.mpr hp] at h
    exact absurd h (by decide)
  rw [patternPlaceholderMatchesToken]
  split_ifs with hnil hvar
  · rfl
  · exact absurd hvar (hne _ mem_cons_self)
  · refine decide_eq_false fun heq => ?_
    rcases patternPlaceholderForToken_eq classes t with hempty | hplaceholder
    · exact hnil (heq.trans hempty)
    · rw [← heq, h] at hplaceholder
      exact absurd hplaceholder (by decide)

/-- Tokens without placeholders are most like themselves. -/
theorem bestTemplate_self (hne : tokens ≠ []) (h : ∀ t ∈ tokens, isPatternPlaceholder t = false) :
    bestTemplate classes [tokens] tokens = some 0 := by
  have hcompat : patternPrefixCompatible classes tokens tokens = true := by
    rw [patternPrefixCompatible, if_neg (by simp [hne])]
    refine all_eq_true.mpr fun p hp => ?_
    have heq := (mem_zip_self (mem_of_mem_take hp)).1
    simp [heq]
  have hsimilar : getPatternSimilarity classes tokens tokens = some (tokens.length, 0) := by
    rw [getPatternSimilarity, if_neg (by simp [hne])]
    have hparams : (tokens.zip tokens).countP
        (fun p => patternPlaceholderMatchesToken classes p.1 p.2) = 0 := by
      refine countP_eq_zero.mpr fun p hp => ?_
      obtain ⟨heq, hmem⟩ := mem_zip_self hp
      rw [← heq, not_matches_self (h p.1 hmem)]
      exact Bool.false_ne_true
    have hequal : (tokens.zip tokens).countP (fun p =>
        !(patternPlaceholderMatchesToken classes p.1 p.2) && decide (p.1 = p.2)) = tokens.length := by
      have hall : ∀ p ∈ tokens.zip tokens,
          (!(patternPlaceholderMatchesToken classes p.1 p.2) && decide (p.1 = p.2)) = true := by
        intro p hp
        obtain ⟨heq, hmem⟩ := mem_zip_self hp
        rw [← heq, not_matches_self (h p.1 hmem)]
        simp
      rw [countP_eq_length.mpr hall, length_zip, Nat.min_self]
    simp only [hparams, hequal]
  rw [bestTemplate]
  simp only [zipIdx_cons, zipIdx_nil, foldl_cons, foldl_nil, considerTemplate,
    hcompat, if_true, hsimilar]
  rw [if_pos (by omega)]

/-- The miner finds a line with these tokens like an earlier one. -/
def SelfSimilar (classes : CharClasses) (tokens : List Bytes) : Prop :=
  bestTemplate classes [tokens] tokens = some 0
  deriving Decidable

theorem PlainText.selfSimilar (h : PlainText classes mined.text tokens spaces) :
    SelfSimilar classes tokens :=
  bestTemplate_self (tokens_ne_nil h.tokenized) h.noPlaceholder

/-- A line that is not like itself is like none of the lines before it. -/
theorem bestTemplate_apart {templates : List (List Bytes)} (hall : ∀ t ∈ templates, t = tokens)
    (h : ¬ SelfSimilar classes tokens) : bestTemplate classes templates tokens = none := by
  have hfew : ∀ equal params, patternPrefixCompatible classes tokens tokens = true →
      getPatternSimilarity classes tokens tokens = some (equal, params) →
      ¬ 3 * tokens.length ≤ 10 * equal := by
    intro equal params hcompat hsimilar hle
    refine h ?_
    rw [SelfSimilar, bestTemplate]
    simp only [zipIdx_cons, zipIdx_nil, foldl_cons, foldl_nil, considerTemplate, hcompat, if_true,
      hsimilar]
    rw [if_pos hle]
  have hfold : ∀ b ∈ templates.zipIdx.foldl (considerTemplate classes tokens) none,
      ¬ 3 * tokens.length ≤ 10 * b.equal := by
    have hnone : ∀ b ∈ (none : Option BestTemplate), ¬ 3 * tokens.length ≤ 10 * b.equal :=
      fun b hb => absurd hb (Option.not_mem_none b)
    refine foldlRecOn (motive := fun best : Option BestTemplate =>
      ∀ b ∈ best, ¬ 3 * tokens.length ≤ 10 * b.equal)
      templates.zipIdx _ hnone fun best hbest p hp => ?_
    rw [considerTemplate, hall p.1 (fst_mem_of_mem_zipIdx hp)]
    split
    · next hcompat =>
      split
      · exact hbest
      · next equal params hsimilar =>
        have hnew : ∀ b ∈ some (BestTemplate.mk p.2 equal params),
            ¬ 3 * tokens.length ≤ 10 * b.equal := by
          intro b hb
          rw [← Option.mem_some_iff.mp hb]
          exact hfew equal params hcompat hsimilar
        split
        · exact hnew
        · split_ifs
          · exact hnew
          · exact hbest
    · exact hbest
  rw [bestTemplate]
  split
  · rfl
  · next best hbest => rw [if_neg (hfold best hbest)]

/-- A text merged with itself is unchanged. -/
theorem merge_self : mergePatternTemplate classes tokens tokens = tokens := by
  rw [mergePatternTemplate, if_neg (by simp)]
  induction tokens with
  | nil => rfl
  | cons t tokens ih => rw [zipWith_cons_cons, if_pos rfl, ih]

/-- The line in a bucket. -/
def MinedText.observed (mined : MinedText) (bucket : Int) : Observation :=
  ⟨mined.level, mined.text, bucket⟩

/-- An entry of the text's level with these counts, one sample a bucket. -/
structure PatternEntry.Same (mined : MinedText) (pattern : Bytes) (counts : Int → Nat)
    (e : PatternEntry) : Prop where
  pattern : e.pattern = pattern
  level : e.level = mined.level
  nodup : (e.samples.map Prod.fst).Nodup
  counts : ∀ bucket, e.countIn bucket = counts bucket

theorem nodup_patternSamples (counts : KeyMap Int Nat) :
    ((patternSamples counts).map Prod.fst).Nodup :=
  ((perm_insertionSort _ _).map Prod.fst).nodup_iff.mpr counts.nodup_keys

theorem countIn_patternSamples (pattern level : Bytes) (counts : KeyMap Int Nat) (bucket : Int) :
    PatternEntry.countIn ⟨pattern, level, patternSamples counts⟩ bucket =
      (counts.find? bucket).getD 0 :=
  congrArg (·.getD 0) (find?_patternSamples counts bucket)

/-- The one cluster that lines of one text make. -/
structure PatternBucket.Only (mined : MinedText) (tokens : List Bytes) (spaces : List Int)
    (buckets : List Int) (c : PatternBucket) : Prop where
  tokens : c.tokens = tokens
  spaces : c.spacesAfter = spaces
  level : c.level = mined.level
  counts : ∀ bucket, c.count bucket = buckets.count bucket

theorem count_concat (buckets : List Int) (b bucket : Int) :
    (buckets ++ [b]).count bucket = buckets.count bucket + if b = bucket then 1 else 0 := by
  rw [count_append, count_singleton]
  simp [beq_iff_eq]

variable {buckets : List Int} {completed : List (List Int)}

/-- Lines of one text make one cluster, with their counts. -/
theorem observeAll_same (htokens : tokenize classes mined.text = some (tokens, spaces))
    (hself : buckets.length ≤ 1 ∨ SelfSimilar classes tokens) (hne : buckets ≠ []) :
    ∃ c : PatternBucket, c.Only mined tokens spaces buckets ∧
      ∀ key, (observeAll classes (buckets.map mined.observed)).find? key =
        if key = groupKey classes mined.level tokens then some [c] else none := by
  induction buckets using List.reverseRecOn with
  | nil => exact absurd rfl hne
  | append_singleton buckets b ih =>
    rw [map_append, map_singleton, observeAll, foldl_concat, observe]
    simp only [MinedText.observed, htokens, find?_insert]
    cases hbuckets : buckets with
    | nil =>
      refine ⟨(newCluster (mined.observed b) tokens spaces).counted (mined.observed b),
        ⟨rfl, rfl, rfl, fun bucket => ?_⟩, fun key => rfl⟩
      rw [PatternBucket.count_counted, count_concat]
      rfl
    | cons b' rest =>
      have hself : SelfSimilar classes tokens := hself.resolve_left (by simp [hbuckets])
      obtain ⟨c, hc, hfind⟩ := ih (.inr hself) (by rw [hbuckets]; exact cons_ne_nil _ _)
      rw [← hbuckets]
      rw [observeAll] at hfind
      refine ⟨(c.merged classes tokens).counted (mined.observed b), ⟨?_, hc.spaces, hc.level, ?_⟩, ?_⟩
      · show mergePatternTemplate classes c.tokens tokens = tokens
        rw [hc.tokens, merge_self]
      · intro bucket
        rw [PatternBucket.count_counted, count_concat, ← hc.counts]
        rfl
      · intro key
        have hbest : bestPatternCluster classes [c] tokens = some 0 := by
          rw [bestPatternCluster, map_singleton, hc.tokens]
          exact hself
        have hgroup := (hfind (groupKey classes mined.level tokens)).trans (if_pos rfl)
        rw [hgroup, Option.getD_some, observeIn, hbest]
        split_ifs with hkey
        · rfl
        · rw [hfind key, if_neg hkey]

theorem patternResponseLimit_pos (limit : Int) : 0 < patternResponseLimit limit := by
  rw [patternResponseLimit]
  split_ifs <;> omega

/-- Lines of a text that is like itself are mined as one entry, with their counts; and so is a
single line. -/
theorem mined_same (htokens : tokenize classes mined.text = some (tokens, spaces))
    (hself : buckets.length ≤ 1 ∨ SelfSimilar classes tokens) (limit : Int) (hne : buckets ≠ []) :
    ∃ e : PatternEntry, minedEntries classes limit (buckets.map mined.observed) = [e] ∧
      e.Same mined (trimSpaceBytes (joinTokens tokens spaces)) fun bucket =>
        buckets.count bucket := by
  obtain ⟨c, hc, hfind⟩ := observeAll_same htokens hself hne
  have hclusters : (observeAll classes (buckets.map mined.observed)).allClusters = [c] := by
    rw [PatternMiner.allClusters, toList_eq_singleton hfind]
    rfl
  refine ⟨⟨trimSpaceBytes (joinTokens tokens spaces), mined.level, patternSamples c.buckets⟩, ?_,
    rfl, rfl, nodup_patternSamples _, fun bucket => ?_⟩
  · have htake : [c].take (patternResponseLimit limit) = [c] :=
      take_of_length_le (patternResponseLimit_pos limit)
    rw [minedEntries, buildPatternResponse, hclusters]
    simp only [insertionSort_cons, insertionSort_nil, orderedInsert_nil, htake,
      map_cons, map_nil, filterMap_cons, filterMap_nil, hc.tokens, hc.spaces,
      if_neg (joinTokens_notBlank htokens), hc.level, mined.level_trimmed]
  · rw [countIn_patternSamples]
    exact hc.counts bucket

theorem mined_nil (classes : CharClasses) (limit : Int) : minedEntries classes limit [] = [] := by
  have hnone : (observeAll classes []).allClusters = [] := rfl
  rw [minedEntries, buildPatternResponse, hnone, insertionSort_nil, take_nil, map_nil,
    filterMap_nil]

theorem observeAll_of_refused (h : tokenize classes mined.text = none) (buckets : List Int) :
    observeAll classes (buckets.map mined.observed) = ∅ := by
  induction buckets using List.reverseRecOn with
  | nil => rfl
  | append_singleton buckets b ih =>
    rw [map_append, map_singleton, observeAll, foldl_concat, ← observeAll, ih, observe]
    simp only [MinedText.observed, h]

/-- Lines that the tokenizer refuses are not mined. -/
theorem mined_of_refused (h : tokenize classes mined.text = none) (limit : Int)
    (buckets : List Int) : minedEntries classes limit (buckets.map mined.observed) = [] := by
  have hnone := mined_nil classes limit
  rw [minedEntries] at hnone ⊢
  rwa [observeAll_of_refused h]

/-- A cluster of a single line. -/
structure PatternBucket.Alone (tokens : List Bytes) (c : PatternBucket) : Prop where
  tokens : c.tokens = tokens
  count : ∃ b, ∀ bucket, c.count bucket = if b = bucket then 1 else 0

/-- Each line of a text that is not similar to itself makes a cluster of its own. -/
theorem observeAll_apart (htokens : tokenize classes mined.text = some (tokens, spaces))
    (hself : ¬ SelfSimilar classes tokens) {key : GroupKey} {clusters : List PatternBucket}
    (hfind : (observeAll classes (buckets.map mined.observed)).find? key = some clusters) :
    ∀ c ∈ clusters, c.Alone tokens := by
  induction buckets using List.reverseRecOn generalizing key clusters with
  | nil => cases hfind
  | append_singleton buckets b ih =>
    rw [map_append, map_singleton, observeAll, foldl_concat, ← observeAll, observe] at hfind
    simp only [MinedText.observed, htokens, find?_insert] at hfind
    split_ifs at hfind with hkey
    · have hold : ∀ c ∈ ((observeAll classes (buckets.map mined.observed)).find?
          (groupKey classes mined.level tokens)).getD [], c.Alone tokens := by
        cases hgroup : (observeAll classes (buckets.map mined.observed)).find?
            (groupKey classes mined.level tokens) with
        | none => exact forall_mem_nil _
        | some group => exact ih hgroup
      have hbest : bestPatternCluster classes (((observeAll classes (buckets.map mined.observed)).find?
          (groupKey classes mined.level tokens)).getD []) tokens = none := by
        refine bestTemplate_apart (fun t ht => ?_) hself
        obtain ⟨c, hc, rfl⟩ := mem_map.mp ht
        exact (hold c hc).tokens
      obtain rfl := Option.some.inj hfind
      rw [observeIn, hbest]
      intro c hc
      rcases mem_append.mp hc with hc | hc
      · exact hold c hc
      · rw [mem_singleton.mp hc]
        refine ⟨rfl, b, fun bucket => ?_⟩
        rw [PatternBucket.count_counted]
        exact Nat.zero_add _
    · exact ih hfind

/-- Lines of a text that is not like itself are mined one by one. -/
theorem mined_apart (htokens : tokenize classes mined.text = some (tokens, spaces))
    (hself : ¬ SelfSimilar classes tokens) {limit : Int} {e : PatternEntry}
    (he : e ∈ minedEntries classes limit (buckets.map mined.observed)) :
    ∃ b, ∀ bucket, e.countIn bucket = if b = bucket then 1 else 0 := by
  rw [minedEntries, buildPatternResponse, mem_filterMap] at he
  obtain ⟨shown, hshown, hkept⟩ := he
  split_ifs at hkept
  obtain rfl := Option.some.inj hkept
  obtain ⟨c, hc, rfl⟩ := mem_map.mp hshown
  have hmem := (mem_insertionSort _).mp (mem_of_mem_take hc)
  obtain ⟨⟨key, clusters⟩, hgroup, hcluster⟩ := mem_flatMap.mp hmem
  obtain ⟨b, hb⟩ := (observeAll_apart htokens hself (mem_toList.mp hgroup) c hcluster).count
  refine ⟨b, fun bucket => ?_⟩
  rw [countIn_patternSamples]
  exact hb bucket

/-! ## Merging -/

/-- The count that a merged bucket has. -/
def MergedPatternBucket.count (b : MergedPatternBucket) (bucket : Int) : Nat :=
  (b.samples.find? bucket).getD 0

theorem count_addSample (b : MergedPatternBucket) (sample : Int × Nat) (bucket : Int) :
    (b.addSample sample).count bucket =
      if bucket = sample.1 then max (b.count bucket) sample.2 else b.count bucket := by
  rw [MergedPatternBucket.addSample, MergedPatternBucket.count]
  split_ifs with hlarger hbucket hbucket
  · rw [find?_insert, if_pos hbucket, Option.getD_some, MergedPatternBucket.count, hbucket,
      max_eq_right (Nat.le_of_lt hlarger)]
  · rw [find?_insert, if_neg hbucket, MergedPatternBucket.count]
  · rw [MergedPatternBucket.count, hbucket, max_eq_left (Nat.not_lt.mp hlarger)]
  · rfl

/-- A merged bucket counts the larger of its own count and that of the sample. -/
theorem count_foldl_addSample {samples : List (Int × Nat)} (hnodup : (samples.map Prod.fst).Nodup)
    (b : MergedPatternBucket) (bucket : Int) :
    (samples.foldl MergedPatternBucket.addSample b).count bucket =
      max (b.count bucket) (((samples.find? fun s => s.1 = bucket).map Prod.snd).getD 0) := by
  induction samples generalizing b with
  | nil => simp
  | cons s samples ih =>
    rw [map_cons, nodup_cons] at hnodup
    rw [foldl_cons, ih hnodup.2, count_addSample, find?_cons]
    by_cases hbucket : s.1 = bucket
    · have hnone : samples.find? (fun s => s.1 = bucket) = none := by
        refine find?_eq_none.mpr fun t ht => ?_
        rw [decide_eq_true_iff]
        rintro rfl
        exact hnodup.1 (hbucket ▸ mem_map_of_mem ht)
      simp [hbucket, hnone]
    · simp [hbucket, Ne.symm hbucket]

theorem foldl_addSample_fixed (samples : List (Int × Nat)) (b : MergedPatternBucket) :
    (samples.foldl MergedPatternBucket.addSample b).level = b.level ∧
      (samples.foldl MergedPatternBucket.addSample b).tokens = b.tokens ∧
      (samples.foldl MergedPatternBucket.addSample b).spacesAfter = b.spacesAfter := by
  induction samples generalizing b with
  | nil => exact ⟨rfl, rfl, rfl⟩
  | cons s samples ih =>
    obtain ⟨hlevel, htokens, hspaces⟩ := ih (b.addSample s)
    have hsame : (b.addSample s).level = b.level ∧ (b.addSample s).tokens = b.tokens ∧
        (b.addSample s).spacesAfter = b.spacesAfter := by
      rw [MergedPatternBucket.addSample]
      split_ifs <;> exact ⟨rfl, rfl, rfl⟩
    exact ⟨hlevel.trans hsame.1, htokens.trans hsame.2.1, hspaces.trans hsame.2.2⟩

/-- Two entries of one plain text are merged into one, and the larger counts stay. -/
theorem merge_same (h : PlainText classes mined.text tokens spaces) {f g : Int → Nat}
    {e e' : PatternEntry} (he : e.Same mined mined.text f) (he' : e'.Same mined mined.text g) :
    ∃ m : PatternEntry, mergePatternResultEntries classes [e] [e'] = [m] ∧
      m.Same mined mined.text fun bucket => max (f bucket) (g bucket) := by
  let b₁ := e.samples.foldl MergedPatternBucket.addSample ⟨mined.level, tokens, spaces, ∅, 0⟩
  let b₂ := e'.samples.foldl MergedPatternBucket.addSample
    { b₁ with tokens := mergePatternTemplate classes b₁.tokens tokens }
  obtain ⟨hlevel₁, htokens₁, hspaces₁⟩ := foldl_addSample_fixed e.samples
    ⟨mined.level, tokens, spaces, ∅, 0⟩
  obtain ⟨hlevel₂, htokens₂, hspaces₂⟩ := foldl_addSample_fixed e'.samples
    { b₁ with tokens := mergePatternTemplate classes b₁.tokens tokens }
  have hfirst : addEntry classes ∅ e =
      (∅ : MergedPatterns).insert (mined.level, tokens.length) [b₁] := by
    rw [addEntry, he.pattern, he.level, mined.trimmed, if_neg mined.ne_nil,
      tokenizePatternResultPattern_plain h, mined.level_trimmed]
    rfl
  have hbest : bestMergedPatternBucket classes [b₁] tokens = some 0 := by
    rw [bestMergedPatternBucket, map_singleton, htokens₁]
    exact h.selfSimilar
  have hsecond : addEntry classes (addEntry classes ∅ e) e' =
      ((∅ : MergedPatterns).insert (mined.level, tokens.length) [b₁]).insert
        (mined.level, tokens.length) [b₂] := by
    rw [hfirst, addEntry, he'.pattern, he'.level, mined.trimmed, if_neg mined.ne_nil,
      tokenizePatternResultPattern_plain h, mined.level_trimmed]
    simp only [Option.getD_some, find?_insert_self, hbest]
    rfl
  have hitems : (([e] ++ [e']).foldl (addEntry classes) ∅).toList.flatMap Prod.snd = [b₂] := by
    have hlist : (((∅ : MergedPatterns).insert (mined.level, tokens.length) [b₁]).insert
        (mined.level, tokens.length) [b₂]).toList = [((mined.level, tokens.length), [b₂])] := by
      refine toList_eq_singleton fun key => ?_
      rw [find?_insert, find?_insert]
      split_ifs <;> rfl
    rw [singleton_append, foldl_cons, foldl_cons, foldl_nil, hsecond, hlist]
    rfl
  have htokens : b₂.tokens = tokens := by
    refine htokens₂.trans ?_
    show mergePatternTemplate classes b₁.tokens tokens = tokens
    rw [show b₁.tokens = tokens from htokens₁, merge_self]
  have hjoin : joinTokens b₂.tokens b₂.spacesAfter = mined.text := by
    rw [htokens, show b₂.spacesAfter = spaces from hspaces₂.trans hspaces₁, joinTokens_plain h]
  refine ⟨⟨mined.text, mined.level, patternSamples b₂.samples⟩, ?_, rfl, rfl,
    nodup_patternSamples _, fun bucket => ?_⟩
  · rw [mergePatternResultEntries, if_neg (cons_ne_nil _ _), if_neg (cons_ne_nil _ _), hitems]
    simp only [insertionSort_cons, insertionSort_nil, orderedInsert_nil,
      map_cons, map_nil, hjoin]
    rw [show b₂.level = mined.level from hlevel₂.trans hlevel₁]
  · rw [countIn_patternSamples]
    have hcount₂ := count_foldl_addSample he'.nodup
      { b₁ with tokens := mergePatternTemplate classes b₁.tokens tokens } bucket
    have hcount₁ := count_foldl_addSample he.nodup ⟨mined.level, tokens, spaces, ∅, 0⟩ bucket
    have hzero : MergedPatternBucket.count ⟨mined.level, tokens, spaces, ∅, 0⟩ bucket = 0 := rfl
    rw [hzero, Nat.zero_max] at hcount₁
    refine hcount₂.trans ?_
    rw [← he.counts bucket, ← he'.counts bucket]
    exact congrArg (max · _) hcount₁

/-! ## All windows -/

/-- The largest count of a bucket in any of these windows. -/
def largestCount (completed : List (List Int)) (bucket : Int) : Nat :=
  completed.foldl (fun n buckets => max n (buckets.count bucket)) 0

theorem le_foldl_max (h : buckets ∈ completed) (bucket : Int) (n : Nat) :
    n ≤ completed.foldl (fun n buckets => max n (buckets.count bucket)) n ∧
      buckets.count bucket ≤ completed.foldl (fun n buckets => max n (buckets.count bucket)) n := by
  have hmono : ∀ (completed : List (List Int)) (n : Nat),
      n ≤ completed.foldl (fun n buckets => max n (buckets.count bucket)) n := by
    intro completed
    induction completed with
    | nil => exact fun n => le_refl n
    | cons first completed ih => exact fun n => (le_max_left _ _).trans (ih _)
  refine ⟨hmono completed n, ?_⟩
  induction completed generalizing n with
  | nil => exact absurd h not_mem_nil
  | cons first completed ih =>
    rcases mem_cons.mp h with rfl | h
    · exact (le_max_right _ _).trans (hmono completed _)
    · exact ih h _

theorem largestCount_mem {bucket : Int} (h : 0 < largestCount completed bucket) :
    ∃ buckets ∈ completed, buckets.count bucket = largestCount completed bucket := by
  have hfold : ∀ (completed : List (List Int)) (n : Nat),
      completed.foldl (fun n buckets => max n (buckets.count bucket)) n = n ∨
        ∃ buckets ∈ completed, buckets.count bucket =
          completed.foldl (fun n buckets => max n (buckets.count bucket)) n := by
    intro completed
    induction completed with
    | nil => exact fun n => Or.inl rfl
    | cons first completed ih =>
      intro n
      rcases ih (max n (first.count bucket)) with heq | ⟨buckets, hmem, heq⟩
      · rcases max_choice n (first.count bucket) with hmax | hmax
        · exact Or.inl (heq.trans hmax)
        · exact Or.inr ⟨first, mem_cons_self, (heq.trans hmax).symm⟩
      · exact Or.inr ⟨buckets, mem_cons_of_mem first hmem, heq⟩
  rcases hfold completed 0 with hzero | hmem
  · rw [largestCount, hzero] at h
    exact absurd h (lt_irrefl 0)
  · exact hmem

/-- The windows of one plain text give one entry, with the largest count that a window has of
each bucket; or none, when no window has a line. -/
theorem fetched_same (h : PlainText classes mined.text tokens spaces) (limit : Int)
    (completed : List (List Int)) :
    (fetchPatternsFromWindows classes limit (completed.map fun buckets => buckets.map mined.observed) = [] ∧
        ∀ bucket, largestCount completed bucket = 0) ∨
      ∃ e : PatternEntry, fetchPatternsFromWindows classes limit
          (completed.map fun buckets => buckets.map mined.observed) = [e] ∧
        e.Same mined mined.text (largestCount completed) := by
  induction completed using List.reverseRecOn with
  | nil => exact Or.inl ⟨rfl, fun _ => rfl⟩
  | append_singleton completed buckets ih =>
    have hlargest : ∀ bucket, largestCount (completed ++ [buckets]) bucket =
        max (largestCount completed bucket) (buckets.count bucket) := fun bucket => by
      rw [largestCount, foldl_concat, largestCount]
    rw [fetchPatternsFromWindows, map_append, map_singleton, foldl_concat]
    rw [fetchPatternsFromWindows] at ih
    by_cases hne : buckets = []
    · -- a window without lines adds nothing
      have hsame : largestCount (completed ++ [buckets]) = largestCount completed := by
        funext bucket
        rw [hlargest, hne, count_nil, Nat.max_zero]
      rw [hsame, hne, map_nil, mined_nil]
      rcases ih with ⟨hnil, hzero⟩ | ⟨e, he, hcounts⟩
      · exact Or.inl ⟨by rw [hnil]; rfl, hzero⟩
      · exact Or.inr ⟨e, by rw [he]; rfl, hcounts⟩
    · obtain ⟨e', hmined, he'⟩ := mined_same h.tokenized (.inr h.selfSimilar) limit hne
      rw [joinTokens_plain h, mined.trimmed] at he'
      rw [hmined]
      refine Or.inr ?_
      rcases ih with ⟨hnil, hzero⟩ | ⟨e, he, hcounts⟩
      · refine ⟨e', by rw [hnil]; rfl, he'.pattern, he'.level, he'.nodup, fun bucket => ?_⟩
        rw [he'.counts, hlargest, hzero, Nat.zero_max]
      · rw [he]
        obtain ⟨m, hm, hcounts'⟩ := merge_same h hcounts he'
        exact ⟨m, hm, hcounts'.pattern, hcounts'.level, hcounts'.nodup, fun bucket => by
          rw [hcounts'.counts, hlargest]⟩

end Same

/-! ## What the merged entry counts -/

/-- A time lies in what is read of a window. -/
def readBy (w : Window) (t : Int) : Prop :=
  w.startNs.toInt ≤ t ∧ t ≤ patternReadEnd windows stepSeconds w
  deriving Decidable

variable (times : List Int)

/-- The buckets of the lines that are read of a window. -/
def bucketsRead (w : Window) : List Int :=
  (times.filter fun t => readBy windows stepSeconds w t).map (patternBucketOf stepSeconds)

/-- The answer has one entry, of this level, which has in every bucket the number of lines whose
time is in it; or there are no lines and no entry. -/
def CountsOnce (mined : MinedText) (stepSeconds : Int) (times : List Int)
    (entries : List PatternEntry) : Prop :=
  (times = [] ∧ entries = []) ∨ ∃ e, entries = [e] ∧ e.level = mined.level ∧
    ∀ bucket, e.countIn bucket = (times.map (patternBucketOf stepSeconds)).count bucket

/-- All lines of a bucket are read of one window. -/
def BucketsWhole : Prop :=
  ∀ t ∈ times, ∃ w ∈ windows, ∀ u ∈ times,
    patternBucketOf stepSeconds u = patternBucketOf stepSeconds t → readBy windows stepSeconds w u

/-- All lines are read of one window, and of no other. -/
def ReadByOne : Prop :=
  ∃ before w after, windows = before ++ w :: after ∧ (∀ t ∈ times, readBy windows stepSeconds w t) ∧
    ∀ w' ∈ before ++ after, ∀ t ∈ times, ¬ readBy windows stepSeconds w' t

/-- The miner makes one entry of lines of this text at these times: the tokenizer accepts it, and
there is one line only, or the text is like itself. -/
def MinedAsOne (classes : CharClasses) (text : Bytes) (times : List Int) : Prop :=
  ∃ tokens spaces, tokenize classes text = some (tokens, spaces) ∧
    (times.length ≤ 1 ∨ SelfSimilar classes tokens)

theorem count_bucketsRead_le
    (w : Window) (bucket : Int) : (bucketsRead windows stepSeconds times w).count bucket ≤
      (times.map (patternBucketOf stepSeconds)).count bucket :=
  ((filter_sublist).map _).count_le bucket

/-- A window counts all lines of a bucket exactly when it has them all. -/
theorem count_bucketsRead_eq_iff {windows : List Window} {stepSeconds : Int} {times : List Int}
    {w : Window} {bucket : Int} : (bucketsRead windows stepSeconds times w).count bucket =
        (times.map (patternBucketOf stepSeconds)).count bucket ↔
      ∀ u ∈ times, patternBucketOf stepSeconds u = bucket → readBy windows stepSeconds w u := by
  induction times with
  | nil => simp [bucketsRead]
  | cons t times ih =>
    have hle := count_bucketsRead_le windows stepSeconds times w bucket
    rw [bucketsRead] at ih hle ⊢
    rw [forall_mem_cons, filter_cons, map_cons]
    by_cases hread : readBy windows stepSeconds w t
    · rw [if_pos (decide_eq_true hread), map_cons, count_cons, count_cons,
        Nat.add_right_cancel_iff, ih]
      exact ⟨fun hall => ⟨fun _ => hread, hall⟩, fun hall => hall.2⟩
    · rw [if_neg (by simpa using hread), count_cons]
      by_cases hbucket : patternBucketOf stepSeconds t = bucket
      · rw [if_pos (by simpa using hbucket)]
        constructor
        · intro heq
          omega
        · exact fun hall => absurd (hall.1 hbucket) hread
      · rw [if_neg (by simpa using hbucket), Nat.add_zero, ih]
        exact ⟨fun hall => ⟨fun heq => absurd heq hbucket, hall⟩, fun hall => hall.2⟩

section Counting

variable {classes : CharClasses} {mined : MinedText} {stepSeconds : Int} {times : List Int}
  {windows completed : List Window} (limit : Int)

/-- No window has more lines of a bucket than there are. -/
theorem largestCount_bucketsRead_le (completed : List Window) (bucket : Int) :
    largestCount (completed.map (bucketsRead windows stepSeconds times)) bucket ≤
      (times.map (patternBucketOf stepSeconds)).count bucket := by
  rcases Nat.eq_zero_or_pos
    (largestCount (completed.map (bucketsRead windows stepSeconds times)) bucket) with hzero | hpos
  · rw [hzero]
    exact Nat.zero_le _
  · obtain ⟨buckets, hmem, heq⟩ := largestCount_mem hpos
    obtain ⟨w, -, rfl⟩ := mem_map.mp hmem
    rw [← heq]
    exact count_bucketsRead_le windows stepSeconds times w bucket

/-- Where every bucket is read of one window, that window has its largest count: all its lines. -/
theorem largestCount_of_bucketsWhole (horder : completed.Perm windows)
    (hwhole : BucketsWhole windows stepSeconds times) (bucket : Int) :
    largestCount (completed.map (bucketsRead windows stepSeconds times)) bucket =
      (times.map (patternBucketOf stepSeconds)).count bucket := by
  refine le_antisymm (largestCount_bucketsRead_le completed bucket) ?_
  by_cases hmem : bucket ∈ times.map (patternBucketOf stepSeconds)
  · obtain ⟨t, ht, rfl⟩ := mem_map.mp hmem
    obtain ⟨w, hw, hall⟩ := hwhole t ht
    rw [← count_bucketsRead_eq_iff.mpr hall]
    exact (le_foldl_max (mem_map_of_mem (horder.symm.subset hw)) _ 0).2
  · rw [count_eq_zero.mpr hmem]
    exact Nat.zero_le _

/-- For a plain text, whatever the windows are and in whatever order their fetches complete,
the merged entry counts every line once if and only if no bucket has lines that are not all
read of one window. -/
theorem countsOnce_plain_iff {tokens : List Bytes} {spaces : List Int}
    (hplain : PlainText classes mined.text tokens spaces) (horder : completed.Perm windows) :
    CountsOnce mined stepSeconds times (fetchPatternsFromWindows classes limit
        (completed.map fun w => (bucketsRead windows stepSeconds times w).map mined.observed)) ↔
      BucketsWhole windows stepSeconds times := by
  have hmap : (completed.map fun w =>
      (bucketsRead windows stepSeconds times w).map mined.observed) =
      (completed.map (bucketsRead windows stepSeconds times)).map fun buckets =>
        buckets.map mined.observed := by
    rw [map_map]
    rfl
  have hpositive : ∀ t ∈ times,
      0 < (times.map (patternBucketOf stepSeconds)).count (patternBucketOf stepSeconds t) :=
    fun t ht => count_pos_iff.mpr (mem_map_of_mem ht)
  rw [hmap]
  have hfetched := fetched_same hplain limit
    (completed.map (bucketsRead windows stepSeconds times))
  constructor
  · rintro (⟨rfl, -⟩ | ⟨e, hentries, -, hcounts⟩) t ht
    · exact absurd ht not_mem_nil
    · rcases hfetched with ⟨hnil, -⟩ | ⟨e', hentries', hsame⟩
      · rw [hnil] at hentries
        exact absurd hentries.symm (cons_ne_nil _ _)
      · obtain rfl : e' = e := (cons.inj (hentries'.symm.trans hentries)).1
        have heq := (hsame.counts (patternBucketOf stepSeconds t)).symm.trans
          (hcounts (patternBucketOf stepSeconds t))
        obtain ⟨buckets, hmem, hcount⟩ := largestCount_mem (heq ▸ hpositive t ht)
        obtain ⟨w, hw, rfl⟩ := mem_map.mp hmem
        exact ⟨w, horder.subset hw, count_bucketsRead_eq_iff.mp (hcount.trans heq)⟩
  · intro hwhole
    have hcount := largestCount_of_bucketsWhole horder hwhole
    rcases hfetched with ⟨hnil, hzero⟩ | ⟨e, hentries, hsame⟩
    · refine Or.inl ⟨?_, hnil⟩
      refine eq_nil_iff_forall_not_mem.mpr fun t ht => ?_
      have hpos := hpositive t ht
      rw [← hcount, hzero] at hpos
      exact absurd hpos (lt_irrefl 0)
    · exact Or.inr ⟨e, hentries, hsame.level, fun bucket =>
        (hsame.counts bucket).trans (hcount bucket)⟩

theorem bucketsRead_eq_nil {w : Window} (h : ∀ t ∈ times, ¬ readBy windows stepSeconds w t) :
    bucketsRead windows stepSeconds times w = [] := by
  have hnone : times.filter (fun t => readBy windows stepSeconds w t) = [] :=
    filter_eq_nil_iff.mpr fun t ht => by simpa using h t ht
  rw [bucketsRead, hnone, map_nil]

theorem bucketsRead_eq_map {w : Window} (h : ∀ t ∈ times, readBy windows stepSeconds w t) :
    bucketsRead windows stepSeconds times w = times.map (patternBucketOf stepSeconds) := by
  have hall : times.filter (fun t => readBy windows stepSeconds w t) = times :=
    filter_eq_self.mpr fun t ht => decide_eq_true (h t ht)
  rw [bucketsRead, hall]

theorem fetched_of_empty {completed : List (List Observation)} (h : ∀ lines ∈ completed, lines = [])
    (collected : List PatternEntry) :
    completed.foldl (fun collected lines =>
      mergePatternResultEntries classes collected (minedEntries classes limit lines)) collected =
        collected := by
  refine foldlRecOn (motive := (· = collected)) completed _ rfl fun found hfound lines hlines => ?_
  rw [hfound, h lines hlines, mined_nil, mergePatternResultEntries, if_pos rfl]
  split_ifs with hnil
  · exact hnil.symm
  · rfl

/-- With all lines in one window there is nothing to merge. -/
theorem fetched_of_readByOne (horder : completed.Perm windows)
    (hone : ReadByOne windows stepSeconds times) :
    fetchPatternsFromWindows classes limit
        (completed.map fun w => (bucketsRead windows stepSeconds times w).map mined.observed) =
      minedEntries classes limit
        ((times.map (patternBucketOf stepSeconds)).map mined.observed) := by
  obtain ⟨before, w, after, hwindows, hall, hothers⟩ := hone
  have hmem : w ∈ completed := horder.symm.subset (by simp [hwindows])
  obtain ⟨done, rest, rfl⟩ := append_of_mem hmem
  have hrest : (done ++ rest).Perm (before ++ after) := by
    have hcons : (w :: (done ++ rest)).Perm (w :: (before ++ after)) := by
      refine perm_middle.symm.trans (horder.trans ?_)
      rw [hwindows]
      exact perm_middle
    exact hcons.cons_inv
  have hempty : ∀ w' ∈ done ++ rest,
      (bucketsRead windows stepSeconds times w').map mined.observed = [] := by
    intro w' hw'
    rw [bucketsRead_eq_nil (hothers w' (hrest.subset hw')), map_nil]
  have hnone : ∀ part : List Window, (∀ w' ∈ part, w' ∈ done ++ rest) →
      ∀ lines ∈ part.map fun w => (bucketsRead windows stepSeconds times w).map mined.observed,
        lines = [] := by
    intro part hpart lines hlines
    obtain ⟨w', hw', rfl⟩ := mem_map.mp hlines
    exact hempty w' (hpart w' hw')
  rw [fetchPatternsFromWindows, map_append, map_cons, foldl_append, foldl_cons,
    fetched_of_empty limit (hnone done fun _ h => mem_append_left _ h),
    fetched_of_empty limit (hnone rest fun _ h => mem_append_right _ h),
    bucketsRead_eq_map hall, mergePatternResultEntries, if_pos rfl]

/-- Two lines are not counted by an entry of one line. -/
theorem not_counts_two {e : PatternEntry} {b : Int}
    (hone : ∀ bucket, e.countIn bucket = if b = bucket then 1 else 0) {buckets : List Int}
    (htwo : 1 < buckets.length) : ¬ ∀ bucket, e.countIn bucket = buckets.count bucket := by
  intro hcounts
  have hall : ∀ x ∈ buckets, b = x := by
    intro x hx
    have hpos := count_pos_iff.mpr hx
    rw [← hcounts, hone] at hpos
    by_contra hne
    rw [if_neg hne] at hpos
    exact absurd hpos (lt_irrefl 0)
  have hcount := (hcounts b).symm.trans (hone b)
  rw [if_pos rfl, count_eq_length.mpr hall] at hcount
  omega

/-- Lines that are all read of one window are counted once if and only if they are mined as one
entry. -/
theorem countsOnce_readByOne_iff (horder : completed.Perm windows)
    (hone : ReadByOne windows stepSeconds times) :
    CountsOnce mined stepSeconds times (fetchPatternsFromWindows classes limit
        (completed.map fun w => (bucketsRead windows stepSeconds times w).map mined.observed)) ↔
      times = [] ∨ MinedAsOne classes mined.text times := by
  rw [fetched_of_readByOne limit horder hone]
  have hne : ∀ {e : PatternEntry}, ([] : List PatternEntry) ≠ [e] := fun h => nomatch h
  by_cases hlines : times = []
  · refine iff_of_true (.inl ⟨hlines, ?_⟩) (.inl hlines)
    rw [hlines]
    exact mined_nil classes limit
  rw [CountsOnce, or_iff_right fun h => hlines h.1, or_iff_right hlines]
  have hbuckets : times.map (patternBucketOf stepSeconds) ≠ [] := by simpa using hlines
  constructor
  · rintro ⟨e, hentries, -, hcounts⟩
    cases htokens : tokenize classes mined.text with
    | none =>
      rw [mined_of_refused htokens] at hentries
      exact absurd hentries hne
    | some p =>
      refine ⟨p.1, p.2, htokens, ?_⟩
      by_contra hnot
      rw [not_or, not_le] at hnot
      obtain ⟨b, hb⟩ := mined_apart (e := e) htokens hnot.2 (hentries ▸ mem_singleton_self e)
      exact not_counts_two hb (by rw [length_map]; exact hnot.1) hcounts
  · rintro ⟨tokens, spaces, htokens, hself⟩
    obtain ⟨e, hentries, hsame⟩ := mined_same htokens
      (by rwa [length_map]) limit hbuckets
    exact ⟨e, hentries, hsame.level, hsame.counts⟩

/-- Lines that the tokenizer refuses are never counted. -/
theorem countsOnce_refused_iff (h : tokenize classes mined.text = none) (completed : List Window) :
    CountsOnce mined stepSeconds times (fetchPatternsFromWindows classes limit
        (completed.map fun w => (bucketsRead windows stepSeconds times w).map mined.observed)) ↔
      times = [] := by
  have hnone : fetchPatternsFromWindows classes limit
      (completed.map fun w => (bucketsRead windows stepSeconds times w).map mined.observed) = [] := by
    refine foldlRecOn (motive := (· = [])) _ _ rfl fun found hfound lines hlines => ?_
    obtain ⟨w, -, rfl⟩ := mem_map.mp hlines
    rw [hfound, mined_of_refused h]
    rfl
  rw [hnone, CountsOnce]
  constructor
  · rintro (⟨htimes, -⟩ | ⟨e, hentries, -⟩)
    · exact htimes
    · cases hentries
  · exact fun htimes => .inl ⟨htimes, rfl⟩

/-- When every line is counted once, whatever the windows are and in whatever order their fetches
complete: lines of a plain text, exactly if no bucket has lines that are not all read of one
window; lines of any text that are all read of one window, exactly if they are mined as one; lines
that the tokenizer refuses, never. -/
theorem fetchPatternsFromWindows_countsOnce_iff (horder : completed.Perm windows) :
    let entries := fetchPatternsFromWindows classes limit
      (completed.map fun w => (bucketsRead windows stepSeconds times w).map mined.observed)
    (∀ tokens spaces, PlainText classes mined.text tokens spaces →
        (CountsOnce mined stepSeconds times entries ↔ BucketsWhole windows stepSeconds times)) ∧
      (ReadByOne windows stepSeconds times →
        (CountsOnce mined stepSeconds times entries ↔
          times = [] ∨ MinedAsOne classes mined.text times)) ∧
      (tokenize classes mined.text = none →
        (CountsOnce mined stepSeconds times entries ↔ times = [])) :=
  ⟨fun _ _ hplain => countsOnce_plain_iff limit hplain horder,
    countsOnce_readByOne_iff limit horder, fun h => countsOnce_refused_iff limit h completed⟩

end Counting

/-- A line of four words. -/
def fourWords : MinedText where
  text := bytes "one two six ten"
  level := []
  trimmed := by decide +kernel
  front := by decide
  ne_nil := by decide
  level_trimmed := rfl

/-- The windows of half an hour with a step of a quarter. -/
def halfHourWindows : List Window :=
  [⟨1200000000000, 1800000000000⟩, ⟨600000000000, 1199999999999⟩, ⟨0, 599999999999⟩]

theorem plainText_fourWords : PlainText asciiClasses fourWords.text
    [bytes "one", bytes "two", bytes "six", bytes "ten"] [0, 1, 2] where
  tokenized := by decide +kernel
  noHole := by decide +kernel
  noPlaceholder := by decide +kernel
  noSentinel := by decide +kernel

theorem fetchPatternsFromWindows_countsOnce_halfHour :
    CountsOnce fourWords 900 [300000000000, 700000000000] (fetchPatternsFromWindows asciiClasses 50
      (halfHourWindows.map fun w => (bucketsRead halfHourWindows 900
        [300000000000, 700000000000] w).map fourWords.observed)) := by
  refine ((fetchPatternsFromWindows_countsOnce_iff 50 (List.Perm.refl halfHourWindows)).1 _ _
    plainText_fourWords).mpr ?_
  -- the oldest window, which is read one step further, has both lines
  intro t _
  refine ⟨⟨0, 599999999999⟩, by decide, fun u hu _ => ?_⟩
  rw [mem_pair] at hu
  rcases hu with rfl | rfl <;> decide +kernel

/-- Two lines of one quarter of an hour, on both sides of a window boundary. -/
theorem not_fetchPatternsFromWindows_countsOnce :
    patternWindowedSamplingConfig 0 1800000000000 900 2000 false = some (600000000000, 666, 8) ∧
    Window.splitQueryRangeWindowsWithOptions 0 1800000000000 600000000000 "backward" true =
      some halfHourWindows ∧
    ¬ CountsOnce fourWords 900 [1100000000000, 1600000000000]
      (fetchPatternsFromWindows asciiClasses 50 (halfHourWindows.map fun w =>
        (bucketsRead halfHourWindows 900 [1100000000000, 1600000000000] w).map fourWords.observed)) := by
  refine ⟨by decide +kernel, by decide +kernel, ?_⟩
  have hcounts : (fetchPatternsFromWindows asciiClasses 50 (halfHourWindows.map fun w =>
      (bucketsRead halfHourWindows 900 [1100000000000, 1600000000000] w).map
        fourWords.observed)).map (fun e => e.countIn 900) = [1] := by
    decide +kernel
  rintro (⟨htimes, -⟩ | ⟨e, hentries, -, hall⟩)
  · exact absurd htimes (cons_ne_nil _ _)
  · rw [hentries, map_singleton, hall] at hcounts
    exact absurd hcounts (by decide +kernel)

end LokiVlProxy.Proxy
