/-
  Proxy/PatternMiner.lean --- clusters of lines.

  Source: internal/proxy/postprocess.go: patternMiner, Observe, AllClusters,
  bestPatternCluster, patternPrefixCompatible, patternTokenHasDigits,
  getPatternSimilarity, patternStructureSignature.

  Lines of one level, one number of tokens and one signature share a list of clusters.
-/
import LokiVlProxy.Foundation.KeyMap
import LokiVlProxy.Foundation.Run
import LokiVlProxy.Proxy.PatternTokens

namespace LokiVlProxy.Proxy

open Foundation List

def patternPrefixDepth : Nat := 4

/-- What is observed: a line at a level, in a bucket of time. -/
structure Observation where
  level : Bytes
  line : Bytes
  bucket : Int
  deriving DecidableEq

/-- `patternBucket`.  `lines` are the observations counted in it, which the code does not
keep. -/
structure PatternBucket where
  level : Bytes
  buckets : KeyMap Int Nat
  total : Nat
  tokens : List Bytes
  spacesAfter : List Int
  lines : List Observation

/-- The count of a bucket. -/
def PatternBucket.count (cluster : PatternBucket) (bucket : Int) : Nat :=
  (cluster.buckets.find? bucket).getD 0

/-- Where a line looks for its cluster: level, number of tokens, signature. -/
abbrev GroupKey : Type := Bytes × Nat × Bytes

/-- `patternMiner`: the three nested maps as one. -/
abbrev PatternMiner : Type := KeyMap GroupKey (List PatternBucket)

section Miner

variable (classes : CharClasses)

def patternTokenHasDigits (token : Bytes) : Bool := (decode token).any (Rune.is classes.isDigit)

def patternPrefixCompatible (templateTokens tokens : List Bytes) : Bool :=
  if templateTokens.length ≠ tokens.length ∨ tokens = [] then false
  else ((templateTokens.zip tokens).take patternPrefixDepth).all fun p =>
    patternPlaceholderMatchesToken classes p.1 p.2 || p.1 = p.2 ||
      samePatternPlaceholderKind classes p.1 p.2 || patternTokenHasDigits classes p.1 ||
      patternTokenHasDigits classes p.2

/-- `getPatternSimilarity`: the number of equal tokens and the number of placeholders that
match; none where the code has -1 for the latter. -/
def getPatternSimilarity (templateTokens tokens : List Bytes) : Option (Nat × Nat) :=
  if templateTokens.length ≠ tokens.length ∨ templateTokens = [] then none
  else
    let pairs := templateTokens.zip tokens
    let params := pairs.countP fun p => patternPlaceholderMatchesToken classes p.1 p.2
    let equal := pairs.countP fun p =>
      !(patternPlaceholderMatchesToken classes p.1 p.2) && p.1 = p.2
    some (equal, params)

/-- The best template so far: where it stands, and its counts. -/
structure BestTemplate where
  index : Nat
  equal : Nat
  params : Nat

/-- One template.  All that count have as many tokens as the line, so the quotients compare
as the numbers of equal tokens do. -/
def considerTemplate (tokens : List Bytes) (best : Option BestTemplate) (p : List Bytes × Nat) :
    Option BestTemplate :=
  if patternPrefixCompatible classes p.1 tokens then
    match getPatternSimilarity classes p.1 tokens with
    | none => best
    | some (equal, params) =>
      match best with
      | none => some ⟨p.2, equal, params⟩
      | some b =>
        if b.equal < equal ∨ (equal = b.equal ∧ b.params < params) then some ⟨p.2, equal, params⟩
        else some b
  else best

/-- The loop that `bestPatternCluster` and `bestMergedPatternBucket` share: the place of the
template most like the tokens.  At least three tenths of the tokens are equal. -/
def bestTemplate (templates : List (List Bytes)) (tokens : List Bytes) : Option Nat :=
  match templates.zipIdx.foldl (considerTemplate classes tokens) none with
  | none => none
  | some best => if 3 * tokens.length ≤ 10 * best.equal then some best.index else none

/-- `bestPatternCluster`: the place of the cluster. -/
def bestPatternCluster (candidates : List PatternBucket) (tokens : List Bytes) : Option Nat :=
  bestTemplate classes (candidates.map PatternBucket.tokens) tokens

/-- `patternStructureSignature`, with the token before. -/
def signatureParts : Option Bytes → List Bytes → List Bytes
  | _, [] => []
  | prev, token :: tokens =>
    let kind := patternPlaceholderKind classes token
    let part :=
      if prev = some [byte '='] ∨ prev = some [byte ':'] then
        if kind ≠ [] then kind else patternVarPlaceholder
      else if kind ≠ [] then kind else token
    part :: signatureParts (some token) tokens

def patternStructureSignature (tokens : List Bytes) : Bytes :=
  [0x1e].intercalate (signatureParts classes none tokens)

variable (obs : Observation)

/-- A line of its own. -/
def newCluster (tokens : List Bytes) (spacesAfter : List Int) : PatternBucket where
  level := obs.level
  buckets := ∅
  total := 0
  tokens := tokens
  spacesAfter := spacesAfter
  lines := []

variable (cluster : PatternBucket)

/-- `cluster.buckets[bucket]++` and `cluster.total++`. -/
def PatternBucket.counted : PatternBucket :=
  { cluster with
    buckets := cluster.buckets.insert obs.bucket (cluster.count obs.bucket + 1)
    total := cluster.total + 1
    lines := obs :: cluster.lines }

/-- `cluster.tokens = mergePatternTemplate(cluster.tokens, tokens)`. -/
def PatternBucket.merged (tokens : List Bytes) : PatternBucket :=
  { cluster with tokens := mergePatternTemplate classes cluster.tokens tokens }

/-- The clusters of a group after a line. -/
def observeIn (candidates : List PatternBucket) (obs : Observation) (tokens : List Bytes)
    (spacesAfter : List Int) : List PatternBucket :=
  match bestPatternCluster classes candidates tokens with
  | none => candidates ++ [(newCluster obs tokens spacesAfter).counted obs]
  | some i => candidates.modify i fun cluster => (cluster.merged classes tokens).counted obs

variable (level : Bytes)

/-- The group of a line with these tokens. -/
def groupKey (tokens : List Bytes) : GroupKey :=
  (level, tokens.length, patternStructureSignature classes tokens)

variable (miner : PatternMiner)

def observe (obs : Observation) : PatternMiner :=
  match tokenize classes obs.line with
  | none => miner
  | some (tokens, spacesAfter) =>
    let key := groupKey classes obs.level tokens
    miner.insert key (observeIn classes ((miner.find? key).getD []) obs tokens spacesAfter)

variable (observations : List Observation)

/-- The miner after a run of observations. -/
def observeAll : PatternMiner :=
  observations.foldl (observe classes) ∅

def PatternMiner.allClusters : List PatternBucket :=
  miner.toList.flatMap Prod.snd

/-! ## What a cluster knows of its lines -/

/-- A cluster in its group, after these observations: the lines counted in it are among them
and belong to the group, its tokens cover theirs, its blanks are those of one of them, and
its counts count them. -/
structure PatternBucket.Sound (key : GroupKey) (seen : List Observation)
    (cluster : PatternBucket) : Prop where
  level : cluster.level = key.1
  length : cluster.tokens.length = key.2.1
  lines : ∀ obs ∈ cluster.lines, obs ∈ seen ∧ ∃ tokens spaces,
    tokenize classes obs.line = some (tokens, spaces) ∧
      groupKey classes obs.level tokens = key ∧ Covers cluster.tokens tokens
  blanks : ∃ obs ∈ seen, ∃ tokens, tokenize classes obs.line = some (tokens, cluster.spacesAfter) ∧
    groupKey classes obs.level tokens = key
  counts : ∀ bucket, cluster.count bucket = cluster.lines.countP (·.bucket = bucket)

variable {classes}

theorem PatternBucket.Sound.mono {key : GroupKey} {seen seen' : List Observation}
    {cluster : PatternBucket} (h : cluster.Sound classes key seen) (hsub : seen ⊆ seen') :
    cluster.Sound classes key seen' := by
  obtain ⟨obs, hobs, hblanks⟩ := h.blanks
  exact ⟨h.level, h.length, fun o ho => ⟨hsub (h.lines o ho).1, (h.lines o ho).2⟩,
    ⟨obs, hsub hobs, hblanks⟩, h.counts⟩

variable (bucket : Int)

theorem PatternBucket.count_counted :
    (cluster.counted obs).count bucket =
      cluster.count bucket + if obs.bucket = bucket then 1 else 0 := by
  rw [count, counted, KeyMap.find?_insert]
  by_cases hb : bucket = obs.bucket
  · rw [if_pos hb, if_pos hb.symm, hb, Option.getD_some]
  · rw [if_neg hb, if_neg (Ne.symm hb), Nat.add_zero, count]

theorem countP_cons_bucket (lines : List Observation) (bucket : Int) :
    (obs :: lines).countP (·.bucket = bucket) =
      lines.countP (·.bucket = bucket) + if obs.bucket = bucket then 1 else 0 := by
  rw [countP_cons]
  simp

section Step

variable {seen : List Observation} {obs : Observation} {tokens : List Bytes} {spaces : List Int}

/-- A new cluster describes the line that opens it. -/
theorem sound_newCluster (htokens : tokenize classes obs.line = some (tokens, spaces)) :
    ((newCluster obs tokens spaces).counted obs).Sound classes (groupKey classes obs.level tokens)
      (seen ++ [obs]) where
  level := rfl
  length := rfl
  lines := by
    intro o ho
    obtain rfl := mem_singleton.mp ho
    exact ⟨mem_append_right _ mem_cons_self, tokens, spaces, htokens, rfl, Covers.refl _⟩
  blanks := ⟨obs, mem_append_right _ mem_cons_self, tokens, htokens, rfl⟩
  counts := by
    intro bucket
    rw [PatternBucket.count_counted]
    exact (countP_cons_bucket obs [] bucket).symm

/-- A line that joins a cluster keeps it sound. -/
theorem PatternBucket.Sound.join {cluster : PatternBucket}
    (h : cluster.Sound classes (groupKey classes obs.level tokens) seen)
    (htokens : tokenize classes obs.line = some (tokens, spaces)) :
    ((cluster.merged classes tokens).counted obs).Sound classes
      (groupKey classes obs.level tokens) (seen ++ [obs]) where
  level := h.level
  length := (length_merge classes _ _).trans h.length
  lines := by
    intro o ho
    rcases mem_cons.mp ho with rfl | ho
    · exact ⟨mem_append_right _ mem_cons_self, tokens, spaces, htokens, rfl,
        covers_merge_self classes h.length⟩
    · obtain ⟨hseen, tokens', spaces', htokens', hkey, hcovers⟩ := h.lines o ho
      exact ⟨mem_append_left _ hseen, tokens', spaces', htokens', hkey,
        hcovers.merge classes tokens⟩
  blanks := by
    obtain ⟨o, ho, hblanks⟩ := h.blanks
    exact ⟨o, mem_append_left _ ho, hblanks⟩
  counts := by
    intro bucket
    rw [count_counted]
    exact (congrArg (· + _) (h.counts bucket)).trans (countP_cons_bucket obs _ bucket).symm

/-- The best template is one of those given. -/
theorem bestTemplate_lt {templates : List (List Bytes)} {i : Nat}
    (h : bestTemplate classes templates tokens = some i) : i < templates.length := by
  have hfold : ∀ (l : List (List Bytes × Nat)) (best : Option BestTemplate),
      (∀ p ∈ l, p.2 < templates.length) → (∀ b ∈ best, b.index < templates.length) →
      ∀ b ∈ l.foldl (considerTemplate classes tokens) best, b.index < templates.length := by
    intro l
    induction l with
    | nil => exact fun best _ hbest => hbest
    | cons p l ih =>
      intro best hl hbest
      refine ih _ (fun q hq => hl q (mem_cons_of_mem p hq)) fun b hb => ?_
      have hp := hl p mem_cons_self
      -- the template takes the place of the best, or the best stays
      have hcases : b.index = p.2 ∨ b ∈ best := by
        rw [considerTemplate] at hb
        split at hb
        · split at hb
          · exact Or.inr hb
          · cases best with
            | none => exact Or.inl (by rw [← Option.some.inj hb])
            | some old =>
              dsimp only at hb
              split at hb
              · exact Or.inl (by rw [← Option.some.inj hb])
              · exact Or.inr hb
        · exact Or.inr hb
      rcases hcases with hindex | hold
      · rw [hindex]
        exact hp
      · exact hbest b hold
  have hzip : ∀ p ∈ templates.zipIdx, p.2 < templates.length := fun p hp =>
    (mem_zipIdx' hp).1
  rw [bestTemplate] at h
  split at h
  · exact absurd h.symm (Option.some_ne_none i)
  · rename_i best hbest
    split_ifs at h
    rw [← Option.some.inj h]
    exact hfold _ none hzip (fun b hb => absurd hb.symm (Option.some_ne_none b)) best hbest

variable {candidates : List PatternBucket}

theorem bestPatternCluster_lt {i : Nat} (h : bestPatternCluster classes candidates tokens = some i) :
    i < candidates.length := by
  have hlt := bestTemplate_lt h
  rwa [length_map] at hlt

theorem modify_eq {i : Nat} (hi : i < candidates.length) (f : PatternBucket → PatternBucket) :
    ∃ before cluster after,
      candidates = before ++ cluster :: after ∧ candidates.modify i f = before ++ f cluster :: after :=
  ⟨candidates.take i, candidates[i], candidates.drop (i + 1),
    by rw [getElem_cons_drop, take_append_drop], modify_eq_take_cons_drop hi⟩

/-- The clusters of a group stay sound. -/
theorem sound_observeIn
    (h : ∀ c ∈ candidates, c.Sound classes (groupKey classes obs.level tokens) seen)
    (htokens : tokenize classes obs.line = some (tokens, spaces)) :
    ∀ c ∈ observeIn classes candidates obs tokens spaces,
      c.Sound classes (groupKey classes obs.level tokens) (seen ++ [obs]) := by
  have hold : ∀ c ∈ candidates, c.Sound classes (groupKey classes obs.level tokens) (seen ++ [obs]) :=
    fun c hc => (h c hc).mono (subset_append_left _ _)
  intro c hc
  rw [observeIn] at hc
  cases hbest : bestPatternCluster classes candidates tokens with
  | none =>
    rw [hbest] at hc
    rcases mem_append.mp hc with hc | hc
    · exact hold c hc
    · rw [mem_singleton.mp hc]
      exact sound_newCluster htokens
  | some i =>
    rw [hbest] at hc
    obtain ⟨before, cluster, after, hsplit, hmodify⟩ := modify_eq (bestPatternCluster_lt hbest)
      fun cluster => (cluster.merged classes tokens).counted obs
    dsimp only at hc
    rw [hmodify, mem_append, mem_cons] at hc
    rcases hc with hc | rfl | hc
    · exact hold c (by rw [hsplit]; exact mem_append_left _ hc)
    · exact (h cluster (by rw [hsplit]; simp)).join htokens
    · exact hold c (by rw [hsplit]; simp [hc])

end Step

/-! ## Runs -/

/-- Every cluster of a miner is sound in its group. -/
def PatternMiner.Sound (classes : CharClasses) (seen : List Observation) (miner : PatternMiner) :
    Prop :=
  ∀ key clusters, miner.find? key = some clusters → ∀ c ∈ clusters, c.Sound classes key seen

variable {miner : PatternMiner}

/-- Observing a line keeps the miner sound. -/
theorem PatternMiner.Sound.observe {seen : List Observation} (h : miner.Sound classes seen)
    (obs : Observation) : (observe classes miner obs).Sound classes (seen ++ [obs]) := by
  have hold : miner.Sound classes (seen ++ [obs]) := fun key clusters hfind c hc =>
    (h key clusters hfind c hc).mono (subset_append_left _ _)
  rw [Proxy.observe]
  cases htokens : tokenize classes obs.line with
  | none => exact hold
  | some p =>
    obtain ⟨tokens, spaces⟩ := p
    intro key clusters hfind
    dsimp only at hfind
    rw [KeyMap.find?_insert] at hfind
    split_ifs at hfind with hkey
    · subst hkey
      rw [← Option.some.inj hfind]
      refine sound_observeIn (fun c hc => ?_) htokens
      cases hgroup : miner.find? (groupKey classes obs.level tokens) with
      | none => rw [hgroup] at hc; exact absurd hc not_mem_nil
      | some group => rw [hgroup] at hc; exact h _ group hgroup c hc
    · exact hold key clusters hfind

variable (classes) in
/-- The miner is sound after every list of lines. -/
theorem sound_observeAll : (observeAll classes observations).Sound classes observations := by
  induction observations using List.reverseRecOn with
  | nil => exact fun key clusters hfind => absurd hfind.symm (Option.some_ne_none _)
  | append_singleton observations obs ih =>
    rw [observeAll, foldl_concat]
    exact ih.observe obs

theorem mem_allClusters {c : PatternBucket} :
    c ∈ miner.allClusters ↔ ∃ key clusters, miner.find? key = some clusters ∧ c ∈ clusters := by
  rw [PatternMiner.allClusters, mem_flatMap]
  constructor
  · rintro ⟨⟨key, clusters⟩, hmem, hc⟩
    exact ⟨key, clusters, KeyMap.mem_toList.mp hmem, hc⟩
  · rintro ⟨key, clusters, hfind, hc⟩
    exact ⟨(key, clusters), KeyMap.mem_toList.mpr hfind, hc⟩

/-! ## Counts -/

/-- What clusters count at a level in a bucket. -/
def countAt (clusters : List PatternBucket) : Nat :=
  ((clusters.filter fun c => c.level = level).map fun c => c.count bucket).sum

/-- What an observation adds there. -/
def unitAt (obs : Observation) : Nat :=
  if obs.level = level ∧ obs.bucket = bucket then 1 else 0

variable (level : Bytes) (bucket : Int)

theorem countAt_append (a b : List PatternBucket) :
    countAt level bucket (a ++ b) = countAt level bucket a + countAt level bucket b := by
  rw [countAt, filter_append, map_append, sum_append, countAt, countAt]

theorem countAt_cons (c : PatternBucket) (l : List PatternBucket) :
    countAt level bucket (c :: l) =
      (if c.level = level then c.count bucket else 0) + countAt level bucket l := by
  by_cases h : c.level = level <;> simp [countAt, h]

/-- A line adds one to its group, at its level and bucket. -/
theorem countAt_observeIn {seen : List Observation} {obs : Observation} {tokens : List Bytes}
    {candidates : List PatternBucket}
    (h : ∀ c ∈ candidates, c.Sound classes (groupKey classes obs.level tokens) seen)
    (spaces : List Int) (level : Bytes) (bucket : Int) :
    countAt level bucket (observeIn classes candidates obs tokens spaces) =
      countAt level bucket candidates + unitAt level bucket obs := by
  have hunit : ∀ n : Nat, (if obs.level = level then n + (if obs.bucket = bucket then 1 else 0) else 0) =
      (if obs.level = level then n else 0) + unitAt level bucket obs := by
    intro n
    rw [unitAt]
    by_cases hlevel : obs.level = level <;> simp [hlevel]
  rw [observeIn]
  cases hbest : bestPatternCluster classes candidates tokens with
  | none =>
    have hzero : (newCluster obs tokens spaces).count bucket = 0 := rfl
    dsimp only
    rw [countAt_append, countAt_cons, PatternBucket.count_counted, hzero]
    simpa [countAt, PatternBucket.counted, newCluster] using hunit 0
  | some i =>
    obtain ⟨before, cluster, after, hsplit, hmodify⟩ := modify_eq (bestPatternCluster_lt hbest)
      fun cluster => (cluster.merged classes tokens).counted obs
    have hlevel : cluster.level = obs.level := (h cluster (by rw [hsplit]; simp)).level
    have hjoin : ((cluster.merged classes tokens).counted obs).level = obs.level := hlevel
    have hcount : (cluster.merged classes tokens).count bucket = cluster.count bucket := rfl
    dsimp only
    rw [hmodify, hsplit, countAt_append, countAt_append, countAt_cons, countAt_cons, hjoin, hlevel,
      PatternBucket.count_counted, hcount, hunit]
    omega

/-- The lines of a run that the tokenizer accepts. -/
def accepted (classes : CharClasses) (obs : Observation) : Bool :=
  (tokenize classes obs.line).isSome

/-- The count of a level and a bucket, cluster by cluster. -/
theorem countAt_allClusters (miner : PatternMiner) :
    (countAt level bucket miner.allClusters : Int) =
      miner.total fun clusters => (countAt level bucket clusters : Int) := by
  rw [PatternMiner.allClusters, KeyMap.total]
  induction miner.toList with
  | nil => rfl
  | cons e l ih =>
    rw [flatMap_cons, countAt_append, Nat.cast_add, ih, map_cons, sum_cons]

/-- Each accepted line is counted once, at its level and in its bucket. -/
theorem observe_counts :
    countAt level bucket (observeAll classes observations).allClusters =
      (observations.filter fun obs =>
        accepted classes obs ∧ obs.level = level ∧ obs.bucket = bucket).length := by
  induction observations using List.reverseRecOn with
  | nil => rfl
  | append_singleton observations obs ih =>
    have hsound := sound_observeAll classes observations
    rw [observeAll, foldl_concat, observe]
    rw [observeAll] at ih hsound
    cases htokens : tokenize classes obs.line with
    | none =>
      have hnot : accepted classes obs = false := by simp [accepted, htokens]
      simpa [filter_append, hnot] using ih
    | some p =>
      obtain ⟨tokens, spaces⟩ := p
      have hyes : accepted classes obs = true := by simp [accepted, htokens]
      have hgroup : ∀ c ∈ ((observations.foldl (observe classes) ∅).find?
          (groupKey classes obs.level tokens)).getD [],
          c.Sound classes (groupKey classes obs.level tokens) observations := by
        cases hfind : (observations.foldl (observe classes) ∅).find?
            (groupKey classes obs.level tokens) with
        | none => exact fun c hc => absurd hc not_mem_nil
        | some group => exact hsound _ group hfind
      have hnew := countAt_observeIn hgroup spaces level bucket
      have hunit : (([obs].filter fun obs => decide (accepted classes obs = true ∧
          obs.level = level ∧ obs.bucket = bucket)).length) = unitAt level bucket obs := by
        rw [unitAt]
        by_cases hat : obs.level = level ∧ obs.bucket = bucket <;> simp [hyes, hat]
      rw [filter_append, length_append, hunit, ← ih]
      zify
      rw [countAt_allClusters, countAt_allClusters, KeyMap.total_insert, hnew]
      cases (observations.foldl (observe classes) ∅).find? (groupKey classes obs.level tokens) with
      | none => simp [countAt]
      | some group =>
        simp only [Option.map_some, Option.getD_some]
        push_cast
        omega

/-! ## What a pattern says of its lines -/

/-- Every line is described by the pattern of the cluster it is counted in, and each accepted
line is counted once, at its level and in its bucket. -/
structure Describes (classes : CharClasses) (observations : List Observation) : Prop where
  fits : ∀ c ∈ (observeAll classes observations).allClusters, ∀ obs ∈ c.lines,
    fits (joinTokens c.tokens c.spacesAfter) obs.line
  counts : ∀ level bucket, countAt level bucket (observeAll classes observations).allClusters =
    (observations.filter fun obs =>
      accepted classes obs ∧ obs.level = level ∧ obs.bucket = bucket).length

/-- Accepted lines of one level that agree in the number of their tokens and in their
signature have their blanks behind the same tokens. -/
def SameBlanks (classes : CharClasses) (observations : List Observation) : Prop :=
  ∀ a ∈ observations, ∀ b ∈ observations, a.level = b.level →
    ∀ tokens spaces tokens' spaces', tokenize classes a.line = some (tokens, spaces) →
      tokenize classes b.line = some (tokens', spaces') → tokens.length = tokens'.length →
      patternStructureSignature classes tokens = patternStructureSignature classes tokens' →
      spaces = spaces'

/-- After every run of observations whose blanks agree, the pattern of each cluster describes
every line it counts, and the counts are those of the lines. -/
theorem observe_described (classes : CharClasses) (observations : List Observation)
    (hfront : ∀ obs ∈ observations, obs.line.head? ≠ some 32)
    (hblanks : SameBlanks classes observations) : Describes classes observations := by
  refine ⟨fun c hc obs hobs => ?_, observe_counts observations⟩
  obtain ⟨key, clusters, hfind, hmem⟩ := mem_allClusters.mp hc
  have hsound := sound_observeAll classes observations key clusters hfind c hmem
  obtain ⟨hseen, tokens, spaces, htokens, hkey, hcovers⟩ := hsound.lines obs hobs
  obtain ⟨first, hfirst, tokens', hfirsttokens, hfirstkey⟩ := hsound.blanks
  obtain ⟨hlevel, hlength, hsignature⟩ : obs.level = first.level ∧ tokens.length = tokens'.length ∧
      patternStructureSignature classes tokens = patternStructureSignature classes tokens' := by
    have heq := hkey.trans hfirstkey.symm
    exact ⟨congrArg Prod.fst heq, congrArg (·.2.1) heq, congrArg (·.2.2) heq⟩
  have hspaces := hblanks obs hseen first hfirst hlevel tokens spaces tokens' c.spacesAfter
    htokens hfirsttokens hlength hsignature
  rw [← hspaces]
  exact fits_joinTokens (hfront obs hseen) htokens hcovers

end Miner

/-- The classes of the ASCII characters. -/
def asciiClasses : CharClasses where
  isLetter := Char.isAlpha
  isNumber := Char.isDigit
  isPunct := fun c => "!\"#%&\x27()*,-./:;?@[\\]_\x7b\x7d".toList.contains c
  isDigit := Char.isDigit

theorem observe_described_twice : Describes asciiClasses
    [⟨bytes "info", bytes "user 17 logged in", 60⟩, ⟨bytes "info", bytes "user 17 logged in", 120⟩] := by
  refine observe_described asciiClasses _ ?_ ?_
  · intro obs hobs
    rw [mem_pair] at hobs
    rcases hobs with rfl | rfl <;> decide
  · intro a ha b hb _ tokens spaces tokens' spaces' htokens htokens' _ _
    have hline : ∀ obs ∈ [(⟨bytes "info", bytes "user 17 logged in", 60⟩ : Observation),
        ⟨bytes "info", bytes "user 17 logged in", 120⟩], obs.line = bytes "user 17 logged in" := by
      intro obs hobs
      rw [mem_pair] at hobs
      rcases hobs with rfl | rfl <;> rfl
    rw [hline a ha, ← hline b hb, htokens'] at htokens
    exact (Prod.mk.inj (Option.some.inj htokens)).2.symm

theorem eq_of_fits {pattern text : Bytes} (hpattern : 60 ∉ pattern) (h : fits pattern text) :
    text = pattern := by
  induction pattern generalizing text with
  | nil => simpa [fits] using h
  | cons c pattern ih =>
    rw [mem_cons, not_or] at hpattern
    obtain ⟨rest, rfl, hrest⟩ := fits_cons_inv (not_hole_of_ne (Ne.symm hpattern.1) pattern) h
    rw [ih hpattern.2 hrest]

/-- The blanks of the second line are not those of the first. -/
theorem not_observe_described : ¬ Describes asciiClasses
    [⟨[], bytes "one two six ten", 0⟩, ⟨[], bytes "one  two six ten", 0⟩] := by
  intro h
  have hclusters : ((observeAll asciiClasses
      [⟨[], bytes "one two six ten", 0⟩, ⟨[], bytes "one  two six ten", 0⟩]).allClusters.map
        fun c => (joinTokens c.tokens c.spacesAfter, c.lines)) =
      [(bytes "one two six ten",
        [⟨[], bytes "one  two six ten", 0⟩, ⟨[], bytes "one two six ten", 0⟩])] := by
    decide +kernel
  obtain ⟨c, hc, hpair⟩ := mem_map.mp (hclusters ▸ mem_cons_self)
  obtain ⟨hjoin, hlines⟩ := Prod.mk.inj hpair
  have hfits := h.fits c hc ⟨[], bytes "one  two six ten", 0⟩ (by rw [hlines]; simp)
  rw [hjoin] at hfits
  exact absurd (eq_of_fits (by decide) hfits) (by decide)

end LokiVlProxy.Proxy
