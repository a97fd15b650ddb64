/-
  Proxy/MetadataAnswer.lean --- when a metadata key says which answer was asked for.

  A key gives back the normalised parameters of the URL: their encoding is the part behind the
  last colon.
-/
import LokiVlProxy.Foundation.Run
import LokiVlProxy.Proxy.MetadataKey

namespace LokiVlProxy.Proxy.MetadataKey

open LokiVlProxy.Foundation List Endpoint TimeRange TimeLib

/-! ## Requests whose key is about them -/

/-- The parameters that the handler of an endpoint reads. -/
def Endpoint.reads : Endpoint → List Param
  | .labels => [.query, .start, .end', .search, .q]
  | .labelValues => [.query, .start, .end', .search, .q, .limit, .offset]
  | .detectedFields => [.query, .start, .end', .limit, .lineLimit]

/-- The handler reads the URL, under the names the key uses: no form body, no `from` or `to` for
a missing bound, no blanks around a bound or a label, bounds that are not relative to the clock
and, where they are bucketed, lie after 1973; and the tenant of label_values has no colon. -/
structure KeyedByUrl (env : Env) (c : Call) : Prop where
  form_eq : ∀ p ∈ c.endpoint.reads,
    c.request.form p.text = (env.parseQuery c.request.rawQuery).get p.text
  start_named : c.request.form Param.start.text ≠ [] ∨
    trimSpace ((env.parseQuery c.request.rawQuery).get Param.from'.text) = []
  end_named : c.request.form Param.end'.text ≠ [] ∨
    trimSpace ((env.parseQuery c.request.rawQuery).get Param.to.text) = []
  start_trimmed : trimSpace (c.request.form Param.start.text) = c.request.form Param.start.text
  end_trimmed : trimSpace (c.request.form Param.end'.text) = c.request.form Param.end'.text
  start_absolute : ¬['n', 'o', 'w'] <+: c.request.form Param.start.text
  end_absolute : ¬['n', 'o', 'w'] <+: c.request.form Param.end'.text
  late : ∀ startNs endNs, env.times.timeRange c.now (c.request.form Param.start.text)
    (c.request.form Param.end'.text) = .bucketed startNs endNs →
      100000000000000000 ≤ startNs.toInt ∧ startNs < endNs
  label : c.endpoint = .labelValues →
    trimSpace c.request.labelName = c.request.labelName ∧ ':' ∉ c.request.orgID

variable (env : Env) (c : Call)

/-- The range a call asks for. -/
def Call.range : TimeRange :=
  env.times.timeRange c.now (c.request.form Param.start.text) (c.request.form Param.end'.text)

/-- The parameters in the key of a call. -/
def Call.keyParams : Values :=
  env.keyParams c.now c.endpoint c.request

theorem get_keyParams {env : Env} {c : Call} {p : Param} (hp : p ≠ .limit) :
    (c.keyParams env).get p.text =
      (normalizeReadCacheParams env.times c.now
        (env.parseQuery c.request.rawQuery)).get p.text := by
  unfold Call.keyParams Env.keyParams
  generalize normalizeReadCacheParams env.times c.now (env.parseQuery c.request.rawQuery) = params
  cases c.endpoint with
  | labels | labelValues => rfl
  | detectedFields => simp only [Values.get_set, Param.text_inj, hp, if_false]

namespace KeyedByUrl

variable {env : Env} {c c' : Call}

theorem form_start (h : KeyedByUrl env c) : (env.parseQuery c.request.rawQuery).get
    Param.start.text = c.request.form Param.start.text :=
  (h.form_eq .start (by cases c.endpoint <;> simp [reads])).symm

theorem form_end (h : KeyedByUrl env c) : (env.parseQuery c.request.rawQuery).get
    Param.end'.text = c.request.form Param.end'.text :=
  (h.form_eq .end' (by cases c.endpoint <;> simp [reads])).symm

theorem bound_eq {own other : Text} (hnamed : own ≠ [] ∨ trimSpace other = [])
    (htrim : trimSpace own = own) : trimSpace (firstNonEmpty own other) = own := by
  rw [trimSpace_firstNonEmpty, htrim]
  by_cases hown : own = []
  · rw [if_pos hown, hown]
    exact hnamed.resolve_left (fun h => h hown)
  · rw [if_neg hown]

/-- The bounds in the key are the texts of the range that is used. -/
theorem normalisedBounds_eq (h : KeyedByUrl env c) :
    normalisedBounds env.times c.now (env.parseQuery c.request.rawQuery) = (c.range env).texts := by
  rw [normalisedBounds, h.form_start, h.form_end, bound_eq h.start_named h.start_trimmed,
    bound_eq h.end_named h.end_trimmed, keyBounds_eq_texts, Call.range]

theorem nonEmptyOr_range (times : TimeLib) (now : Int64) (start end' : Text) :
    nonEmptyOr (times.timeRange now start end').texts.1 start =
        (times.timeRange now start end').texts.1 ∧
      nonEmptyOr (times.timeRange now start end').texts.2 end' =
        (times.timeRange now start end').texts.2 := by
  have hself : ∀ t : Text, nonEmptyOr t t = t := by
    intro t
    cases t <;> rfl
  have hraw : nonEmptyOr (raw start end').texts.1 start =
        (raw start end').texts.1 ∧
      nonEmptyOr (raw start end').texts.2 end' =
        (raw start end').texts.2 := ⟨hself start, hself end'⟩
  rw [timeRange]
  split
  · split_ifs
    · exact ⟨nonEmptyOr_of_ne_nil (formatInt_ne_nil _) _,
        nonEmptyOr_of_ne_nil (formatInt_ne_nil _) _⟩
    · exact hraw
  · exact hraw

/-- The key holds the range that is used. -/
theorem get_bounds (h : KeyedByUrl env c) :
    (c.keyParams env).get Param.start.text = (c.range env).texts.1 ∧
      (c.keyParams env).get Param.end'.text = (c.range env).texts.2 := by
  have hrange := nonEmptyOr_range env.times c.now
    (c.request.form Param.start.text) (c.request.form Param.end'.text)
  constructor
  · rw [get_keyParams (by decide), get_start_normalised, h.normalisedBounds_eq, h.form_start]
    exact hrange.1
  · rw [get_keyParams (by decide), get_end_normalised, h.normalisedBounds_eq, h.form_end]
    exact hrange.2

theorem not_raw_of_texts {startNs endNs : Int64}
    (hlate : 100000000000000000 ≤ startNs.toInt ∧ startNs < endNs)
    (htexts : (c.range env).texts = (formatInt startNs.toInt, formatInt endNs.toInt)) :
    ∀ start end', c.range env ≠ .raw start end' := by
  intro start end' hraw
  rw [hraw, texts, Prod.mk.injEq] at htexts
  obtain ⟨rfl, rfl⟩ := htexts
  have horder := Int64.lt_iff_toInt_lt.mp hlate.2
  have hstart := env.times.parseLokiTimeToUnixNano_formatInt hlate.1 c.now
  have hend := env.times.parseLokiTimeToUnixNano_formatInt
    (v := endNs) (by omega) c.now
  have hsame : c.request.form Param.start.text = formatInt startNs.toInt ∧
      c.request.form Param.end'.text = formatInt endNs.toInt := by
    rw [Call.range, timeRange] at hraw
    split at hraw
    · split_ifs at hraw
      exact raw.inj hraw
    · exact raw.inj hraw
  rw [Call.range, timeRange, hsame.1, hsame.2, hstart, hend] at hraw
  simp only [hlate.2, if_true] at hraw
  cases hraw

/-- The range that is used is determined by its texts. -/
theorem range_eq (h : KeyedByUrl env c) (h' : KeyedByUrl env c')
    (htexts : (c.range env).texts = (c'.range env).texts) : c.range env = c'.range env := by
  cases hrange : c.range env with
  | bucketed startNs endNs =>
    have hlate := h.late startNs endNs hrange
    rw [hrange] at htexts
    cases hrange' : c'.range env with
    | bucketed startNs' endNs' =>
      rw [hrange', texts, texts, Prod.mk.injEq] at htexts
      rw [Int64.toInt_inj.mp (formatInt_injective htexts.1),
        Int64.toInt_inj.mp (formatInt_injective htexts.2)]
    | raw start end' => exact absurd hrange' (not_raw_of_texts hlate htexts.symm start end')
  | raw start end' =>
    cases hrange' : c'.range env with
    | bucketed startNs' endNs' =>
      have hlate := h'.late startNs' endNs' hrange'
      rw [hrange'] at htexts
      exact absurd hrange (not_raw_of_texts hlate htexts start end')
    | raw start' end'' =>
      rw [hrange, hrange', texts, texts, Prod.mk.injEq] at htexts
      rw [htexts.1, htexts.2]

end KeyedByUrl

/-! ## Reading a key -/

/-- The key of a call, without the memo. -/
def Call.key : Text :=
  env.computeCanonicalReadCacheKey c.now c.endpoint c.request

/-- The part of the key that stands for the scope. -/
def Request.authPart (r : Request) : Text := ['a', 'u', 't', 'h', ':'] ++ r.authScope

/-- The parts of the key before the parameters. -/
def Call.keyFront : List Text :=
  [c.endpoint.text, c.request.orgID] ++ c.endpoint.version ++
    (((c.endpoint.extraParts c.request ++ [c.request.authPart]).map trimSpace).filter
      fun part => part ≠ [])

theorem Call.key_eq :
    c.key env = [':'].intercalate c.keyFront ++ ':' :: (c.keyParams env).encode :=
  intercalate_concat (cons_ne_nil _ _) ':' _

/-- Equal keys have equal fronts and equal encoded parameters. -/
theorem encode_eq_of_key_eq {env : Env} {c c' : Call} (h : c.key env = c'.key env) :
    [':'].intercalate c.keyFront = [':'].intercalate c'.keyFront ∧
      (c.keyParams env).encode = (c'.keyParams env).encode := by
  rw [c.key_eq, c'.key_eq] at h
  exact append_cons_inj_of_notMem_right (notMem_encodePairs _) (notMem_encodePairs _) h

namespace Request

theorem colon_notMem_authScope (r : Request) : ':' ∉ r.authScope := fun h =>
  absurd (r.authScope_hex ':' h) (by decide)

theorem isSpace_of_hex {c : Char} (hc : hexDigits.contains c = true) : isSpace c = false := by
  have hall : hexDigits.all (fun c => !isSpace c) = true := by decide
  simpa using all_eq_true.mp hall c (by simpa using hc)

theorem trimSpace_authPart (r : Request) : trimSpace r.authPart = r.authPart := by
  refine trimSpace_of_trimmed ⟨fun c hc => ?_, fun c hc => ?_⟩
  · obtain rfl : 'a' = c := by simpa [authPart] using hc
    decide
  · rw [authPart, getLast?_append_of_ne_nil _ r.authScope_ne_nil] at hc
    exact isSpace_of_hex (r.authScope_hex c (mem_of_mem_getLast? hc))

end Request

/-- The label as a part of the key; an empty one is left out. -/
def labelPart (labelName : Text) : Text := if labelName = [] then [] else ':' :: labelName

theorem labelPart_injective : Function.Injective labelPart := by
  intro a b h
  simp only [labelPart] at h
  split_ifs at h with ha hb hb
  · rw [ha, hb]
  · exact (cons.inj h).2

theorem intercalate_keyFront {c : Call} (hc : c.endpoint = .labelValues)
    (htrim : trimSpace c.request.labelName = c.request.labelName) :
    [':'].intercalate c.keyFront = labelValues.text ++ ':' :: (c.request.orgID ++
      ':' :: ("@full-range-v2".toList ++ ((labelPart c.request.labelName ++
        [':', 'a', 'u', 't', 'h']) ++ ':' :: c.request.authScope))) := by
  rw [Call.keyFront, hc]
  simp only [version, extraParts, cons_append, nil_append,
    map_cons, map_nil, htrim, Request.trimSpace_authPart]
  by_cases hlabel : c.request.labelName = []
  all_goals simp [hlabel, labelPart, intercalate_cons_cons, Request.authPart]

/-- Equal keys of label values ask for one label. -/
theorem labelName_eq_of_key_eq {env : Env} {c c' : Call} (h : KeyedByUrl env c)
    (h' : KeyedByUrl env c') (hc : c.endpoint = .labelValues) (hc' : c'.endpoint = .labelValues)
    (hkey : c.key env = c'.key env) : c.request.labelName = c'.request.labelName := by
  obtain ⟨htrim, hcolon⟩ := h.label hc
  obtain ⟨htrim', hcolon'⟩ := h'.label hc'
  have hfront := (encode_eq_of_key_eq hkey).1
  rw [intercalate_keyFront hc htrim, intercalate_keyFront hc' htrim'] at hfront
  -- the tenant ends at the first colon, the scope begins behind the last one
  obtain ⟨-, hrest⟩ := append_cons_inj_of_notMem hcolon hcolon'
    (cons.inj (append_cancel_left hfront)).2
  obtain ⟨hlabel, -⟩ := append_cons_inj_of_notMem_right c.request.colon_notMem_authScope
    c'.request.colon_notMem_authScope (append_cancel_left hrest)
  exact labelPart_injective (append_cancel_right hlabel)

/-! ## What the handler reads -/

variable {form form' : Text → Text}

theorem usedQuery_congr (h : form Param.query.text = form' Param.query.text) :
    usedQuery form = usedQuery form' := by
  rw [usedQuery, usedQuery, h]

theorem usedSearch_congr (hsearch : form Param.search.text = form' Param.search.text)
    (hq : form Param.q.text = form' Param.q.text) : usedSearch form = usedSearch form' := by
  rw [usedSearch, usedSearch, hsearch, hq]

theorem parseDetectedLineLimit_congr (hlimit : form Param.limit.text = form' Param.limit.text)
    (hline : form Param.lineLimit.text = form' Param.lineLimit.text) :
    parseDetectedLineLimit form = parseDetectedLineLimit form' := by
  rw [parseDetectedLineLimit, parseDetectedLineLimit, hlimit, hline]

theorem get_limit_keyParams {env : Env} {c : Call} (hc : c.endpoint = .detectedFields) :
    (c.keyParams env).get Param.limit.text =
      formatInt (parseDetectedLineLimit c.request.form) := by
  obtain ⟨now, endpoint, r, raced⟩ := c
  obtain rfl : endpoint = .detectedFields := hc
  exact (Values.get_set _ _ _ _).trans (if_pos rfl)

namespace KeyedByUrl

variable {env : Env} {c c' : Call}

/-- The query that is used is the one in the key. -/
theorem usedQuery_eq (h : KeyedByUrl env c) :
    usedQuery c.request.form = (c.keyParams env).get Param.query.text := by
  rw [get_keyParams (by decide), get_query_normalised]
  exact usedQuery_congr (h.form_eq .query (by cases c.endpoint <;> simp [reads]))

/-- The search that is used is the one in the key. -/
theorem usedSearch_eq (h : KeyedByUrl env c) (hc : c.endpoint ≠ .detectedFields) :
    usedSearch c.request.form = trimSpace ((c.keyParams env).get Param.search.text) := by
  rw [get_keyParams (by decide), trimSpace_get_search_normalised]
  refine usedSearch_congr (h.form_eq .search ?_) (h.form_eq .q ?_)
  all_goals cases hendpoint : c.endpoint <;> simp_all [reads]

theorem form_other (h : KeyedByUrl env c) {p : Param} (hp : p = .limit ∨ p = .offset)
    (hc : c.endpoint = .labelValues) : c.request.form p.text = (c.keyParams env).get p.text := by
  have hreads : p ∈ c.endpoint.reads := by
    rw [hc]
    rcases hp with rfl | rfl <;> simp [reads]
  have hparams : c.keyParams env =
      normalizeReadCacheParams env.times c.now (env.parseQuery c.request.rawQuery) := by
    obtain ⟨now, endpoint, r, raced⟩ := c
    obtain rfl : endpoint = .labelValues := hc
    rfl
  rw [hparams, get_other_normalised _ _ _ hp, h.form_eq p hreads]

/-- With one key, two calls of an endpoint ask for the same. -/
theorem handlerParams_eq (h : KeyedByUrl env c) (h' : KeyedByUrl env c')
    (hendpoint : c.endpoint = c'.endpoint) (hkey : c.key env = c'.key env) :
    env.handlerParams c.now c.endpoint c.request =
      env.handlerParams c'.now c'.endpoint c'.request := by
  have hget := Values.get_eq_of_encode_eq (encode_eq_of_key_eq hkey).2
  have hrange : c.range env = c'.range env := by
    refine h.range_eq h' (Prod.ext ?_ ?_)
    · rw [← h.get_bounds.1, ← h'.get_bounds.1, hget]
    · rw [← h.get_bounds.2, ← h'.get_bounds.2, hget]
  have hquery : usedQuery c.request.form = usedQuery c'.request.form := by
    rw [h.usedQuery_eq, h'.usedQuery_eq, hget]
  have hsearch : c.endpoint ≠ .detectedFields →
      usedSearch c.request.form = usedSearch c'.request.form := by
    intro hc
    rw [h.usedSearch_eq hc, h'.usedSearch_eq (hendpoint ▸ hc), hget]
  have hother : ∀ p, p = Param.limit ∨ p = Param.offset → c.endpoint = .labelValues →
      c.request.form p.text = c'.request.form p.text := by
    intro p hp hc
    rw [h.form_other hp hc, h'.form_other hp (hendpoint ▸ hc), hget]
  have hlineLimit : c.endpoint = .detectedFields →
      parseDetectedLineLimit c.request.form = parseDetectedLineLimit c'.request.form := by
    intro hc
    apply formatInt_injective
    rw [← get_limit_keyParams hc, ← get_limit_keyParams (hendpoint ▸ hc), hget]
  have hlabel : c.endpoint = .labelValues → c.request.labelName = c'.request.labelName :=
    fun hc => labelName_eq_of_key_eq h h' hc (hendpoint ▸ hc) hkey
  obtain ⟨now, endpoint, r, raced⟩ := c
  obtain ⟨now', endpoint', r', raced'⟩ := c'
  obtain rfl : endpoint = endpoint' := hendpoint
  cases endpoint with
  | labels => exact HandlerParams.labels.injEq .. ▸ ⟨hquery, hrange, hsearch (by simp)⟩
  | labelValues =>
    exact HandlerParams.labelValues.injEq .. ▸ ⟨hlabel rfl, hquery, hrange, hsearch (by simp),
      hother _ (.inl rfl) rfl, hother _ (.inr rfl) rfl⟩
  | detectedFields =>
    exact HandlerParams.detectedFields.injEq .. ▸ ⟨hquery, hrange, hlineLimit rfl⟩

end KeyedByUrl

/-! ## The memo -/

theorem normalizeReadCacheParams_congr {times : TimeLib} {now now' : Int64} {params : Values}
    (h : normalisedBounds times now params = normalisedBounds times now' params) :
    normalizeReadCacheParams times now params = normalizeReadCacheParams times now' params := by
  rw [normalisedBounds, normalisedBounds] at h
  simp only [normalizeReadCacheParams, h]

namespace KeyedByUrl

variable {env : Env} {c c' : Call}

section

variable (h : KeyedByUrl env c) (h' : KeyedByUrl env c')

include h h'

theorem range_eq_of_rawQuery (hraw : c.request.rawQuery = c'.request.rawQuery) :
    c.range env = c'.range env := by
  have hstart : c.request.form Param.start.text = c'.request.form Param.start.text := by
    rw [← h.form_start, ← h'.form_start, hraw]
  have hend : c.request.form Param.end'.text = c'.request.form Param.end'.text := by
    rw [← h.form_end, ← h'.form_end, hraw]
  rw [Call.range, Call.range, timeRange, timeRange,
    env.times.parseLokiTimeToUnixNano_congr h.start_trimmed h.start_absolute c.now c'.now,
    env.times.parseLokiTimeToUnixNano_congr h.end_trimmed h.end_absolute c.now c'.now,
    hstart, hend]

theorem keyParams_eq_of_rawQuery (hendpoint : c.endpoint = c'.endpoint)
    (hraw : c.request.rawQuery = c'.request.rawQuery) : c.keyParams env = c'.keyParams env := by
  have hnormal : normalizeReadCacheParams env.times c.now (env.parseQuery c.request.rawQuery) =
      normalizeReadCacheParams env.times c'.now (env.parseQuery c'.request.rawQuery) := by
    have hbounds := h.normalisedBounds_eq
    rw [h.range_eq_of_rawQuery h' hraw, ← h'.normalisedBounds_eq, hraw] at hbounds
    rw [hraw, normalizeReadCacheParams_congr hbounds]
  have hlimit : c.endpoint = .detectedFields →
      parseDetectedLineLimit c.request.form = parseDetectedLineLimit c'.request.form := by
    intro hc
    have hreads : ∀ {d : Call}, KeyedByUrl env d → d.endpoint = .detectedFields →
        ∀ p, p = Param.limit ∨ p = Param.lineLimit →
          d.request.form p.text = (env.parseQuery d.request.rawQuery).get p.text := by
      intro d hd hdetected p hp
      apply hd.form_eq
      rw [hdetected]
      rcases hp with rfl | rfl <;> simp [reads]
    apply parseDetectedLineLimit_congr
    · rw [hreads h hc _ (.inl rfl), hreads h' (hendpoint ▸ hc) _ (.inl rfl), hraw]
    · rw [hreads h hc _ (.inr rfl), hreads h' (hendpoint ▸ hc) _ (.inr rfl), hraw]
  obtain ⟨now, endpoint, r, raced⟩ := c
  obtain ⟨now', endpoint', r', raced'⟩ := c'
  obtain rfl : endpoint = endpoint' := hendpoint
  cases endpoint with
  | labels | labelValues => exact hnormal
  | detectedFields =>
    exact congrArg₂ (fun params limit => Values.set params Param.limit.text (formatInt limit))
      hnormal (hlimit rfl)

/-- The memo of the key gives the key. -/
theorem key_eq_of_memoKey (hmemo : c.endpoint.memoKey c.request = c'.endpoint.memoKey c'.request) :
    c.key env = c'.key env := by
  obtain ⟨hendpoint, horg, hextra, hraw, hscope⟩ := MemoKey.mk.inj hmemo
  have hparts : (c.endpoint.extraParts c.request).map trimSpace =
      (c'.endpoint.extraParts c'.request).map trimSpace := by
    rw [← hendpoint] at hextra ⊢
    cases hc : c.endpoint with
    | labels | detectedFields => rfl
    | labelValues =>
      rw [hc] at hextra
      exact congrArg (fun label => [label]) hextra
  have hfront : c.keyFront = c'.keyFront := by
    rw [Call.keyFront, Call.keyFront, map_append, map_append, hparts, horg, hendpoint,
      Request.authPart, Request.authPart, hscope]
  rw [c.key_eq, c'.key_eq, hfront, h.keyParams_eq_of_rawQuery h' hendpoint hraw]

end

end KeyedByUrl

/-- Every key in the memo and every key given is the one its call computes. -/
structure Sound (env : Env) (s : State) : Prop where
  memo : ∀ memoKey key, s.memo.find? memoKey = some key →
    ∃ c, KeyedByUrl env c ∧ c.endpoint.memoKey c.request = memoKey ∧ key = c.key env
  keyed : ∀ x ∈ s.keyed, KeyedByUrl env x.1 ∧ x.2 = x.1.key env

/-- No entry is remembered at the start. -/
theorem sound_start : Sound env .start where
  memo := by simp [State.start]
  keyed := by simp [State.start]

/-- A call whose parameters stand in the URL keeps the remembered keys right. -/
theorem Sound.step {env : Env} {s : State} (h : Sound env s) {c : Call}
    (hc : KeyedByUrl env c) : Sound env (env.step s c) := by
  have hanswer : (env.canonicalReadCacheKey s.memo c.raced c.now c.endpoint c.request).1 =
        c.key env ∧
      ∀ memoKey key,
        (env.canonicalReadCacheKey s.memo c.raced c.now c.endpoint c.request).2.find? memoKey =
          some key →
        ∃ d, KeyedByUrl env d ∧ d.endpoint.memoKey d.request = memoKey ∧ key = d.key env := by
    rw [Env.canonicalReadCacheKey]
    split
    · next cached hcached =>
      refine ⟨?_, h.memo⟩
      split_ifs at hcached
      obtain ⟨d, hd, hmemo, rfl⟩ := h.memo _ _ hcached
      exact hd.key_eq_of_memoKey hc hmemo
    · refine ⟨rfl, fun memoKey key hfind => ?_⟩
      rw [KeyMap.find?_insert] at hfind
      split_ifs at hfind with hsame hfull
      · exact ⟨c, hc, hsame.symm, (Option.some.inj hfind).symm⟩
      · cases hfind
      · exact h.memo memoKey key hfind
  refine ⟨hanswer.2, fun x hx => ?_⟩
  rcases mem_cons.mp hx with rfl | hold
  · exact ⟨hc, hanswer.1⟩
  · exact h.keyed x hold

/-- Along every run of calls that are keyed by their URL, two calls of an endpoint that get the
same key, from the memo or not, read the same parameters. -/
theorem same_key_same_parameters (env : Env) (cs : List Call)
    (hcs : ∀ c ∈ cs, KeyedByUrl env c) :
    ∀ x ∈ (cs.foldl env.step .start).keyed, ∀ y ∈ (cs.foldl env.step .start).keyed,
      x.1.endpoint = y.1.endpoint → x.2 = y.2 →
        env.handlerParams x.1.now x.1.endpoint x.1.request =
          env.handlerParams y.1.now y.1.endpoint y.1.request := by
  have hsound : Sound env (cs.foldl env.step .start) :=
    run_invariant_of_forall (fun s c h hc => h.step hc) (sound_start env) hcs
  intro x hx y hy hendpoint hkey
  obtain ⟨hxurl, hxkey⟩ := hsound.keyed x hx
  obtain ⟨hyurl, hykey⟩ := hsound.keyed y hy
  exact hxurl.handlerParams_eq hyurl hendpoint (by rw [← hxkey, ← hykey, hkey])

/-- A library that reads no other times than numbers. -/
def numbersOnly : TimeLib where
  rfc3339Nano := fun _ => none
  rfc3339 := fun _ => none
  parseDuration := fun _ => none
  parseFloatTime := fun _ => none
  rfc3339Nano_digits := fun _ => rfl
  rfc3339_digits := fun _ => rfl

/-- Queries that give an end, after a fixed start. -/
def endEnv : Env where
  parseQuery := fun raw =>
    (Values.set ∅ Param.start.text "1700000000000000000".toList).set Param.end'.text raw
  times := numbersOnly

/-- A request with its parameters in the URL. -/
def urlRequest (rawQuery : Text) : Request where
  rawQuery := rawQuery
  form := (env.parseQuery rawQuery).get
  orgID := []
  labelName := []
  authScope := ['0']
  authScope_ne_nil := cons_ne_nil _ _
  authScope_hex := all_eq_true.mp (by decide)

/-- A call for the labels up to an end. -/
def labelsUpTo (rawQuery : Text) : Call := ⟨0, .labels, urlRequest endEnv rawQuery, false⟩

theorem keyedByUrl_labelsUpTo {rawQuery : Text} {startNs endNs : Int64}
    (htrim : trimSpace rawQuery = rawQuery) (hne : rawQuery ≠ [])
    (hnow : ¬['n', 'o', 'w'] <+: rawQuery)
    (hrange : (labelsUpTo rawQuery).range endEnv = .bucketed startNs endNs)
    (hlate : 100000000000000000 ≤ startNs.toInt ∧ startNs < endNs) :
    KeyedByUrl endEnv (labelsUpTo rawQuery) := by
  have hstart : (labelsUpTo rawQuery).request.form Param.start.text =
      "1700000000000000000".toList := by
    simp [labelsUpTo, urlRequest, endEnv, Values.get_set]
  have hend : (labelsUpTo rawQuery).request.form Param.end'.text = rawQuery := by
    simp [labelsUpTo, urlRequest, endEnv, Values.get_set]
  exact {
    form_eq := fun p _ => rfl
    start_named := .inl (by rw [hstart]; decide)
    end_named := .inl (by rw [hend]; exact hne)
    start_trimmed := by rw [hstart]; decide +kernel
    end_trimmed := by rw [hend]; exact htrim
    start_absolute := by rw [hstart]; decide
    end_absolute := by rw [hend]; exact hnow
    late := by
      intro startNs' endNs' h
      rw [← Call.range, hrange] at h
      obtain ⟨rfl, rfl⟩ := bucketed.inj h
      exact hlate
    label := fun h => nomatch h }

/-- Calls with two ends in one bucket. -/
def callsInBucket : List Call :=
  [labelsUpTo "1700000150000000000".toList, labelsUpTo "1700000200000000000".toList]

theorem same_key_same_parameters_in_bucket :
    (labelsUpTo "1700000150000000000".toList).key endEnv =
        (labelsUpTo "1700000200000000000".toList).key endEnv ∧
      ∀ x ∈ (callsInBucket.foldl endEnv.step .start).keyed,
        ∀ y ∈ (callsInBucket.foldl endEnv.step .start).keyed,
          x.1.endpoint = y.1.endpoint → x.2 = y.2 →
            endEnv.handlerParams x.1.now x.1.endpoint x.1.request =
              endEnv.handlerParams y.1.now y.1.endpoint y.1.request := by
  have hrange : ∀ raw ∈ ["1700000150000000000".toList, "1700000200000000000".toList],
      (labelsUpTo raw).range endEnv = .bucketed 1699999800000000000 1700000400000000000 := by
    decide +kernel
  have hurl : ∀ c ∈ callsInBucket, KeyedByUrl endEnv c := by
    intro c hc
    rcases mem_pair.mp hc with rfl | rfl
    all_goals
      exact keyedByUrl_labelsUpTo (by decide +kernel) (by decide) (by decide)
        (hrange _ (by simp)) (by decide)
  exact ⟨by decide +kernel, same_key_same_parameters endEnv callsInBucket hurl⟩

/-- Any query in the body of a form post to a bare URL. -/
def formPost (query : Text) : Request where
  rawQuery := []
  form := fun name => if name = Param.query.text then query else []
  orgID := []
  labelName := []
  authScope := ['0']
  authScope_ne_nil := cons_ne_nil _ _
  authScope_hex := all_eq_true.mp (by decide)

/-- Two form posts with different queries get the same key. -/
theorem form_body_is_not_in_key :
    ∃ key, ([⟨0, .labels, formPost ['a'], false⟩, ⟨0, .labels, formPost ['b'], false⟩].foldl
        endEnv.step .start).keyed.map Prod.snd = [key, key] ∧
      endEnv.handlerParams 0 .labels (formPost ['a']) ≠
        endEnv.handlerParams 0 .labels (formPost ['b']) := by
  refine ⟨_, rfl, ?_⟩
  decide +kernel

/-! ## Buckets of buckets -/

/-- Bounds that bucketing leaves: multiples of the bucket for their distance, with room above to
round up. -/
def Stable (b : Int64 × Int64) : Prop :=
  let bucket := (metadataBucket (b.2 - b.1)).toInt
  bucket ∣ b.1.toInt ∧ bucket ∣ b.2.toInt ∧ b.2.toInt + bucket ≤ 9223372036854775808

/-- The parameters of a labels request for a window. -/
def windowParams (start end' : Text) : Values :=
  ((Values.set ∅ Param.start.text start).set Param.end'.text end').set Param.query.text ['*']

/-- Those with bounds in nanoseconds. -/
def boundsParams (b : Int64 × Int64) : Values :=
  windowParams (formatInt b.1.toInt) (formatInt b.2.toInt)

theorem toInt_metadataBucket (interval : Int64) :
    (metadataBucket interval).toInt = 300000000000 ∨
      (metadataBucket interval).toInt = 3600000000000 ∨
      (metadataBucket interval).toInt = 21600000000000 := by
  rw [metadataBucket]
  split_ifs
  · exact .inl rfl
  · exact .inr (.inl rfl)
  · exact .inr (.inr rfl)

theorem toInt_metadataBucket_eq (interval : Int64) :
    (metadataBucket interval).toInt =
      if interval.toInt ≤ 21600000000000 then 300000000000
      else if interval.toInt ≤ 172800000000000 then 3600000000000 else 21600000000000 := by
  simp only [metadataBucket, Int64.le_iff_toInt_le]
  split_ifs <;> first | rfl | contradiction

theorem toInt_roundDown (interval x : Int64) :
    (x / metadataBucket interval * metadataBucket interval).toInt =
      (if 0 ≤ x.toInt then x.toInt / (metadataBucket interval).toInt
        else -(-x.toInt / (metadataBucket interval).toInt)) * (metadataBucket interval).toInt := by
  have hle := x.le_toInt
  have hlt := x.toInt_lt
  have hdiv : ∀ a b : Int, a.tdiv b = if 0 ≤ a then a / b else -(-a / b) := by
    intro a b
    split
    · next h => exact Int.tdiv_eq_ediv_of_nonneg h
    · next h => rw [← Int.tdiv_eq_ediv_of_nonneg (by omega), Int.neg_tdiv, Int.neg_neg]
  rw [Int64.toInt_mul, Int64.toInt_div, Int.bmod_mul_bmod, hdiv]
  refine Int.bmod_eq_of_le ?_ ?_ <;>
    rcases toInt_metadataBucket interval with h | h | h <;> rw [h] <;> split <;> omega

/-- Above the largest multiple the sum wraps around. -/
theorem toInt_roundUp {interval x : Int64} (h : 0 ≤ x.toInt) :
    (x + metadataBucket interval - 1).toInt =
      if x.toInt + (metadataBucket interval).toInt ≤ 9223372036854775808
      then x.toInt + (metadataBucket interval).toInt - 1
      else x.toInt + (metadataBucket interval).toInt - 18446744073709551617 := by
  have hlt := x.toInt_lt
  have hone : (1 : Int64).toInt = 1 := rfl
  rw [Int64.toInt_sub, Int64.toInt_add, Int.bmod_sub_bmod, hone, Int.bmod_def]
  rcases toInt_metadataBucket interval with hb | hb | hb <;> rw [hb] <;> split_ifs <;> omega

/-- Bucketing leaves a range alone exactly when its bounds are bucket bounds. -/
theorem bucketMetadataTime_eq_self_iff {b : Int64 × Int64} (h : 0 ≤ b.1.toInt)
    (hpos : 0 < b.2.toInt) : bucketMetadataTime b.1 b.2 = b ↔ Stable b := by
  have hlt := b.2.toInt_lt
  rw [bucketMetadataTime, Prod.ext_iff, ← Int64.toInt_inj, ← Int64.toInt_inj, toInt_roundDown,
    toInt_roundDown, toInt_roundUp hpos.le, Stable]
  rcases toInt_metadataBucket (b.2 - b.1) with hb | hb | hb <;> rw [hb] <;> split_ifs <;> omega

/-- The parameters of a window, normalised. -/
theorem normalised_windowParams {times : TimeLib} {now startNs endNs : Int64} {start end' : Text}
    (hstart : times.parseLokiTimeToUnixNano now start = some startNs)
    (hend : times.parseLokiTimeToUnixNano now end' = some endNs) (hlt : startNs < endNs) :
    normalizeReadCacheParams times now (windowParams start end') =
      boundsParams (bucketMetadataTime startNs endNs) := by
  have hget : ∀ p : Param, (windowParams start end').get p.text =
      if p = .query then ['*'] else if p = .end' then end' else if p = .start then start
        else [] := by
    intro p
    simp only [windowParams, Values.get_set, Param.text_inj]
    rfl
  have hparse : ∀ raw, times.parseLokiTimeToUnixNano now (trimSpace (firstNonEmpty raw [])) =
      times.parseLokiTimeToUnixNano now raw := by
    intro raw
    have htrim : trimSpace (firstNonEmpty raw []) = trimSpace raw := by
      rw [trimSpace_firstNonEmpty]
      split_ifs with hblank
      · exact hblank.symm
      · rfl
    rw [htrim, parseLokiTimeToUnixNano, parseLokiTimeToUnixNano,
      trimSpace_trimSpace]
  have hblank : trimSpace (firstNonEmpty [] []) = [] := rfl
  have hstar : trimSpace ['*'] = ['*'] := by decide
  rw [normalizeReadCacheParams]
  simp only [hget, reduceCtorEq, if_true, if_false, keyBounds, hparse, hstart, hend, hlt]
  refine SortedMap.ext_find? fun k => ?_
  simp [windowParams, boundsParams, Values.set, Values.del, Values.setNonEmpty, formatInt_ne_nil,
    hblank, hstar, SortedMap.find?_insert, SortedMap.find?_erase, Values.get]
  split_ifs <;> simp_all

theorem boundsParams_encode_inj {b b' : Int64 × Int64}
    (h : (boundsParams b).encode = (boundsParams b').encode) : b = b' := by
  have hget := Values.get_eq_of_encode_eq h
  have hstart : formatInt b.1.toInt = formatInt b'.1.toInt := by
    simpa [boundsParams, windowParams, Values.get_set] using hget Param.start.text
  have hend : formatInt b.2.toInt = formatInt b'.2.toInt := by
    simpa [boundsParams, windowParams, Values.get_set] using hget Param.end'.text
  exact Prod.ext (Int64.toInt_inj.mp (formatInt_injective hstart))
    (Int64.toInt_inj.mp (formatInt_injective hend))

section

variable {startNs endNs : Int64} (h : 0 ≤ startNs.toInt) (hlt : startNs < endNs)

include h hlt

/-- The bucketed range contains the range. -/
theorem bucketMetadataTime_contains (hmax : endNs.toInt ≤ 9223350436854775807) :
    0 ≤ (bucketMetadataTime startNs endNs).1.toInt ∧
      (bucketMetadataTime startNs endNs).1 ≤ startNs ∧
      endNs ≤ (bucketMetadataTime startNs endNs).2 := by
  have hlt := Int64.lt_iff_toInt_lt.mp hlt
  rw [bucketMetadataTime, Int64.le_iff_toInt_le, Int64.le_iff_toInt_le, toInt_roundDown,
    toInt_roundDown, toInt_roundUp (by omega)]
  rcases toInt_metadataBucket (endNs - startNs) with hb | hb | hb <;> rw [hb] <;> split_ifs <;>
    omega

/-- A range keeps its class: rounded to five minutes or to hours it is no longer than the ranges
that are rounded so, and one that is rounded to six hours leaves room to be rounded once more. -/
def KeepsClass (startNs endNs : Int) : Prop :=
  if endNs - startNs ≤ 21600000000000 then
    endNs - startNs + startNs % 300000000000 + -endNs % 300000000000 ≤ 21600000000000
  else if endNs - startNs ≤ 172800000000000 then
    endNs - startNs + startNs % 3600000000000 + -endNs % 3600000000000 ≤ 172800000000000
  else endNs ≤ 9223329600000000000
  deriving Decidable

/-- What bucketing leaves is stable just when the range keeps its class: the bounds of the next
class are no multiples of its bucket. -/
theorem stable_bucketMetadataTime_iff (hmax : endNs.toInt ≤ 9223350436854775807) :
    Stable (bucketMetadataTime startNs endNs) ↔ KeepsClass startNs.toInt endNs.toInt := by
  have hlt' := Int64.lt_iff_toInt_lt.mp hlt
  have hlength : (endNs - startNs).toInt = endNs.toInt - startNs.toInt := by
    rw [Int64.toInt_sub]
    exact Int.bmod_eq_of_le (by omega) (by omega)
  have hdown := toInt_roundDown (endNs - startNs) startNs
  have hup := toInt_roundDown (endNs - startNs) (endNs + metadataBucket (endNs - startNs) - 1)
  rw [toInt_roundUp (by omega)] at hup
  rw [if_pos h] at hdown
  have hbucket := toInt_metadataBucket_eq (endNs - startNs)
  rw [hlength] at hbucket
  have hboth : ((bucketMetadataTime startNs endNs).2 - (bucketMetadataTime startNs endNs).1).toInt =
      (bucketMetadataTime startNs endNs).2.toInt - (bucketMetadataTime startNs endNs).1.toInt := by
    obtain ⟨h0, hle, hge⟩ := bucketMetadataTime_contains h hlt hmax
    have hfst := Int64.le_iff_toInt_le.mp hle
    have hsnd := Int64.le_iff_toInt_le.mp hge
    have hhi := (bucketMetadataTime startNs endNs).2.toInt_lt
    rw [Int64.toInt_sub]
    exact Int.bmod_eq_of_le (by omega) (by omega)
  have hnext := toInt_metadataBucket_eq
    ((bucketMetadataTime startNs endNs).2 - (bucketMetadataTime startNs endNs).1)
  rw [hboth] at hnext
  simp only [Stable, KeepsClass]
  rw [hnext]
  simp only [bucketMetadataTime, hdown, hup, hbucket]
  split_ifs <;> omega

/-- The bucketed range contains the range.  Bucketing it once more gives it back exactly when the
range keeps its class, and just then the key of the warmed window, whose query has the bucketed
bounds, is that of a request for the window. -/
theorem bucketMetadataTime_closure_iff (hmax : endNs.toInt ≤ 9223350436854775807) :
    ∃ b, bucketMetadataTime startNs endNs = b ∧ (b.1 ≤ startNs ∧ endNs ≤ b.2) ∧
      (bucketMetadataTime b.1 b.2 = b ↔ KeepsClass startNs.toInt endNs.toInt) ∧
      ∀ (env : Env) (now : Int64) (r : Request) (start end' warmed : Text),
        env.parseQuery r.rawQuery = windowParams start end' →
        env.times.parseLokiTimeToUnixNano now start = some startNs →
        env.times.parseLokiTimeToUnixNano now end' = some endNs →
        env.parseQuery warmed = windowParams (formatInt b.1.toInt) (formatInt b.2.toInt) →
        100000000000000000 ≤ b.1.toInt →
        (env.computeCanonicalReadCacheKey now .labels { r with rawQuery := warmed } =
          env.computeCanonicalReadCacheKey now .labels r ↔
            KeepsClass startNs.toInt endNs.toInt) := by
  rw [← stable_bucketMetadataTime_iff h hlt hmax]
  obtain ⟨h0, hle, hge⟩ := bucketMetadataTime_contains h hlt hmax
  generalize hb : bucketMetadataTime startNs endNs = b at h0 hle hge
  have horder : b.1 < b.2 := Int64.lt_of_le_of_lt hle (Int64.lt_of_lt_of_le hlt hge)
  have hpos := Int64.lt_iff_toInt_lt.mp horder
  have hself := bucketMetadataTime_eq_self_iff h0 (h0.trans_lt hpos)
  refine ⟨b, rfl, ⟨hle, hge⟩, hself, ?_⟩
  intro env now r start end' warmed huser hstart hend hwarmed hlate
  have hparams : env.keyParams now .labels r = boundsParams b := by
    rw [← hb, ← normalised_windowParams hstart hend hlt, ← huser]
    rfl
  have hparams' : env.keyParams now .labels { r with rawQuery := warmed } =
      boundsParams (bucketMetadataTime b.1 b.2) := by
    rw [← normalised_windowParams (env.times.parseLokiTimeToUnixNano_formatInt hlate now)
      (env.times.parseLokiTimeToUnixNano_formatInt (hlate.trans hpos.le) now) horder, ← hwarmed]
    rfl
  rw [← hself]
  constructor
  · intro hkey
    have hcalls : (Call.mk now .labels { r with rawQuery := warmed } false).key env =
        (Call.mk now .labels r false).key env := hkey
    have hcode := (encode_eq_of_key_eq hcalls).2
    rw [Call.keyParams, Call.keyParams, hparams, hparams'] at hcode
    exact boundsParams_encode_inj hcode
  · intro hsame
    rw [Env.computeCanonicalReadCacheKey, Env.computeCanonicalReadCacheKey, hparams, hparams',
      hsame]
    rfl

end

/-- One hour from a full hour on. -/
theorem bucketMetadataTime_full_hour :
    ∃ b, bucketMetadataTime 1699999200000000000 1700002800000000000 = b ∧
      bucketMetadataTime b.1 b.2 = b := by
  obtain ⟨b, hb, -, hself, -⟩ := @bucketMetadataTime_closure_iff 1699999200000000000
    1700002800000000000 (by decide) (by decide) (by decide)
  exact ⟨b, hb, hself.mpr (by decide)⟩

/-- Six hours up to a time that is no multiple of five minutes: once bucketed they are more than
six hours, and the next bucket is an hour. -/
theorem bucketMetadataTime_six_hours :
    let b := bucketMetadataTime 1699978400000000000 1700000000000000000
    b = (1699978200000000000, 1700000100000000000) ∧
      bucketMetadataTime b.1 b.2 = (1699977600000000000, 1700002800000000000) := by
  decide +kernel

end LokiVlProxy.Proxy.MetadataKey
