/-
  Proxy/TenantSelection.lean --- which tenants a query with a leading selector reaches.

  A tenant value is neither unescaped nor anchored by the source, and its operator is found by a
  search through the whole matcher, so the result is stated for tenant values that mean what
  they spell.
-/
import LokiVlProxy.Proxy.TenantSelector

namespace LokiVlProxy.Proxy.TenantSelector

open LokiVlProxy.Foundation List Matcher

/-! ## One matcher -/

/-- The operators that are looked for before this one. -/
def MatchOp.earlier (op : MatchOp) : List MatchOp := matchOps.takeWhile (· ≠ op)

/-- A tenant matcher whose value means what it spells: no escape sequence, no quote at either
end, no operator that is looked for earlier, and an expression that says the same of the
tenants with and without anchors. -/
structure Matcher.Plain (compile : Regexp) (tenantIDs : List Text) (m : Matcher) : Prop where
  spelled : m.literal.value = m.literal.body
  front : ∀ c ∈ m.literal.body.head?, c ≠ '"' ∧ c ≠ '\x60'
  back : ∀ c ∈ m.literal.body.getLast?, c ≠ '"' ∧ c ≠ '\x60'
  operator : ∀ op ∈ m.op.earlier, textIndex op.text m.literal.text = none
  expression : m.op = .match ∨ m.op = .notMatch → ∃ loose anchoredMatch,
    compile m.literal.value = .ok loose ∧ compile (anchored m.literal.value) = .ok anchoredMatch ∧
      ∀ tenantID ∈ tenantIDs, loose tenantID = anchoredMatch tenantID

/-- The sign an operator begins with. -/
def MatchOp.sign : MatchOp → Char
  | .notMatch | .notEqual => '!'
  | .match | .equal => '='

variable (op : MatchOp)

theorem MatchOp.exists_text : ∃ t, op.text = op.sign :: t := by
  cases op <;> exact ⟨_, rfl⟩

theorem MatchOp.isSpace_sign : isSpace op.sign = false := by
  cases op <;> rfl

theorem MatchOp.nameChar_sign : nameChar op.sign = false := by
  cases op <;> rfl

theorem MatchOp.sign_notMem_tenantLabel : op.sign ∉ tenantLabel := by
  cases op <;> decide

namespace Matcher

variable (m : Matcher)

theorem sign_notMem_label (op : MatchOp) : op.sign ∉ m.name ++ m.beforeOp := by
  intro hmem
  rcases mem_append.mp hmem with hname | hblank
  · exact absurd (m.name_chars _ hname) (by simp [op.nameChar_sign])
  · exact absurd (m.beforeOp_blank _ hblank) (by simp [op.isSpace_sign])

theorem textIndex_core (op : MatchOp) :
    textIndex op.text m.core = (textIndex op.text (m.op.text ++ m.operand)).map
      (· + (m.name ++ m.beforeOp).length) := by
  have hsign := m.sign_notMem_label op
  obtain ⟨t, ht⟩ := op.exists_text
  rw [ht, core, textIndex_append hsign]

theorem exists_label_length : ∃ n, (m.name ++ m.beforeOp).length = n + 1 := by
  obtain ⟨c, t, hname, -⟩ := m.exists_name_cons
  exact ⟨(t ++ m.beforeOp).length, by simp [hname]⟩

variable {m : Matcher} {compile : Regexp} {tenantIDs : List Text}

theorem label_ne_tenantLabel (hm : m.isTenant = false) (idx : Nat) :
    trimSpace (m.core.take (idx + (m.name ++ m.beforeOp).length)) ≠ tenantLabel := by
  rw [Nat.add_comm, core, take_length_add_append]
  obtain ⟨t, ht⟩ := m.op.exists_text
  cases idx with
  | zero =>
    rw [take_zero, append_nil, m.trimSpace_name]
    intro hname
    simp [isTenant, hname] at hm
  | succ idx =>
    intro hlabel
    have hsign : m.op.sign ∈ m.name ++ m.beforeOp ++
        (m.op.text ++ m.operand).take (idx + 1) := by
      simp [ht]
    have hmem := mem_trim hsign m.op.isSpace_sign
    exact m.op.sign_notMem_tenantLabel (hlabel ▸ hmem)

/-- A matcher on another label narrows nothing. -/
theorem filterTenantsByMatcher_other (hm : m.isTenant = false) (compile : Regexp)
    (tenantIDs : List Text) : filterTenantsByMatcher compile tenantIDs m.core = .ok none := by
  rw [filterTenantsByMatcher]
  generalize matchOps = ops
  induction ops with
  | nil => rfl
  | cons op ops ih =>
    rw [filterByFirstOp, m.textIndex_core op]
    cases textIndex op.text (m.op.text ++ m.operand) with
    | none => exact ih
    | some idx =>
      have hne := label_ne_tenantLabel hm idx
      obtain ⟨n, hn⟩ := m.exists_label_length
      rw [hn, ← Nat.add_assoc] at hne
      rw [Option.map_some, hn, ← Nat.add_assoc]
      simp only [hne, ne_eq, not_false_eq_true, if_true]

theorem head_operand (m : Matcher) : ∀ c ∈ m.operand.head?, c ≠ '~' := by
  intro c hc hne
  subst hne
  rw [operand] at hc
  cases hblank : m.afterOp with
  | nil =>
    rw [hblank, nil_append, Literal.text] at hc
    cases hl : m.literal <;> simp [hl, Literal.mark] at hc
  | cons d t =>
    rw [hblank, cons_append, head?_cons, Option.mem_def, Option.some.injEq] at hc
    have hspace := m.afterOp_blank '~' (by simp [hblank, hc])
    exact absurd hspace (by decide)

/-- No operator that is tried earlier is found. -/
theorem textIndex_earlier {op : MatchOp} (hop : op ∈ m.op.earlier)
    (hliteral : textIndex op.text m.literal.text = none) : textIndex op.text m.core = none := by
  have hoperand : textIndex op.text m.operand = none := by
    have hsign : op.sign ∉ m.afterOp := fun hmem =>
      absurd (m.afterOp_blank _ hmem) (by simp [op.isSpace_sign])
    obtain ⟨t, ht⟩ := op.exists_text
    rw [ht] at hliteral ⊢
    rw [operand, textIndex_append hsign, hliteral, Option.map_none]
  have hhead := m.head_operand
  rw [m.textIndex_core, Option.map_eq_none_iff]
  cases hoper : m.operand with
  | nil =>
    rw [hoper] at hoperand
    revert hop
    cases m.op <;> cases op <;> simp [MatchOp.earlier, matchOps, MatchOp.text, textIndex]
  | cons c t =>
    have hc : c ≠ '~' := hhead c (by rw [hoper]; rfl)
    rw [hoper] at hoperand
    revert hop hoperand
    cases m.op <;> cases op <;>
      simp [MatchOp.earlier, matchOps, MatchOp.text, textIndex, hc.symm]

theorem trimAny_text {l : Literal} (hfront : ∀ c ∈ l.body.head?, c ≠ '"' ∧ c ≠ '\x60')
    (hback : ∀ c ∈ l.body.getLast?, c ≠ '"' ∧ c ≠ '\x60') :
    trimAny ['"', '\x60'] l.text = l.body := by
  have hmark : (['"', '\x60'] : Text).contains l.mark = true := by cases l <;> rfl
  have hkeep : ∀ {c : Char}, c ≠ '"' ∧ c ≠ '\x60' → (['"', '\x60'] : Text).contains c = false := by
    rintro c ⟨hquote, hback⟩
    simp [hquote, hback]
  rw [trimAny, Literal.text, cons_append, dropWhile_cons_of_pos hmark]
  cases hbody : l.body with
  | nil =>
    rw [nil_append, dropWhile_cons_of_pos hmark]
    rfl
  | cons c t =>
    rw [cons_append,
      dropWhile_cons_of_neg (by simpa using hkeep (hfront c (by rw [hbody]; rfl))),
      ← cons_append, rdropWhile_concat_pos _ _ _ hmark, rdropWhile_eq_self_iff]
    intro hne
    have hlast : l.body.getLast? = some ((c :: t).getLast hne) := by
      rw [hbody]
      exact getLast?_eq_getLast_of_ne_nil hne
    simpa using hkeep (hback _ hlast)

/-- A plain matcher keeps the tenants that it accepts. -/
theorem applyTenantMatch_plain (hplain : m.Plain compile tenantIDs) :
    applyTenantMatch compile tenantIDs m.op m.literal.body =
      .ok (tenantIDs.filter (m.accepts compile)) := by
  have hexpr := hplain.expression
  rw [← hplain.spelled]
  cases hop : m.op with
  | equal | notEqual => exact congrArg Except.ok (filter_congr fun t _ => by simp [accepts, hop])
  | «match» | notMatch =>
    obtain ⟨loose, anchoredMatch, hloose, hanchored, hagree⟩ := hexpr (by simp [hop])
    rw [applyTenantMatch, hloose]
    refine congrArg Except.ok (filter_congr fun t ht => ?_)
    simp [accepts, hop, hanchored, hagree t ht]

theorem filterByFirstOp_append {matcher : Text} {before : List MatchOp}
    (hbefore : ∀ op ∈ before, textIndex op.text matcher = none) (ops : List MatchOp) :
    filterByFirstOp compile tenantIDs matcher (before ++ ops) =
      filterByFirstOp compile tenantIDs matcher ops := by
  induction before with
  | nil => rfl
  | cons op before ih =>
    rw [cons_append, filterByFirstOp, hbefore op mem_cons_self]
    exact ih (fun o ho => hbefore o (mem_cons_of_mem op ho))

theorem exists_matchOps_eq : ∃ later, matchOps = op.earlier ++ op :: later := by
  cases op <;> exact ⟨_, rfl⟩

/-- A plain matcher of the tenant label chooses among the tenants. -/
theorem filterTenantsByMatcher_tenant (hm : m.isTenant = true) (hplain : m.Plain compile tenantIDs) :
    filterTenantsByMatcher compile tenantIDs m.core =
      .ok (some (tenantIDs.filter (m.accepts compile))) := by
  obtain ⟨later, hops⟩ := exists_matchOps_eq m.op
  have hearlier : ∀ op ∈ m.op.earlier, textIndex op.text m.core = none := fun op hop =>
    textIndex_earlier hop (hplain.operator op hop)
  have hidx : textIndex m.op.text m.core = some (m.name ++ m.beforeOp).length := by
    obtain ⟨t, ht⟩ := m.op.exists_text
    rw [m.textIndex_core, ht, textIndex_self_append, Option.map_some, Nat.zero_add]
  obtain ⟨n, hn⟩ := m.exists_label_length
  have hlabel : trimSpace (m.core.take (n + 1)) = tenantLabel := by
    rw [← hn, core, take_left, m.trimSpace_name]
    simpa [isTenant] using hm
  have hvalue : trimSpace (m.core.drop (n + 1 + m.op.text.length)) = m.literal.text := by
    rw [← hn, core, ← append_assoc, ← length_append, drop_left, operand,
      trimSpace_append_left m.afterOp_blank]
    refine trimSpace_of_trimmed ⟨fun c hc => ?_, fun c hc => ?_⟩
    · rw [Literal.text, cons_append, head?_cons, Option.mem_def,
        Option.some.injEq] at hc
      exact hc ▸ isSpace_mark m.literal
    · rw [Literal.text, getLast?_concat, Option.mem_def, Option.some.injEq] at hc
      exact hc ▸ isSpace_mark m.literal
  rw [filterTenantsByMatcher, hops, filterByFirstOp_append hearlier, filterByFirstOp, hidx, hn]
  simp only [hlabel, hvalue, ne_eq, not_true_eq_false, if_false,
    trimAny_text hplain.front hplain.back, applyTenantMatch_plain hplain]
  rfl

theorem Plain.mono {fewer : List Text} (hplain : m.Plain compile tenantIDs)
    (hsub : fewer ⊆ tenantIDs) : m.Plain compile fewer where
  spelled := hplain.spelled
  front := hplain.front
  back := hplain.back
  operator := hplain.operator
  expression hop := by
    obtain ⟨loose, anchoredMatch, hloose, hanchored, hagree⟩ := hplain.expression hop
    exact ⟨loose, anchoredMatch, hloose, hanchored, fun t ht => hagree t (hsub ht)⟩

end Matcher

/-! ## The query -/

variable {tenantIDs : List Text}

/-- The loop over the matchers keeps the other matchers and the tenants that satisfy all tenant
matchers. -/
theorem filterMatchers_matchers {compile : Regexp} {ms : List Matcher}
    (hplain : ∀ m ∈ ms, m.isTenant = true → m.Plain compile tenantIDs) (kept : List Text) :
    filterMatchers compile kept tenantIDs (ms.map core) =
      .ok (kept ++ (ms.filter fun m => !m.isTenant).map core,
        tenantIDs.filter fun t => ms.all fun m => !m.isTenant || m.accepts compile t) := by
  induction ms generalizing kept tenantIDs with
  | nil => simp [filterMatchers]
  | cons m ms ih =>
    rw [map_cons, filterMatchers]
    cases hm : m.isTenant with
    | true =>
      have hsub : tenantIDs.filter (m.accepts compile) ⊆ tenantIDs :=
        filter_subset_self tenantIDs
      rw [filterTenantsByMatcher_tenant hm (hplain m mem_cons_self hm)]
      change filterMatchers compile kept _ _ = _
      rw [ih fun m' hm' htenant =>
        (hplain m' (mem_cons_of_mem m hm') htenant).mono hsub]
      simp [hm, filter_filter, Bool.and_comm]
    | false =>
      rw [filterTenantsByMatcher_other hm]
      change filterMatchers compile (kept ++ [m.core]) _ _ = _
      rw [ih fun m' hm' htenant => hplain m' (mem_cons_of_mem m hm') htenant]
      simp [hm]

theorem trimSpace_selector (inner rest : Text) :
    trimSpace ('{' :: inner ++ '}' :: rest) =
      '{' :: inner ++ '}' :: rest.rdropWhile isSpace := by
  have hopen : ¬isSpace '{' = true := by decide
  rw [trimSpace, cons_append, dropWhile_cons_of_neg hopen, ← cons_append,
    rdropWhile_append_cons (by decide)]

/-- The leading selector and what follows it. -/
theorem splitLeadingSelector_selector {ms : List Matcher}
    (hclean : ∀ m ∈ ms, m.literal.ScansClean) (rest : Text) :
    splitLeadingSelector
        ('{' :: [','].intercalate (ms.map text) ++ '}' :: rest.rdropWhile isSpace) =
      some ('{' :: [','].intercalate (ms.map text) ++ ['}'], trimSpace rest) := by
  have hfind := findMatchingBraceFrom_matchers hclean (rest.rdropWhile isSpace)
  generalize [','].intercalate (ms.map text) = inner at hfind ⊢
  have hlocal : findMatchingBraceLocal ('{' :: inner ++ '}' :: rest.rdropWhile isSpace) =
      some (inner.length + 1) := by
    have hopen : ∀ s, findMatchingBraceFrom 0 .outside ('{' :: s) =
        (findMatchingBraceFrom 1 .outside s).map (· + 1) := by
      simp [findMatchingBraceFrom, Quote.next]
    rw [findMatchingBraceLocal, cons_append, hopen, hfind, Option.map_some]
  have hcut : '{' :: inner ++ '}' :: rest.rdropWhile isSpace =
      ('{' :: inner ++ ['}']) ++ rest.rdropWhile isSpace := by simp
  have hlength : inner.length + 1 + 1 = ('{' :: inner ++ ['}']).length := by simp
  rw [splitLeadingSelector, trimSpace_selector, rdropWhile_idempotent]
  simp only [hlocal, Option.map_some]
  rw [if_pos (by rfl), hcut, hlength, take_left, drop_left, trimSpace_rdropWhile]

theorem trimmed_rebuild (kept : List Text) (rest : Text) :
    trimSpace (rebuild kept rest) = rebuild kept rest := by
  have hrest := trimmed_trimSpace rest
  refine trimSpace_of_trimmed ⟨fun c hc => ?_, fun c hc => ?_⟩
  · rw [rebuild] at hc
    split_ifs at hc <;>
    · simp only [cons_append, head?_cons, Option.mem_def, Option.some.injEq] at hc
      subst hc
      decide
  · rw [rebuild] at hc
    split_ifs at hc with hkept hblank hblank
    · obtain rfl : '*' = c := by simpa using hc
      decide
    · rw [getLast?_append_of_ne_nil _ hblank] at hc
      exact hrest.2 c hc
    · rw [getLast?_concat, Option.mem_def, Option.some.injEq] at hc
      subst hc
      decide
    · rw [getLast?_append_of_ne_nil _ hblank] at hc
      exact hrest.2 c hc

theorem rebuild_trimSpace (kept : List Text) (rest : Text) :
    rebuild kept (trimSpace rest) = rebuild kept rest := by
  rw [rebuild, trimSpace_trimSpace, rebuild]

/-- The matchers of a selector are applied in turn, and those on the tenant are dropped. -/
theorem filterTenantMatchers_selector {compile : Regexp} {q : SelectorQuery}
    (hclean : ∀ m ∈ q.matchers, m.literal.ScansClean)
    (hplain : ∀ m ∈ q.matchers, m.isTenant = true → m.Plain compile tenantIDs) :
    filterTenantMatchers compile q.text tenantIDs =
      .ok (q.forwarded, tenantIDs.filter (q.keeps compile)) := by
  have htext : trimSpace q.text = '{' :: q.inner ++ '}' :: q.rest.rdropWhile isSpace := by
    rw [SelectorQuery.text, append_assoc, trimSpace_append_left q.lead_blank,
      trimSpace_selector]
  have hinner : ('{' :: q.inner ++ ['}']).tail.dropLast = q.inner := by
    simp
  have hsplit := splitLeadingSelector_selector hclean q.rest
  rw [← SelectorQuery.inner] at hsplit
  rw [filterTenantMatchers, htext]
  simp only [hsplit, hinner]
  rw [if_neg (by simp), SelectorQuery.inner, splitSelectorMatchers_matchers hclean,
    filterMatchers_matchers hplain]
  simp only [nil_append, rebuild_trimSpace, trimmed_rebuild]
  rfl

/-- A query that does not start with a selector is left as it is. -/
theorem filterTenantMatchers_wrapped {query : Text} (hquery : (trimSpace query).head? ≠ some '{')
    (compile : Regexp) (tenantIDs : List Text) :
    filterTenantMatchers compile query tenantIDs = .ok (trimSpace query, tenantIDs) := by
  have hsplit : splitLeadingSelector (trimSpace query) = none := by
    rw [splitLeadingSelector, trimSpace_trimSpace]
    exact if_neg hquery
  rw [filterTenantMatchers]
  simp only [hsplit, ite_self]

/-- The tenants asked are those that satisfy every tenant matcher of the leading selector, in
their order, and they are sent the query without those matchers, whether it came as `query` or
as `match[]`; a query with no leading selector is sent to all. -/
theorem leading_selector_narrows_tenants (compile : Regexp) (tenantIDs : List Text)
    (q : SelectorQuery) (hclean : ∀ m ∈ q.matchers, m.literal.ScansClean)
    (hplain : ∀ m ∈ q.matchers, m.isTenant = true → m.Plain compile tenantIDs) :
    filterTenantMatchers compile q.text tenantIDs =
        .ok (q.forwarded, tenantIDs.filter (q.keeps compile)) ∧
      (∀ r : FanoutRequest, r.query = q.text →
        applyTenantSelectorFilter compile r tenantIDs =
          .ok ({ r with
            query := q.forwarded
            orgID := ['|'].intercalate (tenantIDs.filter (q.keeps compile)) },
            tenantIDs.filter (q.keeps compile))) ∧
      (∀ r : FanoutRequest, r.query = [] → r.matchers = [q.text] →
        applyTenantSelectorFilter compile r tenantIDs =
          .ok ({ r with
            matchers := [q.forwarded]
            orgID := ['|'].intercalate (tenantIDs.filter (q.keeps compile)) },
            tenantIDs.filter (q.keeps compile))) ∧
      ∀ query : Text, (trimSpace query).head? ≠ some '{' →
        filterTenantMatchers compile query tenantIDs = .ok (trimSpace query, tenantIDs) := by
  have hselector := filterTenantMatchers_selector hclean hplain
  have hne : q.text ≠ [] := by simp [SelectorQuery.text]
  refine ⟨hselector, fun r hr => ?_, fun r hquery hmatch => ?_,
    fun query hquery => filterTenantMatchers_wrapped hquery compile tenantIDs⟩
  · rw [applyTenantSelectorFilter, if_pos (hr ▸ hne), hr, hselector]
    rfl
  · rw [applyTenantSelectorFilter, if_neg (by simp [hquery]), if_pos (by simp [hmatch]), hmatch,
      filterMatchParams, hselector]
    rfl

/-- The matcher ` app = …` with a back-quoted expression. -/
def appMatcher : Matcher where
  lead := [' ']
  name := ['a', 'p', 'p']
  beforeOp := [' ']
  op := .match
  afterOp := [' ']
  literal := .raw ['x', '{', '2', '}']
  trail := []
  lead_blank := all_eq_true.mp rfl
  name_ne_nil := cons_ne_nil _ _
  name_chars := all_eq_true.mp rfl
  beforeOp_blank := all_eq_true.mp rfl
  afterOp_blank := all_eq_true.mp rfl
  literal_wellFormed := by simp [Literal.WellFormed]
  trail_blank := all_eq_true.mp rfl

/-- The matcher `__tenant_id__="a"`. -/
def tenantAMatcher : Matcher where
  lead := []
  name := tenantLabel
  beforeOp := []
  op := .equal
  afterOp := []
  literal := .quoted [.plain 'a']
  trail := []
  lead_blank := all_eq_true.mp rfl
  name_ne_nil := by decide
  name_chars := all_eq_true.mp (by decide)
  beforeOp_blank := all_eq_true.mp rfl
  afterOp_blank := all_eq_true.mp rfl
  literal_wellFormed := by simp [Literal.WellFormed, QuotedChar.WellFormed]
  trail_blank := all_eq_true.mp rfl

/-- The selector of both matchers, with a line filter behind it. -/
def appOfTenantA : SelectorQuery where
  lead := []
  matchers := [appMatcher, tenantAMatcher]
  rest := [' ', '|', '=', ' ', '"', 'e', '"']
  lead_blank := all_eq_true.mp rfl

example :
    appOfTenantA.text = "\x7b app =~ `x\x7b2\x7d`,__tenant_id__=\"a\"\x7d |= \"e\"".toList := by
  decide +kernel

theorem leading_selector_narrows_to_a :
    filterTenantMatchers (fun _ => .error []) appOfTenantA.text [['a'], ['b']] =
      .ok ("\x7bapp =~ `x\x7b2\x7d`\x7d |= \"e\"".toList, [['a']]) := by
  have hresult : appOfTenantA.forwarded = "\x7bapp =~ `x\x7b2\x7d`\x7d |= \"e\"".toList := by
    decide +kernel
  have hclean : ∀ m ∈ appOfTenantA.matchers, m.literal.ScansClean := by
    simp [appOfTenantA, appMatcher, tenantAMatcher, Literal.ScansClean, Passes, Quote.next]
  have hplain : ∀ m ∈ appOfTenantA.matchers, m.isTenant = true →
      m.Plain (fun _ => .error []) [['a'], ['b']] := by
    intro m hm htenant
    rcases mem_pair.mp hm with rfl | rfl
    · exact absurd htenant (by decide)
    · exact {
        spelled := rfl
        front := by simp [tenantAMatcher, Literal.body, QuotedChar.text]
        back := by simp [tenantAMatcher, Literal.body, QuotedChar.text]
        operator := by
          simp [tenantAMatcher, MatchOp.earlier, matchOps, MatchOp.text, Literal.text,
            Literal.mark, Literal.body, QuotedChar.text, textIndex]
        expression := by simp [tenantAMatcher] }
  rw [(leading_selector_narrows_tenants _ _ appOfTenantA hclean hplain).1, hresult]
  rfl

/-- Inside an aggregation the matcher of the same selector keeps no tenant out. -/
theorem wrapped_selector_keeps_all_tenants :
    appOfTenantA.keeps (fun _ => .error []) ['b'] = false ∧
      filterTenantMatchers (fun _ => .error [])
          ("sum(rate(".toList ++ appOfTenantA.text ++ "[5m]))".toList) [['a'], ['b']] =
        .ok ("sum(rate(".toList ++ appOfTenantA.text ++ "[5m]))".toList, [['a'], ['b']]) := by
  refine ⟨rfl, ?_⟩
  have htrimmed : trimSpace ("sum(rate(".toList ++ appOfTenantA.text ++ "[5m]))".toList) =
      "sum(rate(".toList ++ appOfTenantA.text ++ "[5m]))".toList := by
    decide +kernel
  rw [filterTenantMatchers_wrapped (by decide +kernel), htrimmed]

end LokiVlProxy.Proxy.TenantSelector
