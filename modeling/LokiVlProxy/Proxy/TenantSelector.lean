/-
  Proxy/TenantSelector.lean --- the query of a multi-tenant request narrows its tenants.

  `internal/proxy/multitenant.go`: `filterTenantMatchers` takes the stream selector at the
  front of a query apart, lets its `__tenant_id__` matchers choose among the tenants of the
  request and writes the selector again without them.
-/
import LokiVlProxy.Foundation.Text

namespace LokiVlProxy.Proxy.TenantSelector

open LokiVlProxy.Foundation

/-- `regexp.Compile`: the message of its error, or `MatchString` of the expression. -/
abbrev Regexp : Type := Text → Except Text (Text → Bool)

/-- The synthetic label. -/
def tenantLabel : Text := "__tenant_id__".toList

/-! ## The scanners -/

/-- Where a scanner is with respect to double quotes; `escaped` is behind a backslash inside
quotes, whose next character the source skips. -/
inductive Quote where
  | outside
  | inside
  | escaped
  deriving DecidableEq, Repr

/-- One character further. -/
def Quote.next : Quote → Char → Quote
  | .outside, c => if c == '"' then .inside else .outside
  | .inside, c => if c == '\\' then .escaped else if c == '"' then .outside else .inside
  | .escaped, _ => .inside

/-- The loop of `findMatchingBraceLocal`. -/
def findMatchingBraceFrom (depth : Int) (quote : Quote) : Text → Option Nat
  | [] => none
  | c :: s =>
    match quote with
    | .outside =>
      if c == '}' then
        if depth - 1 = 0 then some 0
        else (findMatchingBraceFrom (depth - 1) .outside s).map (· + 1)
      else
        (findMatchingBraceFrom (if c == '{' then depth + 1 else depth)
          (Quote.next .outside c) s).map (· + 1)
    | _ => (findMatchingBraceFrom depth (quote.next c) s).map (· + 1)

/-- `findMatchingBraceLocal`; `none` is its -1. -/
def findMatchingBraceLocal (s : Text) : Option Nat :=
  findMatchingBraceFrom 0 .outside s

/-- `splitLeadingSelector`: the selector with its braces, and what follows it. -/
def splitLeadingSelector (query : Text) : Option (Text × Text) :=
  let query := trimSpace query
  if query.head? = some '{' then
    (findMatchingBraceLocal query).map fun last =>
      (query.take (last + 1), trimSpace (query.drop (last + 1)))
  else none

/-- A piece of the selector, unless it is blank. -/
def matcherPart (piece : Text) : List Text :=
  let part := trimSpace piece
  if part = [] then [] else [part]

/-- The loop of `splitSelectorMatchers`, with the piece it is in. -/
def splitMatchersFrom (quote : Quote) (piece : Text) : Text → List Text
  | [] => matcherPart piece
  | c :: s =>
    if quote = .outside ∧ c = ',' then matcherPart piece ++ splitMatchersFrom .outside [] s
    else splitMatchersFrom (quote.next c) (piece ++ [c]) s

def splitSelectorMatchers (s : Text) : List Text :=
  splitMatchersFrom .outside [] s

/-! ## One matcher -/

/-- The operators of a matcher. -/
inductive MatchOp where
  | notMatch
  | match
  | notEqual
  | equal
  deriving DecidableEq, Repr

/-- How an operator is written. -/
def MatchOp.text : MatchOp → Text
  | .notMatch => ['!', '~']
  | .match => ['=', '~']
  | .notEqual => ['!', '=']
  | .equal => ['=']

/-- The operators in the order in which they are looked for. -/
def matchOps : List MatchOp := [.notMatch, .match, .notEqual, .equal]

/-- The message for a tenant expression that does not compile. -/
def invalidRegex (err : Text) : Text := "invalid __tenant_id__ regex: ".toList ++ err

variable (compile : Regexp)

/-- `applyTenantMatch`: the tenants an operator and a value leave. -/
def applyTenantMatch (tenantIDs : List Text) (op : MatchOp) (raw : Text) :
    Except Text (List Text) :=
  match op with
  | .equal => .ok (tenantIDs.filter fun tenantID => tenantID == raw)
  | .notEqual => .ok (tenantIDs.filter fun tenantID => tenantID != raw)
  | .match =>
    match compile raw with
    | .error err => .error (invalidRegex err)
    | .ok matchString => .ok (tenantIDs.filter matchString)
  | .notMatch =>
    match compile raw with
    | .error err => .error (invalidRegex err)
    | .ok matchString => .ok (tenantIDs.filter fun tenantID => !matchString tenantID)

/-- The loop of `filterTenantsByMatcher` over the operators: the first one found behind the
first character decides.  `none` says that the matcher was not handled. -/
def filterByFirstOp (compile : Regexp) (tenantIDs : List Text) (matcher : Text) :
    List MatchOp → Except Text (Option (List Text))
  | [] => .ok none
  | op :: ops =>
    match textIndex op.text matcher with
    | some (idx + 1) =>
      if trimSpace (matcher.take (idx + 1)) ≠ tenantLabel then .ok none
      else
        let raw := trimSpace (matcher.drop (idx + 1 + op.text.length))
        (applyTenantMatch compile tenantIDs op (trimAny ['"', '`'] raw)).map some
    | _ => filterByFirstOp compile tenantIDs matcher ops

def filterTenantsByMatcher (tenantIDs : List Text) (matcher : Text) :
    Except Text (Option (List Text)) :=
  filterByFirstOp compile tenantIDs matcher matchOps

/-! ## The query -/

/-- The loop of `filterTenantMatchers`: the matchers that stay and the tenants that stay. -/
def filterMatchers (compile : Regexp) (filteredMatchers filteredTenants : List Text) :
    List Text → Except Text (List Text × List Text)
  | [] => .ok (filteredMatchers, filteredTenants)
  | matcher :: matchers =>
    match filterTenantsByMatcher compile filteredTenants matcher with
    | .error err => .error err
    | .ok (some nextTenants) => filterMatchers compile filteredMatchers nextTenants matchers
    | .ok none =>
      filterMatchers compile (filteredMatchers ++ [matcher]) filteredTenants matchers

/-- The selector written again, in front of what followed it. -/
def rebuild (filteredMatchers : List Text) (rest : Text) : Text :=
  if filteredMatchers = [] then
    if trimSpace rest = [] then ['*'] else ['*', ' '] ++ trimSpace rest
  else
    if trimSpace rest = [] then '{' :: [','].intercalate filteredMatchers ++ ['}']
    else '{' :: [','].intercalate filteredMatchers ++ ['}', ' '] ++ trimSpace rest

/-- `filterTenantMatchers`: the query to forward and the tenants to ask. -/
def filterTenantMatchers (query : Text) (tenantIDs : List Text) : Except Text (Text × List Text) :=
  let query := trimSpace query
  if query = [] then .ok (query, tenantIDs)
  else
    match splitLeadingSelector query with
    | none => .ok (query, tenantIDs)
    | some (selector, rest) =>
      -- `selector[1 : len(selector)-1]`
      match filterMatchers compile [] tenantIDs
          (splitSelectorMatchers (selector.tail.dropLast)) with
      | .error err => .error err
      | .ok (filteredMatchers, filteredTenants) =>
        .ok (trimSpace (rebuild filteredMatchers rest), filteredTenants)

/-! ## The request -/

/-- What the filter reads and writes of a request: two parameters of its URL and the tenant
header. -/
structure FanoutRequest where
  query : Text
  matchers : List Text
  orgID : Text
  deriving DecidableEq, Repr

/-- The loop over the `match[]` parameters: each one narrows what the ones before it left. -/
def filterMatchParams (compile : Regexp) (filtered : List Text) :
    List Text → Except Text (List Text × List Text)
  | [] => .ok ([], filtered)
  | expr :: exprs =>
    match filterTenantMatchers compile expr filtered with
    | .error err => .error err
    | .ok (updated, narrowed) =>
      (filterMatchParams compile narrowed exprs).map fun (matchers, tenants) =>
        (updated :: matchers, tenants)

def applyTenantSelectorFilter (r : FanoutRequest) (tenantIDs : List Text) :
    Except Text (FanoutRequest × List Text) :=
  if r.query ≠ [] then
    (filterTenantMatchers compile r.query tenantIDs).map fun (query, filtered) =>
      ({ r with query := query, orgID := ['|'].intercalate filtered }, filtered)
  else if r.matchers ≠ [] then
    (filterMatchParams compile tenantIDs r.matchers).map fun (matchers, filtered) =>
      ({ r with matchers := matchers, orgID := ['|'].intercalate filtered }, filtered)
  else .ok (r, tenantIDs)

open List

/-! ## Queries with a leading selector

The grammar side is written down as data: a selector is a list of matchers, a matcher is a name,
an operator and a string literal with blanks around them, and each has a text. -/

/-- A character of a double-quoted literal, or an escape sequence for one. -/
inductive QuotedChar where
  | plain (c : Char)
  | escape (c : Char) (more : Text) (denotes : Char)
  deriving DecidableEq, Repr

/-- How it is written. -/
def QuotedChar.text : QuotedChar → Text
  | .plain c => [c]
  | .escape c more _ => '\\' :: c :: more

/-- The character it stands for. -/
def QuotedChar.value : QuotedChar → Char
  | .plain c => c
  | .escape _ _ denotes => denotes

/-- A plain character is neither a quote nor a backslash; the digits of a longer escape
sequence are not either. -/
def QuotedChar.WellFormed : QuotedChar → Prop
  | .plain c => c ≠ '"' ∧ c ≠ '\\'
  | .escape _ more _ => '"' ∉ more ∧ '\\' ∉ more

/-- A string literal. -/
inductive Literal where
  | quoted (chars : List QuotedChar)
  | raw (body : Text)
  deriving DecidableEq, Repr

/-- What stands between the quotes. -/
def Literal.body : Literal → Text
  | .quoted chars => chars.flatMap QuotedChar.text
  | .raw body => body

/-- The quote a literal begins and ends with. -/
def Literal.mark : Literal → Char
  | .quoted _ => '"'
  | .raw _ => '\x60'

/-- How a literal is written. -/
def Literal.text (l : Literal) : Text := l.mark :: l.body ++ [l.mark]

/-- The string a literal stands for. -/
def Literal.value : Literal → Text
  | .quoted chars => chars.map QuotedChar.value
  | .raw body => body

/-- The literals of the language. -/
def Literal.WellFormed : Literal → Prop
  | .quoted chars => ∀ c ∈ chars, c.WellFormed
  | .raw body => '\x60' ∉ body

/-- Blanks. -/
def Blank (text : Text) : Prop := ∀ c ∈ text, isSpace c = true

/-- A character of a label name. -/
def nameChar (c : Char) : Bool :=
  !isSpace c && !(List.contains ['"', '\x60', ',', '{', '}', '=', '!', '~'] c)

/-- A matcher of a selector as it is written, with the blanks in it. -/
structure Matcher where
  lead : Text
  name : Text
  beforeOp : Text
  op : MatchOp
  afterOp : Text
  literal : Literal
  trail : Text
  lead_blank : Blank lead
  name_ne_nil : name ≠ []
  name_chars : ∀ c ∈ name, nameChar c = true
  beforeOp_blank : Blank beforeOp
  afterOp_blank : Blank afterOp
  literal_wellFormed : literal.WellFormed
  trail_blank : Blank trail

namespace Matcher

variable (m : Matcher)

/-- What follows the operator. -/
def operand : Text := m.afterOp ++ m.literal.text

/-- The matcher without the blanks around it. -/
def core : Text := m.name ++ m.beforeOp ++ (m.op.text ++ m.operand)

/-- The matcher between two commas. -/
def text : Text := m.lead ++ m.core ++ m.trail

/-- Whether the label of the matcher is the synthetic one. -/
def isTenant : Bool := m.name == tenantLabel

end Matcher

/-- Anchoring on both ends, as LogQL reads the expressions of its matchers. -/
def anchored (pattern : Text) : Text := "^(?:".toList ++ pattern ++ ")$".toList

/-- Whether a tenant id satisfies a matcher. -/
def Matcher.accepts (m : Matcher) (tenantID : Text) : Bool :=
  match m.op with
  | .equal => tenantID == m.literal.value
  | .notEqual => tenantID != m.literal.value
  | .match =>
    match compile (anchored m.literal.value) with
    | .ok matchString => matchString tenantID
    | .error _ => false
  | .notMatch =>
    match compile (anchored m.literal.value) with
    | .ok matchString => !matchString tenantID
    | .error _ => false

/-- A query that begins with a stream selector; what follows the selector is any text. -/
structure SelectorQuery where
  lead : Text
  matchers : List Matcher
  rest : Text
  lead_blank : Blank lead

namespace SelectorQuery

variable (q : SelectorQuery)

/-- The selector between its braces. -/
def inner : Text := [','].intercalate (q.matchers.map Matcher.text)

/-- The text of the query. -/
def text : Text := q.lead ++ '{' :: q.inner ++ '}' :: q.rest

/-- A tenant id is kept if it satisfies every tenant matcher. -/
def keeps (compile : Regexp) (q : SelectorQuery) (tenantID : Text) : Bool :=
  q.matchers.all fun m => !m.isTenant || m.accepts compile tenantID

/-- The matchers that are not about tenants. -/
def others : List Matcher := q.matchers.filter fun m => !m.isTenant

/-- The query without its tenant matchers; the pattern `*` stands for a selector none of whose
matchers is left. -/
def forwarded : Text := rebuild (q.others.map Matcher.core) q.rest

end SelectorQuery

/-! ## The scanners over a piece of text -/

/-- Scanned from a state, the text has no comma and no unmatched brace outside quotes, and its
quotes and braces are closed at its end. -/
def Passes (quote : Quote) (depth : Nat) : Text → Prop
  | [] => quote = .outside ∧ depth = 0
  | c :: s =>
    match quote with
    | .outside =>
      if c = ',' then False
      else if c = '}' then 0 < depth ∧ Passes .outside (depth - 1) s
      else Passes (Quote.next .outside c) (if c = '{' then depth + 1 else depth) s
    | _ => Passes (quote.next c) depth s

/-- A back-quoted literal over which the scanners come out as they went in. -/
def Literal.ScansClean : Literal → Prop
  | .quoted _ => True
  | .raw body => Passes .outside 0 body

variable {quote : Quote} {depth : Nat} {t : Text}

theorem Passes.append {u : Text} (ht : Passes quote depth t) (hu : Passes .outside 0 u) :
    Passes quote depth (t ++ u) := by
  induction t generalizing quote depth with
  | nil =>
    obtain ⟨rfl, rfl⟩ := ht
    exact hu
  | cons c t ih =>
    cases quote with
    | outside =>
      simp only [cons_append, Passes] at ht ⊢
      split_ifs at ht ⊢ with hcomma hclose hopen
      · exact ⟨ht.1, ih ht.2⟩
      · exact ih ht
      · exact ih ht
    | inside | escaped => exact ih ht

/-- A character that no scanner looks at outside quotes. -/
def Neutral (c : Char) : Prop := c ≠ '"' ∧ c ≠ ',' ∧ c ≠ '{' ∧ c ≠ '}'

theorem passes_of_neutral (ht : ∀ c ∈ t, Neutral c) : Passes .outside 0 t := by
  induction t with
  | nil => exact ⟨rfl, rfl⟩
  | cons c t ih =>
    obtain ⟨hquote, hcomma, hopen, hclose⟩ := ht c mem_cons_self
    simp only [Passes, if_neg hcomma, if_neg hclose, if_neg hopen, Quote.next,
      beq_eq_false_iff_ne.mpr hquote, Bool.false_eq_true, if_false]
    exact ih (fun d hd => ht d (mem_cons_of_mem c hd))

theorem neutral_of_isSpace {c : Char} (hc : isSpace c = true) : Neutral c := by
  refine ⟨?_, ?_, ?_, ?_⟩ <;>
  · rintro rfl
    exact absurd hc (by decide)

theorem neutral_of_nameChar {c : Char} (hc : nameChar c = true) : Neutral c := by
  refine ⟨?_, ?_, ?_, ?_⟩ <;>
  · rintro rfl
    exact absurd hc (by decide)

theorem passes_quoted {chars : List QuotedChar} (hchars : ∀ c ∈ chars, c.WellFormed) :
    Passes .inside 0 (chars.flatMap QuotedChar.text ++ ['"']) := by
  have hplain : ∀ (t u : Text), '"' ∉ t → '\\' ∉ t → Passes .inside 0 u →
      Passes .inside 0 (t ++ u) := by
    intro t u hquote hslash hu
    induction t with
    | nil => exact hu
    | cons c t ih =>
      have hc : Quote.next .inside c = .inside := by
        simp only [mem_cons, not_or] at hquote hslash
        simp [Quote.next, Ne.symm hquote.1, Ne.symm hslash.1]
      change Passes (Quote.next .inside c) 0 (t ++ u)
      rw [hc]
      exact ih (fun h => hquote (mem_cons_of_mem c h))
        (fun h => hslash (mem_cons_of_mem c h))
  induction chars with
  | nil => exact ⟨rfl, rfl⟩
  | cons c chars ih =>
    have htail := ih (fun d hd => hchars d (mem_cons_of_mem c hd))
    have hc := hchars c mem_cons_self
    rw [flatMap_cons, append_assoc]
    cases c with
    | plain c =>
      exact hplain [c] _ (by simpa using hc.1.symm) (by simpa using hc.2.symm) htail
    | escape c more denotes => exact hplain more _ hc.1 hc.2 htail

/-- The splitter passes over a literal that scans clean. -/
theorem Literal.passes_text {l : Literal} (hl : l.WellFormed) (hclean : l.ScansClean) :
    Passes .outside 0 l.text := by
  cases l with
  | quoted chars => exact passes_quoted hl
  | raw body =>
    have hmark : Passes .outside 0 ['\x60'] := ⟨rfl, rfl⟩
    exact (hmark.append hclean).append hmark

/-- The brace search passes over such a text. -/
theorem findMatchingBraceFrom_append (ht : Passes quote depth t) (s : Text) :
    findMatchingBraceFrom (depth + 1) quote (t ++ s) =
      (findMatchingBraceFrom 1 .outside s).map (· + t.length) := by
  induction t generalizing quote depth with
  | nil =>
    obtain ⟨rfl, rfl⟩ := ht
    simp
  | cons c t ih =>
    have hlength : ∀ o : Option Nat, (o.map (· + t.length)).map (· + 1) =
        o.map (· + (c :: t).length) := by
      intro o
      rw [Option.map_map]
      rfl
    cases quote with
    | outside =>
      simp only [Passes] at ht
      rw [cons_append, findMatchingBraceFrom, ← hlength]
      split_ifs at ht with hcomma hclose hopen
      · obtain ⟨hpos, ht⟩ := ht
        have hdepth : ((depth : Int) + 1) - 1 = ((depth - 1 : Nat) : Int) + 1 := by omega
        simp only [hclose, beq_self_eq_true, if_true, hdepth]
        rw [if_neg (by omega), ih ht]
      · have hdepth : ((depth : Int) + 1) + 1 = ((depth + 1 : Nat) : Int) + 1 := by omega
        simp only [hopen, beq_self_eq_true, if_true, hdepth] at ht ⊢
        rw [ih ht]
        rfl
      · simp only [beq_eq_false_iff_ne.mpr hclose, beq_eq_false_iff_ne.mpr hopen,
          Bool.false_eq_true, if_false]
        rw [ih ht]
    | inside | escaped => rw [cons_append, findMatchingBraceFrom, ih ht, hlength]; simp

theorem splitMatchersFrom_append (ht : Passes quote depth t) (piece s : Text) :
    splitMatchersFrom quote piece (t ++ s) = splitMatchersFrom .outside (piece ++ t) s := by
  induction t generalizing quote depth piece with
  | nil =>
    obtain ⟨rfl, rfl⟩ := ht
    simp
  | cons c t ih =>
    have hpiece : piece ++ c :: t = piece ++ [c] ++ t := by simp
    rw [cons_append, splitMatchersFrom, hpiece]
    cases quote with
    | outside =>
      simp only [Passes] at ht
      split_ifs at ht with hcomma hclose hopen
      · rw [if_neg (fun h => hcomma h.2)]
        subst hclose
        exact ih ht.2 (piece ++ ['}'])
      all_goals
        rw [if_neg (fun h => hcomma h.2)]
        exact ih ht (piece ++ [c])
    | inside | escaped =>
      rw [if_neg (fun h => Quote.noConfusion h.1)]
      exact ih ht (piece ++ [c])

/-! ## The selector taken apart -/

theorem neutral_of_mem_opText {op : MatchOp} {c : Char} (hc : c ∈ op.text) : Neutral c := by
  cases op <;>
  · simp only [MatchOp.text, mem_cons, not_mem_nil, or_false] at hc
    rcases hc with rfl | rfl <;> exact ⟨by decide, by decide, by decide, by decide⟩

namespace Matcher

/-- The splitter passes over a whole matcher. -/
theorem passes_text {m : Matcher} (hclean : m.literal.ScansClean) :
    Passes .outside 0 m.text := by
  have hblank : ∀ {t : Text}, Blank t → Passes .outside 0 t := fun ht =>
    passes_of_neutral fun c hc => neutral_of_isSpace (ht c hc)
  have hname : Passes .outside 0 m.name :=
    passes_of_neutral fun c hc => neutral_of_nameChar (m.name_chars c hc)
  have hop : Passes .outside 0 m.op.text :=
    passes_of_neutral fun c hc => neutral_of_mem_opText hc
  have hliteral := Literal.passes_text m.literal_wellFormed hclean
  have hcore : Passes .outside 0 m.core :=
    (hname.append (hblank m.beforeOp_blank)).append
      (hop.append ((hblank m.afterOp_blank).append hliteral))
  exact ((hblank m.lead_blank).append hcore).append (hblank m.trail_blank)

variable (m : Matcher)

theorem exists_name_cons : ∃ c t, m.name = c :: t ∧ nameChar c = true := by
  obtain ⟨c, t, hct⟩ := exists_cons_of_ne_nil m.name_ne_nil
  exact ⟨c, t, hct, m.name_chars c (hct ▸ mem_cons_self)⟩

theorem isSpace_of_nameChar {c : Char} (hc : nameChar c = true) : isSpace c = false := by
  rw [nameChar, Bool.and_eq_true, Bool.not_eq_true'] at hc
  exact hc.1

theorem trimSpace_name : trimSpace (m.name ++ m.beforeOp) = m.name := by
  rw [trimSpace_append_right m.beforeOp_blank]
  exact trimSpace_of_noSpace fun c hc => isSpace_of_nameChar (m.name_chars c hc)

theorem isSpace_mark (l : Literal) : isSpace l.mark = false := by
  cases l <;> rfl

theorem trimSpace_core : trimSpace m.core = m.core := by
  refine trimSpace_of_trimmed ⟨fun c hc => ?_, fun c hc => ?_⟩
  · obtain ⟨d, t, hname, hd⟩ := m.exists_name_cons
    simp only [core, hname, cons_append, head?_cons, Option.mem_def,
      Option.some.injEq] at hc
    exact hc ▸ isSpace_of_nameChar hd
  · have hlast : m.core.getLast? = some m.literal.mark := by
      rw [core, operand, Literal.text, ← append_assoc, ← append_assoc,
        ← append_assoc, getLast?_concat]
    rw [hlast, Option.mem_def, Option.some.injEq] at hc
    exact hc ▸ isSpace_mark m.literal

theorem trimSpace_text : trimSpace m.text = m.core := by
  rw [text, trimSpace_append_right m.trail_blank, trimSpace_append_left m.lead_blank,
    trimSpace_core]

theorem core_ne_nil : m.core ≠ [] := by
  obtain ⟨c, t, hname, -⟩ := m.exists_name_cons
  simp [core, hname]

theorem matcherPart_text : matcherPart m.text = [m.core] := by
  rw [matcherPart, trimSpace_text]
  exact if_neg m.core_ne_nil

end Matcher

/-- Over the matchers of a selector the brace search comes to the closing brace. -/
theorem findMatchingBraceFrom_matchers {ms : List Matcher}
    (hclean : ∀ m ∈ ms, m.literal.ScansClean) (rest : Text) :
    findMatchingBraceFrom 1 .outside ([','].intercalate (ms.map Matcher.text) ++ '}' :: rest) =
      some ([','].intercalate (ms.map Matcher.text)).length := by
  have hclose : findMatchingBraceFrom 1 .outside ('}' :: rest) = some 0 := by
    simp [findMatchingBraceFrom]
  have hcomma : ∀ s, findMatchingBraceFrom 1 .outside (',' :: s) =
      (findMatchingBraceFrom 1 .outside s).map (· + 1) := by
    simp [findMatchingBraceFrom, Quote.next]
  induction ms with
  | nil => exact hclose
  | cons m ms ih =>
    have hm := Matcher.passes_text (hclean m mem_cons_self)
    have hms := ih (fun m' hm' => hclean m' (mem_cons_of_mem m hm'))
    have hpass : ∀ s, findMatchingBraceFrom 1 .outside (m.text ++ s) =
        (findMatchingBraceFrom 1 .outside s).map (· + m.text.length) := fun s =>
      findMatchingBraceFrom_append hm s
    cases ms with
    | nil =>
      simp only [map_cons, map_nil, intercalate_singleton]
      rw [hpass, hclose]
      simp
    | cons m' ms =>
      rw [map_cons, map_cons, intercalate_cons_cons, ← map_cons,
        append_assoc, append_assoc, hpass, singleton_append, hcomma, hms]
      simp only [Option.map_some, length_append, length_cons, length_nil]
      congr 1
      omega

/-- A selector is split into its matchers. -/
theorem splitSelectorMatchers_matchers {ms : List Matcher}
    (hclean : ∀ m ∈ ms, m.literal.ScansClean) :
    splitSelectorMatchers ([','].intercalate (ms.map Matcher.text)) = ms.map Matcher.core := by
  induction ms with
  | nil => rfl
  | cons m ms ih =>
    have hm := Matcher.passes_text (hclean m mem_cons_self)
    have hms := ih (fun m' hm' => hclean m' (mem_cons_of_mem m hm'))
    cases ms with
    | nil =>
      simp only [map_cons, map_nil, intercalate_singleton]
      rw [splitSelectorMatchers, ← append_nil m.text, splitMatchersFrom_append hm,
        nil_append, splitMatchersFrom, m.matcherPart_text]
    | cons m' ms =>
      rw [map_cons, map_cons, intercalate_cons_cons, ← map_cons,
        append_assoc, splitSelectorMatchers, splitMatchersFrom_append hm,
        nil_append, singleton_append, splitMatchersFrom, if_pos ⟨rfl, rfl⟩,
        m.matcherPart_text, ← splitSelectorMatchers, hms]
      rfl

end LokiVlProxy.Proxy.TenantSelector
