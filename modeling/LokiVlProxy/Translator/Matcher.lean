/-
  Translator/Matcher.lean --- a matcher as a filter on one field.

  Source: streamMatcherToFieldFilter and translateSingleLabelFilterM in
  internal/translator/translator.go, AnchorLabelMatcherRegex in internal/logsql.

  Both functions look for their operators in a fixed order, anywhere in the text of the matcher.
-/
import LokiVlProxy.Translator.ChainFilter
import LokiVlProxy.Translator.PushedLabelFormat

namespace LokiVlProxy.Translator

open Foundation Logsql List
open Logql.Syntax

variable (u : UnicodeTables)

/-! ## Operators -/

/-- A row of `logqlSingleFilterOps` or `streamMatcherOps`. -/
structure MatcherOp where
  logql : Runes
  vlOp : FieldOp
  negate : Bool
  isRe : Bool
  isComp : Bool
  deriving DecidableEq, Repr

def logqlSingleFilterOps : List MatcherOp :=
  [⟨literal "==", .exact, false, false, false⟩, ⟨literal "!=", .exact, true, false, false⟩,
    ⟨literal "=~", .regexp, false, true, false⟩, ⟨literal "!~", .regexp, true, true, false⟩,
    ⟨literal ">=", .gte, false, false, true⟩, ⟨literal "<=", .lte, false, false, true⟩,
    ⟨literal ">", .gt, false, false, true⟩, ⟨literal "<", .lt, false, false, true⟩,
    ⟨literal "=", .exact, false, false, false⟩]

def streamMatcherOps : List MatcherOp :=
  [⟨literal "!~", .regexp, true, true, false⟩, ⟨literal "=~", .regexp, false, true, false⟩,
    ⟨literal "!=", .exact, true, false, false⟩, ⟨literal "=", .exact, false, false, false⟩]

/-- The first operator of a table that occurs with a text before it, and the texts around its first
occurrence. -/
def cutOperator (ops : List MatcherOp) (s : Runes) : Option (Runes × MatcherOp × Runes) :=
  ops.findSome? fun op =>
    match s.dropInfix? op.logql with
    | some (label, value) => if label.isEmpty then none else some (label, op, value)
    | none => none

/-! ## Names of fields -/

/-- `fieldDotSpacingRE.ReplaceAllString(label, ".")`; each round takes a rune. -/
def tightenDots : Nat → Runes → Runes
  | 0, s => s
  | _ + 1, [] => []
  | fuel + 1, r :: s =>
      match (r :: s).dropWhile reSpace with
      | .point '.' :: rest => .point '.' :: tightenDots fuel (rest.dropWhile reSpace)
      | _ => r :: tightenDots fuel s

def normalizeFieldIdentifier (label : Runes) : Runes :=
  let label := trimRunes label
  if label.isEmpty then []
  else
    let label := (label.filter (· ≠ .point '\x60')).filter (· ≠ .point '"')
    trimRunes (tightenDots label.length label)

/-- `strings.ReplaceAll(label, "..", ".")`. -/
def joinDots : Runes → Runes
  | .point '.' :: .point '.' :: s => .point '.' :: joinDots s
  | r :: s => r :: joinDots s
  | [] => []

/-- The loop of `sanitizeFieldIdentifier`: each round makes the label shorter. -/
def joinAllDots : Nat → Runes → Runes
  | 0, s => s
  | fuel + 1, s =>
      if (s.dropInfix? (literal "..")).isSome then joinAllDots fuel (joinDots s) else s

def sanitizeFieldIdentifier (label : Runes) : Runes :=
  let label := normalizeFieldIdentifier label
  if label.isEmpty then []
  else
    let label := (label.dropWhile (· = .point '.')).rdropWhile (· = .point '.')
    trimRunes (joinAllDots label.length label)

/-! ## Values -/

def unquoteLogQLValue (value : Runes) : Runes :=
  let value := trimRunes value
  match value with
  | .point '"' :: body =>
      if body.getLast? = some (.point '"') then (unquoteAny value).getD body.dropLast else value
  | .point '\x60' :: body =>
      if body.getLast? = some (.point '\x60') then body.dropLast else value
  | _ => value

def regexFlag (r : Rune) : Bool := r.is fun c => c = 'i' || c = 'm' || c = 's' || c = 'U'

/-- `leadingRegexFlagsRE`: the flags of a group at the front of a pattern, and the text behind. -/
def leadingRegexFlags : Runes → Option (Runes × Runes)
  | .point '(' :: .point '?' :: s =>
      let on := s.takeWhile regexFlag
      match s.drop on.length with
      | .point ')' :: rest => if on.isEmpty then none else some (on, rest)
      | .point '-' :: s =>
          let off := s.takeWhile regexFlag
          match s.drop off.length with
          | .point ')' :: rest => if off.isEmpty then none else some (on ++ .point '-' :: off, rest)
          | _ => none
      | _ => none
  | _ => none

/-- `splitLeadingRegexFlags`; each round takes a group. -/
def splitLeadingRegexFlags : Nat → Runes → List Runes × Runes
  | 0, s => ([], s)
  | fuel + 1, s =>
      match leadingRegexFlags s with
      | none => ([], s)
      | some (flags, rest) =>
          let (more, body) := splitLeadingRegexFlags fuel rest
          (flags :: more, body)

def anchorLabelMatcherRegex (pattern : Runes) : Runes :=
  let (flags, body) := splitLeadingRegexFlags pattern.length pattern
  let inner := flags.foldr (fun group inner =>
    literal "(?" ++ group ++ literal ":" ++ inner ++ literal ")") body
  literal "^(?:" ++ inner ++ literal ")$"

/-- The value of a matcher as its filter has it. -/
def MatcherOp.value (op : MatcherOp) (value : Runes) : Runes :=
  if op.isRe then anchorLabelMatcherRegex value else value

/-! ## Filters -/

/-- Names with a dot are quoted. -/
def quoteDotted (label : Runes) : Runes :=
  if label.contains (.point '.') then .point '"' :: (label ++ [.point '"']) else label

/-- The filter at the end of both functions.  A pattern is anchored and never empty. -/
def labelFieldFilter (label : Runes) (op : MatcherOp) (value : Runes) : Runes :=
  let label := quoteDotted label
  if op.isComp then buildFieldFilterStr u label op.vlOp value op.negate
  else if value.isEmpty then
    if label = literal "level" ∧ op.negate = false then literal "-level:*"
    else if op.negate then label ++ literal ":!\"\""
    else buildFieldFilterStr u label .exact [] false
  else buildFieldFilterStr u label op.vlOp value op.negate

def syntheticServiceNameFields : List Runes :=
  [literal "service_name", literal "service.name", literal "service", literal "app",
    literal "application", literal "app_name", literal "name", literal "app_kubernetes_io_name",
    literal "container", literal "container_name", literal "k8s.container.name",
    literal "k8s_container_name", literal "component", literal "workload", literal "job",
    literal "k8s.job.name", literal "k8s_job_name"]

def serviceNameMatcherFilter (op : MatcherOp) (value : Runes) : Runes :=
  let parts := syntheticServiceNameFields.map fun field =>
    let name := quoteDotted field
    if op.isRe then buildFieldFilterStr u name .regexp value op.negate
    else if value.isEmpty then
      if op.negate then name ++ literal ":!\"\"" else buildFieldFilterStr u name .exact [] false
    else buildFieldFilterStr u name .exact value op.negate
  let any := literal "(" ++ (literal " OR ").intercalate parts ++ literal ")"
  let all := (literal " ").intercalate parts
  if value.isEmpty ∧ op.isRe = false then if op.negate then any else all
  else if op.negate then all else any

/-- The field that stores a label. -/
def storedField (label : Runes) : Runes :=
  if label = literal "detected_level" then literal "level" else label

/-- `streamMatcherToFieldFilter` without a mapping and a label function. -/
def streamMatcherToFieldFilter (matcher : Runes) : Runes :=
  match cutOperator streamMatcherOps (trimRunes matcher) with
  | none => []
  | some (label, op, value) =>
      let origLabel := sanitizeFieldIdentifier label
      if origLabel.isEmpty then []
      else
        let value := op.value (unquoteLogQLValue (trimRunes value))
        if origLabel = literal "service_name" then serviceNameMatcherFilter u op value
        else labelFieldFilter u (storedField origLabel) op value

/-- `translateSingleLabelFilterM` without a mapping and a label function; `ip` is
`BestIPv4Range`. -/
def translateSingleLabelFilter (ip : Runes → Runes → FieldFilter) (stage : Runes) :
    Option Runes :=
  match cutOperator logqlSingleFilterOps stage with
  | none => none
  | some (label, op, value) =>
      let label := sanitizeFieldIdentifier label
      let value := trimRunes value
      if label.isEmpty then none
      else if literal "ip(\"" <+: value ∧ literal "\")" <:+ value then
        let cidr := (unquoteLogQLValue value).drop 4
        some (FieldFilter.text u
          { ip (storedField label) (cidr.take (cidr.length - 2)) with negate := op.negate })
      else some (labelFieldFilter u (storedField label) op (op.value (unquoteLogQLValue value)))

/-! ## The text of a matcher -/

def operatorRune (r : Rune) : Bool :=
  r.is fun c => c = '=' || c = '!' || c = '~' || c = '<' || c = '>'

/-- The runes of numbers, durations and sizes. -/
def numberRune (r : Rune) : Bool :=
  r.is fun c => !isSpace c && !(['=', '!', '~', '<', '>', '"', '\x60', '('].contains c)

/-- A label as the scanner reads it. -/
structure IsLabel (name : Runes) : Prop where
  ident : ∀ r ∈ name, identRune u r = true
  noSpace : ∀ r ∈ name, r.is isSpace = false
  field : sanitizeFieldIdentifier name ≠ []

/-- How the value of a matcher is written; comparisons have numbers. -/
inductive WritesLiteral (op : MatcherOp) (value : Runes) : Runes → Prop where
  | double (s : Runes) (hcomp : op.isComp = false)
      (hs : scanQuotedString s = (⟨.tokString, value⟩, [])) : WritesLiteral op value (.point '"' :: s)
  | raw (hcomp : op.isComp = false) (hquote : .point '\x60' ∉ value) :
      WritesLiteral op value (.point '\x60' :: (value ++ [.point '\x60']))
  | number (hne : value ≠ []) (hnumber : ∀ r ∈ value, numberRune r = true) :
      WritesLiteral op value value

/-- How a matcher is written, with white space anywhere between its parts and no operator in its
value that the table lists before its own. -/
inductive WritesMatcher (ops : List MatcherOp) (name : Runes) (op : MatcherOp) (value : Runes) :
    Runes → Prop where
  | mk (g₁ g₂ g₃ g₄ right : Runes) (hg₁ : IsGap g₁) (hg₂ : IsGap g₂) (hg₃ : IsGap g₃)
      (hg₄ : IsGap g₄) (hname : IsLabel u name) (hright : WritesLiteral op value right)
      (hearlier : ∀ earlier ∈ ops.takeWhile (· ≠ op), ¬ earlier.logql <:+: right) :
      WritesMatcher ops name op value (g₁ ++ name ++ g₂ ++ op.logql ++ (g₃ ++ right ++ g₄))

/-- A table whose operators are found in its order. -/
structure OperatorTable (ops : List MatcherOp) : Prop where
  ne_nil : ∀ op ∈ ops, op.logql ≠ []
  operator : ∀ op ∈ ops, ∀ r ∈ op.logql, operatorRune r = true
  ordered : ∀ op ∈ ops, ∀ earlier ∈ ops.takeWhile (· ≠ op), ¬ earlier.logql <:+: op.logql
  filter : ∀ op ∈ ops, op.isComp = false → op.vlOp = if op.isRe then .regexp else .exact
  comparison : ∀ op ∈ ops, op.isComp = true →
    op.isRe = false ∧ op.negate = false ∧ op.vlOp ∈ [FieldOp.gte, .lte, .gt, .lt]

theorem operatorTable_single : OperatorTable logqlSingleFilterOps := by
  constructor <;> decide +kernel

theorem operatorTable_stream : OperatorTable streamMatcherOps := by
  constructor <;> decide +kernel

/-! ## Finding the operator -/

/-- An operator with no operator rune on its left is found where it is, unless an earlier one of
the table stands on its right. -/
theorem cutOperator_of_parts {ops : List MatcherOp} (hops : OperatorTable ops) {op : MatcherOp}
    (hop : op ∈ ops) {before rest : Runes} (hne : before ≠ [])
    (hbefore : ∀ r ∈ before, operatorRune r = false)
    (hhead : ∀ r ∈ rest.head?, operatorRune r = false)
    (hrest : ∀ earlier ∈ ops.takeWhile (· ≠ op), ¬ earlier.logql <:+: rest) :
    cutOperator ops (before ++ op.logql ++ rest) = some (before, op, rest) := by
  have hdrop : ∃ later, ops.dropWhile (· ≠ op) = op :: later := by
    cases hlater : ops.dropWhile (· ≠ op) with
    | nil => simpa using dropWhile_eq_nil_iff.mp hlater op hop
    | cons first later =>
      have hfirst := head?_dropWhile_not (· ≠ op) ops
      rw [hlater] at hfirst
      exact ⟨later, by rw [show first = op by simpa using hfirst]⟩
  obtain ⟨later, hlater⟩ := hdrop
  have hskip : ∀ earlier ∈ ops.takeWhile (· ≠ op),
      (before ++ op.logql ++ rest).dropInfix? earlier.logql = none := by
    intro earlier hearlier
    have hmem : earlier ∈ ops := (takeWhile_sublist _).subset hearlier
    refine dropInfix?_eq_none_iff.mpr fun h => ?_
    have hkind : ∀ r ∈ earlier.logql, operatorRune r = true := hops.operator earlier hmem
    obtain h | h := infix_append_of_boundary hkind (.inr fun r hr => by simp [hhead r hr]) h
    · obtain h | h := infix_append_of_boundary hkind
        (.inl fun r hr => by simp [hbefore r (mem_of_getLast? hr)]) h
      · -- Nothing before the operator is a rune of one.
        obtain ⟨r, hr⟩ := exists_mem_of_ne_nil _ (hops.ne_nil earlier hmem)
        exact absurd (hbefore r (h.subset hr)) (by simp [hkind r hr])
      · exact hops.ordered op hop earlier hearlier h
    · exact hrest earlier hearlier h
  have hfound : (before ++ op.logql ++ rest).dropInfix? op.logql = some (before, rest) := by
    cases hlogql : op.logql with
    | nil => exact absurd hlogql (hops.ne_nil op hop)
    | cons c pat =>
      refine dropInfix?_of_head_notMem fun hc => ?_
      have hoperator := hops.operator op hop c (hlogql ▸ mem_cons_self)
      exact absurd (hbefore c hc) (by simp [hoperator])
  rw [cutOperator, ← takeWhile_append_dropWhile (p := (· ≠ op)) (l := ops), hlater,
    findSome?_append, findSome?_eq_none_iff.mpr, Option.none_or, findSome?_cons, hfound]
  · simp [hne]
  · intro earlier hearlier
    rw [hskip earlier hearlier]

/-! ## Reading the parts -/

section Parts

variable {u} {name : Runes}

/-- No letter of a label is an operator, a quote, a colon or a dash. -/
theorem IsLabel.plain (h : IsLabel u name) :
    ∀ c ∈ ['=', '!', '~', '<', '>', '"', '\x60', ':', '-'], .point c ∉ name := by
  intro c hc hmem
  have hident := h.ident _ hmem
  simp only [mem_cons, not_mem_nil, or_false] at hc
  obtain rfl | rfl | rfl | rfl | rfl | rfl | rfl | rfl | rfl := hc <;> cases hident

theorem operatorRune_iff (r : Rune) :
    operatorRune r = true ↔ ∃ c ∈ ['=', '!', '~', '<', '>'], r = .point c := by
  cases r <;> simp [operatorRune, Rune.is, or_assoc]

theorem IsLabel.not_operator (h : IsLabel u name) : ∀ r ∈ name, operatorRune r = false := by
  intro r hr
  refine Bool.eq_false_iff.mpr fun hop => ?_
  obtain ⟨c, hc, rfl⟩ := (operatorRune_iff r).mp hop
  exact h.plain c (by simp only [mem_cons, not_mem_nil, or_false] at hc ⊢; tauto) hr

theorem not_operator_of_isGap {g : Runes} (h : IsGap g) : ∀ r ∈ g, operatorRune r = false := by
  intro r hr
  refine Bool.eq_false_iff.mpr fun hop => ?_
  obtain ⟨c, hc, rfl⟩ := (operatorRune_iff r).mp hop
  have hspace := h _ hr
  simp only [mem_cons, not_mem_nil, or_false] at hc
  obtain rfl | rfl | rfl | rfl | rfl := hc <;> cases hspace

theorem IsLabel.ne_nil (h : IsLabel u name) : name ≠ [] := by
  rintro rfl
  exact h.field rfl

/-- Gaps around a label do not count. -/
theorem IsLabel.sanitize {a b : Runes} (h : IsLabel u name) (ha : IsGap a) (hb : IsGap b) :
    sanitizeFieldIdentifier (a ++ name ++ b) = sanitizeFieldIdentifier name := by
  have hnone : Logql.Syntax.trimRunes ([] ++ name ++ []) = name :=
    trimRunes_word isGap_nil isGap_nil h.noSpace
  rw [nil_append, append_nil] at hnone
  simp only [sanitizeFieldIdentifier, normalizeFieldIdentifier, trimRunes_word ha hb h.noSpace, hnone]

/-- What the functions need of the text of a value. -/
structure ReadsAs (right value : Runes) : Prop where
  trimmed : ∀ a b, IsGap a → IsGap b → trimRunes (a ++ right ++ b) = right
  ne_nil : right ≠ []
  head : ∀ r ∈ right.head?, operatorRune r = false
  last : ∀ r ∈ right.getLast?, r.is isSpace = false
  unquoted : unquoteLogQLValue right = value
  noCall : ¬ literal "ip(\"" <+: right

theorem readsAs_of_quotes {q : Rune} (hspace : q.is isSpace = false) (hop : operatorRune q = false)
    (hq : q ≠ .point 'i') {body value : Runes}
    (hvalue : trimRunes (q :: (body ++ [q])) = q :: (body ++ [q]) →
      unquoteLogQLValue (q :: (body ++ [q])) = value) : ReadsAs (q :: (body ++ [q])) value where
  trimmed a b ha hb := trimRunes_of_ends hspace body ha hb
  ne_nil := nofun
  head r hr := Option.some.inj hr ▸ hop
  last r hr := by
    rw [← cons_append, getLast?_concat] at hr
    exact Option.some.inj hr ▸ hspace
  unquoted := by
    have hnone : trimRunes ([] ++ (q :: (body ++ [q])) ++ []) = q :: (body ++ [q]) :=
      trimRunes_of_ends hspace body nofun nofun
    rw [nil_append, append_nil] at hnone
    exact hvalue hnone
  noCall h := hq (cons_prefix_cons.mp h).1.symm

/-- A written literal is read back as its value. -/
theorem WritesLiteral.readsAs {op : MatcherOp} {value right : Runes}
    (h : WritesLiteral op value right) : ReadsAs right value := by
  cases h with
  | double s hcomp hs =>
    obtain ⟨hclosing, hunquote⟩ := scanQuotedString_all hs
    obtain ⟨body, rfl, -⟩ := quotedBody_of_closingQuote hclosing
    have hread : unquoteAny (.point '"' :: (body ++ [.point '"'])) = some value := hunquote
    refine readsAs_of_quotes rfl rfl (by decide) fun htrim => ?_
    rw [unquoteLogQLValue, htrim]
    refine (if_pos getLast?_concat).trans ?_
    rw [hread]
    rfl
  | raw hcomp hquote =>
    refine readsAs_of_quotes rfl rfl (by decide) fun htrim => ?_
    rw [unquoteLogQLValue, htrim]
    exact (if_pos getLast?_concat).trans dropLast_concat
  | number hne hnumber =>
    have hspace : ∀ r ∈ value, r.is isSpace = false := by
      intro r hr
      have hr := hnumber r hr
      cases r <;> simp_all [numberRune, Rune.is]
    have hno : ∀ c ∈ ['=', '!', '~', '<', '>', '"', '\x60', '('], .point c ∉ value := by
      intro c hc hmem
      have hr := hnumber _ hmem
      simp only [numberRune, Rune.is, Bool.and_eq_true, Bool.not_eq_true', contains_eq_mem,
        decide_eq_false_iff_not] at hr
      exact hr.2 hc
    have htrim : ∀ a b, IsGap a → IsGap b → trimRunes (a ++ value ++ b) = value := fun a b ha hb =>
      trimRunes_word ha hb hspace
    refine ⟨htrim, hne, ?_, fun r hr => hspace r (mem_of_getLast? hr), ?_, ?_⟩
    · intro r hr
      refine Bool.eq_false_iff.mpr fun hop => ?_
      obtain ⟨c, hc, rfl⟩ := (operatorRune_iff r).mp hop
      exact hno c (by simp only [mem_cons, not_mem_nil, or_false] at hc ⊢; tauto)
        (mem_of_head? hr)
    · have hnone := htrim [] [] isGap_nil isGap_nil
      rw [nil_append, append_nil] at hnone
      rw [unquoteLogQLValue, hnone]
      split
      · exact absurd mem_cons_self (hno '"' (by simp))
      · exact absurd mem_cons_self (hno '\x60' (by simp))
      · rfl
    · intro h
      exact hno '(' (by simp) (h.subset (by decide))

end Parts

/-! ## Reading the filter back -/

variable {s name label value right : Runes} {r : Rune} {op : MatcherOp} {ops : List MatcherOp}

theorem mem_trimRunes (h : r ∈ trimRunes s) : r ∈ s :=
  (trim_sublist _ s).subset h

theorem mem_tightenDots {fuel : Nat} (h : r ∈ tightenDots fuel s) : r ∈ s ∨ r = .point '.' := by
  fun_induction tightenDots fuel s with
  | case1 | case2 => exact .inl h
  | case3 fuel first s rest hrest ih =>
    obtain rfl | h := mem_cons.mp h
    · exact .inr rfl
    · refine (ih h).imp_left fun h => ?_
      have hmem : r ∈ (first :: s).dropWhile reSpace :=
        hrest ▸ mem_cons_of_mem _ ((dropWhile_sublist _).subset h)
      exact (dropWhile_sublist _).subset hmem
  | case4 fuel first s _ ih =>
    obtain rfl | h := mem_cons.mp h
    · exact .inl mem_cons_self
    · exact (ih h).imp_left (mem_cons_of_mem _)

theorem mem_joinDots (h : r ∈ joinDots s) : r ∈ s := by
  fun_induction joinDots s with
  | case1 s ih =>
    obtain rfl | h := mem_cons.mp h
    · exact mem_cons_self
    · exact mem_cons_of_mem _ (mem_cons_of_mem _ (ih h))
  | case2 first s _ ih =>
    obtain rfl | h := mem_cons.mp h
    · exact mem_cons_self
    · exact mem_cons_of_mem _ (ih h)
  | case3 => exact h

theorem mem_joinAllDots {fuel : Nat} (h : r ∈ joinAllDots fuel s) : r ∈ s := by
  fun_induction joinAllDots fuel s with
  | case1 | case3 => exact h
  | case2 fuel s _ ih => exact mem_joinDots (ih h)

/-- Sanitising adds no letter but dots. -/
theorem mem_sanitizeFieldIdentifier (h : r ∈ sanitizeFieldIdentifier s) :
    r ∈ s ∨ r = .point '.' := by
  have hnormal : ∀ {r}, r ∈ normalizeFieldIdentifier s → r ∈ s ∨ r = .point '.' := by
    intro r h
    unfold normalizeFieldIdentifier at h
    dsimp only at h
    split at h
    · cases h
    · refine (mem_tightenDots (mem_trimRunes h)).imp_left fun h => ?_
      exact mem_trimRunes (mem_of_mem_filter (mem_of_mem_filter h))
  unfold sanitizeFieldIdentifier at h
  dsimp only at h
  split at h
  · cases h
  · have hmem := mem_joinAllDots (mem_trimRunes h)
    exact hnormal ((trim_sublist _ _).subset hmem)

/-- A name that is read back as the field of a filter. -/
structure IsField (label : Runes) : Prop where
  ne_nil : label ≠ []
  plain : ∀ c ∈ [':', '"', '-'], .point c ∉ label

/-- The stored field of a label can be written in front of a filter. -/
theorem IsLabel.isField (h : IsLabel u name) :
    IsField (storedField (sanitizeFieldIdentifier name)) := by
  unfold storedField
  split
  · have htext : literal "level" = "level".toList.map Rune.point := rfl
    rw [htext]
    exact ⟨by decide, by simp⟩
  · refine ⟨h.field, fun c hc hmem => ?_⟩
    obtain hmem | hdot := mem_sanitizeFieldIdentifier hmem
    · exact h.plain c (by simp only [mem_cons, not_mem_nil, or_false] at hc ⊢; tauto) hmem
    · simp only [mem_cons, not_mem_nil, or_false] at hc
      obtain rfl | rfl | rfl := hc <;> cases hdot

/-- A field name is read back from a filter, quoted or not. -/
theorem readField_quoteDotted (h : IsField label) (s : Runes) :
    readField (quoteDotted label ++ .point ':' :: s) = (label, .point ':' :: s) := by
  have hquote : ∀ r ∈ label, decide (r ≠ .point '"') = true := fun r hr =>
    decide_eq_true fun hq => h.plain '"' (by simp) (hq ▸ hr)
  have hcolon : ∀ r ∈ label, decide (r ≠ .point ':') = true := fun r hr =>
    decide_eq_true fun hq => h.plain ':' (by simp) (hq ▸ hr)
  unfold quoteDotted
  split
  · rw [cons_append, append_assoc, readField, takeWhile_append_of_pos hquote,
      dropWhile_append_of_pos hquote]
    simp
  · rw [readField, takeWhile_append_of_pos hcolon, dropWhile_append_of_pos hcolon]
    · simp
    · -- The name does not start with a quote.
      intro rest hrest
      cases label with
      | nil => exact absurd rfl h.ne_nil
      | cons r label =>
        obtain ⟨rfl, -⟩ := cons.inj hrest
        exact h.plain '"' (by simp) mem_cons_self

/-- A field filter is read back by its field and its operator. -/
theorem readFieldFilter_build (h : IsField label) (sign : Bool) {op : FieldOp} {negate : Bool}
    (hs : readOp (.point ':' :: s) = some (op, value, negate)) :
    readFieldFilter ((if sign then literal "-" else []) ++ quoteDotted label ++ .point ':' :: s) =
      some ⟨label, op, value, sign != negate⟩ := by
  refine readFieldFilter_of_name (readField_quoteDotted h s) ?_ ?_ sign hs
  · unfold quoteDotted
    split
    · exact cons_ne_nil _ _
    · exact h.ne_nil
  · unfold quoteDotted
    split
    · simp
    · exact fun hhead => h.plain '-' (by simp) (mem_of_head? hhead)

/-- The filter that a matcher on a field stands for.  No level is the absence of one. -/
def matcherFilter (label : Runes) (op : MatcherOp) (value : Runes) : FieldFilter :=
  if label = literal "level" ∧ op.vlOp = .exact ∧ op.negate = false ∧ value = [] then
    ⟨label, .any, [], true⟩
  else ⟨label, op.vlOp, value, op.negate⟩

/-- A built field filter reads as its label, operator and value. -/
theorem reads_build (h : IsField label) (op : FieldOp) (negate : Bool) {found : Runes}
    (hop : readOp (op.text u value) = some (op, found, false))
    (hfound : encode found = encode value) :
    Reads (buildFieldFilterStr u (quoteDotted label) op value negate) ⟨label, op, value, negate⟩ := by
  have hcolon : ∃ s, op.text u value = .point ':' :: s := by
    cases op <;> exact ⟨_, rfl⟩
  obtain ⟨s, hs⟩ := hcolon
  refine ⟨found, ?_, hfound⟩
  have hread := readFieldFilter_build h negate (hs ▸ hop)
  rw [Bool.bne_false, ← hs, append_assoc] at hread
  exact hread

/-- A regular expression is read back from its quoted text. -/
theorem readOp_regexp (value : Runes) :
    readOp (FieldOp.text u value .regexp) = some (.regexp, decode (encode value), false) := by
  show (unquote (quote u value)).map _ = _
  rw [unquote_quote]
  rfl

/-- A comparison is read back by its operator. -/
theorem readOp_comparison {op : FieldOp} (hop : op ∈ [FieldOp.gte, .lte, .gt, .lt])
    (hvalue : .point '=' ∉ value) : readOp (op.text u value) = some (op, value, false) := by
  simp only [mem_cons, not_mem_nil, or_false] at hop
  obtain rfl | rfl | rfl | rfl := hop
  · rfl
  · rfl
  · exact readOp.eq_4 value fun s hs => hvalue (hs ▸ mem_cons_self)
  · exact readOp.eq_6 value fun s hs => hvalue (hs ▸ mem_cons_self)

/-- The filter at the end of both functions is the one the matcher stands for. -/
theorem reads_labelFieldFilter (hops : OperatorTable ops) (hop : op ∈ ops) (hlabel : IsField label)
    (hcomp : op.isComp = true → .point '=' ∉ value) (hre : op.isRe = true → value ≠ []) :
    Reads (labelFieldFilter u label op value) (matcherFilter label op value) := by
  have hlevel : quoteDotted label = literal "level" ↔ label = literal "level" := by
    unfold quoteDotted
    split
    case isTrue hdot =>
      refine ⟨nofun, ?_⟩
      rintro rfl
      cases hdot
    case isFalse => rfl
  cases hc : op.isComp with
  | true =>
    obtain ⟨-, -, hvl⟩ := hops.comparison op hop hc
    have hexact : op.vlOp ≠ .exact := fun h => by rw [h] at hvl; revert hvl; decide
    rw [labelFieldFilter, if_pos hc, matcherFilter, if_neg fun h => hexact h.2.1]
    exact reads_build u hlabel _ _ (readOp_comparison u hvl (hcomp hc)) rfl
  | false =>
    have hvl := hops.filter op hop hc
    rw [labelFieldFilter, if_neg (by simp [hc])]
    cases hr : op.isRe with
    | true =>
      have hne := hre hr
      rw [if_pos hr] at hvl
      rw [if_neg (by simpa using hne), matcherFilter, if_neg fun h => hne h.2.2.2, hvl]
      exact reads_build u hlabel _ _ (readOp_regexp u value) (encode_decode _)
    | false =>
      rw [if_neg (by simp [hr])] at hvl
      rw [matcherFilter, hvl]
      cases value with
      | cons r value =>
        rw [if_neg (by simp), if_neg (by simp)]
        exact reads_build u hlabel _ _ (readOp_exact u _) rfl
      | nil =>
        rw [if_pos isEmpty_nil]
        cases hn : op.negate with
        | true =>
          rw [if_neg (by simp), if_pos rfl, if_neg (by simp)]
          have hop : readOp (literal ":!\"\"") = some (.exact, [], true) := rfl
          exact ⟨[], readFieldFilter_build hlabel false hop, rfl⟩
        | false =>
          rcases eq_or_ne label (literal "level") with rfl | hne
          · exact ⟨[], rfl, rfl⟩
          · rw [if_neg fun h => hne (hlevel.mp h.1), if_neg Bool.false_ne_true, if_neg fun h => hne h.1]
            exact reads_build u hlabel _ _ (readOp_exact u _) rfl

/-! ## The result -/

theorem MatcherOp.value_ne_nil (h : op.isRe = true) (value : Runes) : op.value value ≠ [] := by
  rw [MatcherOp.value, if_pos h]
  nofun

/-- A matcher is cut at its own operator and not at one tried earlier. -/
theorem WritesMatcher.cut (hops : OperatorTable ops) (hop : op ∈ ops) {g₁ g₂ g₃ g₄ : Runes}
    (hg₁ : IsGap g₁) (hg₂ : IsGap g₂) (hg₃ : IsGap g₃) (hg₄ : IsGap g₄) (hname : IsLabel u name)
    (hright : ReadsAs right value)
    (hearlier : ∀ earlier ∈ ops.takeWhile (· ≠ op), ¬ earlier.logql <:+: right) :
    cutOperator ops (g₁ ++ name ++ g₂ ++ op.logql ++ (g₃ ++ right ++ g₄)) =
      some (g₁ ++ name ++ g₂, op, g₃ ++ right ++ g₄) := by
  have hgap : ∀ {g : Runes}, IsGap g → ∀ {r}, r ∈ g → ¬ operatorRune r = true := fun hg r hr => by
    simp [not_operator_of_isGap hg r hr]
  refine cutOperator_of_parts hops hop ?_ ?_ ?_ fun earlier hmem h => ?_
  · simp [hname.ne_nil]
  · intro r hr
    simp only [mem_append] at hr
    obtain (hr | hr) | hr := hr
    · exact not_operator_of_isGap hg₁ r hr
    · exact hname.not_operator r hr
    · exact not_operator_of_isGap hg₂ r hr
  · intro r hr
    cases g₃ with
    | nil =>
      rw [nil_append, head?_append_of_ne_nil _ hright.ne_nil] at hr
      exact hright.head r hr
    | cons first g₃ => exact not_operator_of_isGap hg₃ r (Option.some.inj hr ▸ mem_cons_self)
  · -- An operator does not lie over the edge of a gap, and it is not in one.
    have hops' : earlier ∈ ops := (takeWhile_sublist _).subset hmem
    have hkind : ∀ r ∈ earlier.logql, operatorRune r = true := hops.operator earlier hops'
    obtain ⟨r, hr⟩ := exists_mem_of_ne_nil _ (hops.ne_nil earlier hops')
    obtain h | h := infix_append_of_boundary hkind (.inr fun r hr => hgap hg₄ (mem_of_head? hr)) h
    · obtain h | h := infix_append_of_boundary hkind
        (.inl fun r hr => hgap hg₃ (mem_of_getLast? hr)) h
      · exact hgap hg₃ (h.subset hr) (hkind r hr)
      · exact hearlier earlier hmem h
    · exact hgap hg₄ (h.subset hr) (hkind r hr)

theorem trimRunes_matcher {g₁ g₂ g₃ g₄ : Runes} (hg₁ : IsGap g₁) (hg₄ : IsGap g₄)
    (hname : IsLabel u name) (hright : ReadsAs right value) :
    trimRunes (g₁ ++ name ++ g₂ ++ op.logql ++ (g₃ ++ right ++ g₄)) =
      [] ++ name ++ g₂ ++ op.logql ++ (g₃ ++ right ++ []) := by
  have hsplit : g₁ ++ name ++ g₂ ++ op.logql ++ (g₃ ++ right ++ g₄) =
      g₁ ++ ([] ++ name ++ g₂ ++ op.logql ++ (g₃ ++ right ++ [])) ++ g₄ := by simp
  rw [hsplit]
  refine trimRunes_between hg₁ hg₄ ?_ ?_
  · intro r hr
    rw [nil_append, append_assoc, append_assoc,
      head?_append_of_ne_nil _ hname.ne_nil] at hr
    exact hname.noSpace r (mem_of_head? hr)
  · intro r hr
    rw [append_nil, ← append_assoc, getLast?_append_of_ne_nil _ hright.ne_nil] at hr
    exact hright.last r hr

/-- The operand of a comparison holds no equals sign. -/
theorem WritesLiteral.equals_notMem (hops : OperatorTable ops) (hop : op ∈ ops)
    (h : WritesLiteral op value right) (hcomp : op.isComp = true) :
    .point '=' ∉ op.value value := by
  rw [MatcherOp.value, if_neg (by simp [(hops.comparison op hop hcomp).1])]
  cases h with
  | double s hno | raw hno => rw [hcomp] at hno; cases hno
  | number hne hnumber =>
    intro hmem
    cases hnumber _ hmem

/-- In a label filter, a matcher is translated to a filter on its own field. -/
theorem WritesMatcher.single {u : UnicodeTables} {name value text : Runes} {op : MatcherOp}
    (h : WritesMatcher u logqlSingleFilterOps name op value text)
    (ip : Runes → Runes → FieldFilter) (hop : op ∈ logqlSingleFilterOps) :
    ∃ filter, translateSingleLabelFilter u ip text = some filter ∧
      Reads filter
        (matcherFilter (storedField (sanitizeFieldIdentifier name)) op (op.value value)) := by
  obtain ⟨g₁, g₂, g₃, g₄, right, hg₁, hg₂, hg₃, hg₄, hname, hliteral, hearlier⟩ := h
  have hright := hliteral.readsAs
  have hcut := WritesMatcher.cut u operatorTable_single hop hg₁ hg₂ hg₃ hg₄ hname hright hearlier
  have hfilter := reads_labelFieldFilter u operatorTable_single hop (hname.isField u)
    (hliteral.equals_notMem operatorTable_single hop) fun hre => MatcherOp.value_ne_nil hre value
  refine ⟨_, ?_, hfilter⟩
  rw [translateSingleLabelFilter, hcut]
  dsimp only
  rw [hname.sanitize hg₁ hg₂, if_neg (by simpa using hname.field), hright.trimmed _ _ hg₃ hg₄,
    if_neg fun h => hright.noCall h.1, hright.unquoted]

/-- A matcher whose value has no operator in it that is looked for first is translated to a filter
on its own field, with its own operator, sign and value; the label of services stands for its list
of fields. -/
theorem matcher_translated (ip : Runes → Runes → FieldFilter) {name value text : Runes}
    {op : MatcherOp} :
    (op ∈ streamMatcherOps → WritesMatcher u streamMatcherOps name op value text →
      (sanitizeFieldIdentifier name = literal "service_name" →
        streamMatcherToFieldFilter u text = serviceNameMatcherFilter u op (op.value value)) ∧
      (sanitizeFieldIdentifier name ≠ literal "service_name" →
        Reads (streamMatcherToFieldFilter u text)
          (matcherFilter (storedField (sanitizeFieldIdentifier name)) op (op.value value)))) ∧
      (op ∈ logqlSingleFilterOps → WritesMatcher u logqlSingleFilterOps name op value text →
        ∃ filter, translateSingleLabelFilter u ip text = some filter ∧
          Reads filter
            (matcherFilter (storedField (sanitizeFieldIdentifier name)) op (op.value value))) := by
  constructor
  · rintro hop ⟨g₁, g₂, g₃, g₄, right, hg₁, hg₂, hg₃, hg₄, hname, hliteral, hearlier⟩
    have hright := hliteral.readsAs
    have hcut := WritesMatcher.cut u operatorTable_stream hop isGap_nil hg₂ hg₃ isGap_nil hname hright hearlier
    have hfilter := reads_labelFieldFilter u operatorTable_stream hop (hname.isField u)
      (hliteral.equals_notMem operatorTable_stream hop) fun hre => MatcherOp.value_ne_nil hre value
    have hresult : streamMatcherToFieldFilter u
        (g₁ ++ name ++ g₂ ++ op.logql ++ (g₃ ++ right ++ g₄)) =
        if sanitizeFieldIdentifier name = literal "service_name" then
          serviceNameMatcherFilter u op (op.value value)
        else labelFieldFilter u (storedField (sanitizeFieldIdentifier name)) op (op.value value) := by
      rw [streamMatcherToFieldFilter, trimRunes_matcher u hg₁ hg₄ hname hright, hcut]
      dsimp only
      rw [hname.sanitize isGap_nil hg₂, if_neg (by simpa using hname.field),
        hright.trimmed _ _ hg₃ isGap_nil, hright.unquoted]
    rw [hresult]
    refine ⟨fun hservice => if_pos hservice, fun hservice => ?_⟩
    rw [if_neg hservice]
    exact hfilter
  · exact fun hop h => h.single ip hop

theorem isLabel_status : IsLabel asciiTables (literal "status") :=
  ⟨by decide +kernel, by decide +kernel, by decide +kernel⟩

theorem matcher_translated_status :
    Reads (streamMatcherToFieldFilter asciiTables (literal "status != \"5=x\""))
      ⟨literal "status", .exact, literal "5=x", true⟩ := by
  have htext : literal "status != \"5=x\"" = [] ++ literal "status" ++ [.point ' '] ++ literal "!=" ++
      ([.point ' '] ++ .point '"' :: literal "5=x\"" ++ []) := by decide +kernel
  have hwrites : WritesMatcher asciiTables streamMatcherOps (literal "status")
      ⟨literal "!=", .exact, true, false, false⟩ (literal "5=x") (literal "status != \"5=x\"") :=
    htext ▸ .mk [] [.point ' '] [.point ' '] [] (.point '"' :: literal "5=x\"") isGap_nil isGap_space
      isGap_space isGap_nil isLabel_status (.double (literal "5=x\"") rfl (by decide +kernel)) (by decide +kernel)
  have hfilter : matcherFilter (storedField (sanitizeFieldIdentifier (literal "status")))
      ⟨literal "!=", .exact, true, false, false⟩
      (MatcherOp.value ⟨literal "!=", .exact, true, false, false⟩ (literal "5=x")) =
      ⟨literal "status", .exact, literal "5=x", true⟩ := by decide +kernel
  have hreads := ((matcher_translated asciiTables fun _ _ => ⟨[], .any, [], false⟩).1
    (by decide +kernel) hwrites).2 (by decide +kernel)
  rwa [hfilter] at hreads

/-- A label of the proxy's own is stored under another name, and a value with an operator in it
that is looked for first is cut there. -/
theorem matcher_not_its_own :
    readFieldFilter (streamMatcherToFieldFilter asciiTables (literal "detected_level=\"error\"")) =
        some ⟨literal "level", .exact, literal "error", false⟩ ∧
      readFieldFilter (streamMatcherToFieldFilter asciiTables (literal "foo=\"a!=b\"")) =
        some ⟨literal "foo=a", .exact, literal "b\"", true⟩ := by
  decide +kernel

end LokiVlProxy.Translator
