/-
  Translator/Wrappers.lean --- label functions, groups and without clauses around an expression.

  Source: translateLogQLFull, tryTranslateLabelReplace, tryTranslateLabelJoin,
  extractWithoutLabels and the group of tryTranslateMetricQueryM in
  internal/translator/translator.go.

  The translator peels the label functions off a query and writes a marker for each behind the
  translation of what they wrap; the without clauses and the group leave theirs at the end of the
  innermost translation.
-/
import LokiVlProxy.Translator.CallWhitespace
import LokiVlProxy.Translator.Markers

namespace LokiVlProxy.Translator

open Foundation Logql.Syntax List

/-! ## Clauses taken out of the text -/

/-- A match of `withoutMarkerRE` at the start of a text: its labels, and what follows. -/
def withoutClause (s : Runes) : Option (Runes × Runes) :=
  match s.dropPrefix? (literal "without") with
  | none => none
  | some rest =>
      match rest.dropWhile reSpace with
      | .point '(' :: rest =>
          match rest.takeWhile (· ≠ .point ')'), rest.dropWhile (· ≠ .point ')') with
          | label :: labels, _ :: after => some (label :: labels, after)
          | _, _ => none
      | _ => none

/-- The text without the matches of `withoutMarkerRE`, and their labels; the flag says whether
a letter of a word stands before the text. -/
def withoutClauses : Nat → Bool → Runes → Runes × List Runes
  | 0, _, s => (s, [])
  | _ + 1, _, [] => ([], [])
  | fuel + 1, inWord, r :: s =>
      match if inWord then none else withoutClause (r :: s) with
      | some (labels, after) =>
          let (text, more) := withoutClauses fuel false after
          (text, labels :: more)
      | none =>
          let (text, found) := withoutClauses fuel (reWord r) s
          (r :: text, found)

/-- Two spaces become one until there are no two. -/
def squeezeSpaces : Runes → Runes
  | .point ' ' :: .point ' ' :: s => squeezeSpaces (.point ' ' :: s)
  | r :: s => r :: squeezeSpaces s
  | [] => []

/-- `extractWithoutLabels`, which takes the labels of the first clause. -/
def extractWithoutLabels (logql : Runes) : Runes × List Runes :=
  match withoutClauses logql.length false logql with
  | (_, []) => (logql, [])
  | (cleaned, labels :: _) => (squeezeSpaces cleaned, splitLabels labels)

/-- The labels of the clauses behind the first. -/
def laterWithoutLabels (logql : Runes) : List Runes :=
  ((withoutClauses logql.length false logql).2.drop 1).flatMap splitLabels

/-! ## Arguments of the label functions -/

/-- The rounds of `splitFuncFirstArg` behind the runes of the first argument. -/
def splitFirstArg (depth : Nat) (first : Runes) : Runes → Option (Runes × Runes)
  | [] => none
  | r :: s =>
      if r = .point '(' then splitFirstArg (depth + 1) (first ++ [r]) s
      else if r = .point ')' then
        if depth = 0 then some (trimRunes first, []) else splitFirstArg (depth - 1) (first ++ [r]) s
      else if r = .point ',' ∧ depth = 0 then some (trimRunes first, trimRunes s)
      else splitFirstArg depth (first ++ [r]) s

def splitFuncFirstArg (s : Runes) : Option (Runes × Runes) := splitFirstArg 0 [] s

/-- The text behind a comma, if there is one. -/
def skipComma (s : Runes) : Runes :=
  match trimRunes s with
  | .point ',' :: rest => trimRunes rest
  | s => s

/-- The rounds of `parseAllStringArgs`. -/
def stringArgs : Nat → Runes → List Runes
  | 0, _ => []
  | fuel + 1, s =>
      match trimRunes s with
      | [] => []
      | q :: s =>
          if q = .point '"' ∨ q = .point '\x60' then
            match s.dropWhile (· ≠ q) with
            | [] => []
            | _ :: rest => s.takeWhile (· ≠ q) :: stringArgs fuel (skipComma rest)
          else []

def parseAllStringArgs (s : Runes) : List Runes := stringArgs s.length s

/-! ## The translator above the innermost expression -/

/-- The text before the first argument. -/
def LabelFunction.opening : LabelFunction → Runes
  | .labelReplace => literal "label_replace("
  | .labelJoin => literal "label_join("

/-- The numbers of string arguments a label function takes. -/
def LabelFunction.Takes : LabelFunction → Nat → Prop
  | .labelReplace, n => n = 4
  | .labelJoin, n => 3 ≤ n

instance (f : LabelFunction) (n : Nat) : Decidable (f.Takes n) := by
  cases f <;> (unfold LabelFunction.Takes; infer_instance)

/-- The data of a marker. -/
def LabelFunction.data : LabelFunction → List Runes → Bytes
  | .labelReplace, args => [0].intercalate (args.map encode)
  | .labelJoin, args =>
      [0].intercalate ((args.take 2).map encode ++ [[1].intercalate ((args.drop 2).map encode)])

/-- What `tryTranslateLabelReplace` and `tryTranslateLabelJoin` do with a translator for the
wrapped expression. -/
def tryTranslateLabel (f : LabelFunction) (translate : Runes → Option Runes) (logql : Runes) :
    Option Runes := do
  let s ← logql.dropPrefix? f.opening
  let (inner, rest) ← splitFuncFirstArg s
  let args := parseAllStringArgs rest
  if f.Takes args.length then
    (translate inner).map fun translated => translated ++ (Mark.mk f (f.data args)).text
  else none

def tryTranslateLabelReplace : (Runes → Option Runes) → Runes → Option Runes :=
  tryTranslateLabel .labelReplace

def tryTranslateLabelJoin : (Runes → Option Runes) → Runes → Option Runes :=
  tryTranslateLabel .labelJoin

/-- The translations below the wrappers: `tryTranslateBinaryMetricExprM`,
`extractOuterAggregation`, `tryTranslateQuantileOverTimeM`, the range functions and the nested
aggregations of `tryTranslateMetricQueryM`, and what is left to a query that is no metric. -/
structure Translators where
  binary : Runes → Option Runes
  outerAggregation : Runes → Runes × Runes × Runes
  quantileOverTime : Runes → Runes → Runes → Option Runes
  rangeFunction : Runes → Runes → Runes → Option Runes
  nested : Runes → Runes → Option Runes
  logQuery : Runes → Option Runes

/-- A metric expression below its group: its translation, whether it has a group around it, and
whether it is the variance that is translated as the square of a deviation. -/
structure MetricCore where
  query : Runes
  isGroup : Bool
  variance : Bool
  deriving DecidableEq, Repr

/-- The translation with the group's marker, which the variance returns without. -/
def MetricCore.text (c : MetricCore) : Runes :=
  if c.isGroup && !c.variance then c.query ++ groupMarker else c.query

variable (t : Translators)

/-- `tryTranslateMetricQueryM`, before the group's marker. -/
def tryTranslateMetricQuery (logql : Runes) : Option MetricCore :=
  let (agg, inner, byLabels) := t.outerAggregation logql
  let isGroup := agg == literal "group"
  let outerAgg := if isGroup then [] else agg
  let innerExpr := if inner.isEmpty then logql else inner
  if outerAgg = literal "count_values" then none
  else
    match t.quantileOverTime innerExpr outerAgg byLabels with
    | some query => some ⟨query, isGroup, false⟩
    | none =>
        match t.rangeFunction innerExpr outerAgg byLabels with
        | some query =>
            some ⟨query, isGroup, (innerExpr.dropPrefix? (literal "stdvar_over_time(")).isSome⟩
        | none =>
            if outerAgg.isEmpty then none
            else (t.nested innerExpr outerAgg).map fun query => ⟨query, false, false⟩

/-- The metric expression of a text without clauses; binary expressions come first. -/
def metricCore (logql : Runes) : Option MetricCore :=
  if (t.outerAggregation logql).1 = literal "count_values" then none
  else
    match t.binary logql with
    | some query => some ⟨query, false, false⟩
    | none => tryTranslateMetricQuery t logql

/-- `translateLogQLFull` behind the label functions. -/
def translateUnwrapped (logql : Runes) : Option Runes :=
  let (cleaned, withoutLabels) := extractWithoutLabels logql
  match metricCore t cleaned with
  | some core => some (appendWithoutMarker core.text withoutLabels)
  | none =>
      if (t.outerAggregation cleaned).1 = literal "count_values" then none else t.logQuery cleaned

/-- The text that the functions of the translator see. -/
def prepared (logql : Runes) : Runes := normalizeCallWhitespace (trimRunes logql)

def translateLogQLFull : Nat → Runes → Option Runes
  | 0, _ => none
  | fuel + 1, logql =>
      if (trimRunes logql).isEmpty then some [.point '*']
      else
        match tryTranslateLabelReplace (translateLogQLFull fuel) (prepared logql) with
        | some translated => some translated
        | none =>
            match tryTranslateLabelJoin (translateLogQLFull fuel) (prepared logql) with
            | some translated => some translated
            | none => translateUnwrapped t (prepared logql)

/-- `TranslateLogQL`; an argument is shorter than its call. -/
def translateLogQL (logql : Runes) : Option Runes := translateLogQLFull t (logql.length + 1) logql

/-! ## How the label functions are written -/

/-- How a string is written: its quote, and the text between the quotes. -/
inductive WritesString (value : Runes) : Rune → Runes → Prop where
  | double {body : Runes} (h : scanQuotedString (body ++ [.point '"']) = (⟨.tokString, value⟩, [])) :
      WritesString value (.point '"') body
  | raw (h : .point '\x60' ∉ value) : WritesString value (.point '\x60') value

/-- A string argument of a query. -/
structure StringArg where
  quote : Rune
  body : Runes
  value : Runes
  writes : WritesString value quote body

variable (a : StringArg)

def StringArg.text : Runes := a.quote :: (a.body ++ [a.quote])

/-- The argument has no escapes. -/
def StringArg.Plain : Prop := a.quote = .point '"' → .point '\\' ∉ a.body

/-- What `parseAllStringArgs` takes for the argument. -/
def StringArg.read : Runes := a.body.takeWhile (· ≠ a.quote)

/-- How arguments are written up to the closing bracket. -/
inductive WritesArgs : List StringArg → Runes → Prop where
  | last {g₁ g₂ : Runes} (a : StringArg) (hg₁ : IsGap g₁) (hg₂ : IsGap g₂) :
      WritesArgs [a] (g₁ ++ (a.text ++ (g₂ ++ [.point ')'])))
  | more {g₁ g₂ rest : Runes} {as : List StringArg} (a : StringArg) (hg₁ : IsGap g₁)
      (hg₂ : IsGap g₂) (h : WritesArgs as rest) :
      WritesArgs (a :: as) (g₁ ++ (a.text ++ (g₂ ++ .point ',' :: rest)))

theorem takeWhile_append_cons {q : Rune} (body after : Runes) :
    (body ++ q :: after).takeWhile (· ≠ q) = body.takeWhile (· ≠ q) := by
  induction body with
  | nil => simp
  | cons r body ih =>
    rw [cons_append, takeWhile_cons, takeWhile_cons, ih]

section Reading

variable {q : Rune} {body value : Runes}

theorem WritesString.quote_eq (h : WritesString value q body) :
    q = .point '"' ∨ q = .point '\x60' := by
  cases h with
  | double => exact .inl rfl
  | raw => exact .inr rfl

theorem WritesString.quote_notMem (h : WritesString value q body)
    (hplain : q = .point '"' → .point '\\' ∉ body) : q ∉ body := by
  cases h with
  | raw hraw => exact hraw
  | double hs =>
    obtain ⟨b, hb, hquoted⟩ := quotedBody_of_closingQuote (scanQuotedString_all hs).1
    obtain rfl : body = b := append_cancel_right hb
    exact quote_notMem_of_quotedBody hquoted (hplain rfl)

theorem takeWhile_eq_self (h : q ∉ body) : body.takeWhile (· ≠ q) = body :=
  takeWhile_eq_self_iff.mpr fun _ hr => decide_eq_true fun heq => h (heq ▸ hr)

/-- The bytes read are those of the string just when the argument is plain. -/
theorem WritesString.read_agrees_iff (h : WritesString value q body) :
    encode (body.takeWhile (· ≠ q)) = encode value ↔ (q = .point '"' → .point '\\' ∉ body) := by
  cases h with
  | raw hraw =>
    rw [takeWhile_eq_self hraw]
    exact iff_of_true rfl nofun
  | double hs =>
    have hok : (scanQuotedString (body ++ [.point '"'])).1.typ ≠ .tokError := by
      rw [hs]
      nofun
    have hread : upToQuote (body ++ [.point '"']) = body.takeWhile (· ≠ .point '"') :=
      takeWhile_append_cons body []
    have hagrees := scanQuotedString_val_iff hok
    rw [hs, hread] at hagrees
    refine (eq_comm.trans hagrees).trans ⟨fun hslash _ => ?_, fun hplain hmem => ?_⟩
    · -- Without a backslash before it the first quote is the closing one.
      have hmem : .point '"' ∈ body ++ [.point '"'] := by simp
      have hsplit := eq_upToQuote_append hmem
      rw [hread] at hsplit
      have hclosing := (scanQuotedString_all hs).1
      rw [hsplit, closingQuote_plain hslash (hread ▸ quote_notMem_upToQuote _)] at hclosing
      rw [Option.some.inj hclosing] at hsplit
      rwa [append_cancel_right hsplit]
    · exact hplain rfl ((takeWhile_sublist _).subset hmem)

/-- A zero byte that the reader takes is one of the value. -/
theorem WritesString.zero_mem (h : WritesString value q body)
    (hzero : 0 ∈ encode (body.takeWhile (· ≠ q))) : 0 ∈ encode value := by
  cases h with
  | raw hraw => rwa [takeWhile_eq_self hraw] at hzero
  | double hs =>
    have hok : (scanQuotedString (body ++ [.point '"'])).1.typ ≠ .tokError := by
      rw [hs]
      nofun
    obtain ⟨b, v, hb, -, hpoints, hv, htok⟩ := scanQuotedString_ok hok
    rw [hs] at hb htok
    obtain rfl : body = b := append_cancel_right hb
    obtain rfl : value = decode (encode v) := (Token.mk.inj htok).2
    rw [encode_decode]
    have hcut : body.takeWhile (· ≠ .point '"') <+: body := takeWhile_prefix _
    have hread : .point '\x00' ∈ body.takeWhile (· ≠ .point '"') :=
      point_mem_of_byte_mem (all_isPoint_of_begins hcut hpoints) (by decide) hzero
    have hmem := hcut.subset hread
    have hnul : .point '\x00' ∈ v := mem_of_unquoteBody (by decide) hv (by simpa using hmem)
    exact mem_flatMap.mpr ⟨_, hnul, mem_singleton.mpr rfl⟩

end Reading

/-! ## Reading the arguments -/

variable {as : List StringArg} {rest s logql innermost : Runes} {r : Rune}

theorem WritesArgs.getLast? (h : WritesArgs as rest) : rest.getLast? = some (.point ')') := by
  induction h with
  | last => simp
  | more a hg₁ hg₂ h ih => simp [getLast?_append, getLast?_cons, ih]

theorem WritesArgs.ne_nil (h : WritesArgs as rest) : as ≠ [] := by
  cases h with
  | last | more => nofun

theorem trimRunes_gap_append {g s : Runes} {r : Rune} (hg : IsGap g) (hr : r.is isSpace = false)
    (hlast : (r :: s).getLast? = some (.point ')')) : trimRunes (g ++ r :: s) = r :: s := by
  have htrim := trimRunes_between (s := r :: s) hg isGap_nil
    (fun x hx => by obtain rfl : r = x := Option.some.inj hx; exact hr)
    (fun x hx => by rw [hlast] at hx; obtain rfl : .point ')' = x := Option.some.inj hx; rfl)
  rwa [append_nil] at htrim

/-- Blanks around the arguments do not count. -/
theorem stringArgs_trimRunes (fuel : Nat) (s : Runes) :
    stringArgs fuel (trimRunes s) = stringArgs fuel s := by
  cases fuel with
  | zero => rfl
  | succ fuel => rw [stringArgs, stringArgs, trimRunes, trimRunes, ← trim, ← trim, trim_trim]

/-- The text behind the first argument. -/
inductive Behind : List StringArg → Runes → Prop where
  | closed {g : Runes} (hg : IsGap g) : Behind [] (g ++ [.point ')'])
  | comma {g rest : Runes} {as : List StringArg} (hg : IsGap g) (h : WritesArgs as rest) :
      Behind as (g ++ .point ',' :: rest)

theorem Behind.getLast? (h : Behind as s) : s.getLast? = some (.point ')') := by
  cases h with
  | closed => simp
  | comma hg h => simp [getLast?_append, getLast?_cons, h.getLast?]

/-- The first argument and what stands behind it. -/
theorem WritesArgs.behind {a : StringArg} (h : WritesArgs (a :: as) rest) :
    ∃ g s, IsGap g ∧ Behind as s ∧ rest = g ++ a.quote :: (a.body ++ a.quote :: s) := by
  cases h with
  | @last g₁ g₂ _ hg₁ hg₂ =>
    exact ⟨g₁, g₂ ++ [.point ')'], hg₁, .closed hg₂, by simp [StringArg.text]⟩
  | @more g₁ g₂ rest _ _ hg₁ hg₂ h =>
    exact ⟨g₁, g₂ ++ .point ',' :: rest, hg₁, .comma hg₂ h, by simp [StringArg.text]⟩

/-- The round that reads an argument; a plain one is read up to its end. -/
theorem stringArgs_succ {a : StringArg} (h : WritesArgs (a :: as) rest) (fuel : Nat) :
    ∃ s tail, Behind as s ∧ stringArgs (fuel + 1) rest = a.read :: tail ∧
      (a.Plain → tail = stringArgs fuel (skipComma s)) := by
  obtain ⟨g, s, hg, hs, rfl⟩ := h.behind
  have hquote : (a.quote).is isSpace = false := by
    obtain hq | hq := a.writes.quote_eq <;> rw [hq] <;> rfl
  have hlast : (a.quote :: (a.body ++ a.quote :: s)).getLast? = some (.point ')') := by
    simp [getLast?_append, getLast?_cons, hs.getLast?]
  rw [stringArgs, trimRunes_gap_append hg hquote hlast]
  dsimp only
  rw [if_pos a.writes.quote_eq, takeWhile_append_cons]
  cases hdrop : (a.body ++ a.quote :: s).dropWhile (· ≠ a.quote) with
  | nil =>
    have hall := dropWhile_eq_nil_iff.mp hdrop a.quote (by simp)
    simp at hall
  | cons x behind =>
    refine ⟨s, stringArgs fuel (skipComma behind), hs, rfl, fun hplain => ?_⟩
    have hbody : ∀ r ∈ a.body, decide (r ≠ a.quote) = true := fun r hr =>
      decide_eq_true fun heq => a.writes.quote_notMem hplain (heq ▸ hr)
    rw [dropWhile_append_of_pos hbody, dropWhile_cons_of_neg (by simp)] at hdrop
    rw [(List.cons.inj hdrop).2]

/-- Behind an argument the reader goes on with the next one or ends. -/
theorem Behind.stringArgs_eq (h : Behind as s) (fuel : Nat) :
    (as = [] ∧ stringArgs fuel (skipComma s) = []) ∨
      ∃ rest, WritesArgs as rest ∧ stringArgs fuel (skipComma s) = stringArgs fuel rest := by
  cases h with
  | @closed g hg =>
    have hskip : skipComma (g ++ [.point ')']) = [.point ')'] := by
      rw [skipComma, trimRunes_gap_append hg rfl rfl]
      rfl
    rw [hskip]
    refine .inl ⟨rfl, ?_⟩
    cases fuel with
    | zero | succ fuel => rfl
  | @comma g rest as hg h =>
    have hlast : (.point ',' :: rest).getLast? = some (.point ')') := by
      simp [getLast?_cons, h.getLast?]
    have hskip : skipComma (g ++ .point ',' :: rest) = trimRunes rest := by
      rw [skipComma, trimRunes_gap_append hg rfl hlast]
      rfl
    rw [hskip, stringArgs_trimRunes]
    exact .inr ⟨rest, h, rfl⟩

/-- The arguments of a marker are the strings of the query just when no argument has an escape
and none but the last has a zero byte. -/
theorem stringArgs_agree_iff {fuel : Nat} (h : WritesArgs as rest) (hfuel : as.length ≤ fuel)
    (hlength : (stringArgs fuel rest).length = as.length) :
    splitN 0 (as.length - 1) ([0].intercalate ((stringArgs fuel rest).map encode)) =
        as.map (fun a => encode a.value) ↔
      (∀ a ∈ as, a.Plain) ∧ ∀ a ∈ as.dropLast, 0 ∉ encode a.value := by
  induction as generalizing rest fuel with
  | nil => exact absurd rfl h.ne_nil
  | cons a as ih =>
    obtain ⟨fuel, rfl⟩ := Nat.exists_eq_add_one.mpr (Nat.lt_of_lt_of_le (Nat.succ_pos _) hfuel)
    obtain ⟨s, tail, hs, hread, htail⟩ := stringArgs_succ h fuel
    rw [hread, length_cons, length_cons] at hlength
    have hlength : tail.length = as.length := Nat.succ.inj hlength
    have hagrees := a.writes.read_agrees_iff
    rw [hread, map_cons, map_cons, length_cons, Nat.add_sub_cancel,
      forall_mem_cons]
    cases as with
    | nil =>
      obtain rfl := length_eq_zero_iff.mp hlength
      have hone : splitN 0 0 ([0].intercalate [encode a.read]) = [encode a.read] := by
        simp [List.intercalate, splitN]
      rw [length_nil, map_nil, map_nil, hone]
      refine ⟨fun heq => ⟨⟨hagrees.mp (List.cons.inj heq).1, forall_mem_nil _⟩,
        forall_mem_nil _⟩, fun hplain => ?_⟩
      exact congrArg (fun bytes => [bytes]) (hagrees.mpr hplain.1.1)
    | cons b as =>
      have hne : tail.map encode ≠ [] := by
        rw [Ne, map_eq_nil_iff, ← length_eq_zero_iff, hlength]
        exact Nat.succ_ne_zero _
      obtain ⟨hnil, -⟩ | ⟨rest', h', hrest'⟩ := hs.stringArgs_eq fuel
      · cases hnil
      have hle : (b :: as).length ≤ fuel := Nat.le_of_succ_le_succ hfuel
      have hih : a.Plain → (splitN 0 as.length ([0].intercalate (tail.map encode)) =
          (b :: as).map (fun a => encode a.value) ↔
            (∀ a ∈ b :: as, a.Plain) ∧ ∀ a ∈ (b :: as).dropLast, 0 ∉ encode a.value) := by
        intro hplain
        have heq : tail = stringArgs fuel rest' := (htail hplain).trans hrest'
        rw [heq] at hlength ⊢
        exact ih h' hle hlength
      rw [intercalate_cons_of_ne_nil hne, append_assoc, singleton_append, dropLast_cons_of_ne_nil (by simp)]
      constructor
      · intro heq
        have hzero : 0 ∉ encode a.value := (notMem_of_splitN heq).1
        have hclean : 0 ∉ encode a.read := fun hmem => hzero (a.writes.zero_mem hmem)
        rw [length_cons, splitN_succ hclean] at heq
        obtain ⟨hsame, hmore⟩ := List.cons.inj heq
        have hplain : a.Plain := hagrees.mp hsame
        obtain ⟨hothers, hzeros⟩ := (hih hplain).mp hmore
        exact ⟨⟨hplain, hothers⟩, forall_mem_cons.mpr ⟨hzero, hzeros⟩⟩
      · rintro ⟨⟨hplain, hothers⟩, hall⟩
        obtain ⟨hzero, hzeros⟩ := forall_mem_cons.mp hall
        have hsame : encode a.read = encode a.value := hagrees.mpr hplain
        have hclean : 0 ∉ encode a.read := hsame ▸ hzero
        rw [length_cons, splitN_succ hclean, hsame, (hih hplain).mpr ⟨hothers, hzeros⟩]

/-! ## Nests of label functions -/

/-- A call of a label function around an expression: its arguments, and the text they are
written in, which the translator accepts. -/
structure Level where
  function : LabelFunction
  args : List StringArg
  rest : Runes
  writes : WritesArgs args rest
  takes : function.Takes args.length
  accepted : function.Takes (parseAllStringArgs rest).length

variable (l : Level)

def Level.mark : Mark := ⟨l.function, l.function.data (parseAllStringArgs l.rest)⟩

/-- The arguments of a `label_replace` as the query has them. -/
def Level.spec : Option LabelReplaceSpec :=
  match l.function, l.args with
  | .labelReplace, [dst, replacement, src, regex] =>
      some ⟨encode dst.value, encode replacement.value, encode src.value, encode regex.value⟩
  | _, _ => none

/-- A query as a nest of label functions, the inner ones first, around an innermost text. -/
inductive Nested : Runes → List Level → Runes → Prop where
  | innermost {logql : Runes} (hne : trimRunes logql ≠ [])
      (h : ∀ f : LabelFunction, ¬ f.opening <+: prepared logql) : Nested logql [] logql
  | call {logql s inner innermost : Runes} {levels : List Level} (l : Level)
      (hopen : prepared logql = l.function.opening ++ s)
      (hsplit : splitFuncFirstArg s = some (inner, l.rest)) (h : Nested inner levels innermost) :
      Nested logql (levels ++ [l]) innermost

theorem tryTranslateLabel_of_not_opened {f : LabelFunction} (h : ¬ f.opening <+: logql)
    (translate : Runes → Option Runes) : tryTranslateLabel f translate logql = none := by
  have hnone : logql.dropPrefix? f.opening = none := by
    rw [Option.eq_none_iff_forall_ne_some]
    intro s hs
    obtain ⟨opening, hsplit, hopening⟩ := dropPrefix?_eq_some_iff.mp hs
    obtain rfl : opening = f.opening := by simpa using hopening
    exact h ⟨s, hsplit.symm⟩
  rw [tryTranslateLabel, hnone]
  rfl

open Level

/-- A call is translated to its inner query and its marker. -/
theorem tryTranslateLabel_call {l : Level} {inner translated : Runes}
    (hsplit : splitFuncFirstArg s = some (inner, l.rest)) {translate : Runes → Option Runes}
    (h : translate inner = some translated) :
    tryTranslateLabel l.function translate (l.function.opening ++ s) =
      some (translated ++ l.mark.text) := by
  have hdrop : (l.function.opening ++ s).dropPrefix? l.function.opening = some s :=
    dropPrefix?_eq_some_iff.mpr ⟨l.function.opening, rfl, beq_self_eq_true _⟩
  simp only [tryTranslateLabel, hdrop, hsplit, Option.bind_eq_bind, Option.bind_some,
    if_pos l.accepted, h, Option.map_some, mark]

theorem not_labelReplace_prefix_labelJoin (s : Runes) :
    ¬ LabelFunction.labelReplace.opening <+: LabelFunction.labelJoin.opening ++ s := by
  rintro ⟨rest, h⟩
  have hletter : some (Rune.point 'r') = some (Rune.point 'j') := congrArg (·[6]?) h
  cases hletter

variable {levels : List Level}

/-- The translation of a nest is that of its innermost expression with a marker for each level. -/
theorem Nested.translated {c : Runes} {fuel : Nat}
    (h : Nested logql levels innermost) (hfuel : levels.length < fuel)
    (hc : translateUnwrapped t (prepared innermost) = some c) :
    translateLogQLFull t fuel logql = some (c ++ markTexts (levels.map mark)) := by
  induction h generalizing fuel with
  | innermost hne hopen =>
    obtain ⟨fuel, rfl⟩ := Nat.exists_eq_add_one.mpr hfuel
    rw [translateLogQLFull, if_neg (by simpa using hne), tryTranslateLabelReplace,
      tryTranslateLabel_of_not_opened (hopen _), tryTranslateLabelJoin,
      tryTranslateLabel_of_not_opened (hopen _), hc]
    simp [markTexts]
  | @call logql s inner innermost levels l hopen hsplit h ih =>
    rw [length_append, length_singleton] at hfuel
    obtain ⟨fuel, rfl⟩ := Nat.exists_eq_add_one.mpr (Nat.zero_lt_of_lt hfuel)
    have hinner := ih (Nat.lt_of_succ_lt_succ hfuel) hc
    have hcall := tryTranslateLabel_call hsplit hinner
    have hne : trimRunes logql ≠ [] := by
      intro hnil
      rw [prepared, hnil] at hopen
      cases hf : l.function <;> rw [hf] at hopen <;> cases hopen
    have htexts : c ++ markTexts ((levels ++ [l]).map mark) =
        c ++ markTexts (levels.map mark) ++ l.mark.text := by
      simp [markTexts]
    rw [translateLogQLFull, if_neg (by simpa using hne), hopen, htexts, tryTranslateLabelReplace,
      tryTranslateLabelJoin]
    cases hf : l.function with
    | labelReplace =>
      rw [hf] at hcall
      rw [hcall]
    | labelJoin =>
      rw [hf] at hcall
      rw [tryTranslateLabel_of_not_opened (not_labelReplace_prefix_labelJoin s), hcall]

/-! ## An argument is shorter than its call -/

theorem length_trimRunes (s : Runes) : (trimRunes s).length ≤ s.length :=
  (trim_sublist _ s).length_le

theorem Normalized.length_le {prev : Option Rune} {out : Runes} (h : Normalized prev s out) :
    out.length ≤ s.length := by
  induction h with
  | nil => exact le_rfl
  | @quoted prev q s span rest out hq hspan h ih =>
    have hsplit := congrArg List.length (quotedSpan_split q q s)
    rw [hspan] at hsplit
    simp only [length_cons, length_append] at hsplit ⊢
    omega
  | dropped hrun hhugs h ih =>
    rw [length_append]
    omega
  | space hrun hhugs h ih =>
    have hpos := length_pos_iff.mpr hrun.ne_nil
    rw [length_append, length_cons]
    omega
  | call hword hcall h ih =>
    have hlt := hcall.1
    simp only [length_append]
    omega
  | name hword hcall h ih =>
    simp only [length_append]
    omega
  | other hquote hspace hident h ih => simp only [length_cons]; omega

theorem length_splitFirstArg {depth : Nat} {first inner : Runes}
    (h : splitFirstArg depth first s = some (inner, rest)) :
    inner.length ≤ first.length + s.length := by
  induction s generalizing depth first with
  | nil => cases h
  | cons r s ih =>
    have hnext : ∀ {depth : Nat}, splitFirstArg depth (first ++ [r]) s = some (inner, rest) →
        inner.length ≤ first.length + (r :: s).length := by
      intro depth h
      have hle := ih h
      simp only [length_append, length_cons, length_nil] at hle ⊢
      omega
    have hhere : trimRunes first = inner → inner.length ≤ first.length + (r :: s).length := by
      rintro rfl
      exact (length_trimRunes first).trans (Nat.le_add_right ..)
    rw [splitFirstArg] at h
    split at h
    · exact hnext h
    · split at h
      all_goals
        split at h
        · exact hhere (Prod.mk.inj (Option.some.inj h)).1
        · exact hnext h

/-- A query has no more levels than runes. -/
theorem Nested.length_le (h : Nested logql levels innermost) :
    levels.length ≤ logql.length := by
  induction h with
  | innermost => exact Nat.zero_le _
  | @call logql s inner innermost levels l hopen hsplit h ih =>
    have hinner := length_splitFirstArg hsplit
    have hprepared : (prepared logql).length ≤ logql.length :=
      (normalized_normalizeFrom none le_rfl).length_le.trans (length_trimRunes logql)
    have hpos : 0 < l.function.opening.length := by cases l.function <;> decide
    rw [hopen, length_append] at hprepared
    rw [length_append, length_singleton]
    simp only [length_nil] at hinner
    omega

/-! ## The markers of a nest -/

theorem count_zero_intercalate (parts : List Bytes) :
    parts.length - 1 ≤ ([0].intercalate parts).count 0 := by
  induction parts with
  | nil => exact Nat.zero_le _
  | cons part parts ih =>
    cases parts with
    | nil => exact Nat.zero_le _
    | cons next parts =>
      rw [intercalate_cons_of_ne_nil (by simp), count_append, count_append, count_singleton_self]
      simp only [length_cons] at ih ⊢
      omega

/-- A call writes a well-formed marker. -/
theorem Level.mark_wellFormed : l.mark.WellFormed := by
  have htakes := l.accepted
  unfold mark Mark.WellFormed
  cases hf : l.function with
  | labelReplace =>
    rw [hf] at htakes
    have hcount := count_zero_intercalate ((parseAllStringArgs l.rest).map encode)
    rw [length_map, show (parseAllStringArgs l.rest).length = 4 from htakes] at hcount
    exact hcount
  | labelJoin =>
    rw [hf] at htakes
    have htakes : 3 ≤ (parseAllStringArgs l.rest).length := htakes
    have hcount := count_zero_intercalate (((parseAllStringArgs l.rest).take 2).map encode ++
      [[1].intercalate (((parseAllStringArgs l.rest).drop 2).map encode)])
    rw [length_append, length_map, length_take, length_singleton] at hcount
    exact le_trans (by omega) hcount

/-- The arguments of a level that come back as they were written. -/
def Level.Kept : Prop :=
  (∀ a ∈ l.args, a.Plain) ∧ ∀ a ∈ l.args.dropLast, 0 ∉ encode a.value

theorem WritesArgs.length_le (h : WritesArgs as rest) : as.length ≤ rest.length := by
  induction h with
  | last | more a hg₁ hg₂ h ih => simp [StringArg.text]; omega

/-- The replacement read back is the one that was written exactly when its arguments are kept. -/
theorem Level.spec_agrees_iff {l : Level} (hf : l.function = .labelReplace) :
    l.mark.spec = l.spec ↔ l.Kept := by
  obtain ⟨function, args, rest, hwrites, htakes, haccepted⟩ := l
  obtain rfl : function = .labelReplace := hf
  have hlength : (stringArgs rest.length rest).length = args.length :=
    Eq.trans haccepted (Eq.symm htakes)
  have hagree := stringArgs_agree_iff hwrites hwrites.length_le hlength
  obtain ⟨dst, replacement, src, regex, rfl⟩ : ∃ a b c d, args = [a, b, c, d] := by
    match args, htakes with
    | [a, b, c, d], _ => exact ⟨a, b, c, d, rfl⟩
  exact replaceSpec_eq_some_iff.trans hagree

/-! ## What comes back -/

/-- The metric expression below the clauses of the innermost text. -/
def innermostCore (innermost : Runes) : Option MetricCore :=
  metricCore t (extractWithoutLabels (prepared innermost)).1

/-- The labels of all without clauses of the innermost text. -/
def withoutLabels (innermost : Runes) : List Runes :=
  (extractWithoutLabels (prepared innermost)).2 ++ laterWithoutLabels (prepared innermost)

/-- Neither the translation of the expression nor a label looks like a marker. -/
structure MarkerFree (query : Runes) (labels : List Runes) : Prop where
  without : ¬ opened withoutName <:+: query
  group : ¬ groupMarker <:+ query
  replace : ¬ opened labelReplaceName <:+: query
  join : ¬ opened labelJoinName <:+: query
  labels : ∀ l ∈ labels, .point ':' ∉ l

/-- The post-processing that a nest around an expression asks for. -/
structure Recovers (core : MetricCore) (labels : List Runes) (levels : List Level)
    (out : PostProcessing) : Prop where
  query : out.logsqlQuery = core.query
  labels : out.withoutLabels = labels
  group : out.isGroupQuery = core.isGroup
  specs : out.labelReplaceSpecs = levels.filterMap Level.spec

/-- The nests whose markers come back: no clause and no group below a label function, one
`label_join`, arguments that are kept, labels in the first clause only, and no group around a
variance. -/
structure Recoverable (core : MetricCore) (innermost : Runes) (levels : List Level) : Prop where
  unwrapped : levels = [] ∨ (withoutLabels innermost = [] ∧ core.isGroup = false)
  oneJoin : (levels.filter fun l => l.function = .labelJoin).length ≤ 1
  kept : ∀ l ∈ levels, l.function = .labelReplace → l.Kept
  oneClause : laterWithoutLabels (prepared innermost) = []
  marked : core.isGroup = true → core.variance = false

theorem exists_mem_splitLabels (h : r ∈ s) (hcomma : r ≠ .point ',') (hspace : r.is isSpace = false) :
    ∃ l ∈ splitLabels s, r ∈ l := by
  have hjoin : [.point ','].intercalate (s.splitOn (.point ',')) = s := intercalate_splitOn _
  rw [← hjoin] at h
  obtain hc | ⟨part, hpart, hr⟩ := mem_intercalate h
  · exact absurd hc hcomma
  · have hmem : r ∈ trimRunes part := mem_trim hr hspace
    refine ⟨trimRunes part, mem_filter.mpr ⟨mem_map_of_mem hpart, ?_⟩, hmem⟩
    simpa using ne_nil_of_mem hmem

variable {labels : List Runes}

/-- Clean labels are read back from their list. -/
theorem splitLabels_intercalate (hne : labels ≠ [])
    (hlabels : ∀ l ∈ labels, .point ',' ∉ l ∧ trimRunes l = l ∧ l ≠ []) :
    splitLabels ([.point ','].intercalate labels) = labels := by
  rw [splitLabels, splitOn_intercalate _ (fun l hl => (hlabels l hl).1) hne]
  have htrim : labels.map trimRunes = labels := by
    conv_rhs => rw [← map_id labels]
    exact map_congr_left fun l hl => (hlabels l hl).2.1
  rw [htrim, filter_eq_self]
  intro l hl
  simpa using (hlabels l hl).2.2

theorem notMem_of_mem_splitOn {c : Rune} {part : Runes} (h : part ∈ s.splitOn c) : c ∉ part := by
  rw [splitOn_eq_splitOnP] at h
  induction s generalizing part with
  | nil =>
    obtain rfl := mem_singleton.mp h
    exact not_mem_nil
  | cons r s ih =>
    rw [splitOnP_cons_eq_if_modifyHead] at h
    split at h
    next =>
      obtain rfl | h := mem_cons.mp h
      · exact not_mem_nil
      · exact ih h
    next hr =>
      obtain ⟨first, more, hparts⟩ := exists_cons_of_ne_nil (splitOnP_ne_nil (· == c) s)
      rw [hparts] at h ih
      obtain rfl | h := mem_cons.mp h
      · rw [mem_cons, not_or]
        exact ⟨fun heq => hr (by simp [heq]), ih mem_cons_self⟩
      · exact ih (mem_cons_of_mem _ h)

theorem splitLabels_label {l : Runes} (h : l ∈ splitLabels s) :
    .point ',' ∉ l ∧ trimRunes l = l ∧ l ≠ [] := by
  obtain ⟨hmem, hne⟩ := mem_filter.mp h
  obtain ⟨part, hpart, rfl⟩ := mem_map.mp hmem
  exact ⟨fun hcomma => notMem_of_mem_splitOn hpart (mem_trimRunes hcomma),
    trim_trim _ part, by simpa using hne⟩

theorem extractWithoutLabels_label {l : Runes} (h : l ∈ (extractWithoutLabels s).2) :
    .point ',' ∉ l ∧ trimRunes l = l ∧ l ≠ [] := by
  unfold extractWithoutLabels at h
  split at h
  · cases h
  · exact splitLabels_label h

/-- A query without the marker has no labels to drop. -/
theorem parseWithoutMarker_of_absent {query : Runes} (h : ¬ opened withoutName <:+: query) :
    parseWithoutMarker query = (query, []) := by
  simp only [parseWithoutMarker, cutLast_eq_none_iff.mpr h]

variable {core : MetricCore}

theorem MarkerFree.without_text
    (h : MarkerFree core.query labels) : ¬ opened withoutName <:+: core.text := by
  unfold MetricCore.text
  split
  · exact fun hstands => h.without (infix_of_infix_append (by decide) hstands)
  · exact h.without

/-- A query without markers is read back as it is. -/
theorem MarkerFree.readMarkers_query {query : Runes}
    (h : MarkerFree query labels) :
    parseAllLabelReplaceMarkers query = (query, []) ∧ parseLabelJoinMarker query = (query, none) := by
  constructor
  · have hread := @parseLabelReplaceMarkers_markTexts query.length query [] (Nat.zero_le _) (by simp)
      h.replace
    simpa [markTexts, parseAllLabelReplaceMarkers] using hread
  · simp only [parseLabelJoinMarker, cutLast_eq_none_iff.mpr h.join]

/-- Without label functions the markers come back but for the group of a variance. -/
theorem readMarkers_unwrapped {labels more : List Runes}
    (hclean : MarkerFree core.query (labels ++ more))
    (hlabels : ∀ l ∈ labels, .point ',' ∉ l ∧ trimRunes l = l ∧ l ≠ []) :
    readMarkers (appendWithoutMarker core.text labels) =
      ⟨core.query, labels, core.isGroup && !core.variance, [], none⟩ := by
  have hwithout : parseWithoutMarker (appendWithoutMarker core.text labels) = (core.text, labels) := by
    cases labels with
    | nil => exact parseWithoutMarker_of_absent hclean.without_text
    | cons label labels =>
      have hcolon : .point ':' ∉ [Rune.point ','].intercalate (label :: labels) := by
        intro hmem
        obtain hc | ⟨l, hl, hmem⟩ := mem_intercalate hmem
        · cases hc
        · exact hclean.labels l (mem_append_left _ hl) hmem
      have hcut : cutLast (opened withoutName)
          (core.text ++ opened withoutName ++ [.point ','].intercalate (label :: labels)) =
            some (core.text, [.point ','].intercalate (label :: labels)) :=
        cutLast_of_last_notMem hcolon
      rw [appendWithoutMarker, if_neg (by simp)]
      simp only [parseWithoutMarker, hcut, splitLabels_intercalate (cons_ne_nil _ _) hlabels]
  have hgroup : parseGroupMarker core.text = (core.query, core.isGroup && !core.variance) := by
    unfold MetricCore.text
    split
    next hmarked =>
      have hdrop : (core.query ++ groupMarker).dropSuffix? groupMarker = some core.query :=
        dropSuffix?_eq_some_iff.mpr ⟨groupMarker, rfl, beq_self_eq_true _⟩
      simp only [parseGroupMarker, hdrop, hmarked]
    next hmarked =>
      have hdrop : core.query.dropSuffix? groupMarker = none := by
        rw [Option.eq_none_iff_forall_ne_some]
        intro rest hrest
        obtain ⟨suffix, hsplit, hsuffix⟩ := dropSuffix?_eq_some_iff.mp hrest
        obtain rfl : suffix = groupMarker := by simpa using hsuffix
        exact hclean.group ⟨rest, hsplit.symm⟩
      simp only [parseGroupMarker, hdrop, Bool.eq_false_iff.mpr hmarked]
  obtain ⟨hreplace, hjoin⟩ := hclean.readMarkers_query
  simp only [readMarkers, hwithout, hgroup, hreplace, hjoin]

/-- Below a label function the without marker takes the markers behind it for labels. -/
theorem colon_mem_of_wrapped {front labels : Runes} {ms : List Mark} (hms : ms ≠ []) :
    ∃ l ∈ (parseWithoutMarker (front ++ opened withoutName ++ labels ++ markTexts ms)).2,
      .point ':' ∈ l := by
  obtain ⟨ms, m, rfl⟩ := (ms.eq_nil_or_concat').resolve_left hms
  generalize htext : front ++ opened withoutName ++ labels ++ markTexts (ms ++ [m]) = text
  have hstands : opened withoutName <:+: text := ⟨front, labels ++ markTexts (ms ++ [m]), by simp [← htext]⟩
  unfold parseWithoutMarker
  split
  next hnone => exact absurd hstands (cutLast_eq_none_iff.mp hnone)
  next clean rest hcut =>
    -- The last colon is the one of the last marker, and it does not close a without marker.
    have hcolon : .point ':' ∈ rest := by
      by_contra hno
      have hlast : (clean ++ withoutName) ++ .point ':' :: rest =
          (front ++ opened withoutName ++ labels ++ markTexts ms ++ m.function.markerName) ++
            .point ':' :: (payload m.data ++ closing) := by
        have hsplit := eq_of_cutLast hcut
        rw [← htext] at hsplit
        simpa [opened, markTexts, Mark.text_eq] using hsplit.symm
      have hname := (append_cons_inj_of_notMem_right hno (colon_notMem_payload_append m.data) hlast).1
      exact not_suffix_withoutName m.function _ ⟨clean, hname⟩
    exact exists_mem_splitLabels hcolon (by decide) rfl

/-- The markers of the label functions around an expression without clauses. -/
theorem readMarkers_wrapped
    (hclean : MarkerFree core.query labels) (hlevels : levels ≠ []) :
    let read := readMarkers (core.text ++ markTexts (levels.map mark))
    read.withoutLabels = [] ∧ read.isGroupQuery = false ∧ (core.isGroup = false →
      read.logsqlQuery = core.query ++ markTexts (((levels.map mark).filter Mark.isJoin).dropLast) ∧
        read.labelReplaceSpecs = (levels.map mark).filterMap Mark.spec) := by
  have hms : levels.map mark ≠ [] := by simpa using hlevels
  have hforms : ∀ m ∈ levels.map mark, m.WellFormed := by
    intro m hm
    obtain ⟨l, -, rfl⟩ := mem_map.mp hm
    exact l.mark_wellFormed
  generalize levels.map mark = ms at hms hforms ⊢
  have hwithout : parseWithoutMarker (core.text ++ markTexts ms) = (core.text ++ markTexts ms, []) :=
    parseWithoutMarker_of_absent (not_infix_append_markTexts (by decide)
      (fun m _ => not_suffix_withoutName m.function) hclean.without_text)
  have hgroup : parseGroupMarker (core.text ++ markTexts ms) = (core.text ++ markTexts ms, false) := by
    obtain ⟨ms, m, rfl⟩ := (ms.eq_nil_or_concat').resolve_left hms
    have hsplit : core.text ++ markTexts (ms ++ [m]) = (core.text ++ markTexts ms) ++ m.text := by
      simp [markTexts]
    rw [hsplit]
    exact parseGroupMarker_append_mark _ m
  simp only [readMarkers, hwithout, hgroup]
  refine ⟨trivial, trivial, fun hplain => ?_⟩
  have htext : core.text = core.query := by simp [MetricCore.text, hplain]
  have hlength : ms.length ≤ (core.query ++ markTexts ms).length := by
    have hle := length_le_length_markTexts ms
    rw [length_append]
    omega
  have hreplace : parseAllLabelReplaceMarkers (core.query ++ markTexts ms) =
      (core.query ++ markTexts (ms.filter Mark.isJoin), ms.filterMap Mark.spec) :=
    parseLabelReplaceMarkers_markTexts hlength hforms hclean.replace
  rw [htext, hreplace]
  refine ⟨parseLabelJoinMarker_markTexts (fun m hm => ?_) hclean.join, rfl⟩
  obtain ⟨hm, hjoin⟩ := mem_filter.mp hm
  exact ⟨hforms m hm, by simpa [Mark.isJoin] using hjoin⟩

theorem Level.exists_mark_spec (hf : l.function = .labelReplace) :
    ∃ spec, l.mark.spec = some spec := by
  have hform := l.mark_wellFormed
  rw [Mark.WellFormed, show l.mark.function = .labelReplace from hf] at hform
  obtain ⟨dst, replacement, src, regex, hparts⟩ := exists_replaceSpec hform
  refine ⟨⟨dst, replacement, src, regex⟩, ?_⟩
  rw [Mark.spec, show l.mark.function = .labelReplace from hf]
  exact replaceSpec_eq_some_iff.mpr hparts

theorem Level.exists_spec (hf : l.function = .labelReplace) : ∃ spec, l.spec = some spec := by
  have htakes := l.takes
  rw [hf] at htakes
  rw [spec, hf]
  match l.args, htakes with
  | [_, _, _, _], _ => exact ⟨_, rfl⟩

/-- The replacements of all the levels are read back exactly when each is kept. -/
theorem specs_agree_iff (levels : List Level) :
    (levels.map mark).filterMap Mark.spec = levels.filterMap spec ↔
      ∀ l ∈ levels, l.function = .labelReplace → l.Kept := by
  induction levels with
  | nil => simp
  | cons l levels ih =>
    rw [map_cons, forall_mem_cons, ← ih]
    cases hf : l.function with
    | labelJoin =>
      have hmark : l.mark.spec = none := by simp [Mark.spec, mark, hf]
      have hspec : l.spec = none := by simp [spec, hf]
      rw [filterMap_cons_none hmark, filterMap_cons_none hspec]
      exact ⟨fun h => ⟨fun hreplace => (by cases hreplace), h⟩, fun h => h.2⟩
    | labelReplace =>
      obtain ⟨read, hread⟩ := l.exists_mark_spec hf
      obtain ⟨asked, hasked⟩ := l.exists_spec hf
      have hagree := l.spec_agrees_iff hf
      rw [hread, hasked, Option.some_inj] at hagree
      rw [filterMap_cons_some hread, filterMap_cons_some hasked, cons_eq_cons, hagree]
      exact and_congr_left fun _ => ⟨fun h _ => h, fun h => h rfl⟩

theorem joins_length (levels : List Level) :
    ((levels.map mark).filter Mark.isJoin).length =
      (levels.filter fun l => l.function = .labelJoin).length := by
  rw [filter_map, length_map]
  rfl

theorem markTexts_eq_nil_iff {ms : List Mark} : markTexts ms = [] ↔ ms = [] := by
  cases ms with
  | nil => simp [markTexts]
  | cons m ms => simp [markTexts_cons, m.text_ne_nil]

section Recovery

variable {core : MetricCore} {labels later : List Runes} {levels : List Level}

/-- The readers recover a query without wrappers under these conditions alone. -/
theorem recovers_unwrapped_iff (hclean : MarkerFree core.query (labels ++ later))
    (hlabels : ∀ l ∈ labels, .point ',' ∉ l ∧ trimRunes l = l ∧ l ≠ []) :
    Recovers core (labels ++ later) [] (readMarkers (appendWithoutMarker core.text labels)) ↔
      later = [] ∧ (core.isGroup = true → core.variance = false) := by
  rw [readMarkers_unwrapped hclean hlabels]
  constructor
  · rintro ⟨-, hsame, hgroup, -⟩
    refine ⟨self_eq_append_right.mp hsame, fun hg => ?_⟩
    simpa [hg] using hgroup
  · rintro ⟨hlater, hmarked⟩
    refine ⟨rfl, by rw [hlater, append_nil], ?_, rfl⟩
    cases hg : core.isGroup with
    | false => rfl
    | true => simp [hmarked hg]

theorem joins_dropLast_iff (levels : List Level) :
    markTexts ((levels.map mark).filter Mark.isJoin).dropLast = [] ↔
      (levels.filter fun l => l.function = .labelJoin).length ≤ 1 := by
  rw [markTexts_eq_nil_iff, ← length_eq_zero_iff, length_dropLast, joins_length]
  omega

/-- The readers recover a wrapped query under these conditions alone. -/
theorem recovers_wrapped_iff (hclean : MarkerFree core.query later) (hlevels : levels ≠ []) :
    Recovers core later levels (readMarkers (core.text ++ markTexts (levels.map mark))) ↔
      later = [] ∧ core.isGroup = false ∧
        (levels.filter fun l => l.function = .labelJoin).length ≤ 1 ∧
        ∀ l ∈ levels, l.function = .labelReplace → l.Kept := by
  obtain ⟨hwithout, hgroup, hrest⟩ := readMarkers_wrapped hclean hlevels
  rw [← joins_dropLast_iff, ← specs_agree_iff]
  constructor
  · rintro ⟨hquery, hlabels, hflag, hspecs⟩
    have hplain : core.isGroup = false := hflag.symm.trans hgroup
    obtain ⟨htexts, hread⟩ := hrest hplain
    rw [htexts, append_right_eq_self] at hquery
    exact ⟨hlabels.symm.trans hwithout, hplain, hquery, hread.symm.trans hspecs⟩
  · rintro ⟨hlater, hplain, hjoins, hspecs⟩
    obtain ⟨htexts, hread⟩ := hrest hplain
    refine ⟨?_, hwithout.trans hlater.symm, hgroup.trans hplain.symm, hread.trans hspecs⟩
    rw [htexts, hjoins, append_nil]

/-- A `without` clause below a wrapper is never recovered. -/
theorem not_recovers_below_clause (hclean : MarkerFree core.query (labels ++ later))
    (hlabels : labels ≠ []) (hlevels : levels ≠ []) :
    ¬ Recovers core (labels ++ later) levels
      (readMarkers (appendWithoutMarker core.text labels ++ markTexts (levels.map mark))) := by
  rintro ⟨-, hsame, -, -⟩
  have hms : levels.map mark ≠ [] := by simpa using hlevels
  rw [appendWithoutMarker, if_neg (by simpa using hlabels), readMarkers_withoutLabels] at hsame
  obtain ⟨l, hl, hcolon⟩ := colon_mem_of_wrapped hms
  rw [hsame] at hl
  exact hclean.labels l hl hcolon

end Recovery

/-- The markers of a nest that the translator accepts come back just when the nest is
recoverable. -/
theorem markers_recovered_iff {logql innermost : Runes} {levels : List Level} {core : MetricCore}
    (hnested : Nested logql levels innermost) (hcore : innermostCore t innermost = some core)
    (hclean : MarkerFree core.query (withoutLabels innermost)) :
    ∃ translated, translateLogQL t logql = some translated ∧
      (Recovers core (withoutLabels innermost) levels (readMarkers translated) ↔
        Recoverable core innermost levels) := by
  have htranslated : translateUnwrapped t (prepared innermost) =
      some (appendWithoutMarker core.text (extractWithoutLabels (prepared innermost)).2) := by
    rw [innermostCore] at hcore
    simp only [translateUnwrapped, hcore]
  refine ⟨_, hnested.translated t (Nat.lt_succ_of_le hnested.length_le) htranslated, ?_⟩
  rw [withoutLabels] at hclean ⊢
  by_cases hlevels : levels = []
  · rw [hlevels, map_nil, markTexts, flatMap_nil, append_nil,
      recovers_unwrapped_iff hclean fun l hl => extractWithoutLabels_label hl]
    exact ⟨fun h => ⟨.inl rfl, Nat.zero_le _, forall_mem_nil _, h.1, h.2⟩,
      fun h => ⟨h.oneClause, h.marked⟩⟩
  · cases hfirst : (extractWithoutLabels (prepared innermost)).2 with
    | nil =>
      rw [hfirst] at hclean
      refine (recovers_wrapped_iff hclean hlevels).trans ⟨?_, ?_⟩
      · rintro ⟨hlater, hplain, hone, hkept⟩
        refine ⟨.inr ⟨?_, hplain⟩, hone, hkept, hlater, fun hg => ?_⟩
        · rw [withoutLabels, hfirst, hlater]
        · cases hplain.symm.trans hg
      · intro h
        exact ⟨h.oneClause, (h.unwrapped.resolve_left hlevels).2, h.oneJoin, h.kept⟩
    | cons label labels =>
      rw [hfirst] at hclean
      refine iff_of_false (not_recovers_below_clause hclean (cons_ne_nil _ _) hlevels) fun h => ?_
      have hnone := (h.unwrapped.resolve_left hlevels).1
      rw [withoutLabels, hfirst] at hnone
      cases hnone

/-- The translations of one count, with a group around it or without. -/
def countTranslators : Translators where
  binary _ := none
  outerAggregation logql :=
    if logql = literal "group(count_over_time(\x7bapp=\"nginx\"\x7d[5m]))" then
      (literal "group", literal "count_over_time(\x7bapp=\"nginx\"\x7d[5m])", [])
    else ([], [], [])
  quantileOverTime _ _ _ := none
  rangeFunction inner _ _ :=
    if inner = literal "count_over_time(\x7bapp=\"nginx\"\x7d[5m])" then
      some (literal "app:=\"nginx\" | stats count()")
    else none
  nested _ _ := none
  logQuery _ := none

/-- A string of letters in double quotes. -/
def letterArg (c : Char)
    (h : scanQuotedString ([.point c] ++ [.point '"']) = (⟨.tokString, [.point c]⟩, [])) : StringArg :=
  ⟨.point '"', [.point c], [.point c], .double h⟩

/-- The call `label_replace(…, "a", "b", "c", "d")`. -/
def relabel : Level where
  function := .labelReplace
  args := [letterArg 'a' rfl, letterArg 'b' rfl, letterArg 'c' rfl, letterArg 'd' rfl]
  rest := literal "\"a\", \"b\", \"c\", \"d\")"
  writes := by
    have hwrites := WritesArgs.more (letterArg 'a' rfl) isGap_nil isGap_nil
      (.more (letterArg 'b' rfl) isGap_space isGap_nil
        (.more (letterArg 'c' rfl) isGap_space isGap_nil
          (.last (letterArg 'd' rfl) isGap_space isGap_nil)))
    refine Eq.mp (congrArg (WritesArgs _) ?_) hwrites
    decide +kernel
  takes := rfl
  accepted := by decide +kernel

theorem markers_recovered_iff_relabel :
    ∃ translated, translateLogQL countTranslators (literal
        "label_replace(count_over_time(\x7bapp=\"nginx\"\x7d[5m]), \"a\", \"b\", \"c\", \"d\")") =
          some translated ∧
      Recovers ⟨literal "app:=\"nginx\" | stats count()", false, false⟩ [] [relabel]
        (readMarkers translated) := by
  have hnested : Nested (literal
      "label_replace(count_over_time(\x7bapp=\"nginx\"\x7d[5m]), \"a\", \"b\", \"c\", \"d\")") [relabel]
      (literal "count_over_time(\x7bapp=\"nginx\"\x7d[5m])") := by
    refine .call (s := literal "count_over_time(\x7bapp=\"nginx\"\x7d[5m]), \"a\", \"b\", \"c\", \"d\")")
      relabel (by decide +kernel) (by decide +kernel) (.innermost (by decide +kernel) ?_)
    intro f
    cases f <;> decide +kernel
  have hlabels : withoutLabels (literal "count_over_time(\x7bapp=\"nginx\"\x7d[5m])") = [] := by
    decide +kernel
  have hclean : MarkerFree (literal "app:=\"nginx\" | stats count()")
      (withoutLabels (literal "count_over_time(\x7bapp=\"nginx\"\x7d[5m])")) := by
    have hletter : .point '_' ∉ literal "app:=\"nginx\" | stats count()" := by decide +kernel
    rw [hlabels]
    exact ⟨fun h => hletter (h.subset (by decide)), fun h => hletter (h.subset (by decide)),
      fun h => hletter (h.subset (by decide)), fun h => hletter (h.subset (by decide)),
      forall_mem_nil _⟩
  have hkept : relabel.Kept := by
    constructor
    · simp [relabel, letterArg, StringArg.Plain]
    · simp [relabel, letterArg, encode, Rune.bytes]
      decide
  have hcore : innermostCore countTranslators (literal "count_over_time(\x7bapp=\"nginx\"\x7d[5m])") =
      some ⟨literal "app:=\"nginx\" | stats count()", false, false⟩ := by decide +kernel
  obtain ⟨translated, htranslated, hiff⟩ :=
    markers_recovered_iff countTranslators hnested hcore hclean
  refine ⟨translated, htranslated, hlabels ▸ hiff.mpr ⟨.inr ⟨hlabels, rfl⟩, by decide, ?_, ?_,
    fun hgroup => (by cases hgroup)⟩⟩
  · intro l hl _
    obtain rfl := mem_singleton.mp hl
    exact hkept
  · decide +kernel

/-- The group below a label function is lost, and its marker stays in the query. -/
theorem group_below_label_replace_lost :
    innermostCore countTranslators (literal "group(count_over_time(\x7bapp=\"nginx\"\x7d[5m]))") =
        some ⟨literal "app:=\"nginx\" | stats count()", true, false⟩ ∧
      (translateLogQL countTranslators (literal
          "label_replace(group(count_over_time(\x7bapp=\"nginx\"\x7d[5m])), \"a\", \"b\", \"c\", \"d\")")).map
          readMarkers =
        some ⟨literal "app:=\"nginx\" | stats count()__lvp_group__", [], false,
          [⟨[97], [98], [99], [100]⟩], none⟩ := by
  decide +kernel

end LokiVlProxy.Translator
