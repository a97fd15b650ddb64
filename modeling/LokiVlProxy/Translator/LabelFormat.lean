/-
  Translator/LabelFormat.lean --- label_format, pushed down or evaluated.

  Source: translateLabelFormat in internal/translator/translator.go, labelFormatPushable and
  applyLabelFormat in internal/logql/pipeline.go, LabelFormat in internal/logql/ast.go.

  The proxy evaluates all assignments of a stage on the labels before the stage.
-/
import LokiVlProxy.Foundation.Occurrence
import LokiVlProxy.Logql.Literals
import LokiVlProxy.Logsql.Filter

namespace LokiVlProxy.Translator

open Foundation Logsql List Option
open Logql.Syntax

/-- An assignment of a `label_format` stage. -/
structure LabelFormat where
  name : Runes
  value : Runes
  rename : Bool
  deriving DecidableEq, Repr

variable (u : UnicodeTables)

/-! ## The pipes of a stage -/

/-- The quote that is open behind a rune. -/
def quoteBehind (quote : Option Rune) (r : Rune) : Option Rune :=
  if r = .point '"' ∨ r = .point '\x60' then
    match quote with
    | none => some r
    | some q => if q = r then none else some q
  else quote

/-- The items between the commas outside quotes: the open quote, and the item so far. -/
def splitItems : Option Rune → Runes → Runes → List Runes
  | _, cur, [] => if cur.isEmpty then [] else [cur]
  | some (.point '"'), cur, .point '\\' :: r :: s =>
      splitItems (some (.point '"')) (cur ++ [.point '\\', r]) s
  | quote, cur, r :: s =>
      if r = .point ',' ∧ quote = none then cur :: splitItems none [] s
      else splitItems (quoteBehind quote r) (cur ++ [r]) s

/-- `splitDropItems`, also `splitLabelFormatAssignments`. -/
def splitDropItems (s : Runes) : List Runes := splitItems none [] s

/-- The white space of a regular expression. -/
def reSpace (r : Rune) : Bool :=
  r.is fun c => c = '\t' || c = '\n' || c = '\x0c' || c = '\r' || c = ' '

/-- The word characters of a regular expression. -/
def reWord (r : Rune) : Bool :=
  r.is fun c => c = '_' || ('a' ≤ c && c ≤ 'z') || ('A' ≤ c && c ≤ 'Z') || ('0' ≤ c && c ≤ '9')

/-- A reference to a field at the front of a text, as `goTemplateRE` and `pureFieldRefRE` read
it: its name, and the text behind it. -/
def fieldRef : Runes → Option (Runes × Runes)
  | .point '\x7b' :: .point '\x7b' :: s =>
      match s.dropWhile reSpace with
      | .point '.' :: s =>
          let name := s.takeWhile fun r => reWord r || r = .point '.'
          match (s.drop name.length).dropWhile reSpace with
          | .point '\x7d' :: .point '\x7d' :: rest =>
              if name.isEmpty then none else some (name, rest)
          | _ => none
      | _ => none
  | _ => none

/-- The references of a template as `<name>`; each round takes a rune. -/
def replaceRefs : Nat → Runes → Runes
  | 0, s => s
  | _ + 1, [] => []
  | fuel + 1, r :: s =>
      match fieldRef (r :: s) with
      | some (name, rest) => .point '<' :: (name ++ .point '>' :: replaceRefs fuel rest)
      | none => r :: replaceRefs fuel s

variable (template : Runes)

def convertGoTemplate : Runes :=
  let template := (unquoteAny (trimRunes template)).getD template
  quote u (replaceRefs template.length template)

structure PipeFormat where
  template : Runes
  resultField : Runes
  deriving DecidableEq, Repr

/-- The pipe of one item `label=template`. -/
def assignmentPipe (item : Runes) : Option PipeFormat :=
  match splitN (.point '=') 1 item with
  | [label, template] =>
      some ⟨(unquoteAny (convertGoTemplate u (trimRunes template))).getD [], trimRunes label⟩
  | _ => none

/-- The `format` pipes that `translateLabelFormat` emits, one for each assignment. -/
def labelFormatPipes (expr : Runes) : List PipeFormat :=
  (splitDropItems expr).filterMap (assignmentPipe u)

/-! ## Running the pipes -/

/-- A template with the fields of a row; the first argument is the name that is being read. -/
def fill (row : Row) : Option Runes → Runes → Runes
  | none, [] => []
  | some name, [] => .point '<' :: name
  | none, .point '<' :: s => fill row (some []) s
  | none, r :: s => r :: fill row none s
  | some name, .point '>' :: s => row name ++ fill row none s
  | some name, r :: s => fill row (some (name ++ [r])) s

namespace PipeFormat

def run (row : Row) (p : PipeFormat) : Row :=
  Function.update row p.resultField (fill row none p.template)

end PipeFormat

def runPipes (pipes : List PipeFormat) (row : Row) : Row := pipes.foldl PipeFormat.run row

/-! ## The evaluation of the proxy -/

/-- Whether a template holds an action. -/
def hasAction : Bool := (template.dropInfix? (literal "\x7b\x7b")).isSome

/-- `pureFieldRefRE`: the field of a template that is nothing but one reference. -/
def pureFieldRef : Option Runes :=
  match fieldRef (template.dropWhile reSpace) with
  | some (name, rest) => if rest.all reSpace then some name else none
  | none => none

def labelFormatPushable (formats : List LabelFormat) : Bool :=
  formats.all fun a =>
    a.rename || !hasAction a.value ||
      match pureFieldRef a.value with
      | some name => !(formats.map LabelFormat.name).contains name
      | none => false

/-- A reference that the template engine reads as a field: its name starts with no digit and has
no dot in it, and between the braces is no form feed, white space of the expression only. -/
def PlainField (template name : Runes) : Prop :=
  (∀ r ∈ name.head?, (r.is fun c => '0' ≤ c && c ≤ '9') = false) ∧ .point '.' ∉ name ∧
    .point '\x0c' ∉ (template.dropWhile reSpace).rdropWhile reSpace
  deriving Decidable

/-- What the template engine makes of a template, or its error.  Text is copied; a field of the
labels is empty when it is not there; what is no plain field is a number or an error, whatever
the labels. -/
structure TextTemplate where
  exec : Runes → Row → Except Runes Runes
  constant : ∀ template labels, hasAction template = false → exec template labels = .ok template
  field : ∀ template name labels, pureFieldRef template = some name → PlainField template name →
    exec template labels =
      .ok (template.takeWhile reSpace ++ labels name ++ template.rtakeWhile reSpace)
  other : ∀ template name labels labels', pureFieldRef template = some name →
    ¬ PlainField template name → exec template labels = exec template labels'

def setError (labels : Row) (details : Runes) : Row :=
  Function.update (Function.update labels (literal "__error__") (literal "TemplateFormatErr"))
    (literal "__error_details__") details

/-- One round of `applyLabelFormat`: the labels, and the values for the end of the stage. -/
def formatRound (tt : TextTemplate) (st : Row × List (Runes × Runes)) (a : LabelFormat) :
    Row × List (Runes × Runes) :=
  if a.rename then (st.1, (a.name, st.1 a.value) :: st.2)
  else
    match tt.exec a.value st.1 with
    | .ok v => (st.1, (a.name, v) :: st.2)
    | .error details => (setError st.1 details, st.2)

def applyLabelFormat (tt : TextTemplate) (formats : List LabelFormat) (labels : Row) : Row :=
  let (labels, out) := formats.foldl (formatRound tt) (labels, [])
  fun name => (out.lookup name).getD (labels name)

/-! ## The text of a stage -/

/-- A name: no white space, and none of the characters that the texts here are cut at. -/
structure IsName (name : Runes) : Prop where
  ne_nil : name ≠ []
  noSpace : ∀ r ∈ name, r.is isSpace = false
  plain : ∀ c ∈ [',', '=', '"', '\x60', '\x27', '\x7b', '<'], .point c ∉ name
  decoded : decode (encode name) = name

/-- How the right side of an assignment is written. -/
inductive WritesValue (a : LabelFormat) : Runes → Prop where
  | rename (h : a.rename = true) (hname : IsName a.value) : WritesValue a a.value
  | double (s : Runes) (h : a.rename = false)
      (hs : scanQuotedString s = (⟨.tokString, a.value⟩, [])) : WritesValue a (.point '"' :: s)
  | raw (h : a.rename = false) (hquote : .point '\x60' ∉ a.value)
      (hdecoded : decode (encode a.value) = a.value) :
      WritesValue a (.point '\x60' :: (a.value ++ [.point '\x60']))

/-- How an assignment is written, with white space anywhere between its parts. -/
inductive WritesItem (a : LabelFormat) : Runes → Prop where
  | mk (g₁ g₂ g₃ g₄ right : Runes) (hg₁ : IsGap g₁) (hg₂ : IsGap g₂) (hg₃ : IsGap g₃)
      (hg₄ : IsGap g₄) (hname : IsName a.name) (hright : WritesValue a right) :
      WritesItem a (g₁ ++ a.name ++ g₂ ++ .point '=' :: (g₃ ++ right ++ g₄))

/-- How the assignments of a stage are written. -/
def WritesStage (formats : List LabelFormat) (expr : Runes) : Prop :=
  ∃ items, expr = [Rune.point ','].intercalate items ∧ List.Forall₂ WritesItem formats items

/-- An item whose value is written in back quotes with a carriage return among them, which
`strconv.Unquote` drops and the lexer of the proxy keeps. -/
def RawReturn (item : Runes) : Prop :=
  match splitN (.point '=') 1 item with
  | [_, template] =>
      (trimRunes template).head? = some (.point '\x60') ∧ .point '\r' ∈ trimRunes template
  | _ => False

instance : DecidablePred RawReturn := fun item => by
  unfold RawReturn
  split <;> infer_instance

/-! ## Cutting the text of a stage -/

/-- A text that the splitter reads as a part of one item. -/
def Passes (x : Runes) : Prop :=
  ∀ cur s, splitItems none cur (x ++ s) = splitItems none (cur ++ x) s

theorem Passes.append {x y : Runes} (hx : Passes x) (hy : Passes y) : Passes (x ++ y) := by
  intro cur s
  rw [append_assoc, hx, hy, append_assoc]

variable {r : Rune} {s rest v name right item : Runes} {a : LabelFormat}
  {formats : List LabelFormat}

theorem splitItems_cons_none (hcomma : r ≠ .point ',') (cur s : Runes) :
    splitItems none cur (r :: s) = splitItems (quoteBehind none r) (cur ++ [r]) s := by
  rw [splitItems, if_neg fun h => hcomma h.1]
  all_goals nofun

theorem splitItems_cons_some {q : Rune} (hslash : q = .point '"' → r ≠ .point '\\') (hr : r ≠ q)
    (cur s : Runes) : splitItems (some q) cur (r :: s) = splitItems (some q) (cur ++ [r]) s := by
  have hbehind : quoteBehind (some q) r = some q := by
    unfold quoteBehind
    split
    · exact if_neg fun h => hr h.symm
    · rfl
  rw [splitItems]
  · rw [if_neg fun h => nomatch h.2]
    exact congrArg (splitItems · (cur ++ [r]) s) hbehind
  · intro r' s' hq hescape
    exact absurd hescape (hslash (some.inj hq))

theorem passes_of_plain {x : Runes} (h : ∀ c ∈ [',', '"', '\x60'], .point c ∉ x) : Passes x := by
  intro cur s
  induction x generalizing cur with
  | nil => rw [append_nil]; rfl
  | cons r x ih =>
    simp only [mem_cons, not_mem_nil, or_false, forall_eq_or_imp, forall_eq, not_or] at h
    obtain ⟨⟨hcomma, hcx⟩, ⟨hdouble, hdx⟩, hraw, hrx⟩ := h
    have hquote : quoteBehind none r = none :=
      if_neg (not_or.mpr ⟨fun h => hdouble h.symm, fun h => hraw h.symm⟩)
    rw [cons_append, splitItems_cons_none (fun h => hcomma h.symm), hquote, ih, append_assoc]
    · rfl
    · simp [hcx, hdx, hrx]

theorem splitItems_double (h : closingQuote s = some rest) (cur : Runes) :
    ∃ body, s = body ++ rest ∧ ∀ t, splitItems (some (.point '"')) cur (body ++ t) =
      splitItems none (cur ++ body) t := by
  fun_induction closingQuote s generalizing cur with
  | case1 | case3 => cases h
  | case2 s =>
    obtain rfl := some.inj h
    exact ⟨[.point '"'], rfl, fun t => rfl⟩
  | case4 r s ih =>
    obtain ⟨body, rfl, hbody⟩ := ih h (cur ++ [.point '\\', r])
    refine ⟨.point '\\' :: r :: body, rfl, fun t => ?_⟩
    rw [cons_append, cons_append, splitItems, hbody, append_assoc]
    rfl
  | case5 r s hquote hslash hescape ih =>
    obtain ⟨body, rfl, hbody⟩ := ih h (cur ++ [r])
    refine ⟨r :: body, rfl, fun t => ?_⟩
    have hr : r ≠ .point '\\' := by
      intro hr
      cases hrest : body ++ rest with
      | nil => exact hslash hr hrest
      | cons r' s' => exact hescape r' s' hr hrest
    rw [cons_append, splitItems_cons_some (fun _ => hr) hquote, hbody, append_assoc]
    rfl

theorem passes_double (h : closingQuote s = some []) : Passes (.point '"' :: s) := by
  intro cur t
  obtain ⟨body, hs, hbody⟩ := splitItems_double h (cur ++ [.point '"'])
  obtain rfl : s = body := by simpa using hs
  rw [cons_append, splitItems_cons_none (show Rune.point '"' ≠ .point ',' by decide)]
  show splitItems (some (.point '"')) _ _ = _
  rw [hbody, append_assoc]
  rfl

theorem passes_raw (h : .point '\x60' ∉ v) : Passes (.point '\x60' :: (v ++ [.point '\x60'])) := by
  have hinside : ∀ cur t, splitItems (some (.point '\x60')) cur (v ++ [.point '\x60'] ++ t) =
      splitItems none (cur ++ (v ++ [.point '\x60'])) t := by
    intro cur t
    induction v generalizing cur with
    | nil => rfl
    | cons r v ih =>
      rw [mem_cons, not_or] at h
      have hr : r ≠ .point '\x60' := fun hr => h.1 hr.symm
      have hq : Rune.point '\x60' ≠ .point '"' := by decide
      rw [cons_append, cons_append, splitItems_cons_some (fun h => absurd h hq) hr, ih h.2,
        append_assoc]
      rfl
  intro cur t
  rw [cons_append, splitItems_cons_none (show Rune.point '\x60' ≠ .point ',' by decide)]
  show splitItems (some (.point '\x60')) _ _ = _
  rw [hinside, append_assoc]
  rfl

/-- A stage is split at the commas between its items. -/
theorem splitDropItems_intercalate {items : List Runes}
    (h : ∀ item ∈ items, Passes item ∧ item ≠ []) :
    splitDropItems ([Rune.point ','].intercalate items) = items := by
  induction items with
  | nil => rfl
  | cons item items ih =>
    obtain ⟨hpass, hne⟩ := h item mem_cons_self
    cases items with
    | nil =>
      have hlast := hpass [] []
      rw [append_nil, nil_append] at hlast
      rw [intercalate_singleton, splitDropItems, hlast, splitItems, if_neg (by simpa using hne)]
    | cons next items =>
      have hrest := ih fun item hitem => h item (mem_cons_of_mem _ hitem)
      rw [intercalate_cons_cons, splitDropItems, append_assoc, hpass]
      show splitItems none item (.point ',' :: _) = _
      rw [splitItems, if_pos ⟨rfl, rfl⟩]
      · exact congrArg _ hrest
      · nofun

/-! ## References -/

/-- What a field reference takes from the text: the braces, the name and the braces. -/
theorem fieldRef_spec (h : fieldRef s = some (name, rest)) :
    (∃ t, s = .point '\x7b' :: .point '\x7b' :: t) ∧ name ≠ [] ∧
      (∀ r ∈ name, (reWord r || r = .point '.') = true) ∧
      ∃ front, s = front ++ .point '\x7d' :: .point '\x7d' :: rest := by
  unfold fieldRef at h
  split at h
  next t =>
    split at h
    next s hs =>
      dsimp only at h
      split at h
      next rest' hrest =>
        obtain ⟨hname, hpair⟩ := ite_none_left_eq_some.mp h
        obtain ⟨rfl, rfl⟩ := Prod.mk.inj (some.inj hpair)
        refine ⟨⟨t, rfl⟩, by simpa using hname, ?_, ?_⟩
        · exact fun r hr =>
            mem_takeWhile_imp (p := fun r => reWord r || decide (r = .point '.')) hr
        have hsuffix : .point '\x7d' :: .point '\x7d' :: rest' <:+ t := by
          rw [← hrest]
          refine (dropWhile_suffix _).trans ((drop_suffix _ _).trans ?_)
          exact (suffix_cons _ _).trans (hs ▸ dropWhile_suffix _)
        obtain ⟨front, hfront⟩ := hsuffix
        exact ⟨.point '\x7b' :: .point '\x7b' :: front, by rw [← hfront]; rfl⟩
      next => cases h
    next => cases h
  next => cases h

theorem hasAction_eq_false_iff {template : Runes} :
    hasAction template = false ↔ ¬ literal "\x7b\x7b" <:+: template := by
  rw [hasAction, isSome_eq_false_iff, isNone_iff_eq_none, dropInfix?_eq_none_iff]

theorem hasAction_of_fieldRef (h : fieldRef s = some (name, rest)) : literal "\x7b\x7b" <:+: s := by
  obtain ⟨⟨t, rfl⟩, -⟩ := fieldRef_spec h
  exact ⟨[], t, rfl⟩

/-- A text without an action is left as it is. -/
theorem replaceRefs_of_absent (fuel : Nat) (h : ¬ literal "\x7b\x7b" <:+: s) :
    replaceRefs fuel s = s := by
  induction fuel generalizing s with
  | zero => rfl
  | succ fuel ih =>
    cases s with
    | nil => rfl
    | cons r s =>
      rw [replaceRefs]
      cases href : fieldRef (r :: s) with
      | some ref => exact absurd (hasAction_of_fieldRef href) h
      | none => exact congrArg (r :: ·) (ih fun hs => h (hs.trans (suffix_cons r s).isInfix))

theorem not_infix_of_notMem (h : .point '\x7b' ∉ s) : ¬ literal "\x7b\x7b" <:+: s :=
  fun hs => h (hs.subset mem_cons_self)

theorem brace_notMem_of_reSpace (h : ∀ r ∈ s, reSpace r = true) : .point '\x7b' ∉ s := by
  intro hmem
  have := h _ hmem
  simp [reSpace, Rune.is] at this

theorem replaceRefs_spaces {lead : Runes} (h : ∀ r ∈ lead, reSpace r = true) (fuel : Nat)
    (s : Runes) : replaceRefs (lead.length + fuel) (lead ++ s) = lead ++ replaceRefs fuel s := by
  induction lead with
  | nil => rw [length_nil, Nat.zero_add]; rfl
  | cons r lead ih =>
    have hnone : fieldRef (r :: (lead ++ s)) = none := by
      cases href : fieldRef (r :: (lead ++ s)) with
      | none => rfl
      | some ref =>
        obtain ⟨⟨t, ht⟩, -⟩ := fieldRef_spec href
        have hr := h r mem_cons_self
        rw [(cons.inj ht).1] at hr
        simp [reSpace, Rune.is] at hr
    rw [length_cons, Nat.succ_add, cons_append, replaceRefs, hnone]
    exact congrArg (r :: ·) (ih fun r hr => h r (mem_cons_of_mem _ hr))

/-- A value that is one reference, with spaces around it. -/
theorem pureFieldRef_spec (h : pureFieldRef v = some name) :
    ∃ s, fieldRef s = some (name, v.rtakeWhile reSpace) ∧ v = v.takeWhile reSpace ++ s ∧
      ∀ r ∈ v.rtakeWhile reSpace, reSpace r = true := by
  unfold pureFieldRef at h
  split at h
  next name' rest href =>
    obtain ⟨hrest, hname⟩ := ite_none_right_eq_some.mp h
    obtain rfl := some.inj hname
    obtain ⟨-, -, -, front, hfront⟩ := fieldRef_spec href
    have hv : v = (v.takeWhile reSpace ++ front ++ [.point '\x7d', .point '\x7d']) ++ rest := by
      conv_lhs => rw [← takeWhile_append_dropWhile (p := reSpace) (l := v), hfront]
      simp
    have hback : ∀ r ∈ rest.reverse, reSpace r = true := fun r hr =>
      all_eq_true.mp hrest r (mem_reverse.mp hr)
    have htrail : v.rtakeWhile reSpace = rest := by
      rw [hv, List.rtakeWhile, reverse_append, takeWhile_append_of_pos hback]
      simp [reSpace, Rune.is]
    exact ⟨v.dropWhile reSpace, by rw [href, htrail], by simp,
      fun r hr => all_eq_true.mp hrest r (htrail ▸ hr)⟩
  next => cases h

/-- Such a value becomes a placeholder with the same spaces around it. -/
theorem replaceRefs_pureFieldRef (h : pureFieldRef v = some name) :
    replaceRefs v.length v =
      v.takeWhile reSpace ++ .point '<' :: (name ++ .point '>' :: v.rtakeWhile reSpace) := by
  obtain ⟨s, href, hv, htrail⟩ := pureFieldRef_spec h
  have hlead : ∀ r ∈ v.takeWhile reSpace, reSpace r = true := fun r hr => mem_takeWhile_imp hr
  have hrest := not_infix_of_notMem (brace_notMem_of_reSpace htrail)
  clear h
  generalize v.takeWhile reSpace = lead at *
  generalize v.rtakeWhile reSpace = trail at *
  subst hv
  rw [length_append, replaceRefs_spaces hlead]
  cases s with
  | nil => cases href
  | cons r s =>
    rw [length_cons, replaceRefs, href]
    dsimp only
    rw [replaceRefs_of_absent _ hrest]

/-! ## The pipe of an assignment -/

/-- The pipe that an assignment becomes: a rename is written as a constant. -/
def pushedPipe (a : LabelFormat) : PipeFormat :=
  ⟨if a.rename then a.value else replaceRefs a.value.length a.value, a.name⟩

theorem notMem_gap {c : Char} (hc : isSpace c = false) (h : IsGap s) : .point c ∉ s := by
  intro hmem
  have := h _ hmem
  rw [Rune.is, hc] at this
  cases this

/-- A quoted value is read back, up to the decoding of stray bytes. -/
theorem unquoteAny_quote (s : Runes) : unquoteAny (quote u s) = some (decode (encode s)) := by
  rw [← unquote_quote u s]
  rfl

theorem unquoteAny_cons_eq_none (h : ∀ c ∈ ['"', '\x60', '\x27'], r ≠ .point c) (s : Runes) :
    unquoteAny (r :: s) = none := by
  simp only [mem_cons, not_mem_nil, or_false, forall_eq_or_imp, forall_eq] at h
  rw [unquoteAny]
  · exact unquote.eq_2 _ fun _ hs => h.1 (cons.inj hs).1
  · exact fun _ hs => h.2.2 (cons.inj hs).1
  · exact fun _ hs => h.2.1 (cons.inj hs).1

theorem trimRunes_of_ends (hr : r.is isSpace = false) (s : Runes) {a b : Runes} (ha : IsGap a)
    (hb : IsGap b) : trimRunes (a ++ (r :: (s ++ [r])) ++ b) = r :: (s ++ [r]) := by
  refine trimRunes_between ha hb ?_ ?_
  · intro x hx
    obtain rfl := some.inj hx
    exact hr
  · intro x hx
    rw [← cons_append, getLast?_concat] at hx
    obtain rfl := some.inj hx
    exact hr

/-- Trimming leaves the right side of an assignment as it is written. -/
theorem WritesValue.trim (h : WritesValue a right) {g₃ g₄ : Runes} (hg₃ : IsGap g₃)
    (hg₄ : IsGap g₄) : trimRunes (g₃ ++ right ++ g₄) = right := by
  cases h with
  | rename hrename hname => exact trimRunes_word hg₃ hg₄ hname.noSpace
  | double s hrename hs =>
    obtain ⟨body, rfl, -⟩ := quotedBody_of_closingQuote (scanQuotedString_all hs).1
    exact trimRunes_of_ends rfl body hg₃ hg₄
  | raw => exact trimRunes_of_ends rfl a.value hg₃ hg₄

/-- What the right side of an assignment is read as; a back-quoted one loses carriage returns. -/
theorem WritesValue.read (h : WritesValue a right)
    (hreturn : ¬ (right.head? = some (.point '\x60') ∧ .point '\r' ∈ right)) :
    (unquoteAny right).getD right = a.value := by
  cases h with
  | rename hrename hname =>
    have hplain := hname.plain
    have hne := hname.ne_nil
    cases hvalue : a.value with
    | nil => exact absurd hvalue hne
    | cons r value =>
      rw [hvalue] at hplain
      rw [unquoteAny_cons_eq_none]
      · rfl
      · rintro c hc rfl
        exact hplain c (by simp only [mem_cons, not_mem_nil, or_false] at hc ⊢; tauto)
          mem_cons_self
  | double s hrename hs =>
    have hread : unquoteAny (.point '"' :: s) = some a.value := (scanQuotedString_all hs).2
    rw [hread]
    rfl
  | raw hrename hquote hdecoded =>
    have hcr : .point '\r' ∉ a.value := fun hcr => hreturn ⟨rfl, by simp [hcr]⟩
    have hkeep : a.value.filter (fun r => r ≠ .point '\r') = a.value :=
      filter_eq_self.mpr fun r hr => by simpa using fun h : r = .point '\r' => hcr (h ▸ hr)
    have hread : unquoteRaw (a.value ++ [.point '\x60']) = some a.value := by
      rw [unquoteRaw, getLast?_concat, dropLast_concat, if_pos ⟨rfl, hquote⟩, hkeep]
    have hany : unquoteAny (.point '\x60' :: (a.value ++ [.point '\x60'])) = some a.value := hread
    rw [hany]
    rfl

/-- The value of an assignment becomes the template of its pipe. -/
theorem replaceRefs_value (h : WritesValue a right) :
    replaceRefs a.value.length a.value = (pushedPipe a).template := by
  rw [pushedPipe]
  split
  next hrename =>
    cases h with
    | rename hrename hname =>
      exact replaceRefs_of_absent _ (not_infix_of_notMem (hname.plain _ (by simp)))
    | double s hfalse | raw hfalse => rw [hfalse] at hrename; cases hrename
  next => rfl

/-- An item is translated to the pipe of its assignment. -/
theorem assignmentPipe_of_writes (h : WritesItem a item) (hreturn : ¬ RawReturn item)
    (hdecoded : decode (encode (pushedPipe a).template) = (pushedPipe a).template) :
    assignmentPipe u item = some (pushedPipe a) := by
  cases h with
  | mk g₁ g₂ g₃ g₄ right hg₁ hg₂ hg₃ hg₄ hname hright =>
    have heq : .point '=' ∉ g₁ ++ a.name ++ g₂ := by
      rw [mem_append, mem_append, not_or, not_or]
      exact ⟨⟨notMem_gap rfl hg₁, hname.plain _ (by simp)⟩, notMem_gap rfl hg₂⟩
    have htrim := hright.trim hg₃ hg₄
    have hright' : trimRunes right = right := by
      have hends := hright.trim isGap_nil isGap_nil
      rwa [nil_append, append_nil] at hends
    rw [RawReturn, splitN_succ heq, splitN] at hreturn
    dsimp only at hreturn
    rw [htrim] at hreturn
    have hvalue := hright.read hreturn
    rw [assignmentPipe, splitN_succ heq, splitN]
    dsimp only
    rw [htrim, trimRunes_word hg₁ hg₂ hname.noSpace, convertGoTemplate, hright', hvalue,
      unquoteAny_quote, replaceRefs_value hright, hdecoded]
    rfl

theorem passes_gap (h : IsGap s) : Passes s := by
  refine passes_of_plain fun c hc => ?_
  simp only [mem_cons, not_mem_nil, or_false] at hc
  obtain rfl | rfl | rfl := hc
  all_goals exact notMem_gap rfl h

theorem passes_name (h : IsName name) : Passes name :=
  passes_of_plain fun c hc => h.plain c <| by
    simp only [mem_cons, not_mem_nil, or_false] at hc ⊢
    tauto

theorem WritesValue.passes (h : WritesValue a right) : Passes right := by
  cases h with
  | rename hrename hname => exact passes_name hname
  | double s hrename hs => exact passes_double (scanQuotedString_all hs).1
  | raw hrename hquote => exact passes_raw hquote

/-- An item has no comma outside its quotes. -/
theorem WritesItem.passes (h : WritesItem a item) : Passes item := by
  cases h with
  | mk g₁ g₂ g₃ g₄ right hg₁ hg₂ hg₃ hg₄ hname hright =>
    have heq : Passes [Rune.point '='] := passes_of_plain (by simp)
    have hleft := ((passes_gap hg₁).append (passes_name hname)).append (passes_gap hg₂)
    have hrest := ((passes_gap hg₃).append hright.passes).append (passes_gap hg₄)
    exact hleft.append (heq.append hrest)

theorem WritesItem.ne_nil (h : WritesItem a item) : item ≠ [] := by
  cases h with
  | mk => simp

theorem passes_of_forall₂ {items : List Runes} (h : List.Forall₂ WritesItem formats items) :
    ∀ item ∈ items, Passes item ∧ item ≠ [] := by
  induction h with
  | nil => nofun
  | cons hitem _ ih => exact forall_mem_cons.mpr ⟨⟨hitem.passes, hitem.ne_nil⟩, ih⟩

/-- A stage is translated assignment by assignment. -/
theorem labelFormatPipes_of_writes {expr : Runes} (h : WritesStage formats expr)
    (hreturn : ∀ item ∈ splitDropItems expr, ¬ RawReturn item)
    (hdecoded : ∀ a ∈ formats, decode (encode (pushedPipe a).template) = (pushedPipe a).template) :
    labelFormatPipes u expr = formats.map pushedPipe := by
  obtain ⟨items, rfl, hitems⟩ := h
  have hsplit := splitDropItems_intercalate (passes_of_forall₂ hitems)
  rw [hsplit] at hreturn
  rw [labelFormatPipes, hsplit]
  clear hsplit
  induction hitems with
  | nil => rfl
  | cons hitem _ ih =>
    obtain ⟨hhead, htail⟩ := forall_mem_cons.mp hreturn
    rw [filterMap_cons, assignmentPipe_of_writes u hitem hhead (hdecoded _ mem_cons_self), map_cons]
    exact congrArg _ (ih (fun a ha => hdecoded a (mem_cons_of_mem _ ha)) htail)

end LokiVlProxy.Translator
