/-
  Translator/LabelFilterStage.lean --- label filters joined by `and` and `or`.

  Source: translateLabelFilter, translateLogicalLabelFilterChain, splitLogicalStage and
  stripOuterParens in internal/translator/translator.go.

  A stage is cut at the words ` or ` and ` and ` outside quotes and parentheses, its parts are
  translated one by one, and the translations are joined by the same words.
-/
import LokiVlProxy.Translator.Matcher

namespace LokiVlProxy.Translator

open Foundation Logsql List Option
open Logql.Syntax

/-! ## Cutting a stage -/

/-- The quote that a rune opens. -/
def openQuote (r : Rune) : Option Rune :=
  if r = .point '"' ∨ r = .point '\x60' then some r else none

/-- The open parentheses behind a rune. -/
def depthBehind (depth : Nat) (r : Rune) : Nat :=
  if r = .point '(' then depth + 1 else if r = .point ')' then depth - 1 else depth

/-- A part and the word behind it, before what the rest gives. -/
def flushPart (cur op : Runes) (rest : Option (List Runes × List Runes)) :
    Option (List Runes × List Runes) :=
  let part := trimRunes cur
  if part.isEmpty then none else rest.map fun (parts, ops) => (part :: parts, op :: ops)

/-- The loop of `splitLogicalStage`: the open quote, the open parentheses and the part so far. -/
def splitParts : Option Rune → Nat → Runes → Runes → Option (List Runes × List Runes)
  | _, _, cur, [] =>
      let last := trimRunes cur
      if last.isEmpty then none else some ([last], [])
  | some q, depth, cur, .point '\\' :: r :: s =>
      splitParts (some q) depth (cur ++ [.point '\\', r]) s
  | some q, depth, cur, r :: s =>
      splitParts (if r = q then none else some q) depth (cur ++ [r]) s
  | none, 0, cur, .point ' ' :: .point 'o' :: .point 'r' :: .point ' ' :: s =>
      flushPart cur (literal "or") (splitParts none 0 [] s)
  | none, 0, cur, .point ' ' :: .point 'a' :: .point 'n' :: .point 'd' :: .point ' ' :: s =>
      flushPart cur (literal "and") (splitParts none 0 [] s)
  | none, depth, cur, r :: s => splitParts (openQuote r) (depthBehind depth r) (cur ++ [r]) s

/-- `splitLogicalStage`: the parts of a stage and the words between them. -/
def splitLogicalStage (stage : Runes) : Option (List Runes × List Runes) :=
  match splitParts none 0 [] stage with
  | some (parts, ops) => if parts.length > 1 then some (parts, ops) else none
  | none => none

/-- The loop of `stripOuterParens`: no parenthesis closes the first one before the end. -/
def outerClosed : Option Rune → Nat → Runes → Bool
  | _, depth, [] => depth = 0
  | some q, depth, .point '\\' :: _ :: s => outerClosed (some q) depth s
  | some q, depth, r :: s => outerClosed (if r = q then none else some q) depth s
  | none, depth, r :: s =>
      let behind := depthBehind depth r
      if r = .point ')' ∧ behind = 0 ∧ s ≠ [] then false else outerClosed (openQuote r) behind s

def stripOuterParens (stage : Runes) : Option Runes :=
  let stage := trimRunes stage
  match stage with
  | .point '(' :: s =>
      if s.getLast? = some (.point ')') ∧ outerClosed none 0 stage = true then
        some (trimRunes s.dropLast)
      else none
  | _ => none

/-! ## Translating the parts -/

/-- The items and the words between them. -/
def joinItems : List Runes → List Runes → Runes
  | [], _ => []
  | [item], _ => item
  | item :: items, op :: ops => item ++ .point ' ' :: (op ++ .point ' ' :: joinItems items ops)
  | item :: items, [] => item ++ joinItems items []

section Translate

variable (single malformed : Runes → Option Runes)

/-- `translateLabelFilter`; `single` and `malformed` are `translateSingleLabelFilterM` and
`translateMalformedDottedStage`.  Each round takes a parenthesis or a word. -/
def translateLabelFilter : Nat → Runes → Runes
  | 0, stage => literal "| " ++ stage
  | fuel + 1, stage =>
      match stripOuterParens stage with
      | some inner =>
          let translated := translateLabelFilter fuel inner
          if (stripOuterParens translated).isSome then translated
          else .point '(' :: (translated ++ [.point ')'])
      | none =>
          -- `translateLogicalLabelFilterChain`
          let chained := do
            let (parts, ops) ← splitLogicalStage stage
            let items ← parts.mapM fun part =>
              if (stripOuterParens part).isSome then some (translateLabelFilter fuel part)
              else single part
            return .point '(' :: (joinItems items ops ++ [.point ')'])
          match chained with
          | some chained => chained
          | none =>
              match single stage with
              | some translated => translated
              | none => (malformed stage).getD (literal "| " ++ stage)

end Translate

/-! ## Expressions and what they mean -/

/-- A label filter: comparisons, parentheses, and an operand joined to what follows it. -/
inductive FilterExpr where
  | comparison (text : Runes)
  | group (inner : FilterExpr)
  | join (left : FilterExpr) (or : Bool) (right : FilterExpr)

/-- Rows that pass, as the alternatives between the words `or`; the parts of one hold together. -/
abbrev Alternatives : Type := List (List (Row → Prop))

namespace Alternatives

def Holds (alts : Alternatives) (row : Row) : Prop := ∃ run ∈ alts, ∀ p ∈ run, p row

/-- Alternatives joined by `and`: the last and the first hold together. -/
def both : Alternatives → Alternatives → Alternatives
  | [], more => more
  | [run], next :: more => (run ++ next) :: more
  | [run], [] => [run]
  | run :: alts, more => run :: both alts more

end Alternatives

namespace FilterExpr

variable (holds : Runes → Row → Prop)

/-- `and` binds tighter than `or`. -/
def alternatives : FilterExpr → Alternatives
  | comparison text => [[holds text]]
  | group inner => [[Alternatives.Holds (alternatives inner)]]
  | join left true right => alternatives left ++ alternatives right
  | join left false right => Alternatives.both (alternatives left) (alternatives right)

def Holds (e : FilterExpr) (row : Row) : Prop := (e.alternatives holds).Holds row

/-- More than the rounds that an expression takes. -/
def size : FilterExpr → Nat
  | comparison _ => 1
  | group inner => inner.size + 1
  | join left _ right => left.size + right.size

def comparisons : FilterExpr → List Runes
  | comparison text => [text]
  | group inner => inner.comparisons
  | join left _ right => left.comparisons ++ right.comparisons

end FilterExpr

/-- What a LogsQL filter means when `and` binds tighter than `or`, given what single filters
mean. -/
inductive Means (atom : Runes → (Row → Prop) → Prop) : Runes → Alternatives → Prop where
  | single {s : Runes} {p : Row → Prop} (h : atom s p) : Means atom s [[p]]
  | group {s : Runes} {alts : Alternatives} (h : Means atom s alts) :
      Means atom (.point '(' :: (s ++ [.point ')'])) [[alts.Holds]]
  | or {s t : Runes} {p : Row → Prop} {alts : Alternatives} (hs : Means atom s [[p]])
      (ht : Means atom t alts) :
      Means atom (s ++ .point ' ' :: (literal "or" ++ .point ' ' :: t)) ([p] :: alts)
  | and {s t : Runes} {p : Row → Prop} {run : List (Row → Prop)} {alts : Alternatives}
      (hs : Means atom s [[p]]) (ht : Means atom t (run :: alts)) :
      Means atom (s ++ .point ' ' :: (literal "and" ++ .point ' ' :: t)) ((p :: run) :: alts)

/-! ## The text of an expression -/

/-- The right side of a comparison: a literal, a number or a call of `ip`. -/
inductive ComparisonValue : Runes → Prop where
  | quoted {q : Rune} {body : Runes} (hq : openQuote q = some q) (hbody : quotedBody q body = true) :
      ComparisonValue (q :: (body ++ [q]))
  | number {s : Runes} (hne : s ≠ []) (hnumber : ∀ r ∈ s, numberRune r = true)
      (hclose : .point ')' ∉ s) (hhead : ∀ r ∈ s.head?, r ≠ .point 'o' ∧ r ≠ .point 'a') :
      ComparisonValue s
  | ip {body g₁ g₂ g₃ : Runes} (hg₁ : IsGap g₁) (hg₂ : IsGap g₂) (hg₃ : IsGap g₃)
      (hbody : quotedBody (.point '"') body = true) :
      ComparisonValue (.point 'i' :: .point 'p' :: (g₁ ++ (.point '(' ::
        (g₂ ++ (.point '"' :: (body ++ [.point '"'])) ++ g₃) ++ [.point ')'])))

/-- A comparison without white space around it; the words that join are no labels. -/
inductive IsComparison (u : UnicodeTables) : Runes → Prop where
  | mk {name g₁ g₂ right : Runes} {op : MatcherOp} (hname : IsLabel u name)
      (hor : name ≠ literal "or") (hand : name ≠ literal "and") (hop : op ∈ logqlSingleFilterOps)
      (hg₁ : IsGap g₁) (hg₂ : IsGap g₂) (hright : ComparisonValue right) :
      IsComparison u (name ++ (g₁ ++ (op.logql ++ (g₂ ++ right))))

def connective (or : Bool) : Runes := if or then literal "or" else literal "and"

/-- How an expression is written, with no comma, and a space on both sides of every word.  An
operand is a comparison or in parentheses. -/
inductive WritesFilter (u : UnicodeTables) : Bool → FilterExpr → Runes → Prop where
  | comparison {s : Runes} (h : IsComparison u s) : WritesFilter u true (.comparison s) s
  | group {e : FilterExpr} {s g₁ g₂ : Runes} (hg₁ : IsGap g₁) (hg₂ : IsGap g₂)
      (hs : WritesFilter u false e s) :
      WritesFilter u true (.group e) (.point '(' :: (g₁ ++ s ++ g₂ ++ [.point ')']))
  | operand {e : FilterExpr} {s : Runes} (hs : WritesFilter u true e s) : WritesFilter u false e s
  | join {left right : FilterExpr} {s t g₁ g₂ : Runes} (or : Bool) (hg₁ : IsGap g₁) (hg₂ : IsGap g₂)
      (hs : WritesFilter u true left s) (ht : WritesFilter u false right t) :
      WritesFilter u false (.join left or right)
        (s ++ (g₁ ++ .point ' ' :: (connective or ++ .point ' ' :: (g₂ ++ t))))

/-! ## Texts that the scanners pass over -/

/-- A text that starts with a word that joins. -/
def StartsWord (s : Runes) : Prop := literal "or " <+: s ∨ literal "and " <+: s

/-- A text whose quotes are closed and whose parentheses match. -/
inductive Balanced : Runes → Prop where
  | nil : Balanced []
  | plain {r : Rune} {s : Runes} (hquote : openQuote r = none)
      (hparen : ∀ depth, depthBehind depth r = depth) (hs : Balanced s) : Balanced (r :: s)
  | quoted {q : Rune} {body s : Runes} (hq : openQuote q = some q)
      (hbody : quotedBody q body = true) (hs : Balanced s) : Balanced (q :: (body ++ q :: s))
  | parens {s t : Runes} (hs : Balanced s) (ht : Balanced t) :
      Balanced (.point '(' :: (s ++ .point ')' :: t))

variable {s t g : Runes}

theorem Balanced.append (hs : Balanced s) (ht : Balanced t) : Balanced (s ++ t) := by
  induction hs with
  | nil => exact ht
  | plain hquote hparen _ ih => exact .plain hquote hparen ih
  | quoted hq hbody _ ih => simpa using Balanced.quoted hq hbody ih
  | parens hs _ _ ih => simpa using Balanced.parens hs ih

theorem rune_plain {r : Rune} (h : ∀ c ∈ ['"', '\x60', '(', ')'], r ≠ .point c) :
    openQuote r = none ∧ ∀ depth, depthBehind depth r = depth := by
  simp only [mem_cons, not_mem_nil, or_false, forall_eq_or_imp, forall_eq] at h
  obtain ⟨hdouble, hraw, hopen, hclose⟩ := h
  refine ⟨if_neg (not_or.mpr ⟨hdouble, hraw⟩), fun depth => ?_⟩
  rw [depthBehind, if_neg hopen, if_neg hclose]

theorem balanced_of_plain (h : ∀ c ∈ ['"', '\x60', '(', ')'], .point c ∉ s) : Balanced s := by
  induction s with
  | nil => exact .nil
  | cons r s ih =>
    obtain ⟨hquote, hdepth⟩ := rune_plain fun c hc hr => h c hc (hr ▸ mem_cons_self)
    exact .plain hquote hdepth (ih fun c hc hs => h c hc (mem_cons_of_mem _ hs))

theorem splitParts_step {depth : Nat} {r : Rune} (h : depth = 0 → r = .point ' ' → ¬ StartsWord s)
    (cur : Runes) :
    splitParts none depth cur (r :: s) =
      splitParts (openQuote r) (depthBehind depth r) (cur ++ [r]) s := by
  rw [splitParts]
  · rintro s' hdepth hr rfl
    exact h hdepth hr (.inl ⟨s', rfl⟩)
  · rintro s' hdepth hr rfl
    exact h hdepth hr (.inr ⟨s', rfl⟩)

theorem splitParts_nested (depth : Nat) (r : Rune) (cur s : Runes) :
    splitParts none (depth + 1) cur (r :: s) =
      splitParts (openQuote r) (depthBehind (depth + 1) r) (cur ++ [r]) s :=
  splitParts_step (fun h => absurd h (Nat.succ_ne_zero depth)) cur

theorem openQuote_eq_some {q : Rune} (hq : openQuote q = some q) :
    q ≠ .point ' ' ∧ (∀ depth, depthBehind depth q = depth) ∧ q.is isSpace = false ∧
      q ≠ .point '(' ∧ q ≠ .point 'o' ∧ q ≠ .point 'a' := by
  unfold openQuote at hq
  split at hq
  case isTrue h => obtain rfl | rfl := h <;> exact ⟨by decide, fun _ => rfl, rfl, by decide⟩
  case isFalse => cases hq

/-- The splitter passes over a quoted value. -/
theorem splitParts_quoted {q : Rune} (hq : openQuote q = some q) {body : Runes}
    (hbody : quotedBody q body = true) (depth : Nat) (cur t : Runes) :
    splitParts none depth cur (q :: (body ++ q :: t)) =
      splitParts none depth (cur ++ q :: (body ++ [q])) t := by
  obtain ⟨hspace, hdepth, -⟩ := openQuote_eq_some hq
  have hinside : ∀ cur, splitParts (some q) depth cur (body ++ q :: t) =
      splitParts none depth (cur ++ (body ++ [q])) t := by
    have hslash : q ≠ .point '\\' := by rintro rfl; cases hq
    refine quotedBody_induction hbody (fun cur => ?_) (fun r s ih cur => ?_)
      fun r s hne hnot ih cur => ?_
    · rw [nil_append, splitParts, if_pos rfl, nil_append]
      exact fun r s h => absurd h hslash
    · rw [cons_append, cons_append, splitParts, ih]
      simp
    · rw [cons_append, splitParts, if_neg hne, ih]
      · simp
      · exact fun _ _ hr => absurd hr hnot
  rw [splitParts_step fun _ hr => absurd hr hspace, hq, hdepth, hinside]
  simp

/-- Within parentheses the splitter passes over a balanced text. -/
theorem Balanced.splitParts_append (h : Balanced s) (depth : Nat) (cur t : Runes) :
    splitParts none (depth + 1) cur (s ++ t) = splitParts none (depth + 1) (cur ++ s) t := by
  induction h generalizing depth cur t with
  | nil => rw [append_nil]; rfl
  | plain hquote hparen _ ih =>
    rw [cons_append, splitParts_nested, hquote, hparen, ih]
    simp
  | quoted hq hbody _ ih =>
    rw [cons_append, append_assoc, cons_append, splitParts_quoted hq hbody, ih]
    simp
  | parens _ _ ihs iht =>
    rw [cons_append, append_assoc, splitParts_nested, cons_append]
    show splitParts none (depth + 1 + 1) _ _ = _
    rw [ihs, splitParts_nested]
    show splitParts none (depth + 1) _ _ = _
    rw [iht]
    simp

theorem outerClosed_quoted {q : Rune} (hq : openQuote q = some q) {body : Runes}
    (hbody : quotedBody q body = true) (depth : Nat) (t : Runes) :
    outerClosed none depth (q :: (body ++ q :: t)) = outerClosed none depth t := by
  obtain ⟨-, hdepth, -⟩ := openQuote_eq_some hq
  have hslash : q ≠ .point '\\' := by rintro rfl; cases hq
  have hclose : q ≠ .point ')' := by rintro rfl; cases hq
  have hinside : outerClosed (some q) depth (body ++ q :: t) = outerClosed none depth t := by
    refine quotedBody_induction hbody ?_ (fun r s ih => ?_) fun r s hne hnot ih => ?_
    · rw [nil_append, outerClosed, if_pos rfl]
      exact fun r s h => absurd h hslash
    · rw [cons_append, cons_append, outerClosed, ih]
    · rw [cons_append, outerClosed, if_neg hne, ih]
      exact fun _ _ hr => absurd hr hnot
  rw [outerClosed, if_neg fun h => hclose h.1, hq, hdepth, hinside]

/-- Nor does a balanced text close the outer parenthesis. -/
theorem Balanced.outerClosed_append (h : Balanced s) (depth : Nat) (t : Runes) :
    outerClosed none (depth + 1) (s ++ t) = outerClosed none (depth + 1) t := by
  induction h generalizing depth t with
  | nil => rfl
  | plain hquote hparen _ ih =>
    rw [cons_append, outerClosed, hquote, hparen, if_neg fun h => nomatch h.2.1]
    exact ih depth t
  | quoted hq hbody _ ih =>
    rw [cons_append, append_assoc, cons_append, outerClosed_quoted hq hbody, ih]
  | parens _ _ ihs iht =>
    have hopen : Rune.point '(' ≠ .point ')' := by decide
    rw [cons_append, append_assoc, outerClosed, if_neg fun h => hopen h.1, cons_append]
    show outerClosed none (depth + 1 + 1) _ = _
    rw [ihs, outerClosed, if_neg fun h => nomatch h.2.1]
    exact iht depth _

/-! ## The parts of a text -/

theorem space_ne {r : Rune} (h : r.is isSpace = true) {c : Char} (hc : isSpace c = false) :
    r ≠ .point c := by
  rintro rfl
  exact absurd h (by simp [Rune.is, hc])

theorem notSpace_signs : ∀ c ∈ ['"', '\x60', '(', ')'], isSpace c = false := by
  simp only [mem_cons, not_mem_nil, or_false, forall_eq_or_imp, forall_eq]
  exact ⟨rfl, rfl, rfl, rfl⟩

theorem balanced_of_isGap (hg : IsGap g) : Balanced g := by
  exact balanced_of_plain fun c hc => notMem_gap (notSpace_signs c hc) hg

theorem not_startsWord_of_head (h : ∀ r ∈ s.head?, r ≠ .point 'o' ∧ r ≠ .point 'a') :
    ¬ StartsWord s := by
  rintro (⟨t, rfl⟩ | ⟨t, rfl⟩)
  · exact (h _ rfl).1 rfl
  · exact (h _ rfl).2 rfl

theorem not_startsWord_gap (hg : IsGap g) (ht : ¬ StartsWord t) : ¬ StartsWord (g ++ t) := by
  cases g with
  | nil => exact ht
  | cons r g =>
    refine not_startsWord_of_head fun x hx => ?_
    obtain rfl := some.inj hx
    have hr := hg r mem_cons_self
    exact ⟨space_ne hr rfl, space_ne hr rfl⟩

theorem splitParts_gap (hg : IsGap g) (ht : ¬ StartsWord t) (depth : Nat) (cur : Runes) :
    splitParts none depth cur (g ++ t) = splitParts none depth (cur ++ g) t := by
  induction g generalizing cur with
  | nil => rw [append_nil]; rfl
  | cons r g ih =>
    have hr := hg r mem_cons_self
    have hg : IsGap g := fun x hx => hg x (mem_cons_of_mem _ hx)
    obtain ⟨hquote, hdepth⟩ := rune_plain fun c hc => space_ne hr (notSpace_signs c hc)
    rw [cons_append, splitParts_step fun _ _ => not_startsWord_gap hg ht, hquote, hdepth, ih hg,
      append_assoc]
    rfl

/-- A text without blanks, quotes and parentheses. -/
def Plain (s : Runes) : Prop := ∀ c ∈ [' ', '"', '\x60', '(', ')'], .point c ∉ s

theorem plain_iff : Plain s ↔ .point ' ' ∉ s ∧ .point '"' ∉ s ∧ .point '\x60' ∉ s ∧
    .point '(' ∉ s ∧ .point ')' ∉ s := by
  simp only [Plain, mem_cons, not_mem_nil, or_false, forall_eq_or_imp, forall_eq]

theorem Plain.balanced (h : Plain s) : Balanced s :=
  balanced_of_plain fun c hc => h c (mem_cons_of_mem _ hc)

theorem splitParts_plain (h : Plain s) (depth : Nat) (cur t : Runes) :
    splitParts none depth cur (s ++ t) = splitParts none depth (cur ++ s) t := by
  induction s generalizing cur with
  | nil => rw [append_nil]; rfl
  | cons r s ih =>
    have hne : ∀ c ∈ [' ', '"', '\x60', '(', ')'], r ≠ .point c :=
      fun c hc hr => h c hc (hr ▸ mem_cons_self)
    obtain ⟨hquote, hdepth⟩ := rune_plain fun c hc => hne c (mem_cons_of_mem _ hc)
    rw [cons_append, splitParts_step fun _ hr => absurd hr (hne _ mem_cons_self), hquote, hdepth,
      ih fun c hc hs => h c hc (mem_cons_of_mem _ hs), append_assoc]
    rfl

/-- The splitter passes over a group. -/
theorem splitParts_parens (hs : Balanced s) (depth : Nat) (cur t : Runes) :
    splitParts none depth cur (.point '(' :: (s ++ .point ')' :: t)) =
      splitParts none depth (cur ++ .point '(' :: (s ++ [.point ')'])) t := by
  have hspace : Rune.point '(' ≠ .point ' ' := by decide
  rw [splitParts_step fun _ hr => absurd hr hspace]
  show splitParts none (depth + 1) _ _ = _
  rw [hs.splitParts_append, splitParts_nested]
  show splitParts none depth _ _ = _
  simp

/-- A text with no white space around it and no word in front. -/
structure CoreText (s : Runes) : Prop where
  head : ∃ r, s.head? = some r ∧ r.is isSpace = false
  last : ∃ r, s.getLast? = some r ∧ r.is isSpace = false
  balanced : Balanced s
  noWord : ∀ t, ¬ StartsWord (s ++ t)

/-- A text that is one operand: it is not cut, and what encloses it does not go on behind it. -/
structure OperandText (s : Runes) : Prop extends CoreText s where
  passed : ∀ cur t, splitParts none 0 cur (s ++ t) = splitParts none 0 (cur ++ s) t
  leading : s.head? = some (.point '(') → ∀ t, t ≠ [] → outerClosed none 0 (s ++ t) = false

/-- What the scanners need of the right side of a comparison. -/
structure ValueText (s : Runes) : Prop where
  ne_nil : s ≠ []
  last : ∃ r, s.getLast? = some r ∧ r.is isSpace = false
  balanced : Balanced s
  noWord : ∀ t, ¬ StartsWord (s ++ t)
  passed : ∀ cur t, splitParts none 0 cur (s ++ t) = splitParts none 0 (cur ++ s) t

theorem ComparisonValue.text (h : ComparisonValue s) : ValueText s := by
  cases h with
  | @quoted q body hq hbody =>
    obtain ⟨-, -, hspace, -, ho, ha⟩ := openQuote_eq_some hq
    refine ⟨cons_ne_nil _ _, ⟨q, ?_, hspace⟩, .quoted hq hbody .nil, fun t => ?_, fun cur t => ?_⟩
    · rw [← cons_append, getLast?_concat]
    · refine not_startsWord_of_head fun r hr => ?_
      obtain rfl := some.inj hr
      exact ⟨ho, ha⟩
    · rw [cons_append, append_assoc, singleton_append, splitParts_quoted hq hbody]
  | number hne hnumber hclose hhead =>
    have hno : ∀ c, numberRune (.point c) = false → .point c ∉ s := fun c hc hmem =>
      absurd (hnumber _ hmem) (by simp [hc])
    obtain ⟨last, hlast⟩ := getLast?_isSome.mpr hne |> Option.isSome_iff_exists.mp
    have hplain : Plain s :=
      plain_iff.mpr ⟨hno _ rfl, hno _ rfl, hno _ rfl, hno _ rfl, hclose⟩
    refine ⟨hne, ⟨last, hlast, ?_⟩, hplain.balanced, fun t => ?_, splitParts_plain hplain 0⟩
    · have hr := hnumber _ (mem_of_getLast? hlast)
      cases last <;> simp_all [numberRune, Rune.is]
    · refine not_startsWord_of_head fun r hr => hhead r ?_
      rwa [head?_append_of_ne_nil _ hne] at hr
  | @ip body g₁ g₂ g₃ hg₁ hg₂ hg₃ hbody =>
    have hq : openQuote (.point '"') = some (.point '"') := rfl
    have hinner : Balanced (g₂ ++ (.point '"' :: (body ++ [.point '"'])) ++ g₃) :=
      ((balanced_of_isGap hg₂).append (.quoted hq hbody .nil)).append (balanced_of_isGap hg₃)
    refine ⟨cons_ne_nil _ _, ⟨.point ')', ?_, rfl⟩, ?_, fun t => ?_, fun cur t => ?_⟩
    · simp [getLast?_cons, getLast?_append]
    · have hname : Balanced [.point 'i', .point 'p'] := balanced_of_plain (by simp)
      exact hname.append ((balanced_of_isGap hg₁).append (.parens hinner .nil))
    · exact not_startsWord_of_head (by rintro r ⟨⟩; decide)
    · have hword : ¬ StartsWord (.point '(' ::
          ((g₂ ++ (.point '"' :: (body ++ [.point '"'])) ++ g₃) ++ .point ')' :: t)) :=
        not_startsWord_of_head (by rintro r ⟨⟩; decide)
      have hname := splitParts_plain (s := [.point 'i', .point 'p']) (by simp [Plain]) 0 cur
      have hsplit := (splitParts_gap hg₁ hword 0 (cur ++ [.point 'i', .point 'p'])).trans
        (splitParts_parens hinner 0 _ t)
      simpa using (hname _).trans hsplit

section Comparison

variable {u : UnicodeTables}

/-- A rune that can stand in a label. -/
def labelRune (r : Rune) : Bool := !r.is isSpace && !operatorRune r

variable {name : Runes}

theorem IsLabel.labelRune (h : IsLabel u name) : ∀ r ∈ name, labelRune r = true :=
  fun r hr => by simp [Translator.labelRune, h.noSpace r hr, h.not_operator r hr]

theorem not_startsWord_label {rest : Runes} (hname : IsLabel u name) (hor : name ≠ literal "or")
    (hand : name ≠ literal "and") (hrest : ∀ r ∈ rest.head?, labelRune r = false) :
    ¬ StartsWord (name ++ rest) := by
  have htake : (name ++ rest).takeWhile labelRune = name := by
    rw [takeWhile_append_of_pos hname.labelRune]
    cases rest with
    | nil => simp
    | cons r rest => simp [hrest r rfl]
  rintro (⟨t, ht⟩ | ⟨t, ht⟩)
  · exact hor (by rw [← htake, ← ht]; rfl)
  · exact hand (by rw [← htake, ← ht]; rfl)

theorem operator_plain {op : MatcherOp} (hop : op ∈ logqlSingleFilterOps) {c : Char}
    (hc : operatorRune (.point c) = false) : .point c ∉ op.logql := fun h =>
  absurd (operatorTable_single.operator op hop _ h) (by simp [hc])

theorem IsLabel.notMem (h : IsLabel u name) {c : Char} (hc : identRune u (.point c) = false) :
    .point c ∉ name := fun hmem =>
  absurd (h.ident _ hmem) (by simp [hc])

/-- A comparison is one part for the splitter and starts with no parenthesis. -/
theorem IsComparison.text {s : Runes} (h : IsComparison u s) :
    OperandText s ∧ s.head? ≠ some (.point '(') := by
  obtain ⟨hname, hor, hand, hop, hg₁, hg₂, hright⟩ := h
  rename_i name g₁ g₂ right op
  have hvalue := hright.text
  obtain ⟨first, hfirst⟩ := Option.isSome_iff_exists.mp (isSome_head?.mpr hname.ne_nil)
  have hhead : ∀ t, (name ++ t).head? = some first := fun t => by
    rw [head?_append_of_ne_nil _ hname.ne_nil, hfirst]
  have hopen : first ≠ .point '(' := by
    rintro rfl
    exact hname.notMem rfl (mem_of_head? hfirst)
  -- Behind the label stands white space or the operator.
  have hbehind : ∀ t r, r ∈ (g₁ ++ (op.logql ++ t)).head? → labelRune r = false := by
    intro t r hr
    cases g₁ with
    | nil =>
      rw [nil_append,
        head?_append_of_ne_nil _ (operatorTable_single.ne_nil op hop)] at hr
      simp [labelRune, operatorTable_single.operator op hop r (mem_of_head? hr)]
    | cons x g₁ =>
      obtain rfl := some.inj hr
      simp [labelRune, hg₁ _ mem_cons_self]
  have hopWord : ∀ t, ¬ StartsWord (op.logql ++ t) := by
    intro t
    refine not_startsWord_of_head fun r hr => ?_
    rw [head?_append_of_ne_nil _ (operatorTable_single.ne_nil op hop)] at hr
    have hoperator := operatorTable_single.operator op hop r (mem_of_head? hr)
    constructor <;> rintro rfl <;> cases hoperator
  have hlabel : Plain name := plain_iff.mpr ⟨hname.notMem rfl, hname.notMem rfl,
    hname.notMem rfl, hname.notMem rfl, hname.notMem rfl⟩
  have hoperator : Plain op.logql := plain_iff.mpr ⟨operator_plain hop rfl, operator_plain hop rfl,
    operator_plain hop rfl, operator_plain hop rfl, operator_plain hop rfl⟩
  refine ⟨⟨⟨⟨first, hhead _, hname.noSpace _ (mem_of_head? hfirst)⟩, ?_, ?_, ?_⟩, ?_, ?_⟩, ?_⟩
  · obtain ⟨r, hr, hspace⟩ := hvalue.last
    refine ⟨r, ?_, hspace⟩
    rw [← append_assoc, ← append_assoc, ← append_assoc,
      getLast?_append_of_ne_nil _ hvalue.ne_nil, hr]
  · exact hlabel.balanced.append ((balanced_of_isGap hg₁).append
      (hoperator.balanced.append ((balanced_of_isGap hg₂).append hvalue.balanced)))
  · intro t
    rw [append_assoc, append_assoc, append_assoc]
    exact not_startsWord_label hname hor hand (hbehind _)
  · intro cur t
    simp only [append_assoc]
    rw [splitParts_plain hlabel, splitParts_gap hg₁ (hopWord _), splitParts_plain hoperator,
      splitParts_gap hg₂ (hvalue.noWord t), hvalue.passed]
    simp
  · intro h
    exact absurd (some.inj ((hhead _).symm.trans h)) hopen
  · intro h
    exact hopen (some.inj ((hhead _).symm.trans h))

end Comparison

variable {s : Runes}

theorem CoreText.ne_nil (h : CoreText s) : s ≠ [] := by
  rintro rfl
  obtain ⟨r, hr, -⟩ := h.head
  cases hr

theorem CoreText.trimRunes {g₁ g₂ : Runes} (h : CoreText s) (hg₁ : IsGap g₁) (hg₂ : IsGap g₂) :
    trimRunes (g₁ ++ s ++ g₂) = s := by
  obtain ⟨first, hfirst, hfirstSpace⟩ := h.head
  obtain ⟨last, hlast, hlastSpace⟩ := h.last
  refine trimRunes_between hg₁ hg₂ (fun r hr => ?_) fun r hr => ?_
  · obtain rfl := some.inj (hfirst.symm.trans hr)
    exact hfirstSpace
  · obtain rfl := some.inj (hlast.symm.trans hr)
    exact hlastSpace

theorem outerClosed_open (s : Runes) :
    outerClosed none 0 (.point '(' :: s) = outerClosed none 1 s := by
  have hopen : Rune.point '(' ≠ .point ')' := by decide
  rw [outerClosed, if_neg fun h => hopen h.1]
  rfl

/-- A group is one part for the splitter. -/
theorem operandText_parens (hs : Balanced s) :
    OperandText (.point '(' :: (s ++ [.point ')'])) where
  head := ⟨_, rfl, rfl⟩
  last := ⟨.point ')', by rw [← cons_append, getLast?_concat], rfl⟩
  balanced := .parens hs .nil
  noWord t := not_startsWord_of_head (by rintro r ⟨⟩; decide)
  passed cur t := by
    rw [cons_append, append_assoc, singleton_append, splitParts_parens hs]
  leading _ t ht := by
    rw [cons_append, append_assoc, singleton_append, outerClosed_open,
      hs.outerClosed_append 0, outerClosed, if_pos ⟨rfl, rfl, ht⟩]

theorem balanced_connective (or : Bool) : Balanced (connective or) := by
  cases or with
  | false =>
    have htext : connective false = [.point 'a', .point 'n', .point 'd'] := by decide +kernel
    exact htext ▸ balanced_of_plain (by simp)
  | true =>
    have htext : connective true = [.point 'o', .point 'r'] := by decide +kernel
    exact htext ▸ balanced_of_plain (by simp)

/-- The text of a filter has no blanks at its ends, and an operand is one part. -/
theorem WritesFilter.text {u : UnicodeTables} {b : Bool} {e : FilterExpr} (h : WritesFilter u b e s) :
    CoreText s ∧ (b = true → OperandText s) := by
  induction h with
  | comparison h => exact ⟨h.text.1.toCoreText, fun _ => h.text.1⟩
  | @group e s g₁ g₂ hg₁ hg₂ _ ih =>
    have hinner : Balanced (g₁ ++ s ++ g₂) :=
      ((balanced_of_isGap hg₁).append ih.1.balanced).append (balanced_of_isGap hg₂)
    exact ⟨(operandText_parens hinner).toCoreText, fun _ => operandText_parens hinner⟩
  | operand _ ih => exact ⟨ih.1, nofun⟩
  | @join left right s t g₁ g₂ or hg₁ hg₂ _ _ ihs iht =>
    refine ⟨⟨?_, ?_, ?_, fun t => ?_⟩, nofun⟩
    · obtain ⟨r, hr, hspace⟩ := ihs.1.head
      exact ⟨r, by rw [head?_append_of_ne_nil _ ihs.1.ne_nil, hr], hspace⟩
    · obtain ⟨r, hr, hspace⟩ := iht.1.last
      refine ⟨r, ?_, hspace⟩
      have hsplit : s ++ (g₁ ++ .point ' ' :: (connective or ++ .point ' ' :: (g₂ ++ t))) =
          s ++ (g₁ ++ .point ' ' :: (connective or ++ .point ' ' :: g₂)) ++ t := by simp
      rw [hsplit, getLast?_append_of_ne_nil _ iht.1.ne_nil, hr]
    · have hspace : ∀ {s}, Balanced s → Balanced (.point ' ' :: s) := fun hs =>
        .plain rfl (fun _ => rfl) hs
      exact ihs.1.balanced.append ((balanced_of_isGap hg₁).append (hspace
        ((balanced_connective or).append (hspace ((balanced_of_isGap hg₂).append iht.1.balanced)))))
    · rw [append_assoc]
      exact ihs.1.noWord _

/-! ## What the translation means -/

namespace Alternatives

theorem holds_single (p : Row → Prop) : Holds [[p]] = p := by
  funext row
  simp [Holds]

end Alternatives

section Translation

variable {atom : Runes → (Row → Prop) → Prop} {single malformed : Runes → Option Runes}

variable {s g₁ g₂ : Runes} {e : FilterExpr}

theorem Means.ne_nil {alts : Alternatives} (h : Means atom s alts) : alts ≠ [] := by
  cases h <;> nofun

theorem FilterExpr.size_pos (e : FilterExpr) : 0 < e.size := by
  induction e with
  | comparison => exact Nat.one_pos
  | group => exact Nat.succ_pos _
  | join left or right ihl _ => exact Nat.add_pos_left ihl _

/-- One part of a chain. -/
def translatePart (single malformed : Runes → Option Runes) (fuel : Nat) (part : Runes) :
    Option Runes :=
  if (stripOuterParens part).isSome then some (translateLabelFilter single malformed fuel part)
  else single part

/-- More than the rounds that each operand of a chain takes. -/
def FilterExpr.partSize : FilterExpr → Nat
  | .join left _ right => max left.size right.partSize
  | e => e.size

theorem FilterExpr.partSize_le (e : FilterExpr) : e.partSize ≤ e.size := by
  induction e with
  | comparison | group => exact le_rfl
  | join left or right _ ihr =>
    exact max_le (Nat.le_add_right _ _) (ihr.trans (Nat.le_add_left _ _))

theorem FilterExpr.partSize_join (left : FilterExpr) (or : Bool) (right : FilterExpr) :
    (join left or right).partSize < (join left or right).size :=
  max_lt (Nat.lt_add_of_pos_right right.size_pos)
    (right.partSize_le.trans_lt (Nat.lt_add_of_pos_left left.size_pos))

variable (atom single malformed) in
/-- What the text of an expression is cut into and translated to. -/
structure Translated (holds : Runes → Row → Prop) (e : FilterExpr) (s : Runes) : Prop where
  parts : ∃ parts ops, (∀ cur g, IsGap cur → IsGap g →
      splitParts none 0 cur (s ++ g) = some (parts, ops)) ∧
    ∀ fuel, e.partSize ≤ fuel → ∃ items, parts.mapM (translatePart single malformed fuel) = some items ∧
      items ≠ [] ∧ Means atom (joinItems items ops) (e.alternatives holds)
  whole : ∀ fuel g₁ g₂, e.size ≤ fuel → IsGap g₁ → IsGap g₂ →
    Means atom (translateLabelFilter single malformed fuel (g₁ ++ s ++ g₂)) [[e.Holds holds]]

/-- An operand is split into itself. -/
theorem splitParts_operand (h : OperandText s) {cur g : Runes} (hcur : IsGap cur) (hg : IsGap g) :
    splitParts none 0 cur (s ++ g) = some ([s], []) := by
  have hend : splitParts none 0 (cur ++ s) g = splitParts none 0 (cur ++ s ++ g) [] := by
    have hnone : ¬ StartsWord [] := not_startsWord_of_head nofun
    simpa using splitParts_gap hg hnone 0 (cur ++ s)
  rw [h.passed, hend, splitParts, h.trimRunes hcur hg, if_neg (by simpa using h.ne_nil)]

/-- The parentheses of a group are stripped. -/
theorem stripOuterParens_parens {g₃ g₄ : Runes} (hs : CoreText s) (hg₁ : IsGap g₁) (hg₂ : IsGap g₂)
    (hg₃ : IsGap g₃) (hg₄ : IsGap g₄) :
    stripOuterParens (g₃ ++ .point '(' :: (g₁ ++ s ++ g₂ ++ [.point ')']) ++ g₄) = some s := by
  have hinner : Balanced (g₁ ++ s ++ g₂) :=
    ((balanced_of_isGap hg₁).append hs.balanced).append (balanced_of_isGap hg₂)
  have hclosed : outerClosed none 0 (.point '(' :: (g₁ ++ s ++ g₂ ++ [.point ')'])) = true := by
    rw [outerClosed_open, hinner.outerClosed_append 0]
    rfl
  rw [stripOuterParens, (operandText_parens hinner).trimRunes hg₃ hg₄]
  refine (if_pos ⟨getLast?_concat, hclosed⟩).trans ?_
  rw [dropLast_concat, hs.trimRunes hg₁ hg₂]

theorem stripOuterParens_of_head {s g₁ g₂ : Runes} (hs : CoreText s)
    (hhead : s.head? ≠ some (.point '(')) (hg₁ : IsGap g₁) (hg₂ : IsGap g₂) :
    stripOuterParens (g₁ ++ s ++ g₂) = none := by
  rw [stripOuterParens, hs.trimRunes hg₁ hg₂]
  split
  · exact absurd rfl hhead
  · rfl

/-- Where an operand is translated as a part, it is translated as a stage. -/
theorem translated_operand {holds : Runes → Row → Prop} {p : Row → Prop} (hs : OperandText s)
    (halts : e.alternatives holds = [[p]]) (hpart : ∀ fuel, e.partSize ≤ fuel →
      ∃ item, translatePart single malformed fuel s = some item ∧ Means atom item [[p]])
    (hwhole : ∀ fuel g₁ g₂, e.size ≤ fuel → IsGap g₁ → IsGap g₂ →
      Means atom (translateLabelFilter single malformed fuel (g₁ ++ s ++ g₂)) [[p]]) :
    Translated atom single malformed holds e s := by
  refine ⟨⟨[s], [], fun cur g hcur hg => splitParts_operand hs hcur hg, fun fuel hfuel => ?_⟩, ?_⟩
  · obtain ⟨item, hitem, hmeans⟩ := hpart fuel hfuel
    exact ⟨[item], by simp [hitem], nofun, halts ▸ hmeans⟩
  · have hholds : e.Holds holds = p := by
      rw [← Alternatives.holds_single p, ← halts]
      rfl
    exact hholds ▸ hwhole

open FilterExpr

/-- A group is translated when what stands in it is. -/
theorem translated_group {holds : Runes → Row → Prop} (hs : CoreText s) (hg₁ : IsGap g₁)
    (hg₂ : IsGap g₂) (h : Translated atom single malformed holds e s) :
    Translated atom single malformed holds (.group e) (.point '(' :: (g₁ ++ s ++ g₂ ++ [.point ')'])) := by
  have hinner : Balanced (g₁ ++ s ++ g₂) :=
    ((balanced_of_isGap hg₁).append hs.balanced).append (balanced_of_isGap hg₂)
  have hwhole : ∀ fuel g₃ g₄, (group e).size ≤ fuel → IsGap g₃ → IsGap g₄ →
      Means atom (translateLabelFilter single malformed fuel
        (g₃ ++ .point '(' :: (g₁ ++ s ++ g₂ ++ [.point ')']) ++ g₄)) [[e.Holds holds]] := by
    intro fuel g₃ g₄ hfuel hg₃ hg₄
    obtain ⟨fuel, rfl⟩ : ∃ n, fuel = n + 1 := ⟨fuel - 1, by have := (group e).size_pos; omega⟩
    have hbody := h.whole fuel [] [] (Nat.le_of_succ_le_succ hfuel) isGap_nil isGap_nil
    rw [nil_append, append_nil] at hbody
    rw [translateLabelFilter, stripOuterParens_parens hs hg₁ hg₂ hg₃ hg₄]
    dsimp only
    split
    · exact hbody
    · have hgroup := Means.group hbody
      rwa [Alternatives.holds_single] at hgroup
  refine translated_operand (operandText_parens hinner) rfl (fun fuel hfuel => ?_) hwhole
  have hself := hwhole fuel [] [] hfuel isGap_nil isGap_nil
  have hstrip := stripOuterParens_parens hs hg₁ hg₂ isGap_nil isGap_nil
  rw [nil_append, append_nil] at hself hstrip
  exact ⟨_, if_pos (by rw [hstrip]; rfl), hself⟩

theorem splitParts_stage {result : List Runes × List Runes} (hs : CoreText s)
    (h : ∀ cur g, IsGap cur → IsGap g → splitParts none 0 cur (s ++ g) = some result)
    (hg₁ : IsGap g₁) (hg₂ : IsGap g₂) : splitParts none 0 [] (g₁ ++ s ++ g₂) = some result := by
  rw [append_assoc, splitParts_gap hg₁ (hs.noWord g₂), nil_append, h g₁ g₂ hg₁ hg₂]

variable {u : UnicodeTables}

/-- A comparison is translated by the translator of single comparisons. -/
theorem translated_comparison {holds : Runes → Row → Prop}
    (hsingle : ∀ g₁ g₂, IsGap g₁ → IsGap g₂ →
      ∃ out, single (g₁ ++ s ++ g₂) = some out ∧ atom out (holds s))
    (hs : IsComparison u s) : Translated atom single malformed holds (.comparison s) s := by
  obtain ⟨htext, hhead⟩ := hs.text
  refine translated_operand htext rfl (fun fuel _ => ?_) fun fuel g₁ g₂ hfuel hg₁ hg₂ => ?_
  · obtain ⟨out, hout, hatom⟩ := hsingle [] [] isGap_nil isGap_nil
    have hstrip := stripOuterParens_of_head htext.toCoreText hhead isGap_nil isGap_nil
    rw [nil_append, append_nil] at hout hstrip
    refine ⟨out, ?_, .single hatom⟩
    rw [translatePart, hstrip]
    exact hout
  · obtain ⟨out, hout, hatom⟩ := hsingle g₁ g₂ hg₁ hg₂
    obtain ⟨fuel, rfl⟩ : ∃ n, fuel = n + 1 := ⟨fuel - 1, (Nat.succ_pred_eq_of_pos hfuel).symm⟩
    have hsplit := splitParts_stage htext.toCoreText
      (fun cur g hcur hg => splitParts_operand htext hcur hg) hg₁ hg₂
    have hone : splitLogicalStage (g₁ ++ s ++ g₂) = none := by
      rw [splitLogicalStage, hsplit]
      rfl
    rw [translateLabelFilter, stripOuterParens_of_head htext.toCoreText hhead hg₁ hg₂, hone, hout]
    exact .single hatom

/-- The splitter cuts at a connective with a space on each side. -/
theorem splitParts_connective (or : Bool) (cur s : Runes) :
    splitParts none 0 cur (.point ' ' :: (connective or ++ .point ' ' :: s)) =
      flushPart cur (connective or) (splitParts none 0 [] s) := by
  cases or <;> rfl

/-- Two joined operands have no outer parentheses. -/
theorem stripOuterParens_join {t : Runes} (hs : OperandText s) (ht : t ≠ [])
    (hst : CoreText (s ++ t)) (hg₁ : IsGap g₁) (hg₂ : IsGap g₂) :
    stripOuterParens (g₁ ++ (s ++ t) ++ g₂) = none := by
  rcases eq_or_ne s.head? (some (.point '(')) with hhead | hhead
  · rw [stripOuterParens, hst.trimRunes hg₁ hg₂]
    split
    next rest hrest =>
      rw [hs.leading hhead t ht]
      exact if_neg fun h => nomatch h.2
    next => rfl
  · refine stripOuterParens_of_head hst ?_ hg₁ hg₂
    rwa [head?_append_of_ne_nil _ hs.ne_nil]

/-- A joined filter is translated when its operands are. -/
theorem translated_join {holds : Runes → Row → Prop} {left right : FilterExpr} {t : Runes}
    (or : Bool) (hg₁ : IsGap g₁) (hg₂ : IsGap g₂) {p : Row → Prop}
    (halts : left.alternatives holds = [[p]]) (hs : OperandText s) (ht : CoreText t)
    (hst : CoreText (s ++ (g₁ ++ .point ' ' :: (connective or ++ .point ' ' :: (g₂ ++ t)))))
    (hpart : ∀ fuel, left.size ≤ fuel →
      ∃ item, translatePart single malformed fuel s = some item ∧ Means atom item [[p]])
    (hright : Translated atom single malformed holds right t) :
    Translated atom single malformed holds (.join left or right)
      (s ++ (g₁ ++ .point ' ' :: (connective or ++ .point ' ' :: (g₂ ++ t)))) := by
  obtain ⟨parts, ops, hsplit, hitems⟩ := hright.parts
  have hcut : ∀ cur g, IsGap cur → IsGap g → splitParts none 0 cur
      (s ++ (g₁ ++ .point ' ' :: (connective or ++ .point ' ' :: (g₂ ++ t))) ++ g) =
      some (s :: parts, connective or :: ops) := by
    intro cur g hcur hg
    have hspace : ∀ s, ¬ StartsWord (.point ' ' :: s) := fun s =>
      not_startsWord_of_head (by rintro r ⟨⟩; decide)
    simp only [append_assoc, cons_append]
    rw [hs.passed, splitParts_gap hg₁ (hspace _), splitParts_connective, flushPart,
      hs.trimRunes hcur hg₁, if_neg (by simpa using hs.ne_nil), splitParts_gap hg₂ (ht.noWord g),
      nil_append, hsplit g₂ g hg₂ hg]
    rfl
  have hmeans : ∀ fuel, (join left or right).partSize ≤ fuel →
      ∃ items, (s :: parts).mapM (translatePart single malformed fuel) = some items ∧ items ≠ [] ∧
        Means atom (joinItems items (connective or :: ops))
          ((join left or right).alternatives holds) := by
    intro fuel hfuel
    obtain ⟨item, hitem, hmeansItem⟩ := hpart fuel ((le_max_left _ _).trans hfuel)
    obtain ⟨items, hmap, hne, hmeansItems⟩ := hitems fuel ((le_max_right _ _).trans hfuel)
    refine ⟨item :: items, by simp [hitem, hmap], nofun, ?_⟩
    obtain ⟨next, items, rfl⟩ := exists_cons_of_ne_nil hne
    cases or with
    | true =>
      rw [alternatives, halts]
      exact .or hmeansItem hmeansItems
    | false =>
      obtain ⟨run, more, hrun⟩ := exists_cons_of_ne_nil hmeansItems.ne_nil
      rw [alternatives, halts, hrun]
      exact .and hmeansItem (hrun ▸ hmeansItems)
  refine ⟨⟨s :: parts, connective or :: ops, hcut, hmeans⟩, fun fuel g₃ g₄ hfuel hg₃ hg₄ => ?_⟩
  obtain ⟨fuel, rfl⟩ : ∃ n, fuel = n + 1 :=
    ⟨fuel - 1, by have := (join left or right).size_pos; omega⟩
  obtain ⟨items, hmap, hne, hjoined⟩ := hmeans fuel
    (Nat.le_of_lt_succ ((partSize_join left or right).trans_le hfuel))
  have hmore : parts ≠ [] := by
    rintro rfl
    obtain ⟨items, hmap, hne, -⟩ := hitems _ le_rfl
    exact hne (by simpa using hmap.symm)
  have hstage : splitLogicalStage (g₃ ++
      (s ++ (g₁ ++ .point ' ' :: (connective or ++ .point ' ' :: (g₂ ++ t)))) ++ g₄) =
      some (s :: parts, connective or :: ops) := by
    rw [splitLogicalStage, splitParts_stage hst hcut hg₃ hg₄]
    exact if_pos (Nat.lt_add_of_pos_left (length_pos_iff.mpr hmore))
  have hchain : (s :: parts).mapM (fun part => if (stripOuterParens part).isSome then
      some (translateLabelFilter single malformed fuel part) else single part) = some items := hmap
  rw [translateLabelFilter, stripOuterParens_join hs (by simp) hst hg₃ hg₄, hstage]
  dsimp only [bind, Option.bind]
  rw [hchain]
  exact .group hjoined

theorem Translated.part {holds : Runes → Row → Prop}
    (h : Translated atom single malformed holds e s) (hs : OperandText s) (fuel : Nat)
    (hfuel : e.partSize ≤ fuel) :
    ∃ item, translatePart single malformed fuel s = some item ∧
      Means atom item (e.alternatives holds) := by
  obtain ⟨parts, ops, hsplit, hitems⟩ := h.parts
  obtain ⟨rfl, rfl⟩ := Prod.mk.inj (some.inj
    ((hsplit [] [] isGap_nil isGap_nil).symm.trans (splitParts_operand hs isGap_nil isGap_nil)))
  obtain ⟨items, hmap, -, hmeans⟩ := hitems fuel hfuel
  cases hitem : translatePart single malformed fuel s with
  | none => simp [hitem] at hmap
  | some item =>
    obtain rfl : [item] = items := by simpa [hitem] using hmap
    exact ⟨item, rfl, hmeans⟩

/-- The alternatives of an operand are one condition. -/
theorem WritesFilter.operand_expr (h : WritesFilter u true e s)
    (holds : Runes → Row → Prop) : e.partSize = e.size ∧ ∃ p, e.alternatives holds = [[p]] := by
  cases h with
  | comparison | group => exact ⟨rfl, _, rfl⟩

theorem WritesFilter.size_le {b : Bool} (h : WritesFilter u b e s) :
    e.size ≤ s.length := by
  induction h with
  | comparison h => exact length_pos_iff.mpr h.text.1.ne_nil
  | group hg₁ hg₂ hs ih | join or hg₁ hg₂ hs ht ihs iht =>
    simp only [size, length_cons, length_append]
    omega
  | operand _ ih => exact ih

/-- Every written filter is translated to a filter with its meaning, by induction on how it is
written. -/
theorem WritesFilter.translated {holds : Runes → Row → Prop} {b : Bool} (h : WritesFilter u b e s)
    (hsingle : ∀ c ∈ e.comparisons, ∀ g₁ g₂, IsGap g₁ → IsGap g₂ →
      ∃ out, single (g₁ ++ c ++ g₂) = some out ∧ atom out (holds c)) :
    Translated atom single malformed holds e s := by
  induction h with
  | comparison h => exact translated_comparison (hsingle _ mem_cons_self) h
  | group hg₁ hg₂ hs ih => exact translated_group hs.text.1 hg₁ hg₂ (ih hsingle)
  | operand _ ih => exact ih hsingle
  | join or hg₁ hg₂ hs ht ihs iht =>
    obtain ⟨hsize, p, halts⟩ := hs.operand_expr holds
    have hleft := ihs fun c hc => hsingle c (mem_append_left _ hc)
    refine translated_join or hg₁ hg₂ halts (hs.text.2 rfl) ht.text.1
      (WritesFilter.join or hg₁ hg₂ hs ht).text.1 (fun fuel hfuel => ?_)
      (iht fun c hc => hsingle c (mem_append_right _ hc))
    rw [← halts]
    exact hleft.part (hs.text.2 rfl) fuel (hsize.trans_le hfuel)

/-- A label filter without commas, with a space on both sides of every word and closed literals,
is translated to a filter that passes the same rows, when its comparisons are. -/
theorem label_filter_structure_kept {u : UnicodeTables} {holds : Runes → Row → Prop}
    {e : FilterExpr} {s g₁ g₂ : Runes}
    (hsingle : ∀ c ∈ e.comparisons, ∀ g₁ g₂, IsGap g₁ → IsGap g₂ →
      ∃ out, single (g₁ ++ c ++ g₂) = some out ∧ atom out (holds c))
    (hs : WritesFilter u false e s) (hg₁ : IsGap g₁) (hg₂ : IsGap g₂) :
    Means atom (translateLabelFilter single malformed (g₁ ++ s ++ g₂).length (g₁ ++ s ++ g₂))
      [[e.Holds holds]] := by
  refine (hs.translated hsingle).whole _ g₁ g₂ (hs.size_le.trans ?_) hg₁ hg₂
  simp only [length_append]
  omega

end Translation

/-- `status="or"`. -/
def statusOr : Runes := literal "status" ++ (.point '=' :: .point '"' :: (literal "or" ++ [.point '"']))

theorem isComparison_statusOr : IsComparison asciiTables statusOr := by
  have hop : (⟨literal "=", .exact, false, false, false⟩ : MatcherOp) ∈ logqlSingleFilterOps := by
    decide +kernel
  exact .mk isLabel_status (by decide +kernel) (by decide +kernel) hop isGap_nil isGap_nil
    (.quoted rfl (by decide +kernel))

/-- The repository's translator reads the comparison as it stands, with any gaps around it. -/
theorem single_statusOr (ip : Runes → Runes → FieldFilter) {g₁ g₂ : Runes} (hg₁ : IsGap g₁)
    (hg₂ : IsGap g₂) :
    ∃ out, translateSingleLabelFilter asciiTables ip (g₁ ++ statusOr ++ g₂) = some out ∧
      Reads out ⟨literal "status", .exact, literal "or", false⟩ := by
  have hwrites : WritesMatcher asciiTables logqlSingleFilterOps (literal "status")
      ⟨literal "=", .exact, false, false, false⟩ (literal "or")
      (g₁ ++ literal "status" ++ [] ++ literal "=" ++ ([] ++ literal "\"or\"" ++ g₂)) :=
    .mk g₁ [] [] g₂ _ hg₁ isGap_nil isGap_nil hg₂ isLabel_status
      (.double (literal "or\"") rfl (by decide +kernel)) (by decide +kernel)
  have htext : statusOr = literal "status" ++ literal "=" ++ literal "\"or\"" := by decide +kernel
  simp only [append_nil, nil_append, append_assoc] at hwrites
  rw [htext]
  simp only [append_assoc]
  exact hwrites.single ip (by decide +kernel)

/-- `status="or" or (status="or")`, with one more space in every gap. -/
def statusOrTwice : Runes :=
  let gap := [.point ' ']
  statusOr ++ (gap ++ .point ' ' :: (connective true ++ .point ' ' ::
    (gap ++ .point '(' :: (gap ++ statusOr ++ gap ++ [.point ')']))))

theorem label_filter_structure_kept_statusOr :
    Means (fun out p => Reads out ⟨literal "status", .exact, literal "or", false⟩ ∧
        p = fun row => row (literal "status") = literal "or")
      (translateLabelFilter
        (translateSingleLabelFilter asciiTables fun _ _ => ⟨[], .any, [], false⟩) (fun _ => none)
        ([] ++ statusOrTwice ++ []).length ([] ++ statusOrTwice ++ []))
      [[(FilterExpr.join (.comparison statusOr) true (.group (.comparison statusOr))).Holds
        fun _ row => row (literal "status") = literal "or"]] := by
  have hoperand := WritesFilter.comparison isComparison_statusOr
  refine label_filter_structure_kept (fun c hc g₁ g₂ hg₁ hg₂ => ?_)
    (.join true isGap_space isGap_space hoperand
      (.operand (.group isGap_space isGap_space (.operand hoperand))))
    isGap_nil isGap_nil
  obtain rfl : c = statusOr := by simpa [FilterExpr.comparisons] using hc
  obtain ⟨out, hout, hreads⟩ := single_statusOr (fun _ _ => ⟨[], .any, [], false⟩) hg₁ hg₂
  exact ⟨out, hout, hreads, rfl⟩

/-- A comma joins nothing: the whole stage is one comparison with its first label.  A literal in
back quotes that ends in a backslash is read on. -/
theorem comma_and_backslash_not_cut :
    readFieldFilter (translateLabelFilter
        (translateSingleLabelFilter asciiTables fun _ _ => ⟨[], .any, [], false⟩) (fun _ => none) 20
        (literal "a=\"1\", b=\"2\"")) =
        some ⟨literal "a", .exact, literal "1\", b=\"2", false⟩ ∧
      splitLogicalStage (literal "a=\x60x\\\x60 or b=\"2\"") = none := by
  decide +kernel

end LokiVlProxy.Translator
